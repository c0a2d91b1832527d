import Pseudocode.Proofs.Program.Gap
import Pseudocode.Proofs.Render.Equals
import Pseudocode.Proofs.Render.Words
set_option autoImplicit false

/-!
# Where a sign is told apart

An expression with an assignment in a gap and the same expression with the comparison in its
place are written alike or not.  That depends on the spot of the gap, which follows from the
operators around it, and on the brackets that the two have there.
-/

namespace Pseudocode

/-! ## Two computations side by side -/

/-- Both computations have a result, and the two are related. -/
def Both {ε α β : Type} (R : α → β → Prop) (x : Except ε α) (y : Except ε β) : Prop :=
  ∃ a b, x = .ok a ∧ y = .ok b ∧ R a b

namespace Both

variable {ε α β γ δ : Type} {R : α → β → Prop} {S : γ → δ → Prop}

theorem ok {a : α} {b : β} (h : R a b) : Both R (.ok a : Except ε α) (.ok b) :=
  ⟨a, b, rfl, rfl, h⟩

theorem bind {x : Except ε α} {y : Except ε β} {f : α → Except ε γ} {g : β → Except ε δ}
    (h : Both R x y) (hf : ∀ a b, R a b → Both S (f a) (g b)) : Both S (x >>= f) (y >>= g) := by
  obtain ⟨a, b, rfl, rfl, hab⟩ := h
  exact hf a b hab

/-- The first step of both is the same. -/
theorem same {x : Except ε α} {f : α → Except ε γ} {g : α → Except ε δ} (h : Yields x)
    (hf : ∀ a, Both S (f a) (g a)) : Both S (x >>= f) (x >>= g) := by
  obtain ⟨a, rfl⟩ := h
  exact hf a

end Both

/-- Both texts can be written, and they are the same text just when `same` holds. -/
abbrev TellsApart (same : Prop) : Except RenderError String → Except RenderError String → Prop :=
  Both fun a b => a = b ↔ same

theorem Both.of_iff {same same' : Prop} {x y : Except RenderError String} (h : TellsApart same x y)
    (hsame : same ↔ same') : TellsApart same' x y := by
  rwa [propext hsame] at h

/-- What is written around the texts does not matter. -/
theorem Both.around {same : Prop} {x y : Except RenderError String} {f g : String → String}
    (h : TellsApart same x y) (hfg : ∀ a b, f a = g b ↔ a = b) :
    TellsApart same (x >>= fun a => .ok (f a)) (y >>= fun b => .ok (g b)) :=
  h.bind fun a b hab => .ok ((hfg a b).trans hab)

/-- The lists are the same but for one text. -/
def ListsApart (same : Prop) (as bs : List String) : Prop :=
  ∃ before a b behind, as = before ++ a :: behind ∧ bs = before ++ b :: behind ∧ (a = b ↔ same)

namespace Text

variable {before behind : List String} {a b : String}

theorem join_inj {separator : String} :
    join separator (before ++ a :: behind) = join separator (before ++ b :: behind) ↔ a = b := by
  induction before with
  | nil => cases behind <;> simp [join]
  | cons t before ih => cases before <;> simp_all [join]

theorem concat_map_inj {f : String → String} (hf : ∀ a b, f a = f b ↔ a = b) :
    concat ((before ++ a :: behind).map f) = concat ((before ++ b :: behind).map f) ↔ a = b := by
  induction before with
  | nil => simp [concat, hf]
  | cons t before ih => simpa [concat] using ih

theorem subscript_inj (a b : String) : subscript a = subscript b ↔ a = b := by
  simp [subscript]

end Text

/-- All but one of the expressions are the same. -/
theorem mapM_apart {s : Setting} {same : Prop} {slot : Slot} {before behind : List Expr}
    {e e' : Expr} (hbefore : ∀ d ∈ before, Yields (s.render slot d))
    (h : TellsApart same (s.render slot e) (s.render slot e'))
    (hbehind : ∀ d ∈ behind, Yields (s.render slot d)) :
    Both (ListsApart same) ((before ++ e :: behind).mapM (s.render slot))
      ((before ++ e' :: behind).mapM (s.render slot)) := by
  induction before with
  | nil =>
    simp only [List.nil_append, List.mapM_cons]
    refine h.bind fun a b hab => ?_
    exact .same (Yields.mapM hbehind) fun texts => .ok ⟨[], a, b, texts, rfl, rfl, hab⟩
  | cons d before ih =>
    simp only [List.cons_append, List.mapM_cons]
    refine .same (hbefore d List.mem_cons_self) fun text => ?_
    refine (ih fun d' hd' => hbefore d' (List.mem_cons_of_mem d hd')).bind ?_
    rintro _ _ ⟨front, a, b, texts, rfl, rfl, hab⟩
    exact .ok ⟨text :: front, a, b, texts, rfl, rfl, hab⟩

theorem Setting.renderAll_eq_mapM (s : Setting) (es : List Expr) :
    s.renderAll es = es.mapM (s.render .whole) := by
  induction es with
  | nil => rfl
  | cons e es ih => rw [renderAll_cons, ih, List.mapM_cons]

/-! ## Calls of methods -/

namespace Setting

variable {s : Setting}

theorem plainCall_receiver_inj (a b n : String) (args : List String) :
    plainCall a n args = plainCall b n args ↔ a = b := by
  simp [plainCall]

theorem plainCall_args_inj (text n a b : String) (before behind : List String) :
    plainCall text n (before ++ a :: behind) = plainCall text n (before ++ b :: behind) ↔
      a = b := by
  simp [plainCall, Text.bracketed, Text.join_inj]

/-- A removal by key does not end like one by position. -/
theorem removal_ne (a b k : String) :
    "remove " ++ a ++ Text.subscript k ≠ plainCall b "removeItemAt" [k] := by
  intro h
  have hlast : ("remove " ++ a ++ "[" ++ k).toList ++ [']'] =
      (b ++ "." ++ "removeItemAt" ++ "(" ++ k).toList ++ [')'] := by
    simpa [plainCall, Text.bracketed, Text.subscript] using congrArg String.toList h
  exact absurd (eq_of_concat hlast) (by decide)

/-- A receiver that is no variable shows in every call. -/
theorem methodText_receiver (hs : s.style ∈ Style.catalogue) {e e' : Expr}
    (he : Expr.variable? e = none) (he' : Expr.variable? e' = none) (a b n : String)
    (args : List String) :
    TellsApart (a = b) (s.methodText e a n args) (s.methodText e' b n args) := by
  have hkeyed : ∀ {e : Expr}, Expr.variable? e = none → ∀ text,
      s.isKeyed e text = Text.containsFolded "map" text := by
    intro e he text
    cases e with
    | name => cases he
    | _ => rfl
  unfold methodText
  cases hrule : s.style.methodRule? n args.length with
  | none => exact .ok (plainCall_receiver_inj ..)
  | some rule =>
    obtain ⟨key, htakes, harity⟩ := Style.takesAll_of_methodRule? hs hrule
    unfold MethodRule.takesAll at htakes
    dsimp only
    cases hform : rule.form with
    | passthrough => exact .ok (plainCall_receiver_inj ..)
    | rename => exact .ok (plainCall_receiver_inj ..)
    | length => exact .ok (by simp [Text.bracketed])
    | function => exact .ok (by cases args <;> simp [Text.bracketed, Text.join])
    | subscriptRead =>
      have hlength : 1 = args.length := harity 1 (by simpa [hform] using htakes)
      obtain ⟨k, rfl⟩ := List.length_eq_one_iff.mp hlength.symm
      exact .ok (by simp)
    | subscriptWrite =>
      have hlength : 2 = args.length := harity 2 (by simpa [hform] using htakes)
      rcases args with _ | ⟨k, _ | ⟨value, _ | _⟩⟩ <;> simp at hlength
      exact .ok (by simp)
    | remove =>
      cases args with
      | nil => exact .ok (plainCall_receiver_inj ..)
      | cons k args =>
        cases args with
        | nil =>
          dsimp only
          rw [hkeyed he, hkeyed he']
          cases ha : Text.containsFolded "map" a <;> cases hb : Text.containsFolded "map" b
          · exact .ok (plainCall_receiver_inj ..)
          · refine .ok (iff_of_false (removal_ne b a k).symm ?_)
            rintro rfl
            cases ha.symm.trans hb
          · refine .ok (iff_of_false (removal_ne a b k) ?_)
            rintro rfl
            cases ha.symm.trans hb
          · exact .ok (by simp)
        | cons k' args => exact .ok (plainCall_receiver_inj ..)
    | other form => simp [hform] at htakes

/-- An argument shows in every call. -/
theorem methodText_argument (hs : s.style ∈ Style.catalogue) (e : Expr) (text n a b : String)
    (before behind : List String) :
    TellsApart (a = b) (s.methodText e text n (before ++ a :: behind))
      (s.methodText e text n (before ++ b :: behind)) := by
  have hsame : (before ++ a :: behind).length = (before ++ b :: behind).length := by simp
  unfold methodText
  rw [← hsame]
  cases hrule : s.style.methodRule? n (before ++ a :: behind).length with
  | none => exact .ok (plainCall_args_inj ..)
  | some rule =>
    obtain ⟨key, htakes, harity⟩ := Style.takesAll_of_methodRule? hs hrule
    unfold MethodRule.takesAll at htakes
    dsimp only
    cases hform : rule.form with
    | passthrough => exact .ok (plainCall_args_inj ..)
    | rename => exact .ok (plainCall_args_inj ..)
    | length =>
      have hlength := harity 0 (by simpa [hform] using htakes)
      simp at hlength
    | function =>
      have hjoin : Text.join ", " (text :: before ++ a :: behind) =
          Text.join ", " (text :: before ++ b :: behind) ↔ a = b := Text.join_inj
      exact .ok (by simpa [Text.bracketed] using hjoin)
    | subscriptRead =>
      have hlength := harity 1 (by simpa [hform] using htakes)
      obtain ⟨rfl, rfl⟩ : before = [] ∧ behind = [] := by
        simp only [List.length_append, List.length_cons] at hlength
        exact ⟨List.length_eq_zero_iff.mp (by omega), List.length_eq_zero_iff.mp (by omega)⟩
      exact .ok (by simp [Text.subscript])
    | subscriptWrite =>
      have hlength := harity 2 (by simpa [hform] using htakes)
      cases before with
      | nil =>
        obtain ⟨c, rfl⟩ : ∃ c, behind = [c] := List.length_eq_one_iff.mp (by simp at hlength; omega)
        exact .ok (by simp [Text.subscript])
      | cons c before =>
        obtain ⟨rfl, rfl⟩ : before = [] ∧ behind = [] := by
          simp only [List.length_append, List.length_cons] at hlength
          exact ⟨List.length_eq_zero_iff.mp (by omega), List.length_eq_zero_iff.mp (by omega)⟩
        exact .ok (by simp)
    | remove =>
      cases before with
      | nil =>
        cases behind with
        | nil =>
          simp only [List.nil_append]
          cases s.isKeyed e text
          · exact .ok (plainCall_args_inj text _ a b [] [])
          · exact .ok (by simp [Text.subscript])
        | cons c behind => exact .ok (plainCall_args_inj text _ a b [] (c :: behind))
      | cons c before =>
        cases before with
        | nil => exact .ok (plainCall_args_inj text _ a b [c] behind)
        | cons c' before => exact .ok (plainCall_args_inj text _ a b (c :: c' :: before) behind)
    | other form => simp [hform] at htakes

end Setting

/-! ## A sign in a gap -/

/-- One sign `=` between a target and a value.  Read as a test for equality it takes only a part
of the value where the `depth` operators at the left edge of the value are as loose as the test. -/
structure Sign where
  pos : Pos
  target : Expr
  value : Expr
  depth : Nat
  isTarget : target.isTarget = true
  isLoose : value.IsLoose depth

namespace Sign

/-- The sign as an assignment. -/
def assigned (x : Sign) : Expr :=
  .assign x.pos x.target .set x.value

/-- The sign as a test for equality. -/
def compared (x : Sign) : Expr :=
  x.target.compared x.depth x.value

/-- In the given slot, the brackets round the assignment and round the comparison agree, and so do
those inside. -/
def alike (x : Sign) (style : Style) (slot : Slot) : Bool :=
  style.wraps slot x.assigned == style.wraps slot x.compared && !x.value.isInputCall &&
    style.agrees x.target x.depth .value x.value

theorem compared_eq (x : Sign) : ∃ op l r, x.compared = .binary x.target.pos op l r ∧
    op.precedence ≤ BinaryOp.eq.precedence := by
  obtain ⟨p, t, v, depth, -, hloose⟩ := x
  cases depth with
  | zero => exact ⟨.eq, t, v, rfl, Nat.le_refl _⟩
  | succ depth =>
    cases v with
    | binary q op l r => exact ⟨op, t.compared depth l, r, rfl, hloose.1⟩
    | _ => exact hloose.elim

theorem compared_wellFormed {x : Sign} {V : Vocabulary} (h : x.assigned.WellFormed V) :
    x.compared.WellFormed V :=
  Expr.compared_wellFormed h.2.1 h.2.2.2 x.isLoose

end Sign

namespace Expr.Gap

variable {V : Vocabulary} {x : Sign} {gap : Gap}

theorem fill_compared_wellFormed (h : (gap.fill x.assigned).WellFormed V) :
    (gap.fill x.compared).WellFormed V :=
  fill_wellFormed rfl (Sign.compared_wellFormed (wellFormed_of_fill h)) h

/-- With the comparison in the gap a chain has as many operands, or more than one still, unless
the comparison itself goes on with the chain. -/
theorem chainLength_fill (op : BinaryOp) (gap : Gap) :
    (gap.fill x.assigned).chainLength op = (gap.fill x.compared).chainLength op ∨
      1 < (gap.fill x.assigned).chainLength op ∧ 1 < (gap.fill x.compared).chainLength op ∨
      gap = .here ∧ 1 < x.compared.chainLength op := by
  cases gap with
  | here =>
    have hpos := chainLength_pos op x.compared
    by_cases h : x.compared.chainLength op = 1
    · exact .inl h.symm
    · exact .inr (.inr ⟨rfl, by omega⟩)
  | left p op' gap r | right p op' l gap =>
    by_cases h : op' = op
    · subst h
      exact .inr (.inl ⟨one_lt_chainLength .., one_lt_chainLength ..⟩)
    · exact .inl (by rw [fill, fill, chainLength_other h, chainLength_other h])
  | item listing before gap behind => cases listing <;> exact .inl rfl
  | _ => exact .inl rfl

/-- A filled gap is no variable. -/
theorem no_variable_assigned (gap : Gap) : Expr.variable? (gap.fill x.assigned) = none := by
  cases gap with
  | item listing before gap behind => cases listing <;> rfl
  | _ => rfl

theorem no_variable_compared (gap : Gap) : Expr.variable? (gap.fill x.compared) = none := by
  cases gap with
  | here =>
    obtain ⟨op, l, r, h, -⟩ := x.compared_eq
    rw [fill, h]
    rfl
  | item listing before gap behind => cases listing <;> rfl
  | _ => rfl

/-- Reading input is told by the names of the methods alone. -/
theorem isInputCall_fill (gap : Gap) :
    (gap.fill x.assigned).isInputCall = (gap.fill x.compared).isInputCall := by
  have hreceiver : ∀ {e : Expr}, Expr.variable? e = none → ∀ p n args,
      (Expr.methodCall p e n args).isInputCall = (n == "charAt" && e.isInputCall) := by
    intro e he p n args
    cases e with
    | name => cases he
    | _ => simp [isInputCall]
  induction gap with
  | here =>
    obtain ⟨op, l, r, h, -⟩ := x.compared_eq
    rw [fill, fill, h]
    rfl
  | receiver p gap n args ih =>
    rw [fill, fill, hreceiver (no_variable_assigned gap), hreceiver (no_variable_compared gap), ih]
  | item listing before gap behind => cases listing <;> rfl
  | _ => rfl

end Expr.Gap

/-- Where a sign stands, as far as its text depends on that.

- `written`: in a slot, with the brackets that it asks for.
- `enclosed`: next to brackets and commas of a call, a subscript, an array or the like, before an
  operator that changes by one, or between two words of a counting header.
- `negated`: as a test that is written the other way round.
- `counted`: as the test or the update that a counting header is worked out from; `same` says
  whether that makes no difference to the header.
- `unwritten`: in an expression of which nothing is written. -/
inductive Spot where
  | written (slot : Slot)
  | enclosed
  | negated
  | counted (same : Bool)
  | unwritten
  deriving DecidableEq, Repr, Inhabited

namespace Spot

/-- An expression at the spot is written in one slot. -/
def isSlot : Spot → Bool
  | .written _ | .enclosed => true
  | _ => false

/-- The slot of an expression at the spot. -/
def toSlot : Spot → Slot
  | .written slot => slot
  | _ => .whole

/-- Whether the assignment and the comparison are written alike at the spot.  Of an enclosed spot
nothing is said. -/
def alike? (style : Style) (x : Sign) : Spot → Option Bool
  | .written slot => some (x.alike style slot)
  | .negated => some (!x.compared.isRelational && x.alike style .prefixed)
  | .counted same => some same
  | .unwritten => some true
  | .enclosed => none

end Spot

/-- The spot of a gap that `e` is in, in an expression at the spot `outer`. -/
def Expr.Gap.spot (style : Style) (e : Expr) : Expr.Gap → (outer : Spot) → Spot
  | .here, outer => outer
  | .item _ _ gap _, _ => gap.spot style e .enclosed
  | .base _ gap _, _ => gap.spot style e (.written .receiver)
  | .receiver _ gap _ _, _ => gap.spot style e (.written .receiver)
  | .field _ gap _, _ => gap.spot style e (.written .receiver)
  | .length _ gap, _ => gap.spot style e .enclosed
  | .operand _ _ gap, _ => gap.spot style e (.written .prefixed)
  | .changed _ _ gap, _ => gap.spot style e .enclosed
  | .left p op gap r, outer =>
    gap.spot style e (.written (style.leftSlot outer.toSlot op (.binary p op (gap.fill e) r)))
  | .right p op l gap, outer =>
    gap.spot style e (.written (style.rightSlot outer.toSlot op (.binary p op l (gap.fill e))))
  | .target _ gap _ _, _ => gap.spot style e .enclosed
  | .value _ _ op gap, _ =>
    match op.applied? with
    | some applied => gap.spot style e (.written (.right applied))
    | none => if (gap.fill e).isInputCall then .unwritten else gap.spot style e (.written .value)

namespace Setting

variable {s : Setting} {V : Vocabulary} {x : Sign}

theorem tells_of_chars {same : Prop} {slot slot' : Slot} {e e' : Expr} (he : s.Renders e)
    (he' : s.Renders e') (h : s.chars slot e = s.chars slot' e' ↔ same) :
    TellsApart same (s.render slot e) (s.render slot' e') := by
  rw [he.render, he'.render]
  exact .ok (by rw [String.ofList_inj, h])

theorem chars_of_tells {same : Prop} {slot slot' : Slot} {e e' : Expr}
    (h : TellsApart same (s.render slot e) (s.render slot' e')) :
    s.chars slot e = s.chars slot' e' ↔ same := by
  obtain ⟨a, b, ha, hb, hab⟩ := h
  rw [chars_of_render ha, chars_of_render hb, String.toList_inj, hab]

/-- The gap itself. -/
theorem render_sign (hs : s.style ∈ Style.catalogue) (hx : x.assigned.WellFormed V) {slot : Slot}
    (hslot : slot.fits x.compared = true) :
    TellsApart (x.alike s.style slot = true) (s.render slot x.assigned)
      (s.render slot x.compared) := by
  refine tells_of_chars (renders_of_wellFormed hs hx)
    (renders_of_wellFormed hs (Sign.compared_wellFormed hx)) ?_
  have hsign := chars_sign_iff hs hx.2.1 x.isTarget hx.2.2.2 x.isLoose (q := x.pos) hslot
  refine hsign.trans ?_
  simp [Sign.alike, Sign.assigned, Sign.compared, and_assoc]

/-- The slots of the operands do not depend on the operands but by way of the chain. -/
theorem slots_eq {style : Style} {slot : Slot} {p q : Pos} {op : BinaryOp} {l l' r r' : Expr}
    (h : op.isLogical = true → style.linkWraps slot op (.binary p op l r) =
      style.linkWraps slot op (.binary q op l' r')) :
    style.leftSlot slot op (.binary q op l' r') = style.leftSlot slot op (.binary p op l r) ∧
      style.rightSlot slot op (.binary q op l' r') =
        style.rightSlot slot op (.binary p op l r) := by
  unfold Style.leftSlot Style.rightSlot
  cases hop : op.isLogical with
  | false => exact ⟨rfl, rfl⟩
  | true => rw [h hop]; exact ⟨rfl, rfl⟩

/-- Operands in the same slots. -/
theorem render_sides (hs : s.style ∈ Style.catalogue) {same : Prop} {slot : Slot} {p : Pos}
    {op : BinaryOp} {l l' r r' : Expr} (he : (Expr.binary p op l r).WellFormed V)
    (he' : (Expr.binary p op l' r').WellFormed V)
    (hlink : op.isLogical = true → s.style.linkWraps slot op (.binary p op l r) =
      s.style.linkWraps slot op (.binary p op l' r'))
    (h : s.chars (s.style.leftSlot slot op (.binary p op l r)) l ++ (s.style.spaced op ++
        s.chars (s.style.rightSlot slot op (.binary p op l r)) r) =
      s.chars (s.style.leftSlot slot op (.binary p op l r)) l' ++ (s.style.spaced op ++
        s.chars (s.style.rightSlot slot op (.binary p op l r)) r') ↔ same) :
    TellsApart same (s.render slot (.binary p op l r)) (s.render slot (.binary p op l' r')) := by
  obtain ⟨hleft, hright⟩ := slots_eq hlink
  refine tells_of_chars (renders_of_wellFormed hs he) (renders_of_wellFormed hs he') ?_
  rw [chars_binary (renders_of_wellFormed hs he.2.1) (renders_of_wellFormed hs he.2.2),
    chars_binary (renders_of_wellFormed hs he'.2.1) (renders_of_wellFormed hs he'.2.2), hleft,
    hright, s.style.wraps_binary slot op p p l' r' l r, enclosed_inj]
  exact h

/-! ### A comparison that goes on with a chain -/

/-- The comparison in a gap on one side, with `k` operands of `||` on the other one, changes nothing
about the chain around, unless it goes on with a chain of `||` that has two operands. -/
theorem linkWraps_fill (hs : s.style ∈ Style.catalogue) {slot : Slot} {p : Pos} {op : BinaryOp}
    {gap : Expr.Gap} {l l' r r' : Expr} {k : Nat} (hk : 1 ≤ k)
    (hassigned : l.chainLength .or + r.chainLength .or =
      (gap.fill x.assigned).chainLength .or + k)
    (hcompared : l'.chainLength .or + r'.chainLength .or =
      (gap.fill x.compared).chainLength .or + k)
    (hfits : slot.fits (.binary p op l r) = true)
    (hfits' : slot.fits (.binary p op l' r') = true) :
    (op.isLogical = true → s.style.linkWraps slot op (.binary p op l r) =
        s.style.linkWraps slot op (.binary p op l' r')) ∨
      op = .or ∧ gap = .here ∧ 1 < x.compared.chainLength .or ∧ k = 1 ∧
        s.style.linkWraps slot op (.binary p op l r) = true ∧
        s.style.linkWraps slot op (.binary p op l' r') = false := by
  cases hop : op.isLogical with
  | false => exact .inl (by simp)
  | true =>
    rcases Style.linkWraps_cases hs hop hfits hfits' with h | ⟨rfl, h⟩
    · exact .inl fun _ => h
    · rw [Expr.chainLength_self, Expr.chainLength_self, hassigned, hcompared] at h
      rcases Expr.Gap.chainLength_fill .or gap (x := x) with hsame | hlong | ⟨rfl, hlong⟩
      · omega
      · omega
      · have hone : (Expr.Gap.here.fill x.assigned).chainLength .or = 1 := rfl
        have hlong' : 1 < (Expr.Gap.here.fill x.compared).chainLength .or := hlong
        rcases h with ⟨htwo, -, htrue, hfalse⟩ | ⟨-, htwo, -⟩
        · exact .inr ⟨rfl, rfl, hlong, by omega, htrue, hfalse⟩
        · omega

/-- A comparison that is a chain of `||` itself. -/
theorem exists_of_chainLength (h : 1 < x.compared.chainLength .or) :
    ∃ p l r depth, x.value = .binary p .or l r ∧ x.depth = depth + 1 := by
  obtain ⟨q, t, v, depth, _, hloose⟩ := x
  cases depth with
  | zero => simp [Sign.compared, Expr.compared, Expr.chainLength] at h
  | succ depth =>
    cases v with
    | binary p op l r =>
      by_cases hop : op = .or
      · subst hop
        exact ⟨p, l, r, depth, rfl, rfl⟩
      · simp [Sign.compared, Expr.compared, Expr.chainLength, hop] at h
    | _ => exact hloose.elim

theorem chars_merged_ne (hs : s.style ∈ Style.catalogue) (hx : x.assigned.WellFormed V)
    (h : 1 < x.compared.chainLength .or) (cs ds : List Char) :
    cs ++ s.chars (.link .or true) x.assigned ≠ ds ++ s.chars (.link .or false) x.compared := by
  obtain ⟨p, l, r, depth, hvalue, hdepth⟩ := exists_of_chainLength h
  have hv := hx.2.2.2
  have hloose := x.isLoose
  rw [hvalue] at hv
  rw [hvalue, hdepth] at hloose
  rw [Sign.assigned, Sign.compared, hvalue, hdepth]
  exact chars_linked_ne hs hx.2.1 hv hloose.2 (.inr ⟨rfl, rfl⟩) cs ds

theorem alike_merged (h : 1 < x.compared.chainLength .or) :
    x.alike s.style (.link .or true) = false := by
  obtain ⟨p, l, r, depth, hvalue, hdepth⟩ := exists_of_chainLength h
  simp [Sign.alike, Sign.assigned, Sign.compared, hvalue, hdepth, Expr.compared, Style.wraps,
    Expr.isAssign, Expr.isRelational, BinaryOp.isRelational, Expr.isLooserChain]

/-- A comparison on the left of `||` that makes a longer chain. -/
theorem render_merged_left (hs : s.style ∈ Style.catalogue) (hx : x.assigned.WellFormed V)
    (h : 1 < x.compared.chainLength .or) {slot : Slot} {p : Pos} {r : Expr} (hr : r.WellFormed V)
    (hone : r.chainLength .or = 1)
    (htrue : s.style.linkWraps slot .or (.binary p .or x.assigned r) = true)
    (hfalse : s.style.linkWraps slot .or (.binary p .or x.compared r) = false) :
    TellsApart (x.alike s.style (.link .or true) = true)
      (s.render slot (.binary p .or x.assigned r))
      (s.render slot (.binary p .or x.compared r)) := by
  have hx' := Sign.compared_wellFormed hx
  have he : (Expr.binary p .or x.assigned r).WellFormed V := ⟨by decide, hx, hr⟩
  have he' : (Expr.binary p .or x.compared r).WellFormed V := ⟨by decide, hx', hr⟩
  have hrrenders := renders_of_wellFormed hs hr
  refine tells_of_chars (renders_of_wellFormed hs he) (renders_of_wellFormed hs he') ?_
  refine iff_of_false ?_ (by simp [alike_merged h])
  rw [chars_binary (renders_of_wellFormed hs hx) hrrenders,
    chars_binary (renders_of_wellFormed hs hx') hrrenders,
    s.style.wraps_binary slot .or p p x.compared r x.assigned r, enclosed_inj]
  simp only [Style.leftSlot, Style.rightSlot, BinaryOp.isLogical, if_true, htrue, hfalse]
  intro heq
  rcases chars_link_or_true hs hr hone with hsame | hbrackets
  · rw [hsame] at heq
    exact chars_merged_ne hs hx h [] [] (List.append_cancel_right heq)
  · rw [hbrackets] at heq
    obtain ⟨hclose, hlong⟩ := Style.spaced_of_mem hs (by decide : BinaryOp.or ∈ BinaryOp.all)
    have hcount := count_le_of_behind heq (by simp; omega) (by simp; omega) hclose
    simp at hcount

/-- A comparison on the right of `||` that makes a longer chain. -/
theorem render_merged_right (hs : s.style ∈ Style.catalogue) (hx : x.assigned.WellFormed V)
    (h : 1 < x.compared.chainLength .or) {slot : Slot} {p : Pos} {l : Expr} (hl : l.WellFormed V)
    (htrue : s.style.linkWraps slot .or (.binary p .or l x.assigned) = true)
    (hfalse : s.style.linkWraps slot .or (.binary p .or l x.compared) = false) :
    TellsApart (x.alike s.style (.link .or true) = true)
      (s.render slot (.binary p .or l x.assigned))
      (s.render slot (.binary p .or l x.compared)) := by
  have hx' := Sign.compared_wellFormed hx
  have he : (Expr.binary p .or l x.assigned).WellFormed V := ⟨by decide, hl, hx⟩
  have he' : (Expr.binary p .or l x.compared).WellFormed V := ⟨by decide, hl, hx'⟩
  have hlrenders := renders_of_wellFormed hs hl
  refine tells_of_chars (renders_of_wellFormed hs he) (renders_of_wellFormed hs he') ?_
  refine iff_of_false ?_ (by simp [alike_merged h])
  rw [chars_binary hlrenders (renders_of_wellFormed hs hx),
    chars_binary hlrenders (renders_of_wellFormed hs hx'),
    s.style.wraps_binary slot .or p p l x.compared l x.assigned, enclosed_inj,
    ← List.append_assoc, ← List.append_assoc]
  simp only [Style.leftSlot, Style.rightSlot, BinaryOp.isLogical, if_true, htrue, hfalse]
  exact chars_merged_ne hs hx h _ _

/-! ### The gap and what is around it -/

theorem place_inj {slot : Slot} {e e' : Expr} (h : s.style.wraps slot e = s.style.wraps slot e')
    (a b : String) : s.style.place slot e a = s.style.place slot e' b ↔ a = b := by
  unfold Style.place
  rw [h]
  cases s.style.wraps slot e' <;> simp [Text.bracketed]

/-- A text that is written twice. -/
theorem twice_inj (a b sign behind : String) :
    a ++ sign ++ a ++ behind = b ++ sign ++ b ++ behind ↔ a = b := by
  refine ⟨fun h => ?_, fun h => by rw [h]⟩
  have hlists := congrArg String.toList h
  have hlength := congrArg List.length hlists
  simp only [String.toList_append, List.append_assoc, List.length_append] at hlists hlength
  exact String.toList_inj.mp (List.append_inj_left hlists (by omega))

theorem render_target {t : Expr} (h : s.Renders t) (ht : t.isTarget = true) (slot : Slot) :
    s.render slot t = s.render .whole t := by
  rw [h.render, h.render, h.chars_target ht]

/-- A gap in a list. -/
theorem render_item (hs : s.style ∈ Style.catalogue) {same : Prop} {slot : Slot}
    {listing : Expr.Listing} {before behind : List Expr} {e e' : Expr}
    (he : (listing.of (before ++ e :: behind)).WellFormed V)
    (h : TellsApart same (s.render .whole e) (s.render .whole e')) :
    TellsApart same (s.render slot (listing.of (before ++ e :: behind)))
      (s.render slot (listing.of (before ++ e' :: behind))) := by
  have hyields : ∀ {d : Expr}, d.WellFormed V → ∀ slot, Yields (s.render slot d) :=
    fun hd slot => render_yields (Style.isSound_of_mem hs) hd slot
  have hitems : Expr.AllWellFormed V (before ++ e :: behind) →
      Both (ListsApart same) (s.renderAll (before ++ e :: behind))
        (s.renderAll (before ++ e' :: behind)) := by
    intro hall
    have hall := Expr.allWellFormed_iff.mp hall
    rw [renderAll_eq_mapM, renderAll_eq_mapM]
    exact mapM_apart (fun d hd => hyields (hall d (by simp [hd])) .whole) h
      fun d hd => hyields (hall d (by simp [hd])) .whole
  cases listing with
  | index p base =>
    refine (hitems he.2.2).bind ?_
    rintro _ _ ⟨front, a, b, texts, rfl, rfl, hab⟩
    refine .same (hyields he.1 .receiver) fun text => .ok ?_
    rw [String.append_right_inj, Text.concat_map_inj Text.subscript_inj, hab]
  | call p n | newObject p typeName =>
    refine (hitems he.2).bind ?_
    rintro _ _ ⟨front, a, b, texts, rfl, rfl, hab⟩
    exact .ok (by simp [Text.bracketed, Text.join_inj, hab])
  | methodCall p receiver n =>
    refine .same (hyields he.1 .receiver) fun text => ?_
    refine (hitems he.2.2).bind ?_
    rintro _ _ ⟨front, a, b, texts, rfl, rfl, hab⟩
    exact (methodText_argument hs receiver text n a b front texts).of_iff hab
  | newArray p elementType =>
    refine (hitems he.2.2).bind ?_
    rintro _ _ ⟨front, a, b, texts, rfl, rfl, hab⟩
    refine .ok ?_
    rw [String.append_right_inj, Text.concat_map_inj Text.subscript_inj, hab]
  | arrayLiteral p =>
    refine (hitems he).bind ?_
    rintro _ _ ⟨front, a, b, texts, rfl, rfl, hab⟩
    exact .ok (by simp [Text.subscript, Text.join_inj, hab])

/-- A gap in what is assigned to. -/
theorem render_assigned_to (hs : s.style ∈ Style.catalogue) {same : Prop} {slot : Slot} {p : Pos}
    {t t' v : Expr} {op : AssignOp} (he : (Expr.assign p t op v).WellFormed V)
    (ht' : t'.WellFormed V) (htarget' : t'.isTarget = true)
    (h : TellsApart same (s.render .whole t) (s.render .whole t')) :
    TellsApart same (s.render slot (.assign p t op v)) (s.render slot (.assign p t' op v)) := by
  obtain ⟨htarget, ht, hop, hv⟩ := he
  have hwraps : s.style.wraps slot (.assign p t op v) = s.style.wraps slot (.assign p t' op v) := by
    cases slot <;> rfl
  have hvalue : ∀ slot, Yields (s.render slot v) :=
    fun slot => render_yields (Style.isSound_of_mem hs) hv slot
  have hagain := render_target (renders_of_wellFormed hs ht) htarget
  have hagain' := render_target (renders_of_wellFormed hs ht') htarget'
  obtain ⟨a, b, ha, hb, hab⟩ := h
  have htwice : ∀ applied, TellsApart same
      (do
        let left ← s.render (.left applied) t
        let right ← s.render (.right applied) v
        return s.style.place slot (.assign p t op v)
          (a ++ " = " ++ left ++ " " ++ s.style.operator applied ++ " " ++ right))
      (do
        let left ← s.render (.left applied) t'
        let right ← s.render (.right applied) v
        return s.style.place slot (.assign p t' op v)
          (b ++ " = " ++ left ++ " " ++ s.style.operator applied ++ " " ++ right)) := by
    intro applied
    rw [hagain, hagain', ha, hb]
    refine .same (hvalue (.right applied)) fun right => .ok ?_
    rw [place_inj hwraps, ← hab,
      ← twice_inj a b " = " (" " ++ s.style.operator applied ++ " " ++ right)]
    simp [String.append_assoc]
  rw [render, render, ha, hb]
  cases op with
  | set =>
    dsimp only [bind, Except.bind]
    rw [if_pos rfl, if_pos rfl]
    cases v.isInputCall with
    | true => exact .ok (by rw [place_inj hwraps, String.append_right_inj, hab])
    | false =>
      refine .same (hvalue .value) fun text => .ok ?_
      rw [place_inj hwraps, String.append_left_inj, String.append_left_inj, hab]
  | other symbol => simp [AssignOp.all] at hop
  | _ => exact htwice _

/-- A gap in what is assigned. -/
theorem render_set (hs : s.style ∈ Style.catalogue) {same : Prop} {slot : Slot} {p : Pos}
    {t v v' : Expr} (ht : t.WellFormed V) (hinput : v.isInputCall = false)
    (hinput' : v'.isInputCall = false)
    (h : TellsApart same (s.render .value v) (s.render .value v')) :
    TellsApart same (s.render slot (.assign p t .set v)) (s.render slot (.assign p t .set v')) := by
  have hwraps : s.style.wraps slot (.assign p t .set v) =
      s.style.wraps slot (.assign p t .set v') := by
    cases slot <;> rfl
  rw [render, render]
  refine .same (render_yields (Style.isSound_of_mem hs) ht .whole) fun goal => ?_
  rw [if_pos rfl, if_pos rfl, hinput, hinput']
  exact h.around fun a b => by rw [place_inj hwraps, String.append_right_inj]

/-- What is read as input is not written. -/
theorem render_input (hs : s.style ∈ Style.catalogue) {slot : Slot} {p : Pos}
    {t v v' : Expr} (ht : t.WellFormed V) (hinput : v.isInputCall = true)
    (hinput' : v'.isInputCall = true) :
    TellsApart True (s.render slot (.assign p t .set v)) (s.render slot (.assign p t .set v')) := by
  have hwraps : s.style.wraps slot (.assign p t .set v) =
      s.style.wraps slot (.assign p t .set v') := by
    cases slot <;> rfl
  rw [render, render]
  refine .same (render_yields (Style.isSound_of_mem hs) ht .whole) fun goal => ?_
  rw [if_pos rfl, if_pos rfl, hinput, hinput']
  exact .ok (by simp [place_inj hwraps])

/-- A gap in the operand of a compound assignment. -/
theorem render_compound (hs : s.style ∈ Style.catalogue) {same : Prop} {slot : Slot} {p : Pos}
    {t v v' : Expr} {op : AssignOp} {applied : BinaryOp} (ht : t.WellFormed V)
    (hop : op.applied? = some applied)
    (h : TellsApart same (s.render (.right applied) v) (s.render (.right applied) v')) :
    TellsApart same (s.render slot (.assign p t op v)) (s.render slot (.assign p t op v')) := by
  have hwraps : s.style.wraps slot (.assign p t op v) = s.style.wraps slot (.assign p t op v') := by
    cases slot <;> rfl
  have hset : op ≠ .set := by
    rintro rfl
    cases hop
  rw [render, render]
  refine .same (render_yields (Style.isSound_of_mem hs) ht .whole) fun goal => ?_
  rw [if_neg hset, if_neg hset, hop]
  refine .same (render_yields (Style.isSound_of_mem hs) ht (.left applied)) fun left => ?_
  exact h.around fun a b => by rw [place_inj hwraps, String.append_right_inj]

/-- An expression with the assignment in the gap and the one with the comparison have the same text
just when the two are alike at the spot of the gap. -/
theorem render_fill (hs : s.style ∈ Style.catalogue) (gap : Expr.Gap) :
    ∀ (outer : Spot), outer.isSlot = true → (gap.fill x.assigned).WellFormed V →
      outer.toSlot.fits (gap.fill x.assigned) = true →
      outer.toSlot.fits (gap.fill x.compared) = true →
      ∀ same ∈ (gap.spot s.style x.assigned outer).alike? s.style x,
        TellsApart (same = true) (s.render outer.toSlot (gap.fill x.assigned))
          (s.render outer.toSlot (gap.fill x.compared)) := by
  have hyields : ∀ {d : Expr}, d.WellFormed V → ∀ slot, Yields (s.render slot d) :=
    fun hd slot => render_yields (Style.isSound_of_mem hs) hd slot
  induction gap with
  | here =>
    intro outer houter he _ hfits same hsame
    cases outer with
    | written slot =>
      obtain rfl := Option.some.inj hsame
      exact render_sign hs he hfits
    | enclosed => cases hsame
    | _ => cases houter
  | item listing before gap behind ih =>
    intro outer _ he _ _ same hsame
    exact render_item hs he (ih .enclosed rfl
      (Expr.Listing.wellFormed_of_mem he _ (by simp)) rfl rfl same hsame)
  | base p gap indices ih =>
    intro outer _ he _ _ same hsame
    have hindices := Expr.allWellFormed_iff.mp he.2.2
    refine .same (renderAll_yields fun d hd => hyields (hindices d hd) .whole) fun subscripts => ?_
    exact (ih (.written .receiver) rfl he.1 rfl rfl same hsame).around fun a b =>
      String.append_left_inj _
  | receiver p gap n args ih =>
    intro outer _ he _ _ same hsame
    have hargs := Expr.allWellFormed_iff.mp he.2.2
    refine (ih (.written .receiver) rfl he.1 rfl rfl same hsame).bind fun a b hab => ?_
    refine .same (renderAll_yields fun d hd => hyields (hargs d hd) .whole) fun texts => ?_
    have hcall := methodText_receiver hs (gap.no_variable_assigned (x := x))
      (gap.no_variable_compared (x := x)) a b n texts
    exact hcall.of_iff hab
  | field p gap n ih =>
    intro outer _ he _ _ same hsame
    exact (ih (.written .receiver) rfl he.1 rfl rfl same hsame).around fun a b => by simp
  | length p gap ih =>
    intro outer _ he _ _ same hsame
    exact (ih .enclosed rfl he rfl rfl same hsame).around fun a b => by simp [Text.bracketed]
  | operand p op gap ih =>
    intro outer _ he _ _ same hsame
    refine (ih (.written .prefixed) rfl he.2 rfl rfl same hsame).around fun a b => ?_
    rw [place_inj (by cases outer.toSlot <;> rfl)]
    cases op <;> simp
  | changed p op gap ih =>
    intro outer _ he _ _ same hsame
    refine (ih .enclosed rfl he.2 rfl rfl same hsame).around fun a b => ?_
    rw [place_inj (by cases outer.toSlot <;> rfl)]
    simp
  | left p op gap r ih =>
    intro outer _ he hfits hfits' same hsame
    have hl := he.2.1
    have hl' := Expr.Gap.fill_compared_wellFormed hl
    have he' : (Expr.binary p op (gap.fill x.compared) r).WellFormed V := ⟨he.1, hl', he.2.2⟩
    rcases linkWraps_fill hs (Expr.chainLength_pos .or r) rfl rfl hfits hfits' with
      hlink | ⟨rfl, rfl, hlong, hone, htrue, hfalse⟩
    · have hinner := Style.fits_leftSlot hs hfits'
      rw [(slots_eq hlink).1] at hinner
      refine render_sides hs he he' hlink ?_
      rw [List.append_left_inj]
      exact chars_of_tells (ih (.written _) rfl hl (Style.fits_leftSlot hs hfits) hinner same hsame)
    · have hmerged := render_merged_left hs hl hlong he.2.2 hone htrue hfalse
      rw [Expr.Gap.spot, Style.leftSlot_logical rfl, htrue] at hsame
      obtain rfl := Option.some.inj hsame
      exact hmerged
  | right p op l gap ih =>
    intro outer _ he hfits hfits' same hsame
    have hr := he.2.2
    have hr' := Expr.Gap.fill_compared_wellFormed hr
    have he' : (Expr.binary p op l (gap.fill x.compared)).WellFormed V := ⟨he.1, he.2.1, hr'⟩
    rcases linkWraps_fill hs (Expr.chainLength_pos .or l) (Nat.add_comm _ _) (Nat.add_comm _ _)
      hfits hfits' with hlink | ⟨rfl, rfl, hlong, -, htrue, hfalse⟩
    · have hinner := Style.fits_rightSlot hs hfits'
      rw [(slots_eq hlink).2] at hinner
      refine render_sides hs he he' hlink ?_
      rw [List.append_right_inj, List.append_right_inj]
      exact chars_of_tells
        (ih (.written _) rfl hr (Style.fits_rightSlot hs hfits) hinner same hsame)
    · have hmerged := render_merged_right hs hr hlong he.2.1 htrue hfalse
      rw [Expr.Gap.spot, Style.rightSlot_logical rfl, htrue] at hsame
      obtain rfl := Option.some.inj hsame
      exact hmerged
  | target p gap op v ih =>
    intro outer _ he _ _ same hsame
    exact render_assigned_to hs he (Expr.Gap.fill_compared_wellFormed he.2.1)
      (Expr.Gap.isTarget_fill rfl he.1) (ih .enclosed rfl he.2.1 rfl rfl same hsame)
  | value p t op gap ih =>
    intro outer _ he _ _ same hsame
    rw [Expr.Gap.spot] at hsame
    cases hop : op.applied? with
    | some applied =>
      rw [hop] at hsame
      exact render_compound hs he.2.1 hop
        (ih (.written (.right applied)) rfl he.2.2.2 rfl rfl same hsame)
    | none =>
      obtain rfl : op = .set := by
        have hall := he.2.2.1
        cases op with
        | set => rfl
        | other symbol => simp [AssignOp.all] at hall
        | _ => cases hop
      rw [hop] at hsame
      have hinput := gap.isInputCall_fill (x := x)
      cases hread : (gap.fill x.assigned).isInputCall with
      | true =>
        simp only [hread, if_true] at hsame
        obtain rfl := Option.some.inj hsame
        exact (render_input hs he.2.1 hread (hinput ▸ hread)).of_iff (by simp)
      | false =>
        simp only [hread] at hsame
        exact render_set hs he.2.1 hread (hinput ▸ hread)
          (ih (.written .value) rfl he.2.2.2 rfl rfl same hsame)

end Setting

end Pseudocode
