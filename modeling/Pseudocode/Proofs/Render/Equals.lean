import Pseudocode.Proofs.Render.Brackets
import Pseudocode.Proofs.Render.Total
set_option autoImplicit false

/-!
# One sign for two operators

An assignment and a test for equality are both written with the sign `=`.
-/

namespace Pseudocode

/-! ## Characters of an expression -/

/-- The characters, in round brackets if `wrapped`. -/
def enclosed (wrapped : Bool) (cs : List Char) : List Char :=
  if wrapped then '(' :: (cs ++ [')']) else cs

@[simp] theorem enclosed_false (cs : List Char) : enclosed false cs = cs := rfl

@[simp] theorem enclosed_true (cs : List Char) : enclosed true cs = '(' :: (cs ++ [')']) := rfl

theorem enclosed_inj {wrapped : Bool} {cs ds : List Char} :
    enclosed wrapped cs = enclosed wrapped ds ↔ cs = ds := by
  cases wrapped <;> simp

theorem length_enclosed (wrapped : Bool) (cs : List Char) :
    (enclosed wrapped cs).length = cs.length + 2 * wrapped.toNat := by
  cases wrapped <;> simp

theorem count_enclosed {x : Char} (hopen : x ≠ '(') (hclose : x ≠ ')') (wrapped : Bool)
    (cs : List Char) : (enclosed wrapped cs).count x = cs.count x := by
  cases wrapped <;> simp [hopen.symm, hclose.symm]

namespace Style

theorem toList_place (style : Style) (slot : Slot) (e : Expr) (text : String) :
    (style.place slot e text).toList = enclosed (style.wraps slot e) text.toList := by
  unfold place
  cases style.wraps slot e <;> simp [Text.bracketed]

/-- An operator with the blanks around it. -/
def spaced (style : Style) (op : BinaryOp) : List Char :=
  ' ' :: ((style.operator op).toList ++ [' '])

theorem spaced_eq (style : Style) : style.spaced .eq = [' ', '=', ' '] := by
  simp [spaced, operator]

theorem spaced_of_mem {style : Style} (h : style ∈ catalogue) {op : BinaryOp}
    (hop : op ∈ BinaryOp.all) : ')' ∉ style.spaced op ∧ 3 ≤ (style.spaced op).length := by
  have hall : ∀ style ∈ catalogue, ∀ op ∈ BinaryOp.all,
      ')' ∉ style.spaced op ∧ 3 ≤ (style.spaced op).length := by decide
  exact hall style h op hop

theorem input_of_mem {style : Style} (h : style ∈ catalogue) :
    '=' ∉ style.keywords.input.toList := by
  have hall : ∀ style ∈ catalogue, '=' ∉ style.keywords.input.toList := by decide
  exact hall style h

end Style

namespace Setting

variable {s : Setting} {slot : Slot} {e e' l r t v : Expr}

/-- The characters of an expression in its slot. -/
def chars (s : Setting) (slot : Slot) (e : Expr) : List Char :=
  match s.render slot e with
  | .ok text => text.toList
  | .error _ => []

/-- The expression can be rendered in every slot. -/
def Renders (s : Setting) (e : Expr) : Prop :=
  ∀ slot, Yields (s.render slot e)

theorem chars_of_render {text : String} (h : s.render slot e = .ok text) :
    s.chars slot e = text.toList := by
  rw [chars, h]

theorem Renders.render (h : s.Renders e) (slot : Slot) :
    s.render slot e = .ok (String.ofList (s.chars slot e)) := by
  obtain ⟨text, htext⟩ := h slot
  rw [htext, chars_of_render htext, String.ofList_toList]

theorem chars_binary {p : Pos} {op : BinaryOp} (hl : s.Renders l) (hr : s.Renders r) :
    s.chars slot (.binary p op l r) =
      enclosed (s.style.wraps slot (.binary p op l r))
        (s.chars (s.style.leftSlot slot op (.binary p op l r)) l ++ (s.style.spaced op ++
          s.chars (s.style.rightSlot slot op (.binary p op l r)) r)) := by
  have hrender := s.render_operands slot p op l r
  rw [hl.render, hr.render] at hrender
  rw [chars_of_render hrender, Style.toList_place]
  simp [Style.spaced]

theorem chars_assign {p : Pos} (ht : s.Renders t) (hv : s.Renders v)
    (hinput : v.isInputCall = false) :
    s.chars slot (.assign p t .set v) =
      enclosed (s.style.wraps slot (.assign p t .set v))
        (s.chars .whole t ++ ([' ', '=', ' '] ++ s.chars .value v)) := by
  have hrender : s.render slot (.assign p t .set v) = .ok (s.style.place slot (.assign p t .set v)
      (String.ofList (s.chars .whole t) ++ " = " ++ String.ofList (s.chars .value v))) := by
    rw [render, ht.render, hv.render, hinput]
    rfl
  rw [chars_of_render hrender, Style.toList_place]
  simp

theorem chars_input {p : Pos} (ht : s.Renders t) (hinput : v.isInputCall = true) :
    s.chars slot (.assign p t .set v) =
      enclosed (s.style.wraps slot (.assign p t .set v))
        (s.style.keywords.input.toList ++ ' ' :: s.chars .whole t) := by
  have hrender : s.render slot (.assign p t .set v) = .ok (s.style.place slot (.assign p t .set v)
      (s.style.keywords.input ++ " " ++ String.ofList (s.chars .whole t))) := by
    rw [render, ht.render, hinput]
    rfl
  rw [chars_of_render hrender, Style.toList_place]
  simp

/-- Unless an expression goes on with a chain, its slot decides about nothing but the
brackets round it. -/
theorem render_eq_place (s : Setting) (h : slot.continues e = false) :
    s.render slot e = (s.render .whole e).map (s.style.place slot e) := by
  have hoperand : e.isOperand = true → s.render slot e = s.render .whole e →
      s.render slot e = (s.render .whole e).map (s.style.place slot e) := by
    intro hoperand hsame
    have hplace : s.style.place slot e = id := by
      funext text
      rw [Style.place, Style.wraps_operand hoperand]
      rfl
    rw [hsame, hplace]
    cases s.render .whole e <;> rfl
  cases e with
  | binary p op l r =>
    cases hop : op.isLogical with
    | true =>
      rw [render_logical s slot p hop, render_logical s .whole p hop, Style.linkWraps_eq h]
      dsimp only
      generalize s.style.linkWraps .whole op (.binary p op l r) = w
      cases s.render (.link op w) l with
      | error _ => rfl
      | ok left => cases s.render (.link op w) r <;> rfl
    | false =>
      rw [render_binary s slot p hop, render_binary s .whole p hop]
      cases s.render (.left op) l with
      | error _ => rfl
      | ok left => cases s.render (.right op) r <;> rfl
  | unary p op operand =>
    rw [render, render]
    cases s.render .prefixed operand <;> rfl
  | update p op operand =>
    rw [render, render]
    cases s.render .whole operand <;> rfl
  | assign p target op value =>
    rw [render, render]
    cases s.render .whole target with
    | error _ => rfl
    | ok goal =>
      cases op with
      | set =>
        dsimp only [bind, Except.bind]
        rw [if_pos rfl, if_pos rfl]
        split
        · rfl
        · cases s.render .value value <;> rfl
      | other symbol => rfl
      | _ =>
        dsimp only [bind, Except.bind, AssignOp.applied?]
        rw [if_neg (by simp), if_neg (by simp)]
        split
        · rfl
        · cases s.render (.right _) value <;> rfl
  | _ => exact hoperand rfl rfl

theorem Renders.chars_eq (h : s.Renders e) (hslot : slot.continues e = false) :
    s.chars slot e = enclosed (s.style.wraps slot e) (s.chars .whole e) := by
  have hrender := s.render_eq_place hslot
  rw [h.render .whole] at hrender
  rw [chars_of_render hrender, Style.toList_place, String.toList_ofList]

/-- What can be assigned to is written in one way only. -/
theorem Renders.chars_target (h : s.Renders t) (ht : t.isTarget = true) (slot : Slot) :
    s.chars slot t = s.chars .whole t := by
  have hoperand : t.isOperand = true := by cases t <;> first | rfl | cases ht
  have hslot : slot.continues t = false := by
    cases t <;> first | (cases slot <;> rfl) | cases ht
  rw [h.chars_eq hslot, Style.wraps_operand hoperand, enclosed_false]

theorem renders_of_wellFormed (hs : s.style ∈ Style.catalogue) {V : Vocabulary}
    (he : e.WellFormed V) : s.Renders e :=
  fun slot => render_yields (Style.isSound_of_mem hs) he slot

end Setting

/-! ## The comparison in place of the assignment -/

namespace Expr

/-- The expression that takes the place of `t = v` when the sign is read as a test for equality.
The test takes the first operand of `v` only, where the first `depth` operators on its left edge
are looser than the test or as loose: of `t = a && b` it makes `(t == a) && b`. -/
def compared (t : Expr) : (depth : Nat) → Expr → Expr
  | 0, v => .binary t.pos .eq t v
  | depth + 1, .binary _ op l r => .binary t.pos op (compared t depth l) r
  | _ + 1, v => v

/-- At least `depth` operators on the left edge of an expression are as loose as a test for
equality. -/
def IsLoose : (depth : Nat) → Expr → Prop
  | 0, _ => True
  | depth + 1, .binary _ op l _ => op.precedence ≤ BinaryOp.eq.precedence ∧ l.IsLoose depth
  | _ + 1, _ => False

end Expr

/-- The brackets in and round `v`, in its slot behind the sign `=`, agree with those that it has
as an operand of the test for equality with `t`. -/
def Style.agrees (style : Style) (t : Expr) : (depth : Nat) → Slot → Expr → Bool
  | 0, slot, v => style.wraps slot v == style.wraps (.right .eq) v
  | depth + 1, slot, .binary p op l r =>
    let inner := style.leftSlot slot op (.binary p op l r)
    !style.wraps slot (.binary p op l r) && !style.wraps inner (Expr.compared t depth l) &&
      style.agrees t depth inner l
  | _ + 1, _, _ => false

/-! ## Brackets round parts of a text -/

section Text

variable {cs ds T X : List Char} {a b c d : Bool}

theorem eq_of_concat {x y : Char} (h : cs ++ [x] = ds ++ [y]) : x = y := by
  have hlast := congrArg List.getLast? h
  simpa using hlast

/-- Brackets that open behind a sign do not open before it. -/
theorem sign_enclosed_iff (i : Nat) :
    T ++ ([' ', '=', ' '] ++ (List.replicate i '(' ++ enclosed b X)) =
        List.replicate i '(' ++ enclosed c (T ++ ([' ', '=', ' '] ++ enclosed d X)) ↔
      i = 0 ∧ c = false ∧ b = d := by
  constructor
  · intro h
    have hlength := congrArg List.length h
    simp only [List.length_append, List.length_replicate, length_enclosed] at hlength
    cases c with
    | false =>
      obtain rfl : b = d := by cases b <;> cases d <;> simp at hlength ⊢ <;> omega
      cases i with
      | zero => exact ⟨rfl, rfl, rfl⟩
      | succ i =>
        have hfront : (T ++ [' ', '=', ' '] ++ List.replicate i '(') ++ ['('] =
            (List.replicate (i + 1) '(' ++ T ++ [' ', '=']) ++ [' '] := by
          refine (List.append_left_inj (enclosed b X)).mp ?_
          simpa [List.replicate_succ'] using h
        exact absurd (eq_of_concat hfront) (by decide)
    | true =>
      obtain ⟨rfl, rfl⟩ : b = true ∧ d = false := by
        cases b <;> cases d <;> simp at hlength ⊢ <;> omega
      have hfront : (T ++ [' ', '=', ' '] ++ List.replicate i '(') ++ ['('] =
          (List.replicate i '(' ++ '(' :: (T ++ [' ', '='])) ++ [' '] := by
        refine (List.append_left_inj (X ++ [')'])).mp ?_
        simpa using h
      exact absurd (eq_of_concat hfront) (by decide)
  · rintro ⟨rfl, rfl, rfl⟩
    simp

/-- Brackets round an assignment and round its value can be told apart. -/
theorem enclosed_sign_iff :
    enclosed a (T ++ ([' ', '=', ' '] ++ enclosed b X)) =
        enclosed c (T ++ ([' ', '=', ' '] ++ enclosed d X)) ↔ a = c ∧ b = d := by
  have hfalse : ∀ b c d : Bool, T ++ ([' ', '=', ' '] ++ enclosed b X) =
      enclosed c (T ++ ([' ', '=', ' '] ++ enclosed d X)) ↔ c = false ∧ b = d := by
    intro b c d
    simpa using sign_enclosed_iff (T := T) (X := X) (b := b) (c := c) (d := d) 0
  cases a with
  | false => rw [enclosed_false, hfalse, eq_comm (a := c)]
  | true =>
    cases c with
    | false => rw [eq_comm, enclosed_false, hfalse, eq_comm (a := d)]
    | true =>
      rw [enclosed_inj, ← enclosed_false (_ ++ ([' ', '=', ' '] ++ enclosed d X)), hfalse]
      simp

/-- What stands behind the first operand is of no account. -/
theorem sign_operand_iff {A B Z : List Char} (i : Nat) :
    T ++ ([' ', '=', ' '] ++ (List.replicate i '(' ++ enclosed b (A ++ Z))) =
        List.replicate i '(' ++ enclosed b (B ++ Z) ↔
      T ++ ([' ', '=', ' '] ++ (List.replicate (i + b.toNat) '(' ++ A)) =
        List.replicate (i + b.toNat) '(' ++ B := by
  have hcancel : ∀ x y z : List Char, x ++ z = y ++ z ↔ x = y :=
    fun x y z => List.append_left_inj z
  cases b with
  | false =>
    refine Iff.trans ?_ (hcancel _ _ Z)
    simp
  | true =>
    refine Iff.trans ?_ (hcancel _ _ (Z ++ [')']))
    simp [List.replicate_succ']

/-- Closing brackets behind a text in brackets. -/
theorem enclosed_append_replicate (A Z : List Char) (j : Nat) :
    enclosed b (A ++ Z) ++ List.replicate j ')' =
      (if b then '(' :: A else A) ++ (Z ++ List.replicate (j + b.toNat) ')') := by
  cases b <;> simp [List.replicate_succ]

/-- A text that ends with one part behind a sign does not end with another one that is longer by
closing brackets, as long as it is not longer than the sign. -/
theorem count_le_of_behind {sign Y R : List Char} (h : cs ++ (sign ++ Y) = ds ++ (sign ++ R))
    (hle : R.length ≤ Y.length) (hsign : Y.length ≤ R.length + sign.length) (hclose : ')' ∉ sign) :
    Y.count ')' = R.count ')' := by
  have hsuffix : sign ++ R <:+ sign ++ Y := by
    have hbehind : sign ++ R <:+ cs ++ (sign ++ Y) := h ▸ List.suffix_append _ _
    exact List.suffix_of_suffix_length_le hbehind (List.suffix_append _ _) (by simpa using hle)
  obtain ⟨z, hz⟩ := hsuffix
  have hlength := congrArg List.length hz
  simp only [List.length_append] at hlength
  have hzsign : z <+: sign := by
    have hfront : z <+: sign ++ Y := hz ▸ List.prefix_append _ _
    exact List.prefix_of_prefix_length_le hfront (List.prefix_append _ _) (by omega)
  have hcount := congrArg (List.count ')') hz
  simp only [List.count_append, List.count_eq_zero_of_not_mem hclose,
    List.count_eq_zero_of_not_mem fun hmem => hclose (hzsign.subset hmem)] at hcount
  omega

end Text

/-! ## Chains of conditions -/

namespace Expr

variable {op op' : BinaryOp} {p q : Pos} {l r t v : Expr} {depth : Nat}

theorem chainLength_pos (op : BinaryOp) (e : Expr) : 0 < e.chainLength op := by
  fun_induction chainLength op e with
  | case1 _ _ _ _ hl => omega
  | case2 | case3 => omega

theorem chainLength_self :
    (binary p op l r).chainLength op = l.chainLength op + r.chainLength op := by
  simp [chainLength]

theorem chainLength_other (h : op' ≠ op) : (binary p op' l r).chainLength op = 1 := by
  simp [chainLength, h]

theorem one_lt_chainLength (p : Pos) (op : BinaryOp) (l r : Expr) :
    1 < (binary p op l r).chainLength op := by
  have hl := chainLength_pos op l
  have hr := chainLength_pos op r
  rw [chainLength_self]
  omega

theorem chainLength_eq_one (h : ∀ p l r, v ≠ .binary p op l r) : v.chainLength op = 1 := by
  cases v with
  | binary p op' l r => exact chainLength_other fun heq => h p l r (heq ▸ rfl)
  | _ => rfl

/-- With the comparison in place of the assignment a chain has as many operands, or more than one
still, unless the comparison takes the chain as a whole. -/
theorem chainLength_compared (hop : op.isLogical = true) (h : v.IsLoose depth) :
    (t.compared depth v).chainLength op = v.chainLength op ∨
      1 < (t.compared depth v).chainLength op ∧ 1 < v.chainLength op ∨
      depth = 0 ∧ ∃ q a b, v = .binary q op a b := by
  have heq : BinaryOp.eq ≠ op := by rintro rfl; cases hop
  cases depth with
  | zero =>
    by_cases hv : ∃ q a b, v = .binary q op a b
    · exact .inr (.inr ⟨rfl, hv⟩)
    · refine .inl ?_
      rw [compared, chainLength_other heq, chainLength_eq_one]
      intro q a b hvq
      exact hv ⟨q, a, b, hvq⟩
  | succ depth =>
    cases v with
    | binary q op' a b =>
      by_cases hop' : op' = op
      · subst hop'
        exact .inr (.inl ⟨one_lt_chainLength .., one_lt_chainLength ..⟩)
      · rw [compared, chainLength_other hop', chainLength_other hop']
        exact .inl rfl
    | _ => exact h.elim

end Expr

/-- The slot does not put comparisons into brackets if the expression goes on with a chain of
`||`, which has more than two operands then, and it does if the chain is one of `&&`. -/
def Slot.fits : Slot → Expr → Bool
  | .link op w, .binary _ op' _ _ => op' != op || op == .and && w || op == .or && !w
  | _, _ => true

namespace Style

variable {style : Style} {slot : Slot} {op : BinaryOp} {p q : Pos} {l r l' r' t : Expr}

theorem wraps_binary (style : Style) (slot : Slot) (op : BinaryOp) (p q : Pos)
    (l r l' r' : Expr) :
    style.wraps slot (.binary p op l r) = style.wraps slot (.binary q op l' r') := by
  cases slot <;> rfl

/-- A chain of conditions is put into brackets next to a comparison. -/
theorem wraps_right_logical (style : Style) (p : Pos) (l r : Expr) (hop : op.isLogical = true) :
    style.wraps (.right .eq) (.binary p op l r) = true := by
  cases op with
  | and | or => simp [wraps, wrapsOperand, Expr.outerOp?, BinaryOp.precedence]
  | _ => cases hop

theorem wrapRelationalInLogical_of_mem (h : style ∈ catalogue) :
    style.wrapRelationalInLogical = true := by
  have hall : ∀ style ∈ catalogue, style.wrapRelationalInLogical = true := by decide
  exact hall style h

/-- Going on with a chain, an expression has no brackets, but next to a comparison it has. -/
theorem wraps_of_continues (style : Style) {e : Expr} (hslot : slot.fits e = true)
    (hcontinues : slot.continues e = true) :
    style.wraps slot e = false ∧ style.wraps (.right .eq) e = true := by
  cases slot with
  | link op w =>
    cases e with
    | binary p op' l r =>
      obtain rfl : op' = op := by simpa [Slot.continues] using hcontinues
      have hcases : op' = .and ∧ w = true ∨ op' = .or ∧ w = false := by
        simpa [Slot.fits] using hslot
      rcases hcases with ⟨rfl, rfl⟩ | ⟨rfl, rfl⟩
      · exact ⟨rfl, style.wraps_right_logical p l r rfl⟩
      · exact ⟨rfl, style.wraps_right_logical p l r rfl⟩
    | _ => cases hcontinues
  | _ => cases hcontinues

/-- Only where nothing needs brackets an assignment has none. -/
theorem slot_of_wraps_assign {op : AssignOp} {v : Expr}
    (h : style.wraps slot (.assign p t op v) = false) : slot = .whole := by
  cases slot with
  | whole => rfl
  | _ => simp [wraps, wrapsOperand, Expr.isAssign] at h

theorem linkWraps_and (hs : style ∈ catalogue) (hslot : slot.fits (.binary p .and l r) = true) :
    style.linkWraps slot .and (.binary p .and l r) = true := by
  have hown : style.wrapsComparisons .and (.binary p .and l r) = true := by
    simp [wrapsComparisons, wrapRelationalInLogical_of_mem hs]
  cases slot with
  | link outer w =>
    simp only [linkWraps]
    split
    · rename_i heq
      subst heq
      simpa [Slot.fits] using hslot
    · exact hown
  | _ => exact hown

/-- Whether comparisons go into brackets in a chain of `||` depends on the number of operands
alone. -/
theorem linkWraps_or (hs : style ∈ catalogue) (hslot : slot.fits (.binary p .or l r) = true) :
    style.linkWraps slot .or (.binary p .or l r) =
      (!slot.continues (.binary p .or l r) && (Expr.binary p .or l r).chainLength .or == 2) := by
  have hown : style.wrapsComparisons .or (.binary p .or l r) =
      ((Expr.binary p .or l r).chainLength .or == 2) := by
    simp [wrapsComparisons, wrapRelationalInLogical_of_mem hs]
  cases slot with
  | link outer w =>
    simp only [linkWraps]
    split
    · rename_i heq
      subst heq
      simpa [Slot.fits, Slot.continues] using hslot
    · rename_i hne
      have hcontinues : Slot.continues (.link outer w) (.binary p .or l r) = false := by
        simp only [Slot.continues, beq_eq_false_iff_ne]
        exact fun heq => hne heq.symm
      rw [hown, hcontinues]
      rfl
  | _ => exact hown

/-- The operands of a chain are in slots that fit them. -/
theorem fits_link (hs : style ∈ catalogue) (hop : op.isLogical = true)
    (hslot : slot.fits (.binary p op l r) = true) {e : Expr}
    (he : 1 < e.chainLength .or → (Expr.binary p .or l r).chainLength .or ≠ 2) :
    Slot.fits (.link op (style.linkWraps slot op (.binary p op l r))) e = true := by
  cases e with
  | binary q op' a b =>
    by_cases hop' : op' = op
    · subst hop'
      cases op' with
      | and => simp [Slot.fits, linkWraps_and hs hslot]
      | or =>
        have hlength := he (Expr.one_lt_chainLength q .or a b)
        simp [Slot.fits, linkWraps_or hs hslot, hlength]
      | _ => cases hop
    · simp [Slot.fits, hop']
  | _ => rfl

theorem fits_leftSlot (hs : style ∈ catalogue) (hslot : slot.fits (.binary p op l r) = true) :
    (style.leftSlot slot op (.binary p op l r)).fits l = true := by
  unfold leftSlot
  split
  · rename_i hop
    refine fits_link hs hop hslot fun hl => ?_
    have hr := Expr.chainLength_pos .or r
    rw [Expr.chainLength_self]
    omega
  · cases l <;> rfl

theorem fits_rightSlot (hs : style ∈ catalogue) (hslot : slot.fits (.binary p op l r) = true) :
    (style.rightSlot slot op (.binary p op l r)).fits r = true := by
  unfold rightSlot
  split
  · rename_i hop
    refine fits_link hs hop hslot fun hr => ?_
    have hl := Expr.chainLength_pos .or l
    rw [Expr.chainLength_self]
    omega
  · cases r <;> rfl

theorem fits_binary (slot : Slot) (op : BinaryOp) (p q : Pos) (l r l' r' : Expr) :
    slot.fits (.binary p op l r) = slot.fits (.binary q op l' r') := by
  cases slot <;> rfl

theorem continues_binary (slot : Slot) (op : BinaryOp) (p q : Pos) (l r l' r' : Expr) :
    slot.continues (.binary p op l r) = slot.continues (.binary q op l' r') := by
  cases slot <;> rfl

/-- Two chains have their comparisons in brackets alike, or else they are chains of `||`, and just
one of them has two operands. -/
theorem linkWraps_cases (hs : style ∈ catalogue) (hop : op.isLogical = true)
    (hslot : slot.fits (.binary p op l r) = true) (hslot' : slot.fits (.binary q op l' r') = true) :
    style.linkWraps slot op (.binary p op l r) = style.linkWraps slot op (.binary q op l' r') ∨
      op = .or ∧
        ((Expr.binary p op l r).chainLength .or = 2 ∧ (Expr.binary q op l' r').chainLength .or ≠ 2 ∧
            style.linkWraps slot op (.binary p op l r) = true ∧
            style.linkWraps slot op (.binary q op l' r') = false ∨
          (Expr.binary p op l r).chainLength .or ≠ 2 ∧
            (Expr.binary q op l' r').chainLength .or = 2 ∧
            style.linkWraps slot op (.binary p op l r) = false ∧
            style.linkWraps slot op (.binary q op l' r') = true) := by
  cases op with
  | and => rw [linkWraps_and hs hslot, linkWraps_and hs hslot']; exact .inl rfl
  | or =>
    rw [linkWraps_or hs hslot, linkWraps_or hs hslot', continues_binary slot .or q p l' r' l r]
    cases slot.continues (.binary p .or l r) with
    | true => exact .inl rfl
    | false =>
      by_cases h : (Expr.binary p .or l r).chainLength .or = 2 <;>
        by_cases h' : (Expr.binary q .or l' r').chainLength .or = 2
      · exact .inl (by rw [h, h'])
      · exact .inr ⟨rfl, .inl ⟨h, h', by simp [h], by simp [h']⟩⟩
      · exact .inr ⟨rfl, .inr ⟨h, h', by simp [h], by simp [h']⟩⟩
      · exact .inl (by rw [beq_false_of_ne h, beq_false_of_ne h'])
  | _ => cases hop

/-- The comparison in place of the assignment changes nothing about the brackets in the chain
that it is in, unless it makes a chain of two operands out of a longer one. -/
theorem linkWraps_compared (hs : style ∈ catalogue) (hop : op.isLogical = true) {depth : Nat}
    (hl : l.IsLoose depth) (hslot : slot.fits (.binary p op l r) = true) :
    style.linkWraps slot op (.binary q op (t.compared depth l) r) =
        style.linkWraps slot op (.binary p op l r) ∨
      op = .or ∧ depth = 0 ∧ (∃ q' a b, l = .binary q' .or a b) ∧
        style.linkWraps slot op (.binary p op l r) = false ∧
        style.linkWraps slot op (.binary q op (t.compared depth l) r) = true := by
  have hslot' : slot.fits (.binary q op (t.compared depth l) r) = true := by
    rw [← hslot]
    exact fits_binary ..
  have hr := Expr.chainLength_pos .or r
  rcases linkWraps_cases hs hop hslot' hslot with h | ⟨rfl, h⟩
  · exact .inl h
  · rw [Expr.chainLength_self, Expr.chainLength_self] at h
    rcases Expr.chainLength_compared (t := t) hop hl with hsame | ⟨hlong, hlong'⟩ |
      ⟨rfl, q', a, b, rfl⟩
    · omega
    · omega
    · have hl := Expr.one_lt_chainLength q' .or a b
      rcases h with ⟨-, -, h, h'⟩ | ⟨-, h, -⟩
      · exact .inr ⟨rfl, rfl, ⟨q', a, b, rfl⟩, h', h⟩
      · omega

/-- The same for the slots of the operands. -/
theorem slots_compared (hs : style ∈ catalogue) {depth : Nat} (hl : l.IsLoose depth)
    (hslot : slot.fits (.binary p op l r) = true) :
    style.leftSlot slot op (.binary q op (t.compared depth l) r) =
          style.leftSlot slot op (.binary p op l r) ∧
        style.rightSlot slot op (.binary q op (t.compared depth l) r) =
          style.rightSlot slot op (.binary p op l r) ∨
      op = .or ∧ depth = 0 ∧ (∃ q' a b, l = .binary q' .or a b) ∧
        style.linkWraps slot op (.binary p op l r) = false ∧
        style.linkWraps slot op (.binary q op (t.compared depth l) r) = true := by
  unfold leftSlot rightSlot
  cases hop : op.isLogical with
  | false => exact .inl ⟨rfl, rfl⟩
  | true =>
    rcases linkWraps_compared hs hop hl hslot with h | h
    · rw [h]
      exact .inl ⟨rfl, rfl⟩
    · exact .inr h

end Style

theorem Expr.compared_wellFormed {V : Vocabulary} {t : Expr} (ht : t.WellFormed V) {depth : Nat} :
    ∀ {v : Expr}, v.WellFormed V → v.IsLoose depth → (t.compared depth v).WellFormed V := by
  induction depth with
  | zero =>
    intro v hv _
    exact ⟨by decide, ht, hv⟩
  | succ depth ih =>
    intro v hv hloose
    cases v with
    | binary p op l r => exact ⟨hv.1, ih hv.2.1 hloose.2, hv.2.2⟩
    | _ => exact hloose.elim

namespace Setting

variable {s : Setting} {slot : Slot} {e l r t v : Expr} {V : Vocabulary}

/-- A chain of `||` without brackets round comparisons is not longer than one with them. -/
theorem length_chars_link_le (hs : s.style ∈ Style.catalogue) (he : e.WellFormed V) :
    (s.chars (.link .or false) e).length ≤ (s.chars (.link .or true) e).length := by
  have hother : ∀ e : Expr, e.WellFormed V →
      (∀ w, Slot.continues (.link .or w) e = false) →
      (s.chars (.link .or false) e).length ≤ (s.chars (.link .or true) e).length := by
    intro e he hcontinues
    have hrenders := renders_of_wellFormed hs he
    rw [hrenders.chars_eq (hcontinues _), hrenders.chars_eq (hcontinues _), length_enclosed,
      length_enclosed]
    simp only [Style.wraps]
    cases e.isRelational <;> cases e.isAssign <;> cases e.isLooserChain .or <;> simp
  induction e with
  | binary p op l r ihl ihr =>
    by_cases hop : op = .or
    · subst hop
      obtain ⟨-, hl, hr⟩ := he
      have hwraps : ∀ w, s.style.wraps (.link .or w) (.binary p .or l r) = false := fun w => by
        cases w <;> rfl
      rw [chars_binary (renders_of_wellFormed hs hl) (renders_of_wellFormed hs hr),
        chars_binary (renders_of_wellFormed hs hl) (renders_of_wellFormed hs hr), hwraps, hwraps]
      have hihl := ihl hl
      have hihr := ihr hr
      simp only [enclosed_false, List.length_append]
      simp only [Style.leftSlot, Style.rightSlot, BinaryOp.isLogical, if_true, Style.linkWraps]
      omega
    · refine hother _ he fun w => ?_
      simpa [Slot.continues] using hop
  | _ => exact hother _ he fun _ => rfl

/-- On its own, a chain is written as within a chain of its operator. -/
theorem chars_whole_logical (hs : s.style ∈ Style.catalogue) {p : Pos} {op : BinaryOp}
    (he : (Expr.binary p op l r).WellFormed V) (hop : op.isLogical = true) :
    s.chars .whole (.binary p op l r) =
      s.chars (.link op (s.style.linkWraps .whole op (.binary p op l r))) (.binary p op l r) := by
  obtain ⟨-, hl, hr⟩ := he
  have hwraps : ∀ w, s.style.wraps (.link op w) (.binary p op l r) = false := fun w => by
    cases op <;> first | (cases w <;> rfl) | cases hop
  rw [chars_binary (renders_of_wellFormed hs hl) (renders_of_wellFormed hs hr),
    chars_binary (renders_of_wellFormed hs hl) (renders_of_wellFormed hs hr), hwraps]
  simp only [Style.leftSlot, Style.rightSlot, if_pos hop, Style.linkWraps, if_true]
  rfl

/-- Going on with a chain, an expression is not longer than on its own. -/
theorem length_chars_continues_le (hs : s.style ∈ Style.catalogue) (he : e.WellFormed V)
    (hslot : slot.fits e = true) (hcontinues : slot.continues e = true) :
    (s.chars slot e).length ≤ (s.chars .whole e).length := by
  cases slot with
  | link op w =>
    cases e with
    | binary p op' l r =>
      obtain rfl : op' = op := by simpa [Slot.continues] using hcontinues
      have hcases : op' = .and ∧ w = true ∨ op' = .or ∧ w = false := by
        simpa [Slot.fits] using hslot
      rcases hcases with ⟨rfl, rfl⟩ | ⟨rfl, rfl⟩
      · exact Nat.le_of_eq (by rw [chars_whole_logical hs he rfl, Style.linkWraps_and hs rfl])
      · rw [chars_whole_logical hs he rfl]
        cases s.style.linkWraps .whole .or (.binary p .or l r) with
        | false => exact Nat.le_refl _
        | true => exact length_chars_link_le hs he
    | _ => cases hcontinues
  | _ => cases hcontinues

/-- A test for equality, in its slot. -/
theorem chars_compared_zero (ht : s.Renders t) (htarget : t.isTarget = true) (hv : s.Renders v) :
    s.chars slot (t.compared 0 v) = enclosed (s.style.wraps slot (t.compared 0 v))
      (s.chars .whole t ++ ([' ', '=', ' '] ++
        enclosed (s.style.wraps (.right .eq) v) (s.chars .whole v))) := by
  have hright : Slot.continues (.right .eq) v = false := rfl
  rw [← hv.chars_eq hright, ← ht.chars_target htarget (.left .eq), ← s.style.spaced_eq]
  exact (chars_binary ht hv : s.chars slot (.binary t.pos .eq t v) = _)

/-- A chain of two operands is left of a longer one: it has more brackets. -/
theorem length_chars_shortened (hs : s.style ∈ Style.catalogue) (ht : t.WellFormed V)
    (htarget : t.isTarget = true) {q : Pos} {a b : Expr}
    (hl : (Expr.binary q .or a b).WellFormed V) (hr : r.WellFormed V) :
    (s.chars .whole t).length + 7 + (s.chars (.link .or false) (.binary q .or a b)).length +
        (s.chars (.link .or false) r).length ≤
      (s.chars (.link .or true) (t.compared 0 (.binary q .or a b))).length +
        (s.chars (.link .or true) r).length := by
  have hlel : (s.chars (.link .or false) (.binary q .or a b)).length ≤
      (s.chars .whole (.binary q .or a b)).length :=
    length_chars_continues_le hs hl rfl rfl
  have hler := length_chars_link_le hs hr
  have htest : s.style.wraps (.link .or true) (t.compared 0 (.binary q .or a b)) = true := rfl
  rw [chars_compared_zero (renders_of_wellFormed hs ht) htarget (renders_of_wellFormed hs hl),
    htest, s.style.wraps_right_logical q a b rfl]
  simp only [enclosed_true, List.length_append, List.length_cons, List.length_nil]
  omega

/-- The text of `t = v` without brackets round it is that of the comparison in its place just
when the brackets agree.  The brackets that are open in front are those of the chain around. -/
theorem sign_compared_iff (hs : s.style ∈ Style.catalogue) (ht : t.WellFormed V)
    (htarget : t.isTarget = true) (depth : Nat) :
    ∀ (v : Expr) (slot : Slot) (i : Nat), v.WellFormed V → v.IsLoose depth → slot.fits v = true →
      (s.chars .whole t ++ ([' ', '=', ' '] ++ (List.replicate i '(' ++ s.chars slot v)) =
          List.replicate i '(' ++ s.chars slot (t.compared depth v) ↔
        i = 0 ∧ s.style.wraps slot (t.compared depth v) = false ∧
          s.style.agrees t depth slot v = true) := by
  have htrenders := renders_of_wellFormed hs ht
  induction depth with
  | zero =>
    intro v slot i hv _ hslot
    have hvrenders := renders_of_wellFormed hs hv
    rw [chars_compared_zero htrenders htarget hvrenders]
    cases hcontinues : slot.continues v with
    | false =>
      rw [hvrenders.chars_eq hcontinues, sign_enclosed_iff]
      simp [Style.agrees]
    | true =>
      have hle := length_chars_continues_le hs hv hslot hcontinues
      obtain ⟨hwraps, hright⟩ := Style.wraps_of_continues s.style hslot hcontinues
      constructor
      · intro h
        have hlength := congrArg List.length h
        simp only [List.length_append, List.length_replicate, length_enclosed, hright] at hlength
        simp only [Bool.toNat_true] at hlength
        omega
      · rintro ⟨-, -, hagrees⟩
        simp [Style.agrees, hwraps, hright] at hagrees
  | succ depth ih =>
    intro v slot i hv hloose hslot
    cases v with
    | binary p op l r =>
      obtain ⟨hprecedence, hloose⟩ := hloose
      obtain ⟨hop, hl, hr⟩ := hv
      have hlrenders := renders_of_wellFormed hs hl
      have hrrenders := renders_of_wellFormed hs hr
      have hl'renders := renders_of_wellFormed hs (Expr.compared_wellFormed ht hl hloose)
      have hfits := Style.fits_leftSlot hs hslot
      rw [Expr.compared, chars_binary hlrenders hrrenders, chars_binary hl'renders hrrenders,
        ← Style.wraps_binary s.style slot op p t.pos l r]
      simp only [Style.agrees]
      rcases Style.slots_compared (q := t.pos) (r := r) (t := t) hs hloose hslot with
        ⟨hleft, hright⟩ | hshort
      · rw [hleft, hright, sign_operand_iff, ih l _ _ hl hloose hfits]
        cases s.style.wraps slot (.binary p op l r) <;> simp
      · obtain ⟨rfl, rfl, ⟨q, a, b, rfl⟩, hwraps, hwraps'⟩ := hshort
        simp only [Style.leftSlot, Style.rightSlot, BinaryOp.isLogical, if_true, hwraps, hwraps']
        constructor
        · intro h
          have hlength := congrArg List.length h
          have hle := length_chars_shortened hs ht htarget hl hr
          simp only [List.length_append, List.length_replicate, length_enclosed, List.length_cons,
            List.length_nil] at hlength
          omega
        · rintro ⟨-, -, hagrees⟩
          have hopen : s.style.wraps (.link .or false) (.binary q .or a b) = false := rfl
          have hclosed : s.style.wraps (.right .eq) (.binary q .or a b) = true :=
            s.style.wraps_right_logical q a b rfl
          simp [Style.agrees, hclosed, hopen] at hagrees
    | _ => exact hloose.elim

theorem chars_link_or_true (hs : s.style ∈ Style.catalogue) (he : e.WellFormed V)
    (hlength : e.chainLength .or = 1) :
    s.chars (.link .or true) e = s.chars (.link .or false) e ∨
      s.chars (.link .or true) e = '(' :: (s.chars (.link .or false) e ++ [')']) := by
  have hcontinues : ∀ w, Slot.continues (.link .or w) e = false := by
    intro w
    cases e with
    | binary p op l r =>
      by_cases hop : op = .or
      · subst hop
        have hlt := Expr.one_lt_chainLength p .or l r
        omega
      · simpa [Slot.continues] using hop
    | _ => rfl
  have hrenders := renders_of_wellFormed hs he
  rw [hrenders.chars_eq (hcontinues _), hrenders.chars_eq (hcontinues _)]
  simp only [Style.wraps]
  cases e.isRelational <;> cases e.isAssign <;> cases e.isLooserChain .or <;> simp

/-- An assignment of a chain of conditions, in a chain of the same operator, ends with a bracket
that the chain with the comparison in its place does not end with. -/
theorem chars_linked_ne (hs : s.style ∈ Style.catalogue) (ht : t.WellFormed V) {p q : Pos}
    {op : BinaryOp} {depth : Nat} (hv : (Expr.binary p op l r).WellFormed V)
    (hloose : l.IsLoose depth) {w w' : Bool}
    (hw' : op = .and ∧ w' = true ∨ op = .or ∧ w' = false) (cs ds : List Char) :
    cs ++ s.chars (.link op w) (.assign q t .set (.binary p op l r)) ≠
      ds ++ s.chars (.link op w') (t.compared (depth + 1) (.binary p op l r)) := by
  intro h
  have hvrenders := renders_of_wellFormed hs hv
  obtain ⟨hop, hl, hr⟩ := hv
  have hlogical : op.isLogical = true := by rcases hw' with ⟨rfl, -⟩ | ⟨rfl, -⟩ <;> rfl
  have hrrenders := renders_of_wellFormed hs hr
  have hwraps : s.style.wraps (.link op w) (.assign q t .set (.binary p op l r)) = true := by
    simp [Style.wraps, Expr.isAssign]
  have hwraps' : s.style.wraps (.link op w') (.binary t.pos op (t.compared depth l) r) = false := by
    rcases hw' with ⟨rfl, rfl⟩ | ⟨rfl, rfl⟩ <;> rfl
  have hvalue : s.style.wraps .value (.binary p op l r) = false := by
    rcases hw' with ⟨rfl, -⟩ | ⟨rfl, -⟩ <;> simp [Style.wraps, Expr.isAssign, Expr.isRelational,
      BinaryOp.isRelational]
  rw [chars_assign (renders_of_wellFormed hs ht) hvrenders rfl, hwraps,
    chars_binary (renders_of_wellFormed hs hl) hrrenders, hvalue, Expr.compared,
    chars_binary (renders_of_wellFormed hs (Expr.compared_wellFormed ht hl hloose)) hrrenders,
    hwraps'] at h
  simp only [Style.leftSlot, Style.rightSlot, if_pos hlogical, enclosed_true, enclosed_false] at h
  have hlink :
      s.style.linkWraps (.link op w') op (.binary t.pos op (t.compared depth l) r) = w' := by
    simp [Style.linkWraps]
  obtain ⟨hclose, hlong⟩ := Style.spaced_of_mem hs hop
  rw [hlink] at h
  -- The last operand of the chain may be in brackets of its own, but only the assigned one.
  have hlast : s.chars (.link op (s.style.linkWraps .value op (.binary p op l r))) r =
        s.chars (.link op w') r ∨
      s.chars (.link op (s.style.linkWraps .value op (.binary p op l r))) r =
        '(' :: (s.chars (.link op w') r ++ [')']) := by
    rcases hw' with ⟨rfl, rfl⟩ | ⟨rfl, rfl⟩
    · rw [Style.linkWraps_and hs rfl]
      exact .inl rfl
    · cases hown : s.style.linkWraps .value .or (.binary p .or l r) with
      | false => exact .inl rfl
      | true =>
        rw [Style.linkWraps_or hs rfl, Expr.chainLength_self] at hown
        have hlpos := Expr.chainLength_pos .or l
        have hrpos := Expr.chainLength_pos .or r
        have hsum : l.chainLength .or + r.chainLength .or = 2 := by
          simpa [Slot.continues] using hown
        exact chars_link_or_true hs hr (by omega)
  have hends : (cs ++ '(' :: (s.chars .whole t ++ ([' ', '=', ' '] ++
        s.chars (.link op (s.style.linkWraps .value op (.binary p op l r))) l))) ++
        (s.style.spaced op ++
          (s.chars (.link op (s.style.linkWraps .value op (.binary p op l r))) r ++ [')'])) =
      (ds ++ s.chars (.link op w') (t.compared depth l)) ++
        (s.style.spaced op ++ s.chars (.link op w') r) := by
    simpa using h
  have hbehind := count_le_of_behind hends
  rcases hlast with hlast | hlast
  · rw [hlast] at hbehind
    simp only [List.length_append, List.length_cons, List.length_nil, List.count_append] at hbehind
    have hcount := hbehind (by omega) (by omega) hclose
    simp at hcount
  · rw [hlast] at hbehind
    simp only [List.length_append, List.length_cons, List.length_nil, List.count_append,
      List.count_cons] at hbehind
    have hcount := hbehind (by omega) (by omega) hclose
    simp at hcount
    omega

/-- With a bracket behind it, an assigned text is not the text with the comparison in its place. -/
theorem chars_closed_ne (hs : s.style ∈ Style.catalogue) (ht : t.WellFormed V) {p : Pos}
    {op : BinaryOp} {depth j : Nat} (hv : (Expr.binary p op l r).WellFormed V)
    (hloose : l.IsLoose depth)
    (hright : s.style.rightSlot .whole op (.binary t.pos op (t.compared depth l) r) =
      s.style.rightSlot .value op (.binary p op l r))
    (hj : 1 ≤ j + (s.style.wraps .value (.binary p op l r)).toNat) (hj' : j ≤ 1) (cs : List Char) :
    cs ++ (s.chars .value (.binary p op l r) ++ List.replicate j ')') ≠
      s.chars .whole (t.compared (depth + 1) (.binary p op l r)) := by
  intro h
  obtain ⟨hop, hl, hr⟩ := hv
  have hrrenders := renders_of_wellFormed hs hr
  obtain ⟨hclose, hlong⟩ := Style.spaced_of_mem hs hop
  have hwhole : s.style.wraps .whole (.binary t.pos op (t.compared depth l) r) = false := rfl
  rw [chars_binary (renders_of_wellFormed hs hl) hrrenders, Expr.compared,
    chars_binary (renders_of_wellFormed hs (Expr.compared_wellFormed ht hl hloose)) hrrenders,
    hright, hwhole, enclosed_false] at h
  rw [enclosed_append_replicate, List.append_assoc, ← List.append_assoc] at h
  have hcount := count_le_of_behind h (by simp) (by
    have hle := Bool.toNat_le (s.style.wraps .value (.binary p op l r))
    simp only [List.length_append, List.length_replicate]
    omega) hclose
  simp only [List.count_append, List.count_replicate_self] at hcount
  omega

/-- With one bracket behind it, an assigned text is not that of the comparison in its place, even
where that makes a chain of two operands out of a longer one. -/
theorem chars_bracketed_ne (hs : s.style ∈ Style.catalogue) (ht : t.WellFormed V)
    (htarget : t.isTarget = true) {p : Pos} {op : BinaryOp} {depth : Nat}
    (hv : (Expr.binary p op l r).WellFormed V)
    (hloose : (Expr.binary p op l r).IsLoose (depth + 1)) :
    '(' :: (s.chars .whole t ++ ([' ', '=', ' '] ++ s.chars .value (.binary p op l r)) ++ [')']) ≠
      s.chars .whole (t.compared (depth + 1) (.binary p op l r)) := by
  have hl := hv.2.1
  have hr := hv.2.2
  rcases Style.slots_compared (q := t.pos) (r := r) (t := t) hs hloose.2
    (rfl : Slot.fits .value (.binary p op l r) = true) with ⟨-, hright⟩ | hshort
  · have hne := chars_closed_ne hs ht (j := 1) hv hloose.2 hright (by omega) (by omega)
      ('(' :: (s.chars .whole t ++ [' ', '=', ' ']))
    simpa using hne
  · obtain ⟨rfl, rfl, ⟨q, a, b, rfl⟩, hwraps, hwraps'⟩ := hshort
    intro h
    have hle := length_chars_shortened hs ht htarget hl hr
    have hlength := congrArg List.length h
    rw [Expr.compared, chars_binary (renders_of_wellFormed hs hl) (renders_of_wellFormed hs hr),
      chars_binary (renders_of_wellFormed hs (Expr.compared_wellFormed ht hl hloose.2))
        (renders_of_wellFormed hs hr)] at hlength
    have hwhole : s.style.linkWraps .whole .or (.binary t.pos .or
        (t.compared 0 (.binary q .or a b)) r) = true := hwraps'
    have hvalue : s.style.wraps .value (.binary p .or (.binary q .or a b) r) = false := by
      simp [Style.wraps, Expr.isAssign, Expr.isRelational, BinaryOp.isRelational]
    simp only [Style.leftSlot, Style.rightSlot, BinaryOp.isLogical, if_true, hwraps, hwhole, hvalue,
      Bool.toNat_false, List.length_append, List.length_cons, List.length_nil,
      length_enclosed] at hlength
    omega

/-- The text of the assignment of a chain, without brackets round it. -/
theorem sign_chain_iff (hs : s.style ∈ Style.catalogue) (ht : t.WellFormed V)
    (htarget : t.isTarget = true) {p : Pos} {op : BinaryOp} {depth : Nat}
    (hv : (Expr.binary p op l r).WellFormed V)
    (hloose : (Expr.binary p op l r).IsLoose (depth + 1)) :
    s.chars .whole t ++ ([' ', '=', ' '] ++ s.chars .value (.binary p op l r)) =
        s.chars .whole (t.compared (depth + 1) (.binary p op l r)) ↔
      s.style.agrees t (depth + 1) .value (.binary p op l r) = true := by
  have hrenders := renders_of_wellFormed hs (Expr.compared_wellFormed ht hv hloose)
  have hsame : s.style.wraps .value (t.compared (depth + 1) (.binary p op l r)) =
      s.style.wraps .value (.binary p op l r) := rfl
  cases hwraps : s.style.wraps .value (.binary p op l r) with
  | false =>
    have hsign := sign_compared_iff hs ht htarget (depth + 1) (.binary p op l r) .value 0 hv hloose
      rfl
    rw [hrenders.chars_eq (rfl : Slot.continues .value _ = false), hsame, hwraps] at hsign
    simpa using hsign
  | true =>
    -- A comparison in brackets: the comparison in the place of the assignment has none.
    have hlogical : op.isLogical = false := by
      cases op <;> first | rfl | simp [Style.wraps, Expr.isAssign, Expr.isRelational,
        BinaryOp.isRelational] at hwraps
    refine iff_of_false ?_ (by simp [Style.agrees, hwraps])
    have hne := chars_closed_ne hs ht (j := 0) hv hloose.2
      (by simp only [Style.rightSlot, hlogical]; rfl) (by simp [hwraps]) (by omega)
      (s.chars .whole t ++ [' ', '=', ' '])
    simpa using hne

/-- The case of a chain. -/
theorem chars_chain_iff (hs : s.style ∈ Style.catalogue) (ht : t.WellFormed V)
    (htarget : t.isTarget = true) {p q : Pos} {op : BinaryOp} {depth : Nat}
    (hv : (Expr.binary p op l r).WellFormed V)
    (hloose : (Expr.binary p op l r).IsLoose (depth + 1))
    (hslot : slot.fits (t.compared (depth + 1) (.binary p op l r)) = true) :
    s.chars slot (.assign q t .set (.binary p op l r)) =
        s.chars slot (t.compared (depth + 1) (.binary p op l r)) ↔
      s.style.wraps slot (.assign q t .set (.binary p op l r)) =
          s.style.wraps slot (t.compared (depth + 1) (.binary p op l r)) ∧
        (Expr.binary p op l r).isInputCall = false ∧
        s.style.agrees t (depth + 1) .value (.binary p op l r) = true := by
  have htrenders := renders_of_wellFormed hs ht
  have hvrenders := renders_of_wellFormed hs hv
  have hwf := Expr.compared_wellFormed ht hv hloose
  have hrenders := renders_of_wellFormed hs hwf
  cases hcontinues : slot.continues (t.compared (depth + 1) (.binary p op l r)) with
  | true =>
    obtain ⟨hwraps, -⟩ := Style.wraps_of_continues s.style hslot hcontinues
    cases slot with
    | link outer w =>
      obtain rfl : op = outer := by simpa [Slot.continues, Expr.compared] using hcontinues
      have hw : op = .and ∧ w = true ∨ op = .or ∧ w = false := by
        simpa [Slot.fits, Expr.compared] using hslot
      constructor
      · intro h
        exact (chars_linked_ne hs ht hv hloose.2 hw [] [] (by simpa using h)).elim
      · rintro ⟨hsame, -⟩
        rw [hwraps] at hsame
        simp [Style.wraps, Expr.isAssign] at hsame
    | _ => cases hcontinues
  | false =>
    rw [chars_assign htrenders hvrenders rfl, hrenders.chars_eq hcontinues]
    have hsign := sign_chain_iff hs ht htarget hv hloose
    cases houter : s.style.wraps slot (.assign q t .set (.binary p op l r)) with
    | false =>
      have hwhole : slot = .whole := Style.slot_of_wraps_assign houter
      subst hwhole
      simpa [Style.wraps, Expr.isInputCall] using hsign
    | true =>
      cases hinner : s.style.wraps slot (t.compared (depth + 1) (.binary p op l r)) with
      | true =>
        rw [enclosed_inj]
        simpa [Expr.isInputCall] using hsign
      | false =>
        refine iff_of_false ?_ (by simp)
        rw [enclosed_true, enclosed_false]
        exact chars_bracketed_ne hs ht htarget hv hloose

/-- An assignment and the comparison in its place are written alike in a slot just when the
brackets round them and those inside agree. -/
theorem chars_sign_iff (hs : s.style ∈ Style.catalogue) (ht : t.WellFormed V)
    (htarget : t.isTarget = true) (hv : v.WellFormed V) {depth : Nat} (hloose : v.IsLoose depth)
    {q : Pos} (hslot : slot.fits (t.compared depth v) = true) :
    s.chars slot (.assign q t .set v) = s.chars slot (t.compared depth v) ↔
      s.style.wraps slot (.assign q t .set v) = s.style.wraps slot (t.compared depth v) ∧
        v.isInputCall = false ∧ s.style.agrees t depth .value v = true := by
  have htrenders := renders_of_wellFormed hs ht
  have hvrenders := renders_of_wellFormed hs hv
  cases depth with
  | zero =>
    rw [chars_compared_zero htrenders htarget hvrenders]
    cases hinput : v.isInputCall with
    | false =>
      have hvalue : Slot.continues .value v = false := rfl
      rw [chars_assign htrenders hvrenders hinput, hvrenders.chars_eq hvalue, enclosed_sign_iff]
      simp [Style.agrees]
    | true =>
      refine iff_of_false (fun h => ?_) (by simp)
      rw [chars_input htrenders hinput] at h
      have hcount := congrArg (List.count '=') h
      simp only [count_enclosed (by decide : '=' ≠ '(') (by decide : '=' ≠ ')'), List.count_append,
        List.count_eq_zero_of_not_mem (Style.input_of_mem hs)] at hcount
      simp at hcount
  | succ depth =>
    cases v with
    | binary p op l r => exact chars_chain_iff hs ht htarget hv hloose hslot
    | _ => exact hloose.elim

end Setting

end Pseudocode
