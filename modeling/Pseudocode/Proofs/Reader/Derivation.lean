import Pseudocode.Proofs.Reader.Expression
set_option autoImplicit false

/-!
# The grammar of expressions

`Derives` says which tokens form an expression, rule by rule and without a reading.  The
readings of expressions take only tokens that are derived in this way, and yield what is
derived from them.  What is to be shown of the tokens of an expression is then shown by
induction on a derivation, with neither clocks nor tokens behind the expression in the way.
-/

namespace Pseudocode

open Reading (loosest levelOp?)

/-! ## Derivations -/

/-- What tokens may form, as a part of an expression.

- `base`: a name or brackets, with calls, fields and subscripts.
- `level`: operands joined by operators of at most the level `n`.
- `whole`: an expression, which may assign.
- `initializer`: elements between braces.
- `item`, `items`: arguments or, if `braced`, elements, between commas.
- `brackets`: pairs of square brackets, with an expression inside or empty. -/
inductive Phrase where
  | base (e : Expr)
  | level (n : Nat) (e : Expr)
  | whole (e : Expr)
  | initializer (e : Expr)
  | item (braced : Bool) (e : Expr)
  | items (braced : Bool) (es : List Expr)
  | brackets (ds : List (Option Expr))

/-- A literal token. -/
def Token.IsConstant (t : Token) : Prop :=
  t.kind = .number ∨ t.kind = .string ∨ (Pattern.keyword "true").fits t = true ∨
    (Pattern.keyword "false").fits t = true

/-- The tokens form the phrase. -/
inductive Derives : Phrase → List Token → Prop where
  | name {t : Token} (ht : t.kind = .identifier) : Derives (.base (.name t.pos t.text)) [t]
  | paren {a b : Token} {e : Expr} {w : List Token} (ha : Pattern.openParen.fits a = true)
      (he : Derives (.whole e) w) (hb : Pattern.closeParen.fits b = true) :
      Derives (.base e) (a :: w ++ [b])
  | call {p : Pos} {f : String} {a b : Token} {es : List Expr} {u w : List Token}
      (hf : Derives (.base (.name p f)) u) (ha : Pattern.openParen.fits a = true)
      (hes : Derives (.items false es) w) (hb : Pattern.closeParen.fits b = true) :
      Derives (.base (.call p f es)) (u ++ a :: w ++ [b])
  | methodCall {e : Expr} {d t a b : Token} {es : List Expr} {u w : List Token}
      (he : Derives (.base e) u) (hd : Pattern.dot.fits d = true) (ht : t.kind = .identifier)
      (ha : Pattern.openParen.fits a = true) (hes : Derives (.items false es) w)
      (hb : Pattern.closeParen.fits b = true) :
      Derives (.base (.methodCall e.pos e t.text es)) (u ++ d :: t :: a :: w ++ [b])
  | length {e : Expr} {d t : Token} {u : List Token} (he : Derives (.base e) u)
      (hd : Pattern.dot.fits d = true) (ht : t.kind = .identifier) (htext : t.text = "length") :
      Derives (.base (.length e.pos e)) (u ++ [d, t])
  | property {e : Expr} {d t : Token} {u : List Token} (he : Derives (.base e) u)
      (hd : Pattern.dot.fits d = true) (ht : t.kind = .identifier) (htext : t.text ≠ "length") :
      Derives (.base (.property e.pos e t.text)) (u ++ [d, t])
  | index {e : Expr} {es : List Expr} {u w : List Token} (he : Derives (.base e) u)
      (hes : Derives (.brackets (es.map some)) w) (hne : es ≠ []) :
      Derives (.base (.index e.pos e es)) (u ++ w)
  | operand {e : Expr} {w : List Token} (he : Derives (.base e) w) : Derives (.level 0 e) w
  | update {e : Expr} {t : Token} {op : UpdateOp} {w : List Token} (he : Derives (.base e) w)
      (ht : t.updateOp? = some op) : Derives (.level 0 (.update e.pos op e)) (w ++ [t])
  | literal {t : Token} (ht : t.IsConstant) : Derives (.level 0 (.literal t.pos t.text)) [t]
  | newObject {k t a b : Token} {es : List Expr} {w : List Token}
      (hk : (Pattern.keyword "new").fits k = true) (ht : t.kind = .identifier)
      (ha : Pattern.openParen.fits a = true) (hes : Derives (.items false es) w)
      (hb : Pattern.closeParen.fits b = true) :
      Derives (.level 0 (.newObject k.pos t.text es)) (k :: t :: a :: w ++ [b])
  | newArray {k t : Token} {es : List Expr} {w : List Token}
      (hk : (Pattern.keyword "new").fits k = true) (ht : t.kind = .keyword ∨ t.kind = .identifier)
      (hes : Derives (.brackets (es.map some)) w) (hne : es ≠ []) :
      Derives (.level 0 (.newArray k.pos t.text es)) (k :: t :: w)
  | newElements {k t : Token} {ds : List (Option Expr)} {e : Expr} {u w : List Token}
      (hk : (Pattern.keyword "new").fits k = true) (ht : t.kind = .keyword ∨ t.kind = .identifier)
      (hds : Derives (.brackets ds) u) (hlast : ds.getLast? = some none)
      (he : Derives (.initializer e) w) :
      Derives (.level 0 e) (k :: t :: u ++ w)
  | unary {t : Token} {op : UnaryOp} {e : Expr} {w : List Token} (ht : t.unaryOp? = some op)
      (he : Derives (.level 0 e) w) : Derives (.level 0 (.unary t.pos op e)) (t :: w)
  | climb {n : Nat} {e : Expr} {w : List Token} (he : Derives (.level n e) w) :
      Derives (.level (n + 1) e) w
  | binary {n : Nat} {l r : Expr} {t : Token} {op : BinaryOp} {u w : List Token}
      (hl : Derives (.level (n + 1) l) u) (ht : levelOp? n t = some op)
      (hr : Derives (.level n r) w) :
      Derives (.level (n + 1) (.binary l.pos op l r)) (u ++ t :: w)
  | plain {e : Expr} {w : List Token} (he : Derives (.level loosest e) w) : Derives (.whole e) w
  | assign {l v : Expr} {t : Token} {op : AssignOp} {u w : List Token}
      (hl : Derives (.level loosest l) u) (htarget : l.isTarget = true)
      (ht : t.assignOp? = some op) (hv : Derives (.whole v) w) :
      Derives (.whole (.assign l.pos l op v)) (u ++ t :: w)
  | braces {a b : Token} {es : List Expr} {w : List Token} (ha : Pattern.openBrace.fits a = true)
      (hes : Derives (.items true es) w) (hb : Pattern.closeBrace.fits b = true) :
      Derives (.initializer (.arrayLiteral a.pos es)) (a :: w ++ [b])
  | expressionItem {braced : Bool} {e : Expr} {w : List Token} (he : Derives (.whole e) w) :
      Derives (.item braced e) w
  | elementsItem {e : Expr} {w : List Token} (he : Derives (.initializer e) w) :
      Derives (.item true e) w
  | noItem {braced : Bool} : Derives (.items braced []) []
  | lastItem {braced : Bool} {e : Expr} {w : List Token} (he : Derives (.item braced e) w) :
      Derives (.items braced [e]) w
  | moreItems {braced : Bool} {e e' : Expr} {es : List Expr} {c : Token} {u w : List Token}
      (he : Derives (.item braced e) u) (hc : Pattern.comma.fits c = true)
      (hes : Derives (.items braced (e' :: es)) w) :
      Derives (.items braced (e :: e' :: es)) (u ++ c :: w)
  | noBrackets : Derives (.brackets []) []
  | filled {a b : Token} {e : Expr} {ds : List (Option Expr)} {u w : List Token}
      (ha : Pattern.openBracket.fits a = true) (he : Derives (.whole e) u)
      (hb : Pattern.closeBracket.fits b = true) (hds : Derives (.brackets ds) w) :
      Derives (.brackets (some e :: ds)) (a :: u ++ b :: w)
  | empty {a b : Token} {ds : List (Option Expr)} {w : List Token}
      (ha : Pattern.openBracket.fits a = true) (hb : Pattern.closeBracket.fits b = true)
      (hds : Derives (.brackets ds) w) : Derives (.brackets (none :: ds)) (a :: b :: w)

/-! ## First and last tokens -/

/-- A token that an operand may start with. -/
def Token.OpensOperand (t : Token) : Prop :=
  t.kind = .identifier ∨ Pattern.openParen.fits t = true ∨ t.IsConstant ∨
    (Pattern.keyword "new").fits t = true ∨ t.unaryOp?.isSome = true

/-- The tokens that a phrase may start with. -/
def Phrase.StartsWith : Phrase → Token → Prop
  | .base _, t => t.kind = .identifier ∨ Pattern.openParen.fits t = true
  | .level _ _, t | .whole _, t => t.OpensOperand
  | .initializer _, t => Pattern.openBrace.fits t = true
  | .item braced _, t | .items braced _, t =>
    t.OpensOperand ∨ braced = true ∧ Pattern.openBrace.fits t = true
  | .brackets _, t => Pattern.openBracket.fits t = true

/-- A list without entries. -/
def Phrase.IsEmpty : Phrase → Prop
  | .items _ es => es = []
  | .brackets ds => ds = []
  | _ => False

/-- Only a list without entries is formed by no token. -/
theorem Derives.first {φ : Phrase} {w : List Token} (h : Derives φ w) :
    (φ.IsEmpty ∧ w = []) ∨ ∃ t us, w = t :: us ∧ φ.StartsWith t := by
  induction h with
  | name ht => exact .inr ⟨_, _, rfl, .inl ht⟩
  | paren ha => exact .inr ⟨_, _, rfl, .inr ha⟩
  | call _ _ _ _ ih | methodCall _ _ _ _ _ _ ih | length _ _ _ _ ih | property _ _ _ _ ih
  | index _ _ _ ih =>
    obtain ⟨hempty, -⟩ | ⟨t, us, rfl, ht⟩ := ih
    · exact hempty.elim
    · exact .inr ⟨t, _, rfl, ht⟩
  | operand _ ih | update _ _ ih =>
    obtain ⟨hempty, -⟩ | ⟨t, us, rfl, ht⟩ := ih
    · exact hempty.elim
    · exact .inr ⟨t, _, rfl, ht.elim .inl fun ht => .inr (.inl ht)⟩
  | literal ht => exact .inr ⟨_, _, rfl, .inr (.inr (.inl ht))⟩
  | newObject hk | newArray hk | newElements hk =>
    exact .inr ⟨_, _, rfl, .inr (.inr (.inr (.inl hk)))⟩
  | unary ht => exact .inr ⟨_, _, rfl, .inr (.inr (.inr (.inr (by simp [ht]))))⟩
  | climb _ ih | plain _ ih => exact ih
  | binary _ _ _ ih | assign _ _ _ _ ih =>
    obtain ⟨hempty, -⟩ | ⟨t, us, rfl, ht⟩ := ih
    · exact hempty.elim
    · exact .inr ⟨t, _, rfl, ht⟩
  | braces ha => exact .inr ⟨_, _, rfl, ha⟩
  | expressionItem _ ih =>
    obtain ⟨hempty, -⟩ | ⟨t, us, rfl, ht⟩ := ih
    · exact hempty.elim
    · exact .inr ⟨t, us, rfl, .inl ht⟩
  | elementsItem _ ih =>
    obtain ⟨hempty, -⟩ | ⟨t, us, rfl, ht⟩ := ih
    · exact hempty.elim
    · exact .inr ⟨t, us, rfl, .inr ⟨rfl, ht⟩⟩
  | noItem => exact .inl ⟨rfl, rfl⟩
  | lastItem _ ih | moreItems _ _ _ ih =>
    obtain ⟨hempty, -⟩ | ⟨t, us, rfl, ht⟩ := ih
    · exact hempty.elim
    · exact .inr ⟨t, _, rfl, ht⟩
  | noBrackets => exact .inl ⟨rfl, rfl⟩
  | filled ha | empty ha => exact .inr ⟨_, _, rfl, ha⟩

theorem Derives.ne_nil {φ : Phrase} {w : List Token} (h : Derives φ w) (hφ : ¬ φ.IsEmpty) :
    w ≠ [] := by
  obtain ⟨hempty, -⟩ | ⟨t, us, rfl, -⟩ := h.first
  · exact absurd hempty hφ
  · exact List.cons_ne_nil t us

/-- Square brackets end with a closing one. -/
theorem Derives.last_of_brackets {ds : List (Option Expr)} {w : List Token}
    (h : Derives (.brackets ds) w) : ∀ t ∈ w.getLast?, Pattern.closeBracket.fits t = true := by
  induction ds generalizing w with
  | nil =>
    cases h
    nofun
  | cons d ds ih =>
    have hlast : ∀ {b : Token} {u v : List Token}, Pattern.closeBracket.fits b = true →
        Derives (.brackets ds) v →
        ∀ t ∈ (u ++ b :: v).getLast?, Pattern.closeBracket.fits t = true := by
      intro b u v hb hv t ht
      rw [List.getLast?_append, List.getLast?_cons, Option.some_or] at ht
      cases hend : v.getLast? with
      | none =>
        rw [hend] at ht
        cases ht
        exact hb
      | some c =>
        rw [hend] at ht
        cases ht
        exact ih hv c hend
    cases h with
    | filled _ _ hb hds => exact hlast hb hds
    | @empty a _ _ _ _ hb hds => exact hlast (u := [a]) hb hds

theorem Token.IsConstant.kind_mem {t : Token} (h : t.IsConstant) :
    t.kind ∈ [Kind.number, .string, .keyword] := by
  rcases h with h | h | h | h
  · simp [h]
  · simp [h]
  · simp [Reading.kind_of_fits h, Pattern.keyword]
  · simp [Reading.kind_of_fits h, Pattern.keyword]

theorem Token.OpensOperand.kind_mem {t : Token} (h : t.OpensOperand) :
    t.kind ∈ [Kind.identifier, .paren, .operator, .number, .string, .keyword] := by
  rcases h with h | h | h | h | h
  · simp [h]
  · simp [Reading.kind_of_fits h, Pattern.openParen]
  · exact List.mem_append_right [.identifier, .paren, .operator] h.kind_mem
  · simp [Reading.kind_of_fits h, Pattern.keyword]
  · obtain ⟨op, hop⟩ := Option.isSome_iff_exists.mp h
    simp [(Token.unaryOp?_eq_some hop).1]

theorem Token.OpensOperand.ne_eof {t : Token} (h : t.OpensOperand) : t.kind ≠ .eof := by
  intro heof
  have hmem := h.kind_mem
  simp [heof] at hmem

/-! ## The tokens that a reading takes -/

/-- A token that is spelled like an opening bracket is one. -/
def Token.Faithful (ts : List Token) : Prop :=
  ∀ t ∈ ts, t.text = "(" → Pattern.openParen.fits t = true

theorem Token.Faithful.of_append {ts us : List Token} (h : Faithful (ts ++ us)) : Faithful us :=
  fun t ht => h t (List.mem_append_right ts ht)

theorem Token.Faithful.tail {t : Token} {ts : List Token} (h : Faithful (t :: ts)) : Faithful ts :=
  fun u hu => h u (List.mem_cons_of_mem t hu)

namespace Reading

variable {α β : Type} {ts : List Token}

/-- Whatever `x` reads from the front of `ts`, its value and the tokens it takes satisfy
`P`. -/
def Takes (P : α → List Token → Prop) (x : Reading α) (ts : List Token) : Prop :=
  Token.Faithful ts → ∀ a rest, x ts = .ok (a, rest) → ∃ w, ts = w ++ rest ∧ P a w

namespace Takes

variable {P : α → List Token → Prop} {Q : β → List Token → Prop} {x : Reading α} {y z : Reading β}

theorem mono {P' : α → List Token → Prop} (h : Takes P x ts) (hP : ∀ a w, P a w → P' a w) :
    Takes P' x ts := by
  intro hts a rest hx
  obtain ⟨w, hw, ha⟩ := h hts a rest hx
  exact ⟨w, hw, hP a w ha⟩

theorem pure {a : α} (h : P a []) : Takes P (Pure.pure a) ts := by
  intro _ b rest hx
  cases hx
  exact ⟨[], rfl, h⟩

theorem refuse (reason : Refusal) : Takes P (refuse reason) ts := by
  intro _ a rest hx
  cases ts <;> cases hx

theorem exhausted : Takes P exhausted ts := by
  intro _ a rest hx
  cases hx

/-- What is read second is taken behind what is read first. -/
theorem bind {f : α → Reading β} (hx : Takes P x ts)
    (hf : ∀ a w rest, ts = w ++ rest → P a w → Takes (fun b v => Q b (w ++ v)) (f a) rest) :
    Takes Q (x >>= f) ts := by
  intro hts b rest h
  obtain ⟨a, mid, hmid, hrest⟩ := bind_eq_ok_iff.mp h
  obtain ⟨w, rfl, ha⟩ := hx hts a mid hmid
  obtain ⟨v, rfl, hb⟩ := hf a w mid rfl ha hts.of_append b rest hrest
  exact ⟨w ++ v, (List.append_assoc w v rest).symm, hb⟩

/-- Looking at tokens takes none. -/
theorem look {f : α → Reading β} (hx : ∀ a rest, x ts = .ok (a, rest) → rest = ts)
    (hf : ∀ a, x ts = .ok (a, ts) → Takes Q (f a) ts) : Takes Q (x >>= f) ts := by
  intro hts b rest h
  obtain ⟨a, mid, hmid, hrest⟩ := bind_eq_ok_iff.mp h
  obtain rfl := hx a mid hmid
  exact hf a hmid hts b rest hrest

theorem current {f : Token → Reading β} (hf : ∀ t us, ts = t :: us → Takes Q (f t) (t :: us)) :
    Takes Q (current >>= f) ts := by
  cases ts with
  | nil =>
    intro _ b rest h
    cases h
  | cons t us => exact hf t us rfl

theorem here {f : Pos → Reading β} (hf : ∀ t us, ts = t :: us → Takes Q (f t.pos) (t :: us)) :
    Takes Q (here >>= f) ts := by
  cases ts with
  | nil =>
    intro _ b rest h
    cases h
  | cons t us => exact hf t us rfl

theorem isAt {p : Pattern} {f : Bool → Reading β}
    (hf : ∀ t us, ts = t :: us → Takes Q (f (p.fits t)) (t :: us)) : Takes Q (isAt p >>= f) ts := by
  cases ts with
  | nil =>
    intro _ b rest h
    cases h
  | cons t us => exact hf t us rfl

theorem ite {c : Prop} [Decidable c] (hy : c → Takes Q y ts) (hz : ¬ c → Takes Q z ts) :
    Takes Q (if c then y else z) ts := by
  split
  · exact hy ‹_›
  · exact hz ‹_›

theorem advance {f : Token → Reading β} {t : Token} {us : List Token} (ht : t.kind ≠ .eof)
    (hf : Takes (fun b v => Q b (t :: v)) (f t) us) : Takes Q (advance >>= f) (t :: us) := by
  intro hts b rest h
  rw [bind_apply, Reading.advance, if_neg ht] at h
  obtain ⟨v, rfl, hb⟩ := hf hts.tail b rest h
  exact ⟨t :: v, rfl, hb⟩

theorem acceptThen {p : Pattern} (hp : p.kind ≠ .eof)
    (hy : ∀ t us, ts = t :: us → p.fits t = true → Takes (fun b v => Q b (t :: v)) y us)
    (hz : ∀ t us, ts = t :: us → p.fits t = false → Takes Q z (t :: us)) :
    Takes Q (accept p >>= fun r => if r.isSome = true then y else z) ts := by
  intro hts b rest h
  obtain ⟨r, mid, haccept, hnext⟩ := bind_eq_ok_iff.mp h
  obtain ⟨-, ⟨t, rfl, rfl, hfits, -⟩ | ⟨rfl, rfl, t, us, rfl, hfits⟩⟩ :=
    (Tracks.accept (φ := id) hp).of_ok haccept
  · obtain ⟨v, rfl, hb⟩ := hy t mid rfl hfits hts.tail b rest hnext
    exact ⟨t :: v, rfl, hb⟩
  · exact hz t us rfl hfits hts b rest hnext

theorem expect {p : Pattern} {reason : Refusal} {f : Token → Reading β} (hp : p.kind ≠ .eof)
    (hf : ∀ t us, ts = t :: us → p.fits t = true → Takes (fun b v => Q b (t :: v)) (f t) us) :
    Takes Q (expect p reason >>= f) ts := by
  intro hts b rest h
  obtain ⟨t, mid, hexpect, hnext⟩ := bind_eq_ok_iff.mp h
  obtain ⟨-, rfl, hfits, -⟩ := (Tracks.expect (φ := id) reason hp).of_ok hexpect
  obtain ⟨v, rfl, hb⟩ := hf t mid rfl hfits hts.tail b rest hnext
  exact ⟨t :: v, rfl, hb⟩

/-- Tokens of which something can be made. -/
theorem collect (read : Token → Option α) :
    Takes (fun as w => w.map read = as.map some) (collect read) ts := by
  induction ts with
  | nil =>
    intro _ as rest h
    cases h
  | cons t ts ih =>
    intro hts as rest h
    rw [Reading.collect] at h
    cases hread : read t with
    | none =>
      simp only [hread] at h
      cases h
      exact ⟨[], rfl, rfl⟩
    | some a =>
      simp only [hread] at h
      cases hmore : Reading.collect read ts with
      | error e => simp [hmore] at h
      | ok r =>
        obtain ⟨as', rest'⟩ := r
        simp only [hmore] at h
        cases h
        obtain ⟨w, rfl, hw⟩ := ih hts.tail as' rest hmore
        exact ⟨t :: w, rfl, by simp [hread, hw]⟩

/-- Items are taken one behind the other. -/
theorem many {wanted : Token → Bool} {L : List α → List Token → Prop} (hnil : L [] [])
    (hcons : ∀ a w as v, P a w → L as v → L (a :: as) (w ++ v))
    (hx : ∀ t us, wanted t = true → Takes P x (t :: us)) : Takes L (many wanted x) ts := by
  have hclock : ∀ clock us, Takes L (manyWithin wanted x clock) us := by
    intro clock
    induction clock with
    | nil => exact fun _ => exhausted
    | cons c clock ih =>
      intro us
      refine current ?_
      intro t vs _
      refine ite (fun ht => ?_) (fun _ => pure hnil)
      refine bind (hx t vs ht) ?_
      intro a w rest _ ha
      refine bind (ih rest) ?_
      intro as v rest' _ has
      refine pure ?_
      rw [List.append_nil]
      exact hcons a w as v ha has
  exact hclock ts ts

/-- Each step goes on behind what was taken so far. -/
theorem iterate {step : α → Reading (Option α)} {I : α → List Token → Prop}
    (hstep : ∀ a u us, I a u →
      Takes (fun r v => (r = none ∧ v = []) ∨ ∃ b, r = some b ∧ I b (u ++ v)) (step a) us)
    {a : α} {u : List Token} (ha : I a u) :
    Takes (fun b v => I b (u ++ v)) (iterate step a) ts := by
  have hclock : ∀ clock us a u, I a u →
      Takes (fun b v => I b (u ++ v)) (iterateWithin step clock a) us := by
    intro clock
    induction clock with
    | nil => exact fun _ _ _ _ => exhausted
    | cons c clock ih =>
      intro us a u ha
      refine bind (hstep a u us ha) ?_
      rintro r v rest - (⟨rfl, rfl⟩ | ⟨b, rfl, hb⟩)
      · refine pure ?_
        simpa using ha
      · refine (ih rest b _ hb).mono ?_
        intro b' v' hb'
        simpa [List.append_assoc] using hb'
  exact hclock ts ts a u ha

end Takes

/-! ## The readings of expressions -/

/-- What the nested readings take is derived. -/
structure Nested.Derived (inner : Nested) : Prop where
  expression : ∀ ts, Takes (fun e w => Derives (.whole e) w) inner.expression ts
  initializer : ∀ ts, Takes (fun e w => Derives (.initializer e) w) inner.initializer ts

variable {inner : Nested}

/-- Behind a first item, items that each follow a comma. -/
theorem Takes.separated {braced : Bool} {item : Reading Expr}
    (hitem : ∀ ts, Takes (fun e w => Derives (.item braced e) w) item ts) :
    Takes (fun es v => ∀ first w, Derives (.item braced first) w →
        Derives (.items braced (first :: es)) (w ++ v))
      (Reading.many Pattern.comma.fits (Reading.advance >>= fun _ => item)) ts := by
  refine Takes.many (P := fun e w => ∃ c v, w = c :: v ∧ Pattern.comma.fits c = true ∧
    Derives (.item braced e) v) ?_ ?_ ?_
  · intro first w hfirst
    rw [List.append_nil]
    exact .lastItem hfirst
  · rintro e _ es v ⟨c, w, rfl, hc, he⟩ hes first u hfirst
    exact .moreItems hfirst hc (hes e w he)
  · intro c us hc
    refine Takes.advance (ne_eof_of_fits hc (by decide)) ?_
    refine (hitem us).mono ?_
    intro e w he
    exact ⟨c, w, rfl, hc, he⟩

theorem Takes.argumentsWith (hin : inner.Derived) :
    Takes (fun es w => ∃ v b, w = v ++ [b] ∧ Derives (.items false es) v ∧
      Pattern.closeParen.fits b = true) (argumentsWith inner) ts := by
  refine Takes.acceptThen (by decide) ?_ ?_
  · intro b us _ hb
    exact .pure ⟨[], b, rfl, .noItem, hb⟩
  · intro t us _ _
    refine Takes.bind (hin.expression _) ?_
    intro first w rest _ hfirst
    have hitem : ∀ ts, Takes (fun e w => Derives (.item false e) w) inner.expression ts :=
      fun ts => (hin.expression ts).mono fun _ _ => .expressionItem
    refine Takes.bind (Takes.separated hitem) ?_
    intro others v rest' _ hothers
    refine Takes.expect (by decide) ?_
    intro b us' _ hb
    refine .pure ⟨w ++ v, b, by simp, hothers first w (.expressionItem hfirst), hb⟩

/-- One pair of brackets after the other, all of them filled. -/
theorem Takes.subscriptsWith (hin : inner.Derived) :
    Takes (fun es w => Derives (.brackets (es.map some)) w) (subscriptsWith inner) ts := by
  refine Takes.many (P := fun e w => ∃ a v b, w = a :: v ++ [b] ∧
    Pattern.openBracket.fits a = true ∧ Derives (.whole e) v ∧
    Pattern.closeBracket.fits b = true) .noBrackets ?_ ?_
  · rintro e _ es v ⟨a, w, b, rfl, ha, he, hb⟩ hes
    simpa using Derives.filled ha he hb hes
  · intro a us ha
    refine Takes.advance (ne_eof_of_fits ha (by decide)) ?_
    refine Takes.bind (hin.expression _) ?_
    intro e w rest _ he
    refine Takes.expect (by decide) ?_
    intro b us' _ hb
    exact .pure ⟨a, w, b, by simp, ha, he, hb⟩

/-- Where an item is wanted, there is one. -/
theorem many_ne_nil {wanted : Token → Bool} {x : Reading α} {t : Token} {us rest : List Token}
    {as : List α} (ht : wanted t = true) (h : many wanted x (t :: us) = .ok (as, rest)) :
    as ≠ [] := by
  obtain ⟨_, mid, hcurrent, h⟩ := bind_eq_ok_iff.mp h
  cases hcurrent
  rw [if_pos ht] at h
  obtain ⟨a, mid, -, h⟩ := bind_eq_ok_iff.mp h
  obtain ⟨as', mid', -, h⟩ := bind_eq_ok_iff.mp h
  cases h
  exact List.cons_ne_nil a as'

section Parts

variable (hin : inner.Derived)
include hin

/-- One step behind a base leads to a base. -/
theorem Takes.extendWith {node : Expr} {u : List Token}
    (hnode : Derives (.base node) u) :
    Takes (fun r v => (r = none ∧ v = []) ∨ ∃ e, r = some e ∧ Derives (.base e) (u ++ v))
      (extendWith inner node) ts := by
  refine Takes.current ?_
  intro t us _
  refine Takes.ite (fun ht => ?_) fun _ => Takes.ite (fun ht => ?_) fun _ =>
    Takes.ite (fun ht => ?_) fun _ => .pure (.inl ⟨rfl, rfl⟩)
  · cases node with
    | name p f =>
      refine Takes.advance (ne_eof_of_fits ht (by decide)) ?_
      refine Takes.bind (Takes.argumentsWith hin) ?_
      rintro es _ rest - ⟨w, b, rfl, hes, hb⟩
      refine .pure (.inr ⟨_, rfl, ?_⟩)
      simpa using Derives.call hnode ht hes hb
    | _ => exact Takes.refuse _
  · refine Takes.advance (ne_eof_of_fits ht (by decide)) ?_
    refine Takes.expect (by decide) ?_
    intro field us' _ hfield
    have hkind : field.kind = .identifier := kind_of_fits hfield
    refine Takes.acceptThen (by decide) ?_ ?_
    · intro a us'' _ ha
      refine Takes.bind (Takes.argumentsWith hin) ?_
      rintro es _ rest - ⟨w, b, rfl, hes, hb⟩
      refine .pure (.inr ⟨_, rfl, ?_⟩)
      simpa using Derives.methodCall hnode ht hkind ha hes hb
    · intro _ _ _ _
      refine Takes.ite (fun htext => .pure (.inr ⟨_, rfl, ?_⟩)) fun htext =>
        .pure (.inr ⟨_, rfl, ?_⟩)
      · exact .length hnode ht hkind htext
      · exact .property hnode ht hkind htext
  · have hindices : Takes (fun es w => es ≠ [] ∧ Derives (.brackets (es.map some)) w)
        (Reading.subscriptsWith inner) (t :: us) := by
      intro hts es rest hes
      obtain ⟨w, hw, hderives⟩ := Takes.subscriptsWith hin hts es rest hes
      exact ⟨w, hw, many_ne_nil ht hes, hderives⟩
    refine Takes.bind hindices ?_
    rintro es w rest - ⟨hne, hes⟩
    refine .pure (.inr ⟨_, rfl, ?_⟩)
    simpa using Derives.index hnode hes hne

/-- A base with all that stands behind it. -/
theorem Takes.suffixesWith {base : Expr} {u : List Token}
    (hbase : Derives (.base base) u) :
    Takes (fun e v => Derives (.level 0 e) (u ++ v)) (suffixesWith inner base) ts := by
  refine Takes.bind (Takes.iterate (fun _ _ _ hnode => Takes.extendWith hin hnode) hbase) ?_
  intro node w rest _ hnode
  refine Takes.current ?_
  intro t us _
  cases hop : t.updateOp? with
  | none =>
    refine .pure ?_
    simpa using Derives.operand hnode
  | some op =>
    refine Takes.advance (by simp [(Token.updateOp?_eq_some hop).1]) (.pure ?_)
    simpa using Derives.update hnode hop

/-- Pairs of brackets, filled or empty. -/
theorem Takes.dimensionsWith :
    Takes (fun ds w => Derives (.brackets ds) w)
      (Reading.many Pattern.openBracket.fits (dimensionWith inner)) ts := by
  refine Takes.many (P := fun d w => ∀ ds v, Derives (.brackets ds) v →
    Derives (.brackets (d :: ds)) (w ++ v)) .noBrackets ?_ ?_
  · intro d w ds v hd hds
    exact hd ds v hds
  · intro a us ha
    refine Takes.advance (ne_eof_of_fits ha (by decide)) ?_
    refine Takes.acceptThen (by decide) ?_ ?_
    · intro b us' _ hb
      exact .pure fun ds v hds => .empty ha hb hds
    · intro _ _ _ _
      refine Takes.bind (hin.expression _) ?_
      intro e w rest _ he
      refine Takes.expect (by decide) ?_
      intro b us' _ hb
      refine .pure fun ds v hds => ?_
      simpa using Derives.filled ha he hb hds

/-- A fresh object or array behind the word `new`. -/
theorem Takes.freshWith {k : Token}
    (hk : (Pattern.keyword "new").fits k = true) :
    Takes (fun e v => Derives (.level 0 e) (k :: v)) (freshWith inner k.pos) ts := by
  refine Takes.current ?_
  intro t us _
  refine Takes.look (fun u rest hu => ((Tracks.peek (φ := id) 1).of_ok hu).2.1) ?_
  intro a hpeek
  refine Takes.ite ?_ fun _ => Takes.ite ?_ fun _ => Takes.refuse _
  · rintro ⟨ht, ha⟩
    intro hts
    refine Takes.advance (by simp [ht]) ?_ hts
    cases us with
    | nil =>
      intro _ e rest h
      cases h
    | cons a' us =>
      obtain rfl : a' = a := by
        cases hpeek
        rfl
      have hopen : Pattern.openParen.fits a' = true := hts a' (by simp) ha
      refine Takes.advance (ne_eof_of_fits hopen (by decide)) ?_
      refine Takes.bind (Takes.argumentsWith hin) ?_
      rintro es _ rest - ⟨w, b, rfl, hes, hb⟩
      refine .pure ?_
      simpa using Derives.newObject hk ht hopen hes hb
  · intro ht
    refine Takes.advance (by rcases ht with ht | ht <;> simp [ht]) ?_
    refine Takes.bind (Takes.dimensionsWith hin) ?_
    intro ds w rest _ hds
    cases hlast : ds.getLast? with
    | none => exact Takes.refuse _
    | some last =>
      refine Takes.isAt ?_
      intro b us' _
      refine Takes.ite (fun hopen => ?_) fun _ => ?_
      · simp only [Bool.and_eq_true, Option.isNone_iff_eq_none] at hopen
        refine (hin.initializer _).mono ?_
        intro e v he
        exact .newElements hk ht hds (hopen.1 ▸ hlast) he
      · cases hsizes : ds.mapM id with
        | none => exact Takes.refuse _
        | some sizes =>
          obtain rfl := mapM_id_eq_some.mp hsizes
          refine .pure ?_
          rw [List.append_nil]
          refine .newArray hk ht hds ?_
          rintro rfl
          cases hlast

theorem Takes.primaryWith :
    Takes (fun e w => Derives (.level 0 e) w) (primaryWith inner) ts := by
  refine Takes.current ?_
  intro t us _
  refine Takes.ite (fun hnew => ?_) fun _ => Takes.ite (fun hliteral => ?_) fun _ =>
    Takes.ite (fun hname => ?_) fun _ => Takes.ite (fun hopen => ?_) fun _ => Takes.refuse _
  · exact Takes.advance (ne_eof_of_fits hnew (by decide)) (Takes.freshWith hin hnew)
  · have hliteral : t.IsConstant := hliteral
    exact Takes.advance (Token.OpensOperand.ne_eof (.inr (.inr (.inl hliteral))))
      (.pure (.literal hliteral))
  · exact Takes.advance (by simp [hname]) (Takes.suffixesWith hin (.name hname))
  · refine Takes.advance (ne_eof_of_fits hopen (by decide)) ?_
    refine Takes.bind (hin.expression _) ?_
    intro e w rest _ he
    refine Takes.expect (by decide) ?_
    intro b us' _ hb
    refine (Takes.suffixesWith hin (.paren hopen he hb)).mono ?_
    intro e' v he'
    simpa using he'

theorem Takes.unaryWith :
    Takes (fun e w => Derives (.level 0 e) w) (unaryWith inner) ts := by
  refine Takes.bind (Takes.collect _) ?_
  rintro signs w rest - hsigns
  refine Takes.bind (Takes.primaryWith hin) ?_
  intro operand v rest' _ hoperand
  refine .pure ?_
  rw [List.append_nil]
  induction w generalizing signs with
  | nil =>
    obtain rfl : signs = [] := by simpa using hsigns.symm
    exact hoperand
  | cons t w ih =>
    cases signs with
    | nil => cases hsigns
    | cons sign signs =>
      obtain ⟨hsign, hmore⟩ := List.cons.inj hsigns
      obtain ⟨op, hop, rfl⟩ := Option.map_eq_some_iff.mp hsign
      exact .unary hop (ih signs hmore)

theorem Takes.levelWith (n : Nat) :
    Takes (fun e w => Derives (.level n e) w) (levelWith inner n) ts := by
  induction n generalizing ts with
  | zero => exact Takes.unaryWith hin
  | succ n ih =>
    rw [levelWith_succ, leftAssoc_eq]
    refine Takes.bind ih ?_
    intro first u rest _ hfirst
    refine Takes.iterate (I := fun e w => Derives (.level (n + 1) e) w) ?_ (.climb hfirst)
    intro left w us hleft
    refine Takes.current ?_
    intro t vs _
    cases hop : levelOp? n t with
    | none => exact .pure (.inl ⟨rfl, rfl⟩)
    | some op =>
      refine Takes.advance (by simp [(levelOp?_eq_some hop).1]) ?_
      refine Takes.bind ih ?_
      intro right v rest' _ hright
      refine .pure (.inr ⟨_, rfl, ?_⟩)
      simpa using Derives.binary hleft hop hright

theorem Takes.assigningWith :
    Takes (fun e w => Derives (.whole e) w) (assigningWith inner) ts := by
  refine Takes.bind (Takes.levelWith hin loosest) ?_
  intro left u rest _ hleft
  refine Takes.current ?_
  intro t us _
  cases hop : t.assignOp? with
  | none =>
    refine .pure ?_
    simpa using Derives.plain hleft
  | some op =>
    refine Takes.ite (fun htarget => ?_) fun _ => Takes.refuse _
    refine Takes.advance (by simp [(Token.assignOp?_eq_some hop).1]) ?_
    refine Takes.bind (hin.expression _) ?_
    intro value w rest' _ hvalue
    refine .pure ?_
    simpa using Derives.assign hleft htarget hop hvalue

theorem Takes.elementWith :
    Takes (fun e w => Derives (.item true e) w) (elementWith inner) ts := by
  refine Takes.isAt ?_
  intro t us _
  refine Takes.ite (fun _ => ?_) fun _ => ?_
  · exact (hin.initializer _).mono fun _ _ => .elementsItem
  · exact (hin.expression _).mono fun _ _ => .expressionItem

theorem Takes.elementsWith :
    Takes (fun e w => Derives (.initializer e) w) (elementsWith inner) ts := by
  refine Takes.here ?_
  intro t us _
  refine Takes.expect (by decide) ?_
  intro a us' heq ha
  obtain ⟨rfl, rfl⟩ := List.cons.inj heq
  refine Takes.acceptThen (by decide) ?_ ?_
  · intro b us'' _ hb
    exact .pure (.braces ha .noItem hb)
  · intro _ _ _ _
    refine Takes.bind (Takes.elementWith hin) ?_
    intro first w rest _ hfirst
    refine Takes.bind (Takes.separated fun ts => Takes.elementWith hin) ?_
    intro others v rest' _ hothers
    refine Takes.expect (by decide) ?_
    intro b us'' _ hb
    refine .pure ?_
    simpa using Derives.braces ha (hothers first w hfirst) hb

end Parts

theorem derived_nestedWithin (clock : List Token) : (nestedWithin clock).Derived := by
  induction clock with
  | nil => exact ⟨fun _ => Takes.exhausted, fun _ => Takes.exhausted⟩
  | cons c clock ih => exact ⟨fun _ => Takes.assigningWith ih, fun _ => Takes.elementsWith ih⟩

/-- What is read as an expression is derived. -/
theorem Takes.expression : Takes (fun e w => Derives (.whole e) w) expression ts :=
  (derived_nestedWithin ts).expression ts

theorem Takes.initializer : Takes (fun e w => Derives (.initializer e) w) initializer ts :=
  (derived_nestedWithin ts).initializer ts

theorem Takes.suffixes {base : Expr} {u : List Token} (hbase : Derives (.base base) u) :
    Takes (fun e v => Derives (.level 0 e) (u ++ v)) (suffixes base) ts :=
  Takes.suffixesWith (derived_nestedWithin ts) hbase

end Reading

end Pseudocode
