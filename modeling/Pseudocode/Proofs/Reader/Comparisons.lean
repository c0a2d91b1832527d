import Pseudocode.Proofs.Program.Parts
import Pseudocode.Proofs.Reader.Sentences
set_option autoImplicit false

/-!
# Comparisons among the tokens of a program

Every sign `<` that reading takes is the operator of a comparison.  `ComparesAt` says which
tokens its operands are, and `Follows` what may stand behind the comparison: an operator of
which it is the left operand, a comma and the next arguments, or something else.
-/

namespace Pseudocode

open Reading (levelOp? loosest)

/-! ## Signs -/

namespace Token

/-- The sign `<`. -/
def IsLess (t : Token) : Prop :=
  t.kind = .operator ∧ t.text = "<"

/-- A sign that goes on with type arguments behind one of them. -/
def GoesOn (t : Token) : Prop :=
  t.text ∈ [",", "[", ">", ">="]

variable {t : Token}

theorem not_isLess_of_kind (h : t.kind ≠ .operator) : ¬ t.IsLess :=
  fun hless => h hless.1

theorem not_isLess_of_fits {p : Pattern} (h : p.fits t = true) (hp : p.kind ≠ .operator) :
    ¬ t.IsLess :=
  not_isLess_of_kind (Reading.kind_of_fits h ▸ hp)

theorem not_isLess_of_isConstant (h : t.IsConstant) : ¬ t.IsLess := by
  apply not_isLess_of_kind
  intro hkind
  have hmem := h.kind_mem
  simp [hkind] at hmem

theorem not_goesOn_of_fits {p : Pattern} {text : String} (h : p.fits t = true)
    (hp : p.text = some text) (htext : text ∉ [",", "[", ">", ">="]) : ¬ t.GoesOn := by
  rw [GoesOn, Reading.text_of_fits h hp]
  exact htext

theorem text_of_binaryOp? {op : BinaryOp} (h : t.binaryOp? = some op) : t.text = op.symbol := by
  have hfound := List.find?_some (operator?_eq_some h).2
  exact (beq_iff_eq.mp hfound).symm

/-- The operator with a symbol. -/
theorem op_of_text {op : BinaryOp} (h : t.binaryOp? = some op) (op' : BinaryOp)
    (hop' : op' ∈ BinaryOp.all) (htext : t.text = op'.symbol) : op = op' := by
  have hall : ∀ op ∈ BinaryOp.all, ∀ op' ∈ BinaryOp.all, op.symbol = op'.symbol → op = op' := by
    decide
  exact hall op (binaryOp?_eq_some h).2 op' hop' ((text_of_binaryOp? h).symm.trans htext)

theorem text_of_updateOp? {op : UpdateOp} (h : t.updateOp? = some op) : t.text ∈ ["++", "--"] := by
  have hfound := List.find?_some (operator?_eq_some h).2
  rw [← beq_iff_eq.mp hfound]
  rcases (updateOp?_eq_some h).2 with rfl | rfl <;> decide

theorem not_isLess_of_updateOp? {op : UpdateOp} (h : t.updateOp? = some op) : ¬ t.IsLess := by
  rintro ⟨-, htext⟩
  simpa [htext] using text_of_updateOp? h

theorem not_goesOn_of_updateOp? {op : UpdateOp} (h : t.updateOp? = some op) : ¬ t.GoesOn := by
  intro ht
  have htext := text_of_updateOp? h
  simp only [GoesOn, List.mem_cons, List.not_mem_nil, or_false] at ht
  rcases ht with ht | ht | ht | ht <;> simp [ht] at htext

theorem text_of_unaryOp? {op : UnaryOp} (h : t.unaryOp? = some op) : t.text ∈ ["!", "-"] := by
  have hfound := List.find?_some (operator?_eq_some h).2
  rw [← beq_iff_eq.mp hfound]
  rcases (unaryOp?_eq_some h).2 with rfl | rfl <;> decide

theorem not_isLess_of_unaryOp? {op : UnaryOp} (h : t.unaryOp? = some op) : ¬ t.IsLess := by
  rintro ⟨-, htext⟩
  simpa [htext] using text_of_unaryOp? h

theorem text_of_assignOp? {op : AssignOp} (h : t.assignOp? = some op) :
    t.text ∈ ["=", "+=", "-=", "*=", "/=", "%="] := by
  have hfound := List.find?_some (operator?_eq_some h).2
  rw [← beq_iff_eq.mp hfound]
  have hall : ∀ op ∈ AssignOp.all, op.symbol ∈ ["=", "+=", "-=", "*=", "/=", "%="] := by decide
  exact hall op (assignOp?_eq_some h).2

theorem not_isLess_of_assignOp? {op : AssignOp} (h : t.assignOp? = some op) : ¬ t.IsLess := by
  rintro ⟨-, htext⟩
  simpa [htext] using text_of_assignOp? h

theorem not_goesOn_of_assignOp? {op : AssignOp} (h : t.assignOp? = some op) : ¬ t.GoesOn := by
  intro ht
  have htext := text_of_assignOp? h
  simp only [GoesOn, List.mem_cons, List.not_mem_nil, or_false] at ht
  rcases ht with ht | ht | ht | ht <;> simp [ht] at htext

/-- The operators of one level only compare by size. -/
theorem level_of_text {n : Nat} {op : BinaryOp} (h : levelOp? n t = some op)
    (ht : t.text ∈ ["<", ">", ">=", ",", "["]) : n = 2 := by
  obtain ⟨hop, hlevel⟩ := Option.mem_filter_iff.mp h
  have hall : ∀ op ∈ BinaryOp.all, op.symbol ∈ ["<", ">", ">=", ",", "["] → op.precedence = 4 := by
    decide
  have hprecedence := hall op (binaryOp?_eq_some hop).2 (text_of_binaryOp? hop ▸ ht)
  rw [beq_iff_eq, hprecedence, loosest] at hlevel
  omega

theorem not_goesOn_of_level {n : Nat} {op : BinaryOp} (h : levelOp? n t = some op) (hn : n ≠ 2) :
    ¬ t.GoesOn := by
  intro ht
  simp only [GoesOn, List.mem_cons, List.not_mem_nil, or_false] at ht
  refine hn (level_of_text h ?_)
  rcases ht with ht | ht | ht | ht <;> simp [ht]

end Token

/-! ## The ends of an expression -/

namespace Expr

/-- The expression and the operands at its right end. -/
def rightSpine : Expr → List Expr
  | .binary p op l r => .binary p op l r :: rightSpine r
  | .assign p target op value => .assign p target op value :: rightSpine value
  | e => [e]

theorem mem_rightSpine_self (e : Expr) : e ∈ e.rightSpine := by
  cases e <;> simp [rightSpine]

end Expr

/-- All expressions in a phrase. -/
def Phrase.parts : Phrase → List Expr
  | .base e | .level _ e | .whole e | .initializer e | .item _ e => e.parts
  | .items _ es => es.flatMap Expr.parts
  | .brackets ds => ds.flatMap fun d => (d.map Expr.parts).getD []

theorem Phrase.parts_brackets_map (es : List Expr) :
    (brackets (es.map some)).parts = es.flatMap Expr.parts := by
  rw [parts, List.flatMap_map]
  rfl

/-- The comparison `x` stands at the end of the phrase, but for the items `v` behind it. -/
inductive Phrase.Tail : Phrase → Expr → List Token → Prop where
  | level {n : Nat} {e x : Expr} (hn : 3 ≤ n) (hx : x ∈ e.rightSpine) (hexact : n = 3 → e = x) :
      Tail (.level n e) x []
  | whole {e x : Expr} (hx : x ∈ e.rightSpine) : Tail (.whole e) x []
  | item {braced : Bool} {e x : Expr} (hx : x ∈ e.rightSpine) : Tail (.item braced e) x []
  | last {braced : Bool} {e x : Expr} (hx : x ∈ e.rightSpine) : Tail (.items braced [e]) x []
  | more {braced : Bool} {e e' x : Expr} {es : List Expr} {c : Token} {w : List Token}
      (hx : x ∈ e.rightSpine) (hc : Pattern.comma.fits c = true)
      (hes : Derives (.items braced (e' :: es)) w) :
      Tail (.items braced (e :: e' :: es)) x (c :: w)
  | later {braced : Bool} {e x : Expr} {es : List Expr} {v : List Token}
      (h : Tail (.items braced es) x v) : Tail (.items braced (e :: es)) x v

/-! ## What stands behind a comparison -/

/-- The tokens behind the comparison `x`, up to the end of a sentence.  The expressions that
are read from the sentence satisfy `E`. -/
inductive Follows (E : Expr → Prop) (x : Expr) : List Token → Prop where
  | operator {p : Pos} {op : BinaryOp} {r : Expr} {t : Token} {v : List Token}
      (ht : t.binaryOp? = some op) (h : E (.binary p op x r)) : Follows E x (t :: v)
  | comma {braced : Bool} {e first : Expr} {front more : List Expr} {c k : Token}
      {w v : List Token} (he : E e) (hitems : e.items = front ++ first :: more)
      (hx : x ∈ first.rightSpine) (hc : Pattern.comma.fits c = true)
      (hmore : Derives (.items braced more) w) (hne : more ≠ []) (hk : ¬ k.GoesOn) :
      Follows E x (c :: w ++ k :: v)
  | other {t : Token} {v : List Token} (ht : ¬ t.GoesOn) : Follows E x (t :: v)

theorem Follows.append {E E' : Expr → Prop} {x : Expr} {v : List Token} (h : Follows E x v)
    (hE : ∀ e, E e → E' e) (z : List Token) : Follows E' x (v ++ z) := by
  cases h with
  | operator ht hnode => exact .operator ht (hE _ hnode)
  | comma he hitems hx hc hmore hne hk =>
    rw [List.append_assoc, List.cons_append]
    exact .comma (hE _ he) hitems hx hc hmore hne hk
  | other ht => exact .other ht

theorem Phrase.Tail.follows_of_append {braced : Bool} {front es : List Expr} {x e : Expr}
    {E : Expr → Prop} {v : List Token} (h : Tail (.items braced es) x v) (he : E e)
    (hitems : e.items = front ++ es) {k : Token} (hk : ¬ k.GoesOn) : Follows E x (v ++ [k]) := by
  generalize hφ : Phrase.items braced es = φ at h
  induction h generalizing front es with
  | level | whole | item => cases hφ
  | last => exact .other hk
  | more hx hc hes =>
    cases hφ
    exact .comma he hitems hx hc hes (List.cons_ne_nil _ _) hk
  | later _ ih =>
    cases hφ
    exact ih (by rw [hitems, List.append_cons]) rfl

/-- The items behind a comparison go on to the sign that closes their list. -/
theorem Phrase.Tail.follows {braced : Bool} {x e : Expr} {E : Expr → Prop} {v : List Token}
    (h : Tail (.items braced e.items) x v) (he : E e) {k : Token} (hk : ¬ k.GoesOn) :
    Follows E x (v ++ [k]) :=
  h.follows_of_append he (List.nil_append e.items).symm hk

/-- The tokens `u` before a sign `<` end with its left operand, and the tokens `v` behind it
start with its right operand.  The comparison satisfies `E`, and the tokens behind it are as
`T` says, or as they may follow in a sentence. -/
def ComparesAt (T : Expr → List Token → Prop) (E : Expr → Prop) (u v : List Token) : Prop :=
  ∃ (p : Pos) (l r : Expr) (u' wl wr v' : List Token), u = u' ++ wl ∧ v = wr ++ v' ∧
    Derives (.level 3 l) wl ∧ Derives (.level 2 r) wr ∧ E (.binary p .lt l r) ∧
    (T (.binary p .lt l r) v' ∨ Follows E (.binary p .lt l r) v')

/-- The expression is read from the tokens but not kept: it is in a dimension of an array
whose elements are listed, as in `new int[e][] {1}`. -/
def Dropped (w : List Token) (e : Expr) : Prop :=
  ∃ (k t : Token) (ds : List (Option Expr)) (u : List Token), k :: t :: u <:+: w ∧
    (Pattern.keyword "new").fits k = true ∧ Derives (.brackets ds) u ∧
    ds.getLast? = some none ∧ e ∈ (Phrase.brackets ds).parts

/-- The expression is read from the tokens: it is one of `es`, or it is not kept. -/
def ReadFrom (es : List Expr) (w : List Token) (e : Expr) : Prop :=
  e ∈ es ∨ Dropped w e

theorem ReadFrom.mono {es es' : List Expr} {w w' : List Token} {e : Expr}
    (h : ReadFrom es w e) (hes : ∀ e ∈ es, e ∈ es') (hw : w <:+: w') : ReadFrom es' w' e := by
  rcases h with h | ⟨k, t, ds, u, hu, hnew⟩
  · exact .inl (hes e h)
  · exact .inr ⟨k, t, ds, u, hu.trans hw, hnew⟩

/-! ## Signs between tokens -/

/-- An element of two lists is in one of them. -/
theorem append_eq_append_cons {α : Type} {x y u v : List α} {a : α} (h : x ++ y = u ++ a :: v) :
    (∃ v', x = u ++ a :: v' ∧ v = v' ++ y) ∨ ∃ u', u = x ++ u' ∧ y = u' ++ a :: v := by
  rcases List.append_eq_append_iff.mp h with ⟨u', rfl, rfl⟩ | ⟨v', rfl, hv'⟩
  · exact .inr ⟨u', rfl, rfl⟩
  · cases v' with
    | nil => exact .inr ⟨[], by simp, hv'.symm⟩
    | cons b v' =>
      obtain ⟨rfl, rfl⟩ := List.cons.inj hv'
      exact .inl ⟨v', rfl, rfl⟩

theorem append_eq_append_cons_of_not_mem {α : Type} {x y u v : List α} {a : α}
    (h : x ++ y = u ++ a :: v) (ha : a ∉ x) : ∃ u', u = x ++ u' ∧ y = u' ++ a :: v := by
  rcases append_eq_append_cons h with ⟨v', rfl, -⟩ | hbehind
  · exact absurd (by simp) ha
  · exact hbehind

/-- The tokens before and behind every sign `<` satisfy `Q`.  The word `final` is the only one
behind which the sign is not an operator. -/
def Spots (Q : List Token → List Token → Prop) (w : List Token) : Prop :=
  ∀ u t v, w = u ++ t :: v → t.IsLess → (∀ f ∈ u.getLast?, f.text ≠ "final") → Q u v

namespace Spots

variable {Q : List Token → List Token → Prop} {a : Token} {w x y : List Token}

theorem nil : Spots Q [] := by
  intro u t v h
  simp at h

theorem append (hx : Spots (fun u v => Q u (v ++ y)) x) (hy : Spots (fun u v => Q (x ++ u) v) y) :
    Spots Q (x ++ y) := by
  intro u t v h ht hfinal
  rcases append_eq_append_cons h with ⟨v', rfl, rfl⟩ | ⟨u', rfl, rfl⟩
  · exact hx u t v' rfl ht hfinal
  · refine hy u' t v rfl ht ?_
    intro f hf
    apply hfinal f
    simp [List.getLast?_append, Option.mem_def.mp hf]

theorem cons_of_imp (ha : a.IsLess → Q [] y) (hy : Spots (fun u v => Q (a :: u) v) y) :
    Spots Q (a :: y) := by
  intro u t v h ht hfinal
  rcases List.cons_eq_append_iff.mp h with ⟨rfl, htail⟩ | ⟨u', rfl, hu'⟩
  · cases htail
    exact ha ht
  · refine hy u' t v hu' ht ?_
    intro f hf
    apply hfinal f
    simp [List.getLast?_cons, Option.mem_def.mp hf]

theorem cons (ha : ¬ a.IsLess) (hy : Spots (fun u v => Q (a :: u) v) y) : Spots Q (a :: y) :=
  cons_of_imp (fun h => absurd h ha) hy

/-- Behind the word `final` no sign counts. -/
theorem cons_final {f : Token} (hf : ¬ f.IsLess) (hfinal : f.text = "final")
    (hy : Spots (fun u v => Q (f :: a :: u) v) y) : Spots Q (f :: a :: y) := by
  intro u t v h ht hlast
  rcases List.cons_eq_append_iff.mp h with ⟨rfl, htail⟩ | ⟨u', rfl, hu'⟩
  · cases htail
    exact absurd ht hf
  · rcases List.cons_eq_append_iff.mp hu' with ⟨rfl, -⟩ | ⟨u'', rfl, hu''⟩
    · exact absurd hfinal (hlast f rfl)
    · refine hy u'' t v hu'' ht ?_
      intro g hg
      apply hlast g
      simp [List.getLast?_cons, Option.mem_def.mp hg]

theorem of_forall (h : ∀ t ∈ w, ¬ t.IsLess) : Spots Q w := by
  rintro u t v rfl ht
  exact absurd ht (h t (by simp))

theorem concat (hx : Spots (fun u v => Q u (v ++ [a])) x) (ha : ¬ a.IsLess) : Spots Q (x ++ [a]) :=
  append hx (cons ha nil)

section Within

variable {T T' : Expr → List Token → Prop} {E E' : Expr → Prop} {es es' : List Expr}
  {W : List Token} {F G : List Token → List Token}

/-- From a part to the whole. -/
theorem within (h : Spots (ComparesAt T E) w) (hE : ∀ e, E e → E' e)
    (hT : ∀ x v, T x v → T' x (G v) ∨ Follows E' x (G v))
    (hFG : (∀ u u', F (u ++ u') = F u ++ u') ∧ ∀ v, G v = v ++ G []) :
    Spots (fun u v => ComparesAt T' E' (F u) (G v)) w := by
  obtain ⟨hF, hG⟩ := hFG
  intro u t v hw ht hfinal
  obtain ⟨p, l, r, u', wl, wr, v', rfl, rfl, hl, hr, hx, hbehind⟩ := h u t v hw ht hfinal
  refine ⟨p, l, r, F u', wl, wr, G v', hF u' wl, ?_, hl, hr, hE _ hx, ?_⟩
  · rw [hG, hG v', List.append_assoc]
  · rcases hbehind with hbehind | hbehind
    · exact hT _ _ hbehind
    · rw [hG]
      exact .inr (hbehind.append hE _)

/-- From the expressions read from a part to those read from the whole. -/
theorem part (h : Spots (ComparesAt T (ReadFrom es w)) w) (hes : ∀ e ∈ es, e ∈ es')
    (hT : ∀ x v, T x v → T' x (G v) ∨ Follows (ReadFrom es' W) x (G v))
    (hFG : (∀ u u', F (u ++ u') = F u ++ u') ∧ (∀ v, G v = v ++ G []) ∧ F w ++ G [] = W) :
    Spots (fun u v => ComparesAt T' (ReadFrom es' W) (F u) (G v)) w := by
  obtain ⟨hF, hG, hW⟩ := hFG
  have hw : w <:+: W := ⟨F [], G [], by rw [← hW, ← hF, List.nil_append]⟩
  exact h.within (fun e he => he.mono hes hw) hT ⟨hF, hG⟩

/-- A part that does not end with a comparison. -/
theorem inner (h : Spots (ComparesAt T (ReadFrom es w)) w) (hes : ∀ e ∈ es, e ∈ es')
    (hT : ∀ x v, ¬ T x v)
    (hFG : (∀ u u', F (u ++ u') = F u ++ u') ∧ (∀ v, G v = v ++ G []) ∧ F w ++ G [] = W) :
    Spots (fun u v => ComparesAt T' (ReadFrom es' W) (F u) (G v)) w :=
  h.part hes (fun x v hx => absurd hx (hT x v)) hFG

/-- A part with a sign behind it that does not go on with type arguments. -/
theorem ended (h : Spots (ComparesAt T (ReadFrom es w)) w) (hes : ∀ e ∈ es, e ∈ es')
    (hT : ∀ x v, T x v → v = []) (hend : ∃ k z, G [] = k :: z ∧ ¬ k.GoesOn)
    (hFG : (∀ u u', F (u ++ u') = F u ++ u') ∧ (∀ v, G v = v ++ G []) ∧ F w ++ G [] = W) :
    Spots (fun u v => ComparesAt T' (ReadFrom es' W) (F u) (G v)) w := by
  refine h.part hes ?_ hFG
  intro x v hx
  obtain rfl := hT x v hx
  obtain ⟨k, z, hz, hk⟩ := hend
  rw [hz]
  exact .inr (.other hk)

/-- The items of an expression, up to the sign that closes their list. -/
theorem listed {braced : Bool} {e : Expr} {k : Token}
    (h : Spots (ComparesAt (Phrase.items braced e.items).Tail
      (ReadFrom (Phrase.items braced e.items).parts w)) w)
    (hes : ∀ d ∈ e.parts, d ∈ es') (hk : ¬ k.GoesOn)
    (hF : (∀ u u', F (u ++ u') = F u ++ u') ∧ F w ++ [k] = W) :
    Spots (fun u v => ComparesAt T' (ReadFrom es' W) (F u) (v ++ [k])) w :=
  h.part (fun d hd => hes d (Expr.mem_parts_of_items hd))
    (fun _ _ hx => .inr (hx.follows (.inl (hes e e.mem_parts_self)) hk))
    ⟨hF.1, by simp, by simpa using hF.2⟩

end Within

end Spots

/-! ## Expressions -/

theorem Phrase.Tail.whole_nil {e x : Expr} {v : List Token} (h : Tail (.whole e) x v) : v = [] := by
  cases h
  rfl

theorem Phrase.Tail.level_nil {n : Nat} {e x : Expr} {v : List Token}
    (h : Tail (.level n e) x v) : v = [] := by
  cases h
  rfl

/-- A single name. -/
def Phrase.IsName : Phrase → Prop
  | .base (.name ..) | .level _ (.name ..) | .whole (.name ..) => True
  | _ => False

theorem Derives.not_isLess_of_isName {φ : Phrase} {w : List Token} (h : Derives φ w)
    (hφ : φ.IsName) : ∀ t ∈ w, ¬ t.IsLess := by
  induction h with
  | name ht =>
    intro u hu
    rw [List.mem_singleton] at hu
    exact Token.not_isLess_of_kind (by simp [hu, ht])
  | @paren a b e w ha _ hb ih =>
    have hw : (Phrase.whole e).IsName := by
      cases e <;> simp_all [Phrase.IsName]
    simp only [List.cons_append, List.forall_mem_cons, List.forall_mem_append]
    exact ⟨Token.not_isLess_of_fits ha (by decide), ih hw, Token.not_isLess_of_fits hb (by decide),
      nofun⟩
  | @operand e _ _ ih | @climb _ e _ _ ih | @plain e _ _ ih =>
    apply ih
    cases e <;> simp_all [Phrase.IsName]
  | newElements _ _ _ _ he =>
    cases he
    exact hφ.elim
  | call | methodCall | length | property | index | update | literal | newObject | newArray
  | unary | binary | assign | braces | expressionItem | elementsItem | noItem | lastItem
  | moreItems | noBrackets | filled | empty => exact hφ.elim

/-- Every sign `<` in an expression is the operator of a comparison. -/
theorem Derives.spots {φ : Phrase} {w : List Token} (h : Derives φ w) :
    Spots (ComparesAt φ.Tail (ReadFrom φ.parts w)) w := by
  induction h with
  | name ht => exact .cons (Token.not_isLess_of_kind (by simp [ht])) .nil
  | paren ha _ hb ih =>
    have hb' := Token.not_goesOn_of_fits hb rfl (by decide)
    exact .concat (.cons (Token.not_isLess_of_fits ha (by decide))
      (ih.ended (fun _ he => he) (fun _ _ => Phrase.Tail.whole_nil) ⟨_, _, rfl, hb'⟩ (by simp)))
      (Token.not_isLess_of_fits hb (by decide))
  | @call p f a b es u w hf ha _ hb ihf ihes =>
    have hb' := Token.not_goesOn_of_fits hb rfl (by decide)
    refine .concat (.append ?_
      (.cons (Token.not_isLess_of_fits ha (by decide))
        (.listed (e := .call p f es) ihes (fun _ hd => hd) hb' (by simp))))
      (Token.not_isLess_of_fits hb (by decide))
    exact .of_forall (hf.not_isLess_of_isName trivial)
  | @methodCall e d t a b es u w _ hd ht ha _ hb ihe ihes =>
    have hb' := Token.not_goesOn_of_fits hb rfl (by decide)
    refine .concat (.append (ihe.inner ?_ (by rintro _ _ ⟨⟩) (by simp))
      (.cons (Token.not_isLess_of_fits hd (by decide))
        (.cons (Token.not_isLess_of_kind (by simp [ht]))
          (.cons (Token.not_isLess_of_fits ha (by decide))
            (.listed (e := .methodCall e.pos e t.text es) ihes (fun _ hd => hd) hb' (by simp))))))
      (Token.not_isLess_of_fits hb (by decide))
    simp +contextual [Phrase.parts, Expr.parts]
  | length _ hd ht _ ih | property _ hd ht _ ih =>
    refine .append (ih.inner ?_ (by rintro _ _ ⟨⟩) (by simp))
      (.cons (Token.not_isLess_of_fits hd (by decide))
        (.cons (Token.not_isLess_of_kind (by simp [ht])) .nil))
    simp +contextual [Phrase.parts, Expr.parts]
  | index _ _ _ ihe ihes =>
    refine .append (ihe.inner ?_ (by rintro _ _ ⟨⟩) (by simp))
      (ihes.inner ?_ (by rintro _ _ ⟨⟩) (by simp))
    · simp +contextual [Phrase.parts, Expr.parts]
    · rw [Phrase.parts_brackets_map]
      simp +contextual [Phrase.parts, Expr.parts, Expr.allParts_eq]
  | operand _ ih => exact ih.within (fun _ he => he) (by rintro _ _ ⟨⟩) (by simp)
  | update _ ht ih =>
    refine .concat (ih.inner ?_ (by rintro _ _ ⟨⟩) (by simp)) (Token.not_isLess_of_updateOp? ht)
    simp +contextual [Phrase.parts, Expr.parts]
  | literal ht => exact .cons (Token.not_isLess_of_isConstant ht) .nil
  | @newObject k t a b es w hk ht ha _ hb ih =>
    have hb' := Token.not_goesOn_of_fits hb rfl (by decide)
    exact .concat (.cons (Token.not_isLess_of_fits hk (by decide))
      (.cons (Token.not_isLess_of_kind (by simp [ht]))
        (.cons (Token.not_isLess_of_fits ha (by decide))
          (.listed (e := .newObject k.pos t.text es) ih (fun _ hd => hd) hb' (by simp)))))
      (Token.not_isLess_of_fits hb (by decide))
  | newArray hk ht _ _ ih =>
    refine .cons (Token.not_isLess_of_fits hk (by decide))
      (.cons (Token.not_isLess_of_kind ?_) (ih.inner ?_ (by rintro _ _ ⟨⟩) (by simp)))
    · rcases ht with ht | ht <;> simp [ht]
    · rw [Phrase.parts_brackets_map]
      simp +contextual [Phrase.parts, Expr.parts, Expr.allParts_eq]
  | @newElements k t ds e u w hk ht hds hlast _ ihds ihe =>
    refine .append (.cons (Token.not_isLess_of_fits hk (by decide))
      (.cons (Token.not_isLess_of_kind ?_) (ihds.within ?_ (by rintro _ _ ⟨⟩) (by simp))))
      (ihe.inner (fun _ he => he) (by rintro _ _ ⟨⟩) (by simp))
    · rcases ht with ht | ht <;> simp [ht]
    · -- The dimensions are not kept.
      rintro d (hd | hd)
      · exact .inr ⟨k, t, ds, u, ⟨[], w, rfl⟩, hk, hds, hlast, hd⟩
      · exact ReadFrom.mono (.inr hd) (fun _ he => he) ⟨[k, t], w, rfl⟩
  | unary ht _ ih =>
    refine .cons (Token.not_isLess_of_unaryOp? ht) (ih.inner ?_ ?_ (by simp))
    · simp +contextual [Phrase.parts, Expr.parts]
    · rintro x v ⟨⟩
      contradiction
  | climb _ ih =>
    refine ih.within (fun _ he => he) ?_ (by simp)
    rintro x v (⟨hn, hx, hexact⟩ | _)
    exact .inl (.level (by omega) hx (by omega))
  | @binary n l r t op u w hl ht hr ihl ihr =>
    have hself : .binary l.pos op l r ∈ (Expr.binary l.pos op l r).parts := Expr.mem_parts_self _
    have hop := (Option.mem_filter_iff.mp ht).1
    refine .append (ihl.part ?_ ?_ (by simp)) (.cons_of_imp ?_ (ihr.part ?_ ?_ (by simp)))
    · simp +contextual [Phrase.parts, Expr.parts]
    · intro x v hx
      cases hx with
      | level hn hx hexact =>
        by_cases h2 : n = 2
        · obtain rfl := hexact (by omega)
          exact .inr (.operator hop (.inl hself))
        · exact .inr (.other (Token.not_goesOn_of_level ht h2))
    · rintro ⟨-, htext⟩
      obtain rfl := Token.level_of_text ht (by simp [htext])
      obtain rfl := Token.op_of_text hop .lt (by decide) htext
      exact ⟨l.pos, l, r, [], u, w, [], by simp, by simp, hl, hr, .inl hself,
        .inl (.level (by omega) (Expr.mem_rightSpine_self _) fun _ => rfl)⟩
    · simp +contextual [Phrase.parts, Expr.parts]
    · intro x v hx
      cases hx with
      | level hn hx hexact =>
        exact .inl (.level (by omega) (List.mem_cons_of_mem _ hx) (by omega))
  | plain _ ih =>
    refine ih.within (fun _ he => he) ?_ (by simp)
    intro x v hx
    cases hx with
    | level _ hx _ => exact .inl (.whole hx)
  | assign _ _ ht _ ihl ihv =>
    refine .append (ihl.ended ?_ (fun _ _ => Phrase.Tail.level_nil)
      ⟨_, _, rfl, Token.not_goesOn_of_assignOp? ht⟩ (by simp))
      (.cons (Token.not_isLess_of_assignOp? ht) (ihv.part ?_ ?_ (by simp)))
    · simp +contextual [Phrase.parts, Expr.parts]
    · simp +contextual [Phrase.parts, Expr.parts]
    · intro x v hx
      cases hx with
      | whole hx => exact .inl (.whole (List.mem_cons_of_mem _ hx))
  | @braces a b es w ha _ hb ih =>
    have hb' := Token.not_goesOn_of_fits hb rfl (by decide)
    exact .concat (.cons (Token.not_isLess_of_fits ha (by decide))
      (.listed (e := .arrayLiteral a.pos es) ih (fun _ hd => hd) hb' (by simp)))
      (Token.not_isLess_of_fits hb (by decide))
  | expressionItem _ ih =>
    refine ih.within (fun _ he => he) ?_ (by simp)
    intro x v hx
    cases hx with
    | whole hx => exact .inl (.item hx)
  | elementsItem _ ih => exact ih.within (fun _ he => he) (by rintro _ _ ⟨⟩) (by simp)
  | noItem | noBrackets => exact .nil
  | lastItem _ ih =>
    refine ih.part ?_ ?_ (by simp)
    · simp [Phrase.parts]
    · intro x v hx
      cases hx with
      | item hx => exact .inl (.last hx)
  | moreItems _ hc hes ihe ihes =>
    refine .append (ihe.part ?_ ?_ (by simp)) (.cons (Token.not_isLess_of_fits hc (by decide))
      (ihes.part ?_ ?_ (by simp)))
    · simp +contextual [Phrase.parts]
    · intro x v hx
      cases hx with
      | item hx => exact .inl (.more hx hc hes)
    · simp +contextual [Phrase.parts]
    · exact fun x v hx => .inl (.later hx)
  | filled ha _ hb _ ihe ihds =>
    have hb' := Token.not_goesOn_of_fits hb rfl (by decide)
    refine .append (.cons (Token.not_isLess_of_fits ha (by decide)) (ihe.ended ?_
      (fun _ _ => Phrase.Tail.whole_nil) ⟨_, _, rfl, hb'⟩ (by simp)))
      (.cons (Token.not_isLess_of_fits hb (by decide)) (ihds.inner ?_ (by rintro _ _ ⟨⟩) (by simp)))
    · simp +contextual [Phrase.parts]
    · simp +contextual [Phrase.parts]
  | empty ha hb _ ih =>
    refine .cons (Token.not_isLess_of_fits ha (by decide))
      (.cons (Token.not_isLess_of_fits hb (by decide)) (ih.inner ?_ (by rintro _ _ ⟨⟩) (by simp)))
    simp +contextual [Phrase.parts]

/-! ## Statements -/

/-- The comparison is the last one of the tokens. -/
def AtEnd (_ : Expr) (v : List Token) : Prop :=
  v = []

/-- No comparison is the last one of the tokens. -/
def Nowhere (_ : Expr) (_ : List Token) : Prop :=
  False

section Statements

variable {w : List Token}

theorem DerivesValue.spots {value : Option Expr} (h : DerivesValue value w) :
    Spots (ComparesAt AtEnd (ReadFrom (value.toList.flatMap Expr.parts) w)) w := by
  have hsign : ∀ {t : Token}, (Pattern.operator "=").fits t = true → ¬ t.IsLess := by
    rintro t ht ⟨-, htext⟩
    simp [Reading.text_of_fits ht rfl] at htext
  cases h with
  | none => exact .nil
  | elements ht he =>
    exact .cons (hsign ht) (he.spots.inner (by simp [Phrase.parts]) nofun (by simp))
  | plain ht he =>
    exact .cons (hsign ht) (he.spots.part (by simp [Phrase.parts])
      (fun _ _ hx => .inl hx.whole_nil) (by simp))

theorem DerivesDeclaration.spots {t : Token} {d : Declaration} (h : DerivesDeclaration t d w) :
    Spots (ComparesAt Nowhere (ReadFrom (d.value.toList.flatMap Expr.parts) w)) w := by
  cases h with
  | intro hu hn hv hw hs =>
    have hs' := Token.not_goesOn_of_fits hs rfl (by decide)
    refine .concat (.append (.append (hu.spots.inner ?_ nofun (by simp))
      (.cons (Token.not_isLess_of_kind (by simp [hn])) (hv.spots.inner ?_ nofun (by simp))))
      (hw.spots.ended (fun _ he => he) (fun _ _ hx => hx) ⟨_, _, rfl, hs'⟩ (by simp)))
      (Token.not_isLess_of_fits hs (by decide))
    · simp [Phrase.parts]
    · simp [Phrase.parts]

theorem DerivesAssignment.spots {a : Assignment} (h : DerivesAssignment a w) :
    Spots (ComparesAt Nowhere (ReadFrom (a.target.parts ++ a.value.parts) w)) w := by
  cases h with
  | intro hgoal _ ht hvalue hs =>
    have hs' := Token.not_goesOn_of_fits hs rfl (by decide)
    refine .concat (.append (hgoal.spots.inner ?_ nofun (by simp))
      (.cons (Token.not_isLess_of_assignOp? ht)
      (hvalue.spots.ended ?_ (fun _ _ => Phrase.Tail.whole_nil) ⟨_, _, rfl, hs'⟩ (by simp))))
      (Token.not_isLess_of_fits hs (by decide))
    · simp +contextual [Phrase.parts]
    · simp +contextual [Phrase.parts]

theorem DerivesUpdate.spots {u : Update} (h : DerivesUpdate u w) :
    Spots (ComparesAt Nowhere (ReadFrom u.target.parts w)) w := by
  cases h with
  | behind hgoal _ ht =>
    exact .concat (hgoal.spots.inner (fun _ he => he) nofun (by simp))
      (Token.not_isLess_of_updateOp? ht)
  | front ht hgoal _ =>
    exact .cons (Token.not_isLess_of_updateOp? ht)
      (hgoal.spots.inner (fun _ he => he) nofun (by simp))

theorem DerivesCondition.spots {e : Expr} (h : DerivesCondition e w) :
    Spots (ComparesAt Nowhere (ReadFrom e.parts w)) w := by
  cases h with
  | intro ha he hb =>
    have hb' := Token.not_goesOn_of_fits hb rfl (by decide)
    exact .concat (.cons (Token.not_isLess_of_fits ha (by decide))
      (he.spots.ended (fun _ he => he) (fun _ _ => Phrase.Tail.whole_nil) ⟨_, _, rfl, hb'⟩
        (by simp)))
      (Token.not_isLess_of_fits hb (by decide))

theorem DerivesInit.spots {init : Option ForInit} (h : DerivesInit init w) :
    Spots (ComparesAt Nowhere
      (ReadFrom ((init.toList.flatMap ForInit.operands).flatMap Expr.parts) w)) w := by
  cases h with
  | none hs => exact .cons (Token.not_isLess_of_fits hs (by decide)) .nil
  | declaration ht hd =>
    refine .cons (Token.not_isLess_of_kind (by simp [Reading.kind_of_isType ht]))
      (hd.spots.inner ?_ nofun (by simp))
    simp [ForInit.operands]
  | assignment ha =>
    refine ha.spots.inner ?_ nofun (by simp)
    simp [ForInit.operands]

theorem DerivesTest.spots {test : Option Expr} (h : DerivesTest test w) :
    Spots (ComparesAt Nowhere (ReadFrom (test.toList.flatMap Expr.parts) w)) w := by
  cases h with
  | none hs => exact .cons (Token.not_isLess_of_fits hs (by decide)) .nil
  | some he hs =>
    have hs' := Token.not_goesOn_of_fits hs rfl (by decide)
    refine .concat (he.spots.ended ?_ (fun _ _ => Phrase.Tail.whole_nil) ⟨_, _, rfl, hs'⟩ (by simp))
      (Token.not_isLess_of_fits hs (by decide))
    simp [Phrase.parts]

theorem DerivesStep.spots {step : Option ForUpdate} (h : DerivesStep step w) :
    Spots (ComparesAt Nowhere
      (ReadFrom ((step.toList.flatMap ForUpdate.operands).flatMap Expr.parts) w)) w := by
  cases h with
  | none hb => exact .cons (Token.not_isLess_of_fits hb (by decide)) .nil
  | update hu hb =>
    refine .concat (hu.spots.inner ?_ nofun (by simp)) (Token.not_isLess_of_fits hb (by decide))
    simp [ForUpdate.operands]
  | expression he hb =>
    have hb' := Token.not_goesOn_of_fits hb rfl (by decide)
    refine .concat (he.spots.ended ?_ (fun _ _ => Phrase.Tail.whole_nil) ⟨_, _, rfl, hb'⟩ (by simp))
      (Token.not_isLess_of_fits hb (by decide))
    simp [ForUpdate.operands, Phrase.parts]

/-- The expressions in one statement or several. -/
def Clause.exprs : Clause → List Expr
  | .one s => s.exprs
  | .many ss => ss.flatMap Stmt.exprs

/-- Every sign `<` in a statement is the operator of a comparison. -/
theorem Sentence.spots {c : Clause} (h : Sentence c w) :
    Spots (ComparesAt Nowhere (ReadFrom c.exprs w)) w := by
  induction h with
  | block ha _ hb ih =>
    refine .concat (.cons (Token.not_isLess_of_fits ha (by decide)) (ih.inner ?_ nofun (by simp)))
      (Token.not_isLess_of_fits hb (by decide))
    simp +contextual [Clause.exprs, Stmt.exprs_eq (.block _ _), Stmt.children]
  | declaration ht hd =>
    refine .cons (Token.not_isLess_of_kind ?_) (hd.spots.inner ?_ nofun (by simp))
    · rcases ht with ht | ht
      · simp [Reading.kind_of_isType ht]
      · simp [ht]
    · simp [Clause.exprs, Stmt.exprs, Stmt.parts, Stmt.ownExprs, Stmt.operands]
  | finalDeclaration hf htext hd =>
    refine .cons_final (Token.not_isLess_of_kind (by simp [hf])) htext
      (hd.spots.inner ?_ nofun (by simp))
    simp [Clause.exprs, Stmt.exprs, Stmt.parts, Stmt.ownExprs, Stmt.operands]
  | assignment ha =>
    refine ha.spots.inner ?_ nofun (by simp)
    simp [Clause.exprs, Stmt.exprs, Stmt.parts, Stmt.ownExprs, Stmt.operands]
  | update hu hs =>
    refine .concat (hu.spots.inner ?_ nofun (by simp)) (Token.not_isLess_of_fits hs (by decide))
    simp [Clause.exprs, Stmt.exprs, Stmt.parts, Stmt.ownExprs, Stmt.operands]
  | expression he hs =>
    have hs' := Token.not_goesOn_of_fits hs rfl (by decide)
    refine .concat (he.spots.ended ?_ (fun _ _ => Phrase.Tail.whole_nil) ⟨_, _, rfl, hs'⟩ (by simp))
      (Token.not_isLess_of_fits hs (by decide))
    simp [Clause.exprs, Stmt.exprs, Stmt.parts, Stmt.ownExprs, Stmt.operands, Phrase.parts]
  | call he hs =>
    have hs' := Token.not_goesOn_of_fits hs rfl (by decide)
    refine .concat (he.spots.ended ?_ (fun _ _ => Phrase.Tail.level_nil) ⟨_, _, rfl, hs'⟩ (by simp))
      (Token.not_isLess_of_fits hs (by decide))
    simp [Clause.exprs, Stmt.exprs, Stmt.parts, Stmt.ownExprs, Stmt.operands, Phrase.parts]
  | ifOnly hk he _ ih | whileLoop hk he _ ih =>
    refine .append (.cons (Token.not_isLess_of_fits hk (by decide))
      (he.spots.inner ?_ nofun (by simp)))
      (ih.inner ?_ nofun (by simp))
    · simp +contextual [Clause.exprs, Stmt.exprs, Stmt.parts, Stmt.ownExprs, Stmt.operands]
    · simp +contextual [Clause.exprs, Stmt.exprs, Stmt.parts]
  | ifElse hk he _ hk' _ ihs ihs' =>
    refine .append (.append (.cons (Token.not_isLess_of_fits hk (by decide))
      (he.spots.inner ?_ nofun (by simp))) (ihs.inner ?_ nofun (by simp)))
      (.cons (Token.not_isLess_of_fits hk' (by decide)) (ihs'.inner ?_ nofun (by simp)))
    · simp +contextual [Clause.exprs, Stmt.exprs, Stmt.parts, Stmt.ownExprs, Stmt.operands]
    · simp +contextual [Clause.exprs, Stmt.exprs, Stmt.parts]
    · simp +contextual [Clause.exprs, Stmt.exprs, Stmt.parts, Stmt.optionParts]
  | doWhileLoop hk _ hk' he hc ih =>
    refine .concat (.append (.cons (Token.not_isLess_of_fits hk (by decide))
      (ih.inner ?_ nofun (by simp)))
      (.cons (Token.not_isLess_of_fits hk' (by decide)) (he.spots.inner ?_ nofun (by simp))))
      (Token.not_isLess_of_fits hc (by decide))
    · simp +contextual [Clause.exprs, Stmt.exprs, Stmt.parts]
    · simp +contextual [Clause.exprs, Stmt.exprs, Stmt.parts, Stmt.ownExprs, Stmt.operands]
  | forLoop hk ha hinit htest hstep _ ih =>
    refine .append (.append (.append (.cons (Token.not_isLess_of_fits hk (by decide))
      (.cons (Token.not_isLess_of_fits ha (by decide)) (hinit.spots.inner ?_ nofun (by simp))))
      (htest.spots.inner ?_ nofun (by simp))) (hstep.spots.inner ?_ nofun (by simp)))
      (ih.inner ?_ nofun (by simp))
    · simp +contextual [Clause.exprs, Stmt.exprs, Stmt.parts, Stmt.ownExprs, Stmt.operands]
    · simp +contextual [Clause.exprs, Stmt.exprs, Stmt.parts, Stmt.ownExprs, Stmt.operands]
    · simp +contextual [Clause.exprs, Stmt.exprs, Stmt.parts, Stmt.ownExprs, Stmt.operands]
    · simp +contextual [Clause.exprs, Stmt.exprs, Stmt.parts]
  | nil => exact .nil
  | cons _ _ ihs ihss =>
    refine .append (ihs.inner ?_ nofun (by simp)) (ihss.inner ?_ nofun (by simp))
    · simp +contextual [Clause.exprs]
    · simp +contextual [Clause.exprs]

end Statements

end Pseudocode
