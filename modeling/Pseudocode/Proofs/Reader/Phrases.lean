import Pseudocode.Proofs.Reader.Spelling
import Pseudocode.Proofs.Reader.Statement
set_option autoImplicit false

/-!
# What tokens spell: statements

The rules of the grammar for statements and programs.  A statement that starts with a
name is told apart from the others by what stands behind the name, so the rules for such
statements ask that the subscripts in front have balanced brackets.
-/

namespace Pseudocode

/-! ## Looking ahead -/

namespace Token

/-- The brackets in the list are balanced, so that it is skipped inside subscripts. -/
def Balanced (ts : List Token) : Prop :=
  ∀ (depth : Nat) (rest : List Token),
    skipSubscripts (depth + 1) (ts ++ rest) = skipSubscripts (depth + 1) rest

namespace Balanced

variable {t : Token} {ts us : List Token}

theorem nil : Balanced [] :=
  fun _ _ => rfl

theorem append (h : Balanced ts) (h' : Balanced us) : Balanced (ts ++ us) := by
  intro depth rest
  rw [List.append_assoc, h, h']

/-- A token that is no square bracket is skipped. -/
theorem cons (ht : t.kind ≠ .eof ∧ t.kind ≠ .bracket) (h : Balanced ts) : Balanced (t :: ts) := by
  intro depth rest
  have hfits : ∀ p : Pattern, p.kind = .bracket → p.fits t = false := by
    intro p hp
    simp [Pattern.fits, hp, ht.2]
  rw [List.cons_append, skipSubscripts, if_neg ht.1, hfits _ rfl, hfits _ rfl]
  exact h depth rest

/-- What stands in square brackets is skipped with them. -/
theorem bracket (h : Balanced ts) :
    Balanced (Pattern.openBracket.token :: ts ++ [Pattern.closeBracket.token]) := by
  intro depth rest
  have hopen : ∀ us, skipSubscripts (depth + 1) (Pattern.openBracket.token :: us) =
      skipSubscripts (depth + 2) us := fun _ => rfl
  rw [List.append_assoc, List.cons_append, hopen, h]
  rfl

theorem flatMap {α : Type} {f : α → List Token} {as : List α} (h : ∀ a ∈ as, Balanced (f a)) :
    Balanced (as.flatMap f) := by
  induction as with
  | nil => exact nil
  | cons a as ih =>
    rw [List.flatMap_cons]
    exact (h a List.mem_cons_self).append (ih fun b hb => h b (List.mem_cons_of_mem a hb))

end Balanced

/-- A name at the front of the list behind which a declaration goes on: another name
follows, at once or behind empty pairs of square brackets. -/
def declares (behind : List Token) : Bool :=
  behind.head?.any (·.kind == .identifier) ||
    startsWithPair behind && (skipEmptyPairs behind).head?.any (·.kind == .identifier)

/-- The words and signs that no statement starts with although they may stand where one
could: those that go on with a statement or end a list of them, and the heads of methods
and classes. -/
def startsOther (t : Token) : Bool :=
  (Pattern.keyword "else").fits t || Pattern.closeBrace.fits t || t.kind == .eof ||
    (Pattern.keyword "class").fits t || (Pattern.keyword "void").fits t ||
    (Pattern.keyword "public").fits t || (Pattern.keyword "static").fits t

theorem declares_cons {t : Token} {ts : List Token} (hkind : t.kind ≠ .identifier)
    (htext : t.text ≠ "[") : declares (t :: ts) = false := by
  cases ts <;> simp [declares, startsWithPair, hkind, htext]

end Token

namespace Reading

open Token (Balanced)

variable {t u : Token} {ts us rest : List Token} {e : Expr}

theorem classDeclarationAhead_cons (h : us ≠ []) :
    classDeclarationAhead (t :: us) = .ok (Token.declares us, t :: us) := by
  cases us with
  | nil => exact absurd rfl h
  | cons u us =>
    have hpeek : peek 1 (t :: u :: us) = .ok (u, t :: u :: us) := rfl
    unfold classDeclarationAhead
    rw [bind_of_ok hpeek]
    by_cases hkind : u.kind = .identifier
    · simp [Token.declares, hkind]
    · have hbeq : (u.kind == Kind.identifier) = false := beq_eq_false_iff_ne.mpr hkind
      rw [if_neg hkind, Token.declares, List.head?_cons, Option.any_some, hbeq, Bool.false_or]
      rfl

theorem finalAhead_cons {word : String} (h : word ≠ "final") :
    finalAhead word (t :: us) = .ok (false, t :: us) := by
  have hpeek : ∀ n, ∃ v, peek n (t :: us) = .ok (v, t :: us) := by
    intro n
    unfold peek
    split
    · exact ⟨_, rfl⟩
    · split
      · exact ⟨_, rfl⟩
      · rename_i hlast
        simp at hlast
  obtain ⟨v, hv⟩ := hpeek 1
  obtain ⟨w, hw⟩ := hpeek 2
  unfold finalAhead
  rw [bind_of_ok hv, bind_of_ok hw]
  simp [h]

theorem behindTarget_cons (h : Token.skipSubscripts 0 us = u :: rest) :
    behindTarget (t :: us) = .ok (u, t :: us) := by
  have hunread : unread (t :: us) = .ok (t :: us, t :: us) := rfl
  unfold behindTarget
  rw [bind_of_ok hunread, List.drop_succ_cons, List.drop_zero, h]
  rfl

theorem updateAhead_cons (h : Token.skipSubscripts 0 us = u :: rest) :
    updateAhead (t :: us) = .ok (u.updateOp?.isSome, t :: us) := by
  unfold updateAhead
  rw [bind_of_ok (behindTarget_cons h)]
  rfl

theorem assignmentAhead_cons (h : Token.skipSubscripts 0 us = u :: rest) :
    assignmentAhead (t :: us) = .ok (u.assignOp?.isSome, t :: us) := by
  unfold assignmentAhead
  rw [bind_of_ok (behindTarget_cons h)]
  rfl

theorem callAhead_cons (h : us ≠ []) :
    callAhead (t :: us) = .ok (us.head?.any (·.kind == .dot), t :: us) := by
  cases us with
  | nil => exact absurd rfl h
  | cons u us => rfl

/-- How a statement that starts with a name goes on when it is no declaration: `u` is the
token behind the subscripts of the name. -/
theorem nameStatement_eq {word : String} (hword : word ≠ "final")
    (hdeclares : Token.declares us = false) (hskip : Token.skipSubscripts 0 us = u :: rest) :
    nameStatement word (t :: us) =
      (if u.updateOp?.isSome then update true >>= fun u => pure (.update u)
      else if us.head?.any (·.kind == .dot) then callStatement
      else if u.assignOp?.isSome then assignment >>= fun a => pure (.assignment a)
      else expressionStatement) (t :: us) := by
  have hne : us ≠ [] := by
    rintro rfl
    cases hskip
  unfold nameStatement
  rw [bind_of_ok (finalAhead_cons hword), if_neg Bool.false_ne_true,
    bind_of_ok (classDeclarationAhead_cons hne), hdeclares, if_neg Bool.false_ne_true,
    bind_of_ok (updateAhead_cons hskip)]
  split
  · rfl
  · rw [bind_of_ok (callAhead_cons hne)]
    split
    · rfl
    · rw [bind_of_ok (assignmentAhead_cons hskip)]

/-- A name behind which a declaration goes on is its type. -/
theorem nameStatement_of_declares {word : String} (hword : word ≠ "final") (hne : us ≠ [])
    (hdeclares : Token.declares us = true) :
    nameStatement word (t :: us) =
      (declaration >>= fun d => pure (.declaration d)) (t :: us) := by
  unfold nameStatement
  rw [bind_of_ok (finalAhead_cons hword), if_neg Bool.false_ne_true,
    bind_of_ok (classDeclarationAhead_cons hne), hdeclares, if_pos rfl]

/-! ## Declarations -/

/-- Empty pairs of square brackets. -/
def pairs (n : Nat) : List Token :=
  (List.replicate n [Pattern.openBracket.token, Pattern.closeBracket.token]).flatten

theorem pairs_succ (n : Nat) (ts : List Token) :
    pairs (n + 1) ++ ts = Pattern.openBracket.token :: Pattern.closeBracket.token ::
      (pairs n ++ ts) := rfl

theorem dimensions_pairs (n : Nat) (ht : Pattern.openBracket.fits t = false) (rest : List Token) :
    dimensions (pairs n ++ t :: rest) = .ok (n, t :: rest) := by
  have hmany : ∃ found, many Pattern.openBracket.fits
      (advance >>= fun _ => expect .closeBracket (.expected "']' after '[' in array declaration"))
      (pairs n ++ t :: rest) = .ok (found, t :: rest) ∧ found.length = n := by
    induction n with
    | zero => exact ⟨[], many_of_not_wanted ht, rfl⟩
    | succ n ih =>
      obtain ⟨found, hfound, hlen⟩ := ih
      refine ⟨Pattern.closeBracket.token :: found, ?_, by simp [hlen]⟩
      rw [pairs_succ]
      refine many_of_wanted ?_ rfl rfl hfound
      intro u us hu
      refine Tracks.bind (Tracks.take (ne_eof_of_fits hu (by decide))) ?_
      intro _ vs _ h
      obtain ⟨-, rfl⟩ := h
      refine (Tracks.expect _ (by decide)).mono ?_
      intro _ rest hrest _
      exact hrest.length_le
  obtain ⟨found, hfound, rfl⟩ := hmany
  unfold dimensions
  rw [bind_of_ok hfound]
  rfl

theorem dimensions_cons (ht : Pattern.openBracket.fits t = false) (rest : List Token) :
    dimensions (t :: rest) = .ok (0, t :: rest) :=
  dimensions_pairs 0 ht rest

/-- The value of a declaration behind its sign, or none. -/
inductive SpellsValue : List Token → Option Expr → Prop where
  | none : SpellsValue [] none
  | some {ts : List Token} {e : Expr} (h : SpellsWhole ts e) :
      SpellsValue (.symbol "=" :: ts) (some e)

theorem SpellsValue.read {value : Option Expr} (h : SpellsValue ts value) (rest : List Token) :
    initialValue (ts ++ Pattern.semicolon.token :: rest) =
      .ok (value, Pattern.semicolon.token :: rest) := by
  cases h with
  | none => rfl
  | some h =>
    rename_i ts e
    have hread := h Pattern.semicolon.token rest rfl
    obtain ⟨u, us, rfl, hbegins⟩ := h.exists_cons
    have hnot : Pattern.openBrace.fits u = false := Token.fits_of_begins hbegins rfl rfl
    unfold initialValue
    rw [List.cons_append, bind_of_ok (accept_of_fits rfl (by decide))]
    dsimp only [Option.isSome]
    rw [if_pos rfl, List.cons_append, bind_of_ok (isAt_cons _), hnot, if_neg Bool.false_ne_true]
    rw [List.cons_append] at hread
    rw [bind_of_ok hread]
    rfl

theorem declaration_read (type : Token) (htype : type.kind = .keyword ∨ type.kind = .identifier)
    (dims : Nat) (name : String) {value : Option Expr} (hvalue : SpellsValue ts value)
    (rest : List Token) :
    declaration (type :: (pairs dims ++ .word name :: (ts ++ Pattern.semicolon.token :: rest))) =
      .ok (⟨type.pos, name, type.text, dims, value⟩, rest) := by
  have heof : type.kind ≠ .eof := by rcases htype with h | h <;> simp [h]
  have hnone : dimensions (ts ++ Pattern.semicolon.token :: rest) =
      .ok (0, ts ++ Pattern.semicolon.token :: rest) := by
    cases hvalue with
    | none => exact dimensions_cons rfl rest
    | some h => exact dimensions_cons rfl _
  unfold declaration
  rw [bind_of_ok here_cons, bind_of_ok (advance_cons heof),
    bind_of_ok (dimensions_pairs dims rfl _), bind_of_ok (expect_of_fits _ rfl (by decide)),
    bind_of_ok hnone, bind_of_ok (hvalue.read rest),
    bind_of_ok (expect_of_fits _ rfl (by decide))]
  rfl

/-! ## Targets -/

/-- The tokens are a target: a name, possibly with subscripts.  In front of an operator
they are skipped, and they do not look like a declaration. -/
structure SpellsTarget (ts : List Token) (e : Expr) : Prop where
  read : ∀ (t : Token) (rest : List Token), t.kind = .operator →
    target (ts ++ t :: rest) = .ok (e, t :: rest)
  ahead : ∃ name us, ts = .word name :: us ∧ name ≠ "final" ∧
    ∀ (t : Token) (rest : List Token), t.kind = .operator → t.text ≠ "[" →
      Token.skipSubscripts 0 (us ++ t :: rest) = t :: rest ∧
        Token.declares (us ++ t :: rest) = false ∧
        (us ++ t :: rest).head?.any (·.kind == .dot) = false

namespace SpellsTarget

theorem openBracket_fits (ht : t.kind = .operator) : Pattern.openBracket.fits t = false := by
  simp [Pattern.fits, Pattern.openBracket, ht]

theorem name {name : String} (hname : name ≠ "final") :
    SpellsTarget [.word name] (.name .start name) := by
  refine ⟨?_, name, [], rfl, hname, ?_⟩
  · intro t rest ht
    have hbracket := openBracket_fits ht
    unfold target
    rw [List.singleton_append, bind_of_ok here_cons,
      bind_of_ok (expect_of_fits _ rfl (by decide)), bind_of_ok (isAt_cons _), hbracket]
    rfl
  · intro t rest ht htext
    exact ⟨by simp [Token.skipSubscripts, openBracket_fits ht],
      Token.declares_cons (by simp [ht]) htext, by simp [ht]⟩

/-- Subscripts with balanced brackets are skipped. -/
theorem skipSubscripts_bracketed {α : Type} {f : α → List Token} {indices : List α}
    (h : ∀ i ∈ indices, Balanced (f i)) (ht : Pattern.openBracket.fits t = false)
    (rest : List Token) :
    Token.skipSubscripts 0 (bracketed f indices ++ t :: rest) = t :: rest := by
  induction indices with
  | nil => simp [bracketed, Token.skipSubscripts, ht]
  | cons i indices ih =>
    have hopen : ∀ us, Token.skipSubscripts 0 (Pattern.openBracket.token :: us) =
        Token.skipSubscripts 1 us := fun _ => rfl
    have hclose : ∀ us, Token.skipSubscripts 1 (Pattern.closeBracket.token :: us) =
        Token.skipSubscripts 0 us := fun _ => rfl
    rw [bracketed_cons, hopen, h i List.mem_cons_self, hclose]
    exact ih fun j hj => h j (List.mem_cons_of_mem i hj)

theorem index {α : Type} {f : α → List Token} {g : α → Expr} {indices : List α} {name : String}
    (hname : name ≠ "final") (hne : indices ≠ [])
    (hindices : ∀ i ∈ indices, SpellsWhole (f i) (g i))
    (hbalanced : ∀ i ∈ indices, Balanced (f i))
    (hclose : ∀ i ∈ indices, ∀ t ∈ f i, t.kind ≠ .bracket → t.text ≠ "]") :
    SpellsTarget (.word name :: bracketed f indices)
      (.index .start (.name .start name) (indices.map g)) := by
  cases indices with
  | nil => exact absurd rfl hne
  | cons i indices =>
    refine ⟨?_, name, _, rfl, hname, ?_⟩
    · intro t rest ht
      have hread := subscriptsWith_bracketed hindices (openBracket_fits ht) rest
      rw [bracketed_cons] at hread
      unfold target
      rw [List.cons_append, bind_of_ok here_cons, bind_of_ok (expect_of_fits _ rfl (by decide)),
        bracketed_cons, bind_of_ok (isAt_cons _)]
      have hopen : Pattern.openBracket.fits Pattern.openBracket.token = true := rfl
      rw [hopen, if_pos rfl, subscripts_eq, bind_of_ok hread]
      rfl
    · intro t rest ht _
      refine ⟨skipSubscripts_bracketed hbalanced (openBracket_fits ht) rest, ?_, rfl⟩
      obtain ⟨u, us, hcons, hbegins⟩ := (hindices i List.mem_cons_self).exists_cons
      have hbracket : u.kind ≠ .bracket := by
        intro hkind
        simp [Token.begins, Pattern.fits, Pattern.openParen, hkind] at hbegins
      have htext : u.text ≠ "]" := hclose i List.mem_cons_self u (by simp [hcons]) hbracket
      rw [bracketed_cons, hcons]
      simp [Token.declares, Token.startsWithPair, htext, Pattern.token, Token.bare,
        Pattern.openBracket]

/-- A target takes at least a name. -/
theorem here_append (h : SpellsTarget ts e) (us : List Token) :
    here (ts ++ us) = .ok (.start, ts ++ us) := by
  obtain ⟨name, vs, rfl, -⟩ := h.ahead
  rfl

theorem assignment {op : AssignOp} {value : Expr} (h : SpellsTarget ts e)
    (hop : op ∈ AssignOp.all) (hvalue : SpellsWhole us value) (rest : List Token) :
    assignment (ts ++ .symbol op.symbol :: (us ++ Pattern.semicolon.token :: rest)) =
      .ok (⟨.start, e, op, value⟩, rest) := by
  have hread : ∀ op ∈ AssignOp.all, (Token.symbol op.symbol).assignOp? = some op := by decide
  unfold Reading.assignment
  rw [bind_of_ok (h.here_append _), bind_of_ok (h.read _ _ rfl), bind_of_ok current_cons,
    hread op hop]
  dsimp only
  rw [bind_of_ok (advance_cons (by simp [Token.symbol, Token.bare])),
    bind_of_ok (hvalue _ _ rfl), bind_of_ok (expect_of_fits _ rfl (by decide))]
  rfl

theorem update {op : UpdateOp} (h : SpellsTarget ts e) (hop : op = .increment ∨ op = .decrement)
    {closed : Bool} (hend : updateEnd closed us = .ok ((), rest)) :
    update closed (ts ++ .symbol op.symbol :: us) = .ok (⟨.start, e, op⟩, rest) := by
  have hread : (Token.symbol op.symbol).updateOp? = some op := by
    rcases hop with rfl | rfl <;> rfl
  unfold Reading.update
  rw [bind_of_ok (h.here_append _), bind_of_ok (h.read _ _ rfl), bind_of_ok current_cons, hread]
  dsimp only
  rw [bind_of_ok (advance_cons (by simp [Token.symbol, Token.bare])), bind_of_ok hend]
  rfl

end SpellsTarget

/-! ## Simple statements -/

/-- The tokens are read as `stmt`.  If it is `dangling`, a following `else` would belong
to it. -/
def SpellsStmt (dangling : Bool) (ts : List Token) (stmt : Stmt) : Prop :=
  ∀ (t : Token) (rest : List Token),
    (dangling = true → (Pattern.keyword "else").fits t = false) →
    statement (ts ++ t :: rest) = .ok (stmt, t :: rest)

theorem statement_name (h : t.kind = .identifier) :
    statement (t :: us) = nameStatement t.text (t :: us) := by
  obtain ⟨kind, text, p⟩ := t
  subst h
  exact (congrFun statement_eq _).trans rfl

theorem statement_word (name : String) (us : List Token) :
    statement (.word name :: us) = nameStatement name (.word name :: us) :=
  statement_name rfl

theorem statement_type (h : t.isType = true) :
    statement (t :: us) = (declaration >>= fun d => pure (.declaration d)) (t :: us) := by
  obtain ⟨kind, text, p⟩ := t
  obtain ⟨hkind, htext⟩ : kind = .keyword ∧ text ∈ typeKeywords := by
    simpa [Token.isType] using h
  subst hkind
  refine (congrFun statement_eq _).trans ?_
  simp only [typeKeywords, List.mem_cons, List.not_mem_nil, or_false] at htext
  rcases htext with rfl | rfl | rfl | rfl | rfl | rfl <;> rfl

namespace SpellsStmt

theorem weaken {dangling : Bool} {stmt : Stmt} (h : SpellsStmt dangling ts stmt) :
    SpellsStmt true ts stmt :=
  fun t rest ht => h t rest fun _ => ht rfl

/-- A declaration with a built-in type. -/
theorem declaration {type : String} (htype : type ∈ typeKeywords) (dims : Nat) (name : String)
    {value : Option Expr} (hvalue : SpellsValue ts value) :
    SpellsStmt false
      (.bare .keyword type :: (pairs dims ++ .word name :: (ts ++ [Pattern.semicolon.token])))
      (.declaration ⟨.start, name, type, dims, value⟩) := by
  intro t rest _
  have hkeyword : (Token.bare .keyword type).isType = true := by
    simpa [Token.isType, Token.bare] using htype
  have hread := declaration_read (.bare .keyword type) (.inl rfl) dims name hvalue (t :: rest)
  simp only [List.cons_append, List.append_assoc, List.nil_append]
  rw [statement_type hkeyword, bind_of_ok hread]
  rfl

/-- A declaration with a type that is a name. -/
theorem classDeclaration {type name : String} (htype : type ≠ "final") (dims : Nat)
    (hname : name ≠ "[") {value : Option Expr} (hvalue : SpellsValue ts value) :
    SpellsStmt false
      (.word type :: (pairs dims ++ .word name :: (ts ++ [Pattern.semicolon.token])))
      (.declaration ⟨.start, name, type, dims, value⟩) := by
  intro t rest _
  have hskip : ∀ n us, Token.skipEmptyPairs (pairs n ++ .word name :: us) = .word name :: us := by
    intro n us
    induction n with
    | zero => cases us <;> simp [pairs, Token.skipEmptyPairs, Token.word, Token.bare, hname]
    | succ n ih =>
      rw [pairs_succ, Token.skipEmptyPairs, if_pos ⟨rfl, rfl⟩]
      exact ih
  have hdeclares : ∀ us, Token.declares (pairs dims ++ .word name :: us) = true := by
    intro us
    cases dims with
    | zero => rfl
    | succ n =>
      unfold Token.declares
      rw [hskip]
      rfl
  have hread := declaration_read (.word type) (.inr rfl) dims name hvalue (t :: rest)
  simp only [List.cons_append, List.append_assoc, List.nil_append]
  rw [statement_word, nameStatement_of_declares htype (by simp) (hdeclares _), bind_of_ok hread]
  rfl

theorem assignment {op : AssignOp} {value : Expr} (h : SpellsTarget ts e)
    (hop : op ∈ AssignOp.all) (hvalue : SpellsWhole us value) :
    SpellsStmt false (ts ++ .symbol op.symbol :: (us ++ [Pattern.semicolon.token]))
      (.assignment ⟨.start, e, op, value⟩) := by
  intro t rest _
  have hupdate : ∀ op ∈ AssignOp.all, (Token.symbol op.symbol).updateOp?.isSome = false := by decide
  have hassign : ∀ op ∈ AssignOp.all, (Token.symbol op.symbol).assignOp?.isSome = true := by decide
  have htext : ∀ op ∈ AssignOp.all, (Token.symbol op.symbol).text ≠ "[" := by decide
  have hread := h.assignment hop hvalue (t :: rest)
  obtain ⟨name, vs, rfl, hname, hahead⟩ := h.ahead
  obtain ⟨hskip, hdeclares, hdot⟩ := hahead (.symbol op.symbol)
    (us ++ Pattern.semicolon.token :: t :: rest) rfl (htext op hop)
  simp only [List.cons_append, List.append_assoc, List.nil_append] at hread ⊢
  rw [statement_word, nameStatement_eq hname hdeclares hskip, hupdate op hop, hdot, hassign op hop,
    if_neg Bool.false_ne_true, if_neg Bool.false_ne_true, if_pos rfl, bind_of_ok hread]
  rfl

theorem update {op : UpdateOp} (h : SpellsTarget ts e)
    (hop : op = .increment ∨ op = .decrement) :
    SpellsStmt false (ts ++ [.symbol op.symbol, Pattern.semicolon.token])
      (.update ⟨.start, e, op⟩) := by
  intro t rest _
  have hupdate : (Token.symbol op.symbol).updateOp?.isSome = true := by
    rcases hop with rfl | rfl <;> rfl
  have htext : (Token.symbol op.symbol).text ≠ "[" := by rcases hop with rfl | rfl <;> decide
  have hend : updateEnd true (Pattern.semicolon.token :: t :: rest) = .ok ((), t :: rest) := rfl
  have hread := h.update hop hend
  obtain ⟨name, vs, rfl, hname, hahead⟩ := h.ahead
  obtain ⟨hskip, hdeclares, -⟩ := hahead (.symbol op.symbol)
    (Pattern.semicolon.token :: t :: rest) rfl htext
  simp only [List.cons_append, List.append_assoc, List.nil_append] at hread ⊢
  rw [statement_word, nameStatement_eq hname hdeclares hskip, hupdate, if_pos rfl,
    bind_of_ok hread]
  rfl

/-- A chain on a name, the first link of which is a field or a method. -/
theorem call {subscripted : Bool} {name : String} (hname : name ≠ "final")
    (h : SpellsBase subscripted (.word name :: Pattern.dot.token :: us) e) :
    SpellsStmt false (.word name :: Pattern.dot.token :: (us ++ [Pattern.semicolon.token]))
      (.call .start e) := by
  intro t rest _
  have hsuffixes : ∀ vs, primaryWith nested (.word name :: vs) =
      suffixesWith nested (.name .start name) vs := fun _ => rfl
  have hread := h Pattern.semicolon.token (t :: rest) rfl (fun _ => rfl)
  rw [suffixesWith_of_ends (n := 0) rfl, List.cons_append, hsuffixes, ← suffixes_eq] at hread
  have hdeclares : ∀ vs, Token.declares (Pattern.dot.token :: vs) = false := fun _ =>
    Token.declares_cons (by decide) (by decide)
  have hskip : ∀ vs, Token.skipSubscripts 0 (Pattern.dot.token :: vs) = Pattern.dot.token :: vs :=
    fun _ => rfl
  simp only [List.cons_append, List.append_assoc, List.nil_append] at hread ⊢
  rw [statement_word, nameStatement_eq hname (hdeclares _) (hskip _)]
  show callStatement _ = _
  unfold callStatement
  rw [bind_of_ok here_cons, bind_of_ok (expect_of_fits _ rfl (by decide)),
    bind_of_ok (x := suffixes (.name (Token.word name).pos (Token.word name).text)) hread,
    bind_of_ok (expect_of_fits _ rfl (by decide))]
  rfl

/-- A call of a function. -/
theorem expression {name : String} (hname : name ≠ "final")
    (h : SpellsWhole (.word name :: Pattern.openParen.token :: us) e) :
    SpellsStmt false (.word name :: Pattern.openParen.token :: (us ++ [Pattern.semicolon.token]))
      (.expression .start e) := by
  intro t rest _
  have hread := h Pattern.semicolon.token (t :: rest) rfl
  have hdeclares : ∀ vs, Token.declares (Pattern.openParen.token :: vs) = false := fun _ =>
    Token.declares_cons (by decide) (by decide)
  have hskip : ∀ vs, Token.skipSubscripts 0 (Pattern.openParen.token :: vs) =
      Pattern.openParen.token :: vs := fun _ => rfl
  simp only [List.cons_append, List.append_assoc, List.nil_append] at hread ⊢
  rw [statement_word, nameStatement_eq hname (hdeclares _) (hskip _)]
  show expressionStatement _ = _
  unfold expressionStatement
  rw [bind_of_ok here_cons, bind_of_ok hread, bind_of_ok (expect_of_fits _ rfl (by decide))]
  rfl

end SpellsStmt

/-! ## Lists of statements -/

theorem statement_refused (h : t.startsOther = true) (us : List Token) :
    ∃ stop, statement (t :: us) = .error stop := by
  obtain ⟨kind, text, p⟩ := t
  rw [statement_eq]
  simp only [Token.startsOther, Pattern.fits, Pattern.keyword, Pattern.closeBrace,
    Option.isNone_some, Bool.false_or, Bool.or_eq_true, Bool.and_eq_true, beq_iff_eq,
    Option.some.injEq] at h
  rcases h with (((((h | h) | h) | h) | h) | h) | h
  · obtain ⟨rfl, rfl⟩ := h
    exact ⟨_, rfl⟩
  · obtain ⟨rfl, rfl⟩ := h
    exact ⟨_, rfl⟩
  · subst h
    exact ⟨_, rfl⟩
  all_goals
    obtain ⟨rfl, rfl⟩ := h
    exact ⟨_, rfl⟩

theorem SpellsStmt.exists_cons {dangling : Bool} {stmt : Stmt} (h : SpellsStmt dangling ts stmt) :
    ∃ t us, ts = t :: us ∧ t.startsOther = false := by
  have hok := h Pattern.semicolon.token [] fun _ => rfl
  cases ts with
  | nil =>
    rw [List.nil_append, statement_eq] at hok
    cases hok
  | cons t us =>
    refine ⟨t, us, rfl, ?_⟩
    cases hother : t.startsOther with
    | false => rfl
    | true =>
      obtain ⟨stop, herror⟩ := statement_refused hother (us ++ [Pattern.semicolon.token])
      rw [List.cons_append, herror] at hok
      cases hok

theorem else_fits_of_startsOther (h : t.startsOther = false) :
    (Pattern.keyword "else").fits t = false := by
  simp only [Token.startsOther, Bool.or_eq_false_iff] at h
  exact h.1.1.1.1.1.1

section Lists

variable {α : Type} {f : α → List Token} {g : α → Stmt} {as : List α}

/-- Behind a statement there is no `else`: the next statement starts, or what comes behind
all of them. -/
theorem exists_next (h : ∀ a ∈ as, SpellsStmt true (f a) (g a))
    (helse : (Pattern.keyword "else").fits t = false) (rest : List Token) :
    ∃ u us, as.flatMap f ++ t :: rest = u :: us ∧ (Pattern.keyword "else").fits u = false := by
  cases as with
  | nil => exact ⟨t, rest, rfl, helse⟩
  | cons b bs =>
    obtain ⟨u, us, hcons, hother⟩ := (h b List.mem_cons_self).exists_cons
    exact ⟨u, _, by rw [List.flatMap_cons, hcons]; rfl, else_fits_of_startsOther hother⟩

/-- Statements one after the other. -/
theorem many_statements (h : ∀ a ∈ as, SpellsStmt true (f a) (g a)) {wanted : Token → Bool}
    (hwanted : ∀ t : Token, t.startsOther = false → wanted t = true) (ht : wanted t = false)
    (helse : (Pattern.keyword "else").fits t = false) (rest : List Token) :
    many wanted statement (as.flatMap f ++ t :: rest) = .ok (as.map g, t :: rest) := by
  induction as with
  | nil => exact many_of_not_wanted ht
  | cons a as ih =>
    have hothers : ∀ b ∈ as, SpellsStmt true (f b) (g b) := fun b hb =>
      h b (List.mem_cons_of_mem a hb)
    have ih := ih hothers
    obtain ⟨u, us, heq, hu⟩ := exists_next hothers helse rest
    have hread := h a List.mem_cons_self u us fun _ => hu
    obtain ⟨v, vs, hcons, hother⟩ := (h a List.mem_cons_self).exists_cons
    rw [List.flatMap_cons, List.append_assoc, heq]
    rw [heq] at ih
    rw [hcons, List.cons_append] at hread ⊢
    refine many_of_wanted ?_ (hwanted v hother) hread ih
    intro w ws _
    refine Tracks.statement.mono ?_
    intro stmt rest _ h
    exact Nat.le_of_lt_succ h.1

namespace SpellsStmt

theorem block (h : ∀ a ∈ as, SpellsStmt true (f a) (g a)) :
    SpellsStmt false (Pattern.openBrace.token :: (as.flatMap f ++ [Pattern.closeBrace.token]))
      (.block .start (as.map g)) := by
  intro t rest _
  have hopen : ∀ us, statement (Pattern.openBrace.token :: us) =
      (blockWith statement >>= fun r => pure (.block r.1 r.2)) (Pattern.openBrace.token :: us) :=
    fun us => (congrFun statement_eq _).trans rfl
  have hbody : statementsWith statement
      (as.flatMap f ++ Pattern.closeBrace.token :: t :: rest) =
        .ok (as.map g, Pattern.closeBrace.token :: t :: rest) := by
    refine many_statements h ?_ rfl rfl (t :: rest)
    intro u hu
    simp only [Token.startsOther, Bool.or_eq_false_iff, beq_eq_false_iff_ne] at hu
    simp [hu.1.1.1.1.1.2, hu.1.1.1.1.2]
  have hblock : blockWith statement
      (Pattern.openBrace.token :: (as.flatMap f ++ Pattern.closeBrace.token :: t :: rest)) =
        .ok ((.start, as.map g), t :: rest) := by
    unfold blockWith
    rw [bind_of_ok here_cons, bind_of_ok (expect_of_fits _ rfl (by decide)), bind_of_ok hbody,
      bind_of_ok (expect_of_fits _ rfl (by decide))]
    rfl
  simp only [List.cons_append, List.append_assoc, List.nil_append]
  rw [hopen, bind_of_ok hblock]
  rfl

end SpellsStmt

end Lists

/-! ## Branches and loops -/

/-- A condition in round brackets. -/
def bracket (ts : List Token) : List Token :=
  Pattern.openParen.token :: (ts ++ [Pattern.closeParen.token])

theorem condition_bracket (word : String) (h : SpellsWhole ts e) (rest : List Token) :
    condition word (bracket ts ++ rest) = .ok (e, rest) := by
  unfold condition bracket
  rw [List.cons_append, List.append_assoc, bind_of_ok (expect_of_fits _ rfl (by decide)),
    List.singleton_append, bind_of_ok (h _ _ rfl), bind_of_ok (expect_of_fits _ rfl (by decide))]
  rfl

namespace SpellsStmt

variable {vs : List Token} {consequent alternate body : Stmt} {dangling : Bool}

/-- A statement that starts with one of the words for branches and loops. -/
theorem statement_keyword {word : String} (read : Reading Stmt → Reading Stmt)
    (h : (word, read) ∈ [("if", ifElseWith), ("while", whileLoopWith), ("for", forLoopWith),
      ("do", doWhileLoopWith)]) (us : List Token) :
    statement ((Pattern.keyword word).token :: us) =
      read statement ((Pattern.keyword word).token :: us) := by
  simp only [List.mem_cons, Prod.mk.injEq, List.not_mem_nil, or_false] at h
  rcases h with ⟨rfl, rfl⟩ | ⟨rfl, rfl⟩ | ⟨rfl, rfl⟩ | ⟨rfl, rfl⟩ <;>
    exact (congrFun statement_eq _).trans rfl

theorem ifThen (htest : SpellsWhole ts e) (hconsequent : SpellsStmt false us consequent) :
    SpellsStmt true ((Pattern.keyword "if").token :: (bracket ts ++ us))
      (.ifElse .start e consequent none) := by
  intro t rest ht
  have hread := hconsequent t rest (by simp)
  rw [List.cons_append, List.append_assoc, statement_keyword ifElseWith (by simp)]
  unfold ifElseWith
  rw [bind_of_ok here_cons, bind_of_ok (expect_of_fits _ rfl (by decide)),
    bind_of_ok (condition_bracket _ htest _), bind_of_ok hread,
    bind_of_ok (accept_of_not_fits (ht rfl))]
  rfl

theorem ifElse (htest : SpellsWhole ts e) (hconsequent : SpellsStmt false us consequent)
    (halternate : SpellsStmt dangling vs alternate) :
    SpellsStmt dangling
      ((Pattern.keyword "if").token ::
        (bracket ts ++ (us ++ (Pattern.keyword "else").token :: vs)))
      (.ifElse .start e consequent (some alternate)) := by
  intro t rest ht
  have hread := hconsequent (Pattern.keyword "else").token (vs ++ t :: rest) (by simp)
  rw [List.cons_append, List.append_assoc, List.append_assoc, List.cons_append,
    statement_keyword ifElseWith (by simp)]
  unfold ifElseWith
  rw [bind_of_ok here_cons, bind_of_ok (expect_of_fits _ rfl (by decide)),
    bind_of_ok (condition_bracket _ htest _), bind_of_ok hread,
    bind_of_ok (accept_of_fits rfl (by decide))]
  dsimp only [Option.isSome]
  rw [if_pos rfl, bind_of_ok (halternate t rest ht)]
  rfl

theorem whileLoop (htest : SpellsWhole ts e) (hbody : SpellsStmt false us body) :
    SpellsStmt false ((Pattern.keyword "while").token :: (bracket ts ++ us))
      (.whileLoop .start e body) := by
  intro t rest _
  rw [List.cons_append, List.append_assoc, statement_keyword whileLoopWith (by simp)]
  unfold whileLoopWith
  rw [bind_of_ok here_cons, bind_of_ok (expect_of_fits _ rfl (by decide)),
    bind_of_ok (condition_bracket _ htest _), bind_of_ok (hbody t rest (by simp))]
  rfl

theorem doWhileLoop (hbody : SpellsStmt false us body) (htest : SpellsWhole ts e) :
    SpellsStmt false
      ((Pattern.keyword "do").token ::
        (us ++ (Pattern.keyword "while").token :: (bracket ts ++ [Pattern.semicolon.token])))
      (.doWhileLoop .start body e) := by
  intro t rest _
  have hread := hbody (Pattern.keyword "while").token
    (bracket ts ++ Pattern.semicolon.token :: t :: rest) (by simp)
  simp only [List.cons_append, List.append_assoc, List.nil_append]
  rw [statement_keyword doWhileLoopWith (by simp)]
  unfold doWhileLoopWith
  rw [bind_of_ok here_cons, bind_of_ok (expect_of_fits _ rfl (by decide)), bind_of_ok hread,
    bind_of_ok (expect_of_fits _ rfl (by decide)), bind_of_ok (condition_bracket _ htest _),
    bind_of_ok (expect_of_fits _ rfl (by decide))]
  rfl

end SpellsStmt

/-! ### The head of a counting loop -/

/-- What a counting loop does first, with its semicolon. -/
inductive SpellsInit : List Token → Option ForInit → Prop where
  | none : SpellsInit [Pattern.semicolon.token] none
  | declaration {type : String} (htype : type ∈ typeKeywords) (dims : Nat) (name : String)
      {ts : List Token} {value : Option Expr} (hvalue : SpellsValue ts value) :
      SpellsInit
        (.bare .keyword type :: (pairs dims ++ .word name :: (ts ++ [Pattern.semicolon.token])))
        (some (.declaration ⟨.start, name, type, dims, value⟩))
  | assignment {ts us : List Token} {target value : Expr} {op : AssignOp}
      (htarget : SpellsTarget ts target) (hop : op ∈ AssignOp.all) (hvalue : SpellsWhole us value) :
      SpellsInit (ts ++ .symbol op.symbol :: (us ++ [Pattern.semicolon.token]))
        (some (.assignment ⟨.start, target, op, value⟩))

theorem SpellsInit.read {init : Option ForInit} (h : SpellsInit ts init) (rest : List Token) :
    forInit (ts ++ rest) = .ok (init, rest) := by
  cases h with
  | none => rfl
  | @declaration type htype dims name ts value hvalue =>
    have hkeyword : ∀ us, forInit (.bare .keyword type :: us) =
        (Reading.declaration >>= fun d => pure (some (.declaration d)))
          (.bare .keyword type :: us) := by
      intro us
      simp only [typeKeywords, List.mem_cons, List.not_mem_nil, or_false] at htype
      rcases htype with rfl | rfl | rfl | rfl | rfl | rfl <;> rfl
    have hread := declaration_read (.bare .keyword type) (.inl rfl) dims name hvalue rest
    simp only [List.cons_append, List.append_assoc, List.nil_append]
    rw [hkeyword, bind_of_ok hread]
    rfl
  | @assignment ts us target value op htarget hop hvalue =>
    have hread := htarget.assignment hop hvalue rest
    obtain ⟨name, vs, rfl, -⟩ := htarget.ahead
    have hname : ∀ us, forInit (.word name :: us) =
        (Reading.assignment >>= fun a => pure (some (.assignment a))) (.word name :: us) :=
      fun _ => rfl
    simp only [List.cons_append, List.append_assoc, List.nil_append] at hread ⊢
    rw [hname, bind_of_ok hread]
    rfl

/-- The test of a counting loop, with its semicolon. -/
inductive SpellsTest : List Token → Option Expr → Prop where
  | none : SpellsTest [Pattern.semicolon.token] none
  | some {ts : List Token} {e : Expr} (h : SpellsWhole ts e) :
      SpellsTest (ts ++ [Pattern.semicolon.token]) (some e)

theorem SpellsTest.read {test : Option Expr} (h : SpellsTest ts test) (rest : List Token) :
    forTest (ts ++ rest) = .ok (test, rest) := by
  cases h with
  | none => rfl
  | @some ts e h =>
    have hread := h Pattern.semicolon.token rest rfl
    obtain ⟨u, us, rfl, hbegins⟩ := h.exists_cons
    have hnot : Pattern.semicolon.fits u = false := Token.fits_of_begins hbegins rfl rfl
    simp only [List.cons_append, List.append_assoc, List.nil_append] at hread ⊢
    unfold forTest
    rw [bind_of_ok (accept_of_not_fits hnot)]
    dsimp only [Option.isSome]
    rw [if_neg Bool.false_ne_true, bind_of_ok hread, bind_of_ok (expect_of_fits _ rfl (by decide))]
    rfl

/-- What a counting loop does after each round, with the closing bracket.  An expression
is an assignment: to a name, possibly with subscripts, or to an element of something in
brackets. -/
inductive SpellsStep : List Token → Option ForUpdate → Prop where
  | none : SpellsStep [Pattern.closeParen.token] none
  | update {ts : List Token} {target : Expr} {op : UpdateOp} (htarget : SpellsTarget ts target)
      (hop : op = .increment ∨ op = .decrement) :
      SpellsStep (ts ++ [.symbol op.symbol, Pattern.closeParen.token])
        (some (.update ⟨.start, target, op⟩))
  | assign {ts us : List Token} {target e : Expr} {op : AssignOp}
      (htarget : SpellsTarget ts target) (hop : op ∈ AssignOp.all)
      (h : SpellsWhole (ts ++ .symbol op.symbol :: us) e) :
      SpellsStep (ts ++ .symbol op.symbol :: (us ++ [Pattern.closeParen.token]))
        (some (.expression e))
  | element {ts : List Token} {e : Expr} (h : SpellsWhole (Pattern.openParen.token :: ts) e) :
      SpellsStep (Pattern.openParen.token :: (ts ++ [Pattern.closeParen.token]))
        (some (.expression e))

theorem forStep_of_forUpdate {step : ForUpdate} (ht : Pattern.closeParen.fits t = false)
    (h : forUpdate (t :: us) = .ok (step, Pattern.closeParen.token :: rest)) :
    forStep (t :: us) = .ok (some step, rest) := by
  unfold forStep
  rw [bind_of_ok (accept_of_not_fits ht)]
  dsimp only [Option.isSome]
  rw [if_neg Bool.false_ne_true, bind_of_ok h, bind_of_ok (expect_of_fits _ rfl (by decide))]
  rfl

theorem forUpdate_word (name : String) (h : Token.skipSubscripts 0 us = u :: rest) :
    forUpdate (.word name :: us) =
      (if u.updateOp?.isSome then update false >>= fun u => pure (.update u)
      else expression >>= fun e => pure (.expression e)) (.word name :: us) := by
  have hword : forUpdate (.word name :: us) = (updateAhead >>= fun b =>
      if b then update false >>= fun u => pure (.update u)
      else expression >>= fun e => pure (.expression e)) (.word name :: us) := rfl
  rw [hword, bind_of_ok (updateAhead_cons h)]

theorem SpellsStep.read {step : Option ForUpdate} (h : SpellsStep ts step) (rest : List Token) :
    forStep (ts ++ rest) = .ok (step, rest) := by
  cases h with
  | none => rfl
  | @update ts target op htarget hop =>
    have hupdate : (Token.symbol op.symbol).updateOp?.isSome = true := by
      rcases hop with rfl | rfl <;> rfl
    have htext : (Token.symbol op.symbol).text ≠ "[" := by rcases hop with rfl | rfl <;> decide
    have hend : updateEnd false (Pattern.closeParen.token :: rest) =
        .ok ((), Pattern.closeParen.token :: rest) := rfl
    have hread := htarget.update hop hend
    obtain ⟨name, vs, rfl, -, hahead⟩ := htarget.ahead
    obtain ⟨hskip, -⟩ := hahead (.symbol op.symbol) (Pattern.closeParen.token :: rest) rfl htext
    simp only [List.cons_append, List.append_assoc, List.nil_append] at hread ⊢
    refine forStep_of_forUpdate rfl ?_
    rw [forUpdate_word name hskip, hupdate, if_pos rfl, bind_of_ok hread]
    rfl
  | @assign ts us target e op htarget hop h =>
    have hupdate : ∀ op ∈ AssignOp.all, (Token.symbol op.symbol).updateOp?.isSome = false := by
      decide
    have htext : ∀ op ∈ AssignOp.all, (Token.symbol op.symbol).text ≠ "[" := by decide
    have hread := h Pattern.closeParen.token rest rfl
    obtain ⟨name, vs, rfl, -, hahead⟩ := htarget.ahead
    obtain ⟨hskip, -⟩ := hahead (.symbol op.symbol) (us ++ Pattern.closeParen.token :: rest) rfl
      (htext op hop)
    simp only [List.cons_append, List.append_assoc, List.nil_append] at hread ⊢
    refine forStep_of_forUpdate rfl ?_
    rw [forUpdate_word name hskip, hupdate op hop, if_neg Bool.false_ne_true, bind_of_ok hread]
    rfl
  | @element ts e h =>
    have hread := h Pattern.closeParen.token rest rfl
    have hparen : ∀ us, forUpdate (Pattern.openParen.token :: us) =
        (expression >>= fun e => pure (.expression e)) (Pattern.openParen.token :: us) :=
      fun _ => rfl
    simp only [List.cons_append, List.append_assoc, List.nil_append] at hread ⊢
    refine forStep_of_forUpdate rfl ?_
    rw [hparen, bind_of_ok hread]
    rfl

theorem SpellsStmt.forLoop {ts us vs ws : List Token} {init : Option ForInit} {test : Option Expr}
    {step : Option ForUpdate} {body : Stmt} (hinit : SpellsInit ts init)
    (htest : SpellsTest us test) (hstep : SpellsStep vs step) (hbody : SpellsStmt false ws body) :
    SpellsStmt false
      ((Pattern.keyword "for").token :: Pattern.openParen.token :: (ts ++ (us ++ (vs ++ ws))))
      (.forLoop .start init test step body) := by
  intro t rest _
  simp only [List.cons_append, List.append_assoc]
  rw [SpellsStmt.statement_keyword forLoopWith (by simp)]
  unfold forLoopWith
  rw [bind_of_ok here_cons, bind_of_ok (expect_of_fits _ rfl (by decide)),
    bind_of_ok (expect_of_fits _ rfl (by decide)), bind_of_ok (hinit.read _),
    bind_of_ok (htest.read _), bind_of_ok (hstep.read _), bind_of_ok (hbody t rest (by simp))]
  rfl

/-! ## Programs -/

theorem fits_of_text {p : Pattern} {text : String} (hp : p.text = some text) (h : t.text ≠ text) :
    p.fits t = false := by
  simp [Pattern.fits, hp, Ne.symm h]

/-- A bracket behind the name ends a declaration too early. -/
theorem declaration_of_paren {v : Token} (ht : t.kind ≠ .eof) (hu : u.kind = .identifier)
    (hv : v.text = "(") (rest : List Token) :
    ∃ stop, declaration (t :: u :: v :: rest) = .error stop := by
  have hvalue : initialValue (v :: rest) = .ok (none, v :: rest) := by
    unfold initialValue
    rw [bind_of_ok (accept_of_not_fits (fits_of_text rfl (by simp [hv])))]
    rfl
  have hclose : expect .semicolon (.expected "';' after declaration") (v :: rest) =
      .error (.refused (.expected "';' after declaration") v rest) := by
    unfold expect
    rw [bind_of_ok (accept_of_not_fits (fits_of_text rfl (by simp [hv])))]
    rfl
  have hname : Pattern.openBracket.fits u = false := by
    simp [Pattern.fits, Pattern.openBracket, hu]
  have hfits : Pattern.name.fits u = true := by
    simp [Pattern.fits, Pattern.name, Pattern.any, hu]
  refine ⟨.refused (.expected "';' after declaration") v rest, ?_⟩
  unfold declaration
  rw [bind_of_ok here_cons, bind_of_ok (advance_cons ht), bind_of_ok (dimensions_cons hname _),
    bind_of_ok (expect_of_fits _ hfits (by decide)),
    bind_of_ok (dimensions_cons (fits_of_text rfl (by simp [hv])) _), bind_of_ok hvalue,
    bind_of_error hclose]

/-- No statement starts like a method. -/
theorem atMethod_of_statement {r : Stmt × List Token} (h : statement (t :: us) = .ok r)
    (hmodifier : t.isModifier = false) (hclosed : Token.Closed (t :: us)) :
    atMethod (t :: us) = .ok (false, t :: us) := by
  have hvoid : (Pattern.keyword "void").fits t = false := by
    cases hother : t.startsOther with
    | false =>
      simp only [Token.startsOther, Bool.or_eq_false_iff] at hother
      exact hother.1.1.2
    | true =>
      obtain ⟨stop, herror⟩ := statement_refused hother us
      rw [herror] at h
      cases h
  unfold atMethod
  rw [bind_of_ok current_cons, hvoid, if_neg Bool.false_ne_true]
  split
  · rename_i htype
    have heof : t.kind ≠ .eof := by
      intro hkind
      simp [Token.isType, hkind] at htype
    have hfinal : t.text ≠ "final" := by
      intro htext
      have hkind : t.kind = .keyword ∨ t.kind = .identifier := by
        simp only [Token.isType, Bool.or_eq_true, Bool.and_eq_true, beq_iff_eq] at htype
        exact htype.imp_left And.left
      rcases hkind with hkind | hkind <;>
        simp [Token.isModifier, hkind, htext, modifiers] at hmodifier
    rcases us with _ | ⟨u, _ | ⟨v, us⟩⟩
    · exact absurd (hclosed.tail heof) Token.not_closed_nil
    · obtain ⟨last, hlast, hkind⟩ := hclosed
      obtain rfl : u = last := by simpa using hlast
      have hbeq : (u.kind == Kind.identifier) = false := by simp [hkind]
      show Except.ok (u.kind == Kind.identifier && _, _) = _
      rw [hbeq, Bool.false_and]
    · show Except.ok (u.kind == Kind.identifier && v.text == "(", _) = _
      cases hparen : u.kind == Kind.identifier && v.text == "(" with
      | false => rfl
      | true =>
        obtain ⟨hu, hv⟩ : u.kind = .identifier ∧ v.text = "(" := by simpa using hparen
        obtain ⟨stop, herror⟩ := declaration_of_paren heof hu hv us
        have hdeclares : Token.declares (u :: v :: us) = true := by simp [Token.declares, hu]
        rcases Bool.or_eq_true_iff.mp htype with htype | htype
        · rw [statement_type htype, bind_of_error herror] at h
          cases h
        · rw [statement_name (beq_iff_eq.mp htype),
            nameStatement_of_declares hfinal (by simp) hdeclares, bind_of_error herror] at h
          cases h
  · rfl

theorem skipModifiers_cons (h : t.isModifier = false) :
    skipModifiers (t :: us) = .ok ((), t :: us) := by
  have hcollect : collect (fun t => if t.isModifier then some () else none) (t :: us) =
      .ok ([], t :: us) := by
    simp [collect, h]
  unfold skipModifiers
  rw [bind_of_ok hcollect]
  rfl

/-- Statements that do not start with a modifier make a program. -/
theorem program_read {α : Type} {f : α → List Token} {g : α → Stmt} {as : List α}
    (h : ∀ a ∈ as, SpellsStmt true (f a) (g a))
    (hfirst : ∀ a ∈ as, ∀ t ∈ (f a).head?, t.isModifier = false ∧ t.pos = .start) :
    program (as.flatMap f ++ [.bare .eof ""]) =
      .ok (⟨.start, as.map g⟩, [.bare .eof ""]) := by
  have hbody : many (·.kind != .eof) statement (as.flatMap f ++ [.bare .eof ""]) =
      .ok (as.map g, [.bare .eof ""]) := by
    refine many_statements h ?_ rfl rfl []
    intro t ht
    simp only [Token.startsOther, Bool.or_eq_false_iff] at ht
    simpa using ht.1.1.1.1.2
  cases as with
  | nil => rfl
  | cons a as =>
    obtain ⟨t, us, hcons, hother⟩ := (h a List.mem_cons_self).exists_cons
    obtain ⟨hmodifier, hpos⟩ := hfirst a List.mem_cons_self t (by simp [hcons])
    obtain ⟨u, vs, hnext, helse⟩ :=
      exists_next (fun b hb => h b (List.mem_cons_of_mem a hb)) (t := .bare .eof "") rfl []
    have hstatement := h a List.mem_cons_self u vs fun _ => helse
    rw [← hnext, hcons, List.cons_append] at hstatement
    rw [List.flatMap_cons, hcons, List.append_assoc, List.cons_append] at hbody ⊢
    have hlast :
        (t :: (us ++ (as.flatMap f ++ [.bare .eof ""]))).getLast? = some (.bare .eof "") := by
      rw [← List.cons_append, ← List.append_assoc, List.getLast?_append]
      rfl
    have hclosed : Token.Closed (t :: (us ++ (as.flatMap f ++ [.bare .eof ""]))) :=
      ⟨.bare .eof "", hlast, rfl⟩
    have hclass : (Pattern.keyword "class").fits t = false := by
      simp only [Token.startsOther, Bool.or_eq_false_iff] at hother
      exact hother.1.1.1.2
    have hprogram : programBody (t :: (us ++ (as.flatMap f ++ [.bare .eof ""]))) =
        .ok ((a :: as).map g, [.bare .eof ""]) := by
      unfold programBody
      rw [bind_of_ok (isAt_cons _), hclass, if_neg Bool.false_ne_true,
        bind_of_ok (atMethod_of_statement hstatement hmodifier hclosed), if_neg Bool.false_ne_true]
      exact hbody
    unfold program
    rw [bind_of_ok here_cons, bind_of_ok (skipModifiers_cons hmodifier), bind_of_ok hprogram,
      bind_of_ok (isAt_cons _), hpos]
    rfl

end Reading

end Pseudocode
