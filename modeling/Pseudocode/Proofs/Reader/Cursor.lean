import Pseudocode.Proofs.Reader.Statement
set_option autoImplicit false

/-!
# The cursor stays inside the tokens

A reading that starts at a token of a list whose only `eof` is its last token moves the
cursor forward or leaves it where it is, never behind `eof`, and looks for no token where
there is none.  This holds of every production of the grammar and of every way to look
ahead, at every token where it may be started, and so all along the way of a reading that
is put together from them.

A statement and an expression move the cursor by at least one token.  That is why the
clocks never stop anything: a clock as long as the tokens at hand is as good as any other.
-/

namespace Pseudocode

open Token (Closed Remains)

/-- The last token is `eof`, and no other one is. -/
def Token.EndsOnce (tokens : List Token) : Prop :=
  ∃ front last, tokens = front ++ [last] ∧ last.kind = .eof ∧ ∀ t ∈ front, t.kind ≠ .eof

theorem Token.EndsOnce.closed {tokens : List Token} (h : EndsOnce tokens) : Closed tokens := by
  obtain ⟨front, last, rfl, hlast, -⟩ := h
  exact ⟨last, by simp, hlast⟩

/-- Whatever is left of the tokens in front of the cursor ends with `eof`. -/
theorem Token.EndsOnce.closed_drop {tokens : List Token} (h : EndsOnce tokens) {i : Nat}
    (hi : i < tokens.length) : Closed (tokens.drop i) := by
  obtain ⟨last, hlast, heof⟩ := h.closed
  refine ⟨last, ?_, heof⟩
  rw [List.getLast?_drop, if_neg (by omega)]
  exact hlast

/-- The tokens from an `eof` on are the last token. -/
theorem Token.EndsOnce.eq_singleton {tokens : List Token} (h : EndsOnce tokens) {t : Token}
    {us : List Token} (hus : t :: us <:+ tokens) (ht : t.kind = .eof) : us = [] := by
  obtain ⟨front, last, rfl, -, hfront⟩ := h
  obtain ⟨before, hbefore⟩ := hus
  rcases List.eq_nil_or_concat us with rfl | ⟨vs, v, rfl⟩
  · rfl
  · -- A token with another one behind it stands in front of the last one.
    rw [List.concat_eq_append, ← List.cons_append, ← List.append_assoc] at hbefore
    obtain ⟨rfl, -⟩ := List.append_inj' hbefore rfl
    exact absurd ht (hfront t (by simp))

namespace Reading

/-- Started with the cursor at token number `i`, the reading ends with the cursor at a
token, the same or one further on; or it refuses a token, the one at hand or one further
on.  It is not stopped for lack of a token. -/
def RunsInside {α : Type} (x : Reading α) (tokens : List Token) (i : Nat) : Prop :=
  match x (tokens.drop i) with
  | .ok (_, rest) => ∃ j, i ≤ j ∧ j < tokens.length ∧ rest = tokens.drop j
  | .error (.refused _ here ahead) =>
    ∃ j, i ≤ j ∧ tokens[j]? = some here ∧ ahead = tokens.drop (j + 1)
  | .error .exhausted => False

/-- What is left of the tokens in front of the cursor is what is in front of a cursor
further on. -/
theorem exists_cursor {tokens rest : List Token} {i : Nat} (h : Remains (tokens.drop i) rest)
    (hclosed : Closed (tokens.drop i)) : ∃ j, i ≤ j ∧ j < tokens.length ∧ rest = tokens.drop j := by
  have hle := h.length_le
  have hne : rest.length ≠ 0 := by
    intro hzero
    obtain rfl := List.length_eq_zero_iff.mp hzero
    exact Token.not_closed_nil (h.closed hclosed)
  have hrest := List.suffix_iff_eq_drop.mp h.suffix
  rw [List.drop_drop] at hrest
  rw [List.length_drop] at hle hrest
  exact ⟨_, Nat.le_add_right i _, by omega, hrest⟩

section Tracks

variable {α : Type} [Placed α] {Q : α → List Token → Prop} {x y : Reading α}
  {tokens : List Token} {i : Nat}

/-- A reading that meets its specification runs inside the tokens. -/
theorem Tracks.runsInside (h : Tracks id .unrestricted Q x y (tokens.drop i))
    (hclosed : Closed (tokens.drop i)) : RunsInside x tokens i := by
  have h := h (Vocabulary.admits_unrestricted _)
  unfold RunsInside
  cases hx : x (tokens.drop i) with
  | ok r =>
    simp only [hx] at h
    exact exists_cursor h.2.1 hclosed
  | error e =>
    simp only [hx] at h
    cases e with
    | exhausted => exact Token.not_closed_nil (h.2.closed hclosed)
    | refused reason here ahead =>
      obtain ⟨j, hle, hlt, hrest⟩ := exists_cursor h.2 hclosed
      refine ⟨j, hle, ?_, ?_⟩
      · rw [← List.head?_drop, ← hrest]
        rfl
      · rw [← List.tail_drop, ← hrest]
        rfl

/-- If what a reading takes is less than what there is, the cursor moves. -/
theorem Tracks.exists_cursor_lt {P : α → Prop}
    (h : Tracks id .unrestricted (fun a rest => rest.length < (tokens.drop i).length ∧ P a) x y
      (tokens.drop i)) (hclosed : Closed (tokens.drop i)) {a : α} {rest : List Token}
    (hx : x (tokens.drop i) = .ok (a, rest)) :
    ∃ j, i < j ∧ j < tokens.length ∧ rest = tokens.drop j := by
  obtain ⟨hremains, hlt, -⟩ := h.of_ok hx
  obtain ⟨j, hle, hj, rfl⟩ := exists_cursor hremains hclosed
  simp only [List.length_drop] at hlt
  exact ⟨j, by omega, hj, rfl⟩

end Tracks

/-- Taking a token if it fits, whatever the pattern is. -/
theorem Tracks.takeIf {φ : Pos → Pos} {V : Vocabulary} {ts : List Token} (p : Pattern) :
    Tracks φ V (fun _ _ => True) (Reading.accept p) (Reading.accept p) ts := by
  refine Tracks.bind Tracks.current ?_
  intro t rest _ ht
  obtain ⟨rfl, -⟩ := ht
  refine Tracks.ite Iff.rfl (fun _ => ?_) (fun _ => Tracks.pure rfl trivial)
  refine Tracks.bind Tracks.advance ?_
  intro u rest _ _
  exact Tracks.pure rfl trivial

/-- Taking a token that has to fit, whatever the pattern is. -/
theorem Tracks.demand {φ : Pos → Pos} {V : Vocabulary} {ts : List Token} (p : Pattern)
    (reason : Refusal) :
    Tracks φ V (fun _ _ => True) (Reading.expect p reason) (Reading.expect p reason) ts := by
  refine Tracks.bind (Tracks.takeIf p) ?_
  intro r rest _ _
  cases r with
  | none => exact Tracks.refuse reason
  | some t => exact Tracks.pure rfl trivial

/-! ## The productions of the grammar -/

/-- The readings that reading a program is put together from: those of single tokens, those
that look ahead, and one for every rule of the grammar. -/
inductive Production : Type → Type 1 where
  | current : Production Token
  | here : Production Pos
  | peek (n : Nat) : Production Token
  | advance : Production Token
  | isAt (p : Pattern) : Production Bool
  | accept (p : Pattern) : Production (Option Token)
  | expect (p : Pattern) (reason : Refusal) : Production Token
  | behindTarget : Production Token
  | updateAhead : Production Bool
  | assignmentAhead : Production Bool
  | callAhead : Production Bool
  | classDeclarationAhead : Production Bool
  | finalAhead (word : String) : Production Bool
  | atType : Production Bool
  | atMethod : Production Bool
  | skipModifiers : Production Unit
  | arguments : Production (List Expr)
  | subscripts : Production (List Expr)
  | extension (node : Expr) : Production (Option Expr)
  | suffixes (base : Expr) : Production Expr
  | dimension : Production (Option Expr)
  | fresh (p : Pos) : Production Expr
  | primary : Production Expr
  | level (n : Nat) : Production Expr
  | expression : Production Expr
  | element : Production Expr
  | initializer : Production Expr
  | dimensions : Production Nat
  | initialValue : Production (Option Expr)
  | declaration : Production Declaration
  | target : Production Expr
  | assignment : Production Assignment
  | updateEnd (closed : Bool) : Production Unit
  | update (closed : Bool) : Production Update
  | leadingUpdate (closed : Bool) : Production Update
  | callStatement : Production Stmt
  | expressionStatement : Production Stmt
  | condition (word : String) : Production Expr
  | ifElse : Production Stmt
  | whileLoop : Production Stmt
  | doWhileLoop : Production Stmt
  | forInit : Production (Option ForInit)
  | forTest : Production (Option Expr)
  | forUpdate : Production ForUpdate
  | forStep : Production (Option ForUpdate)
  | forLoop : Production Stmt
  | keywordStatement (word : String) : Production Stmt
  | nameStatement (word : String) : Production Stmt
  | statement : Production Stmt
  | statements : Production (List Stmt)
  | block : Production (Pos × List Stmt)
  | skipParameters (depth : Nat) : Production Unit
  | method : Production (List Stmt)
  | classBody : Production (List Stmt)
  | programBody : Production (List Stmt)
  | program : Production Program

namespace Production

variable {α : Type}

/-- The reading of a production.  What is nested in it is read without a clock. -/
def reading : Production α → Reading α
  | .current => Reading.current
  | .here => Reading.here
  | .peek n => Reading.peek n
  | .advance => Reading.advance
  | .isAt p => Reading.isAt p
  | .accept p => Reading.accept p
  | .expect p reason => Reading.expect p reason
  | .behindTarget => Reading.behindTarget
  | .updateAhead => Reading.updateAhead
  | .assignmentAhead => Reading.assignmentAhead
  | .callAhead => Reading.callAhead
  | .classDeclarationAhead => Reading.classDeclarationAhead
  | .finalAhead word => Reading.finalAhead word
  | .atType => Reading.atType
  | .atMethod => Reading.atMethod
  | .skipModifiers => Reading.skipModifiers
  | .arguments => argumentsWith nested
  | .subscripts => subscriptsWith nested
  | .extension node => extendWith nested node
  | .suffixes base => suffixesWith nested base
  | .dimension => dimensionWith nested
  | .fresh p => freshWith nested p
  | .primary => primaryWith nested
  | .level n => levelWith nested n
  | .expression => Reading.expression
  | .element => elementWith nested
  | .initializer => Reading.initializer
  | .dimensions => Reading.dimensions
  | .initialValue => Reading.initialValue
  | .declaration => Reading.declaration
  | .target => Reading.target
  | .assignment => Reading.assignment
  | .updateEnd closed => Reading.updateEnd closed
  | .update closed => Reading.update closed
  | .leadingUpdate closed => Reading.leadingUpdate closed
  | .callStatement => Reading.callStatement
  | .expressionStatement => Reading.expressionStatement
  | .condition word => Reading.condition word
  | .ifElse => ifElseWith Reading.statement
  | .whileLoop => whileLoopWith Reading.statement
  | .doWhileLoop => doWhileLoopWith Reading.statement
  | .forInit => Reading.forInit
  | .forTest => Reading.forTest
  | .forUpdate => Reading.forUpdate
  | .forStep => Reading.forStep
  | .forLoop => forLoopWith Reading.statement
  | .keywordStatement word => keywordStatementWith Reading.statement word
  | .nameStatement word => Reading.nameStatement word
  | .statement => Reading.statement
  | .statements => statementsWith Reading.statement
  | .block => Reading.block
  | .skipParameters depth => Reading.skipParameters depth
  | .method => Reading.method
  | .classBody => Reading.classBody
  | .programBody => Reading.programBody
  | .program => Reading.program

/-- The tokens at which a production may be started.  Only a few are restricted, and they
are started behind a test for just these tokens. -/
def StartsAt : Production α → Token → Prop
  | .behindTarget, t | .updateAhead, t | .assignmentAhead, t => t.kind ≠ .eof
  | .dimension, t => Pattern.openBracket.fits t = true
  | .leadingUpdate _, t => t.updateOp?.isSome = true
  | .nameStatement _, t => t.kind = .identifier
  | _, _ => True

variable {tokens : List Token} {i : Nat}

/-- Every production, started at a token where it may be started, runs inside the
tokens. -/
theorem runsInside (p : Production α) (h : Closed (tokens.drop i))
    (hstart : ∀ t ∈ tokens[i]?, p.StartsAt t) : RunsInside p.reading tokens i := by
  obtain ⟨t, us, hdrop⟩ : ∃ t us, tokens.drop i = t :: us :=
    List.ne_nil_iff_exists_cons.mp fun hnil => Token.not_closed_nil (hnil ▸ h)
  have hstart : p.StartsAt t := by
    apply hstart t
    rw [← List.head?_drop, hdrop]
    rfl
  have hnested : Nested.TracksBelow id .unrestricted nested nested ((tokens.drop i).length + 1) :=
    Nested.tracksBelow_nested _
  have hlt : (tokens.drop i).length < (tokens.drop i).length + 1 := Nat.lt_succ_self _
  have hle : (tokens.drop i).length ≤ (tokens.drop i).length + 1 := Nat.le_succ _
  have hinner : StmtTracksBelow id .unrestricted Reading.statement Reading.statement
      ((tokens.drop i).length + 1) := fun _ _ => Tracks.statement
  have hcons : ∀ {β : Type} [Placed β] {Q : β → List Token → Prop} {x y : Reading β},
      Tracks id .unrestricted Q x y (t :: us) → RunsInside x tokens i := by
    intro β _ Q x y hxy
    rw [← hdrop] at hxy
    exact hxy.runsInside h
  cases p with
  | current => exact Tracks.current.runsInside h
  | here => exact Tracks.here.runsInside h
  | peek n => exact (Tracks.peek n).runsInside h
  | advance => exact Tracks.advance.runsInside h
  | isAt p => exact (Tracks.isAt p).runsInside h
  | accept p => exact (Tracks.takeIf p).runsInside h
  | expect p reason => exact (Tracks.demand p reason).runsInside h
  | behindTarget => exact hcons (Tracks.behindTarget hstart)
  | updateAhead => exact hcons (Tracks.updateAhead hstart)
  | assignmentAhead => exact hcons (Tracks.assignmentAhead hstart)
  | callAhead => exact Tracks.callAhead.runsInside h
  | classDeclarationAhead => exact Tracks.classDeclarationAhead.runsInside h
  | finalAhead word => exact (Tracks.finalAhead word).runsInside h
  | atType => exact Tracks.atType.runsInside h
  | atMethod => exact Tracks.atMethod.runsInside h
  | skipModifiers => exact Tracks.skipModifiers.runsInside h
  | arguments => exact (Tracks.argumentsWith hnested hlt).runsInside h
  | subscripts => exact (Tracks.subscriptsWith hnested hle).runsInside h
  | extension node => exact (Tracks.extendWith hnested hle node).runsInside h
  | suffixes base => exact (Tracks.suffixesWith hnested hle base).runsInside h
  | dimension =>
    exact hcons (Tracks.dimensionWith (Nested.tracksBelow_nested _) (Nat.lt_succ_self _) hstart)
  | fresh p => exact (Tracks.freshWith hnested hlt p).runsInside h
  | primary => exact (Tracks.primaryWith hnested hle).runsInside h
  | level n => exact (Tracks.levelWith hnested n hle).runsInside h
  | expression => exact Tracks.expression.runsInside h
  | element => exact (Tracks.elementWith hnested hlt).runsInside h
  | initializer => exact Tracks.initializer.runsInside h
  | dimensions => exact Tracks.dimensions.runsInside h
  | initialValue => exact Tracks.initialValue.runsInside h
  | declaration => exact Tracks.declaration.runsInside h
  | target => exact Tracks.target.runsInside h
  | assignment => exact Tracks.assignment.runsInside h
  | updateEnd closed => exact (Tracks.updateEnd closed).runsInside h
  | update closed => exact (Tracks.update closed).runsInside h
  | leadingUpdate closed => exact hcons (Tracks.leadingUpdate closed hstart)
  | callStatement => exact Tracks.callStatement.runsInside h
  | expressionStatement => exact Tracks.expressionStatement.runsInside h
  | condition word => exact (Tracks.condition word).runsInside h
  | ifElse => exact (Tracks.ifElseWith hinner hle).runsInside h
  | whileLoop => exact (Tracks.whileLoopWith hinner hle).runsInside h
  | doWhileLoop => exact (Tracks.doWhileLoopWith hinner hle).runsInside h
  | forInit => exact Tracks.forInit.runsInside h
  | forTest => exact Tracks.forTest.runsInside h
  | forUpdate => exact Tracks.forUpdate.runsInside h
  | forStep => exact Tracks.forStep.runsInside h
  | forLoop => exact (Tracks.forLoopWith hinner hle).runsInside h
  | keywordStatement word => exact (Tracks.keywordStatementWith hinner hle word).runsInside h
  | nameStatement word => exact hcons (Tracks.nameStatement hstart word)
  | statement => exact Tracks.statement.runsInside h
  | statements => exact (Tracks.statements hinner hlt fun _ => rfl).runsInside h
  | block => exact Tracks.block.runsInside h
  | skipParameters depth => exact (Tracks.skipParameters _ depth).runsInside h
  | method => exact Tracks.method.runsInside h
  | classBody => exact Tracks.classBody.runsInside h
  | programBody => exact Tracks.programBody.runsInside h
  | program => exact Tracks.program.runsInside h

end Production

/-! ## Reading a program -/

/-- A program was read only if the cursor has come to an `eof`. -/
theorem exists_eof_of_program {ts rest : List Token} {result : Program}
    (h : program ts = .ok (result, rest)) : ∃ t us, rest = t :: us ∧ t.kind = .eof := by
  unfold program at h
  obtain ⟨p, mid, -, h⟩ := bind_eq_ok_iff.mp h
  obtain ⟨_, mid, -, h⟩ := bind_eq_ok_iff.mp h
  obtain ⟨body, mid, -, h⟩ := bind_eq_ok_iff.mp h
  obtain ⟨b, mid', hat, h⟩ := bind_eq_ok_iff.mp h
  have htracks : Tracks id .unrestricted _ (isAt .eof) (isAt .eof) mid := Tracks.isAt .eof
  obtain ⟨-, rfl, t, us, rfl, rfl⟩ := htracks.of_ok hat
  split at h
  · rename_i hfits
    cases h
    exact ⟨t, us, rfl, kind_of_fits hfits⟩
  · cases h

/-- A clock as long as the tokens at hand reads as deep as any other. -/
theorem statementWithin_eq {clock ts : List Token} (h : ts.length ≤ clock.length) :
    statementWithin clock ts = statement ts :=
  Tracks.eq (stmtTracksBelow_statementWithin ts clock ts.length (Nat.le_refl _) h ts
    (Nat.lt_succ_self _))

end Reading

namespace Program

open Reading

/-- Reading the tokens goes well in every respect but that they may be refused. -/
structure ReadsInside (tokens : List Token) : Prop where
  /-- Either the tokens are a program, and the cursor has come to the last of them; or one
  of them is refused. -/
  ends : (∃ program last, Reading.program tokens = .ok (program, [last]) ∧
        tokens.getLast? = some last ∧ ofTokens tokens = .ok program) ∨
      ∃ reason t ahead, ofTokens tokens = .error (.refused reason t ahead) ∧ t ∈ tokens
  /-- At every token where a production may be started it runs inside the tokens. -/
  runs : ∀ {α : Type} (p : Production α) (i : Nat), i < tokens.length →
    (∀ t ∈ tokens[i]?, p.StartsAt t) → RunsInside p.reading tokens i
  /-- A statement takes at least one token. -/
  statement_moves : ∀ i stmt rest, i < tokens.length →
    statement (tokens.drop i) = .ok (stmt, rest) →
      ∃ j, i < j ∧ j < tokens.length ∧ rest = tokens.drop j
  /-- An expression takes at least one token. -/
  expression_moves : ∀ i e rest, i < tokens.length →
    expression (tokens.drop i) = .ok (e, rest) →
      ∃ j, i < j ∧ j < tokens.length ∧ rest = tokens.drop j
  /-- Nothing is nested deeper than there are tokens at hand. -/
  nesting : ∀ (i : Nat) (clock : List Token), (tokens.drop i).length ≤ clock.length →
    statementWithin clock (tokens.drop i) = statement (tokens.drop i) ∧
    expressionWithin clock (tokens.drop i) = expression (tokens.drop i) ∧
    initializerWithin clock (tokens.drop i) = initializer (tokens.drop i)

/-- A reading of tokens with one `eof`, the last of them, ends there or at a token that is
refused. -/
theorem ends_of_endsOnce {tokens : List Token} (h : Token.EndsOnce tokens) :
    (∃ program last, Reading.program tokens = .ok (program, [last]) ∧
      tokens.getLast? = some last ∧ ofTokens tokens = .ok program) ∨
    ∃ reason t ahead, ofTokens tokens = .error (.refused reason t ahead) ∧ t ∈ tokens := by
  have hruns : RunsInside Reading.program tokens 0 := Tracks.program.runsInside h.closed
  unfold RunsInside at hruns
  rw [List.drop_zero] at hruns
  unfold ofTokens
  cases hread : Reading.program tokens with
  | ok r =>
    obtain ⟨program, rest⟩ := r
    simp only [hread] at hruns
    obtain ⟨j, -, -, hrest⟩ := hruns
    obtain ⟨t, us, rfl, heof⟩ := exists_eof_of_program hread
    have hsuffix : t :: us <:+ tokens := hrest ▸ List.drop_suffix j tokens
    obtain rfl := h.eq_singleton hsuffix heof
    obtain ⟨before, rfl⟩ := hsuffix
    exact .inl ⟨program, t, rfl, by simp, rfl⟩
  | error stop =>
    simp only [hread] at hruns
    cases stop with
    | exhausted => exact hruns.elim
    | refused reason t ahead =>
      obtain ⟨j, -, ht, -⟩ := hruns
      exact .inr ⟨reason, t, ahead, rfl, List.mem_of_getElem? ht⟩

/-- **The cursor.**  On a list of tokens whose only `eof` is the last one, reading ends with
a program and the cursor on `eof`, or at a token of the list that it refuses.  On the way
every production moves the cursor forward only, never behind `eof`, and looks for no token
outside the list; statements and expressions take a token at least, so that no loop runs
on and nothing is nested deeper than there are tokens. -/
theorem readsInside_of_endsOnce {tokens : List Token} (h : Token.EndsOnce tokens) :
    ReadsInside tokens where
  ends := ends_of_endsOnce h
  runs p _ hi hstart := p.runsInside (h.closed_drop hi) hstart
  statement_moves _ _ _ hi hread := Tracks.statement.exists_cursor_lt (h.closed_drop hi) hread
  expression_moves _ _ _ hi hread := Tracks.expression.exists_cursor_lt (h.closed_drop hi) hread
  nesting _ _ hclock :=
    ⟨statementWithin_eq hclock, expressionWithin_eq hclock, initializerWithin_eq hclock⟩

/-- The tokens of `while (a[0` and nothing more. -/
def brokenOff : List Token :=
  [⟨.keyword, "while", ⟨1, 1⟩⟩, ⟨.paren, "(", ⟨1, 7⟩⟩, ⟨.identifier, "a", ⟨1, 8⟩⟩,
    ⟨.bracket, "[", ⟨1, 9⟩⟩, ⟨.number, "0", ⟨1, 10⟩⟩, ⟨.eof, "", ⟨1, 11⟩⟩]

/-- A loop that breaks off in a subscript: the end of the text is refused.  What stands
behind the subscript can be asked for nonetheless. -/
theorem readsInside_brokenOff :
    Token.EndsOnce brokenOff ∧ ReadsInside brokenOff ∧
      ofTokens brokenOff =
        .error (.refused (.expected "']' in array access") ⟨.eof, "", ⟨1, 11⟩⟩ []) ∧
      RunsInside updateAhead brokenOff 2 := by
  have hends : Token.EndsOnce brokenOff :=
    ⟨brokenOff.take 5, ⟨.eof, "", ⟨1, 11⟩⟩, rfl, rfl, by decide⟩
  have hinside := readsInside_of_endsOnce hends
  refine ⟨hends, hinside, rfl, hinside.runs .updateAhead 2 (by decide) ?_⟩
  intro t ht
  obtain rfl := Option.some.inj ht
  exact Kind.noConfusion

end Program

end Pseudocode
