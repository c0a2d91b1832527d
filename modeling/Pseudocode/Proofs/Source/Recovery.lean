import Pseudocode.Proofs.Source.Expression
set_option autoImplicit false

/-!
# Reading back what is written

The program that is read from its own source text is the program itself, apart from the
places where things stand.  Each kind of statement has its rule in the grammar; blanks
between the tokens keep the text from being cut in any other way.
-/

namespace Pseudocode

open Reading

/-! ## Parts of statements -/

/-- A name, possibly with subscripts, is read where something is assigned to. -/
theorem Expr.spellsTarget {e : Expr} (hform : e.isPlainTarget = true) (h : e.WellFormed .source) :
    SpellsTarget (e.written false) (unplaced e) := by
  cases e with
  | name p n => exact SpellsTarget.name (name_ne_final h)
  | index p array indices =>
    cases array with
    | name q n =>
      obtain ⟨hn, hne, hall⟩ := h
      have hindices := fun i hi => isSpelled (allWellFormed_iff.mp hall i hi)
      rw [written_index, unplaced, move_index]
      refine SpellsTarget.index (name_ne_final hn) hne (fun i hi => (hindices i hi).whole)
        (fun i hi => (hindices i hi).tidy.balanced) ?_
      intro i hi t ht hkind
      exact Token.text_of_inSource ((hindices i hi).tidy.inSource t ht) hkind
    | _ => cases hform
  | _ => cases hform

namespace Declaration

variable {d : Declaration}

theorem spellsValue (h : d.IsSource) : SpellsValue (d.writtenValue false) (unplaced d.value) := by
  obtain ⟨-, -, hvalue⟩ := h
  unfold writtenValue
  cases hd : d.value with
  | none => exact .none
  | some e => exact .some (Expr.isSpelled (hvalue e hd)).whole

theorem tidy (h : d.IsSource) : Token.Tidy (d.written false) := by
  obtain ⟨htype, hname, hvalue⟩ := h
  have hpairs : Token.Tidy (pairs d.dims) := by
    induction d.dims with
    | zero => exact .nil
    | succ n ih => exact Token.Tidy.nil.bracket.append ih
  have hassigned : Token.Tidy (d.writtenValue false) := by
    unfold writtenValue
    cases hd : d.value with
    | none => exact .nil
    | some e => exact (Expr.isSpelled (hvalue e hd)).tidy.cons (by decide) (by decide)
  have hkind : (Token.type d.typeName).kind ≠ .bracket := by
    rcases kind_type d.typeName with h | h <;> simp [h]
  exact (hpairs.append ((hassigned.concat (by decide) (by decide)).cons (inSource_word hname)
    (kind_word d.name))).cons (inSource_type htype) hkind

theorem spellsStmt (h : d.IsSource) :
    SpellsStmt false (d.written false) (.declaration (unplaced d)) := by
  have hvalue := spellsValue h
  obtain ⟨htype, hname, -⟩ := h
  unfold written
  by_cases hkeyword : d.typeName ∈ typeKeywords
  · rw [Token.type, if_pos hkeyword]
    exact .declaration hkeyword d.dims d.name hvalue
  · have htype := htype.resolve_left hkeyword
    have hbracket : d.name ≠ "[" := by
      intro heq
      rw [heq] at hname
      exact absurd hname.1 (by decide)
    rw [type_eq_word htype]
    exact .classDeclaration (name_ne_final htype) d.dims hbracket hvalue

end Declaration

namespace Assignment

variable {a : Assignment}

theorem tidy (h : a.IsSource) : Token.Tidy (a.written false) := by
  obtain ⟨-, htarget, hop, hvalue⟩ := h
  exact (Expr.isSpelled htarget).tidy.append
    (((Expr.isSpelled hvalue).tidy.concat (by decide) (by decide)).cons (inSource_assign a.op hop)
      (kind_symbol a.op.symbol))

theorem spellsStmt (h : a.IsSource) :
    SpellsStmt false (a.written false) (.assignment (unplaced a)) := by
  obtain ⟨hform, htarget, hop, hvalue⟩ := h
  exact .assignment (Expr.spellsTarget hform htarget) hop (Expr.isSpelled hvalue).whole

end Assignment

namespace Update

variable {u : Update}

theorem tidy (h : u.IsSource) {close : Pattern}
    (hclose : close = .semicolon ∨ close = .closeParen) :
    Token.Tidy (u.written false close) := by
  obtain ⟨-, htarget, hop⟩ := h
  have hend : Token.Tidy [close.token] := by
    rcases hclose with rfl | rfl <;> exact Token.Tidy.nil.cons (by decide) (by decide)
  exact (Expr.isSpelled htarget).tidy.append (hend.cons (inSource_update hop) (kind_symbol _))

theorem spellsStmt (h : u.IsSource) :
    SpellsStmt false (u.written false .semicolon) (.update (unplaced u)) := by
  obtain ⟨hform, htarget, hop⟩ := h
  exact .update (Expr.spellsTarget hform htarget) hop

end Update

/-! ### The head of a counting loop -/

theorem spellsInit {init : Option ForInit} (h : ∀ i ∈ init, i.IsSource) :
    SpellsInit (init.elim [Pattern.semicolon.token] (ForInit.written false)) (unplaced init) := by
  cases init with
  | none => exact .none
  | some i =>
    have hi := h i rfl
    cases i with
    | declaration d =>
      obtain ⟨hsource, hkeyword⟩ := hi
      have hread := SpellsInit.declaration hkeyword d.dims d.name (Declaration.spellsValue hsource)
      show SpellsInit (d.written false) _
      rw [Declaration.written, Token.type, if_pos hkeyword]
      exact hread
    | assignment a =>
      obtain ⟨hform, htarget, hop, hvalue⟩ := hi
      exact .assignment (Expr.spellsTarget hform htarget) hop (Expr.isSpelled hvalue).whole
    | unsupported kind => exact hi.elim

theorem spellsTest {test : Option Expr} (h : ∀ e ∈ test, e.WellFormed .source) :
    SpellsTest (test.elim [Pattern.semicolon.token]
      fun e => e.written false ++ [Pattern.semicolon.token]) (unplaced test) := by
  cases test with
  | none => exact .none
  | some e => exact .some (Expr.isSpelled (h e rfl)).whole

/-- An assignment goes to a name, possibly with subscripts, or to an element of something
in brackets. -/
theorem spellsStep {step : Option ForUpdate} (h : ∀ u ∈ step, u.IsSource) :
    SpellsStep (step.elim [Pattern.closeParen.token] (ForUpdate.written false))
      (unplaced step) := by
  cases step with
  | none => exact .none
  | some u =>
    have hu := h u rfl
    cases u with
    | update u =>
      obtain ⟨hform, htarget, hop⟩ := hu
      exact .update (Expr.spellsTarget hform htarget) hop
    | expression e =>
      obtain ⟨hassign, hwell⟩ := hu
      have hread := (Expr.isSpelled hwell).whole
      cases e with
      | assign p target op value =>
        obtain ⟨htarget, ht, hop, -⟩ := hwell
        cases hform : target.isPlainTarget with
        | true =>
          have hstep := SpellsStep.assign (Expr.spellsTarget hform ht) hop hread
          show SpellsStep (_ ++ _ :: _ ++ _) _
          rw [List.append_assoc, List.cons_append]
          exact hstep
        | false =>
          cases target with
          | index q array indices =>
            have hbase : array.base false =
                Pattern.openParen.token :: array.written false ++ [Pattern.closeParen.token] := by
              cases array with
              | name => cases hform
              | _ => rfl
            have hcons : ∃ ts, (Expr.assign p (.index q array indices) op value).written false =
                Pattern.openParen.token :: ts := by
              show ∃ ts, Expr.written false (.index q array indices) ++ _ = _
              rw [Expr.written_index, hbase]
              exact ⟨_, rfl⟩
            obtain ⟨ts, hts⟩ := hcons
            show SpellsStep (Expr.written false _ ++ _) _
            rw [hts] at hread ⊢
            exact .element hread
          | name => cases hform
          | _ => cases htarget
      | _ => cases hassign
    | unsupported kind => exact hu.elim

theorem tidy_forHead {init : Option ForInit} {test : Option Expr} {step : Option ForUpdate}
    (hinit : ∀ i ∈ init, i.IsSource) (htest : ∀ e ∈ test, e.WellFormed .source)
    (hstep : ∀ u ∈ step, u.IsSource) : Token.Tidy (forHead false init test step) := by
  have hmark : ∀ p ∈ [Pattern.semicolon, .closeParen], Token.Tidy [p.token] := by
    intro p hp
    simp only [List.mem_cons, List.not_mem_nil, or_false] at hp
    rcases hp with rfl | rfl <;> exact Token.Tidy.nil.cons (by decide) (by decide)
  have hfirst : Token.Tidy (init.elim [Pattern.semicolon.token] (ForInit.written false)) := by
    match init with
    | none => exact hmark _ (by decide)
    | some (.declaration d) => exact Declaration.tidy (hinit _ rfl).1
    | some (.assignment a) => exact Assignment.tidy (hinit _ rfl)
    | some (.unsupported kind) => exact (hinit _ rfl).elim
  have hsecond : Token.Tidy (test.elim [Pattern.semicolon.token]
      fun e => e.written false ++ [Pattern.semicolon.token]) := by
    cases test with
    | none => exact hmark _ (by decide)
    | some e => exact (Expr.isSpelled (htest e rfl)).tidy.append (hmark _ (by decide))
  have hthird : Token.Tidy (step.elim [Pattern.closeParen.token] (ForUpdate.written false)) := by
    match step with
    | none => exact hmark _ (by decide)
    | some (.update u) => exact Update.tidy (hstep _ rfl) (.inr rfl)
    | some (.expression e) =>
      exact (Expr.isSpelled (hstep _ rfl).2).tidy.append (hmark _ (by decide))
    | some (.unsupported kind) => exact (hstep _ rfl).elim
  exact hfirst.append (hsecond.append hthird)

/-! ## Statements -/

namespace Stmt

/-- What is written for a statement is read as the statement; behind a block there may
even be an `else`. -/
structure IsSpelled (stmt : Stmt) : Prop where
  tidy : Token.Tidy (stmt.written false)
  read : SpellsStmt true (stmt.written false) (unplaced stmt)
  block : stmt.isBlock = true → SpellsStmt false (stmt.written false) (unplaced stmt)

theorem IsSpelled.of_spells {stmt : Stmt} (htidy : Token.Tidy (stmt.written false))
    (h : SpellsStmt false (stmt.written false) (unplaced stmt)) : stmt.IsSpelled :=
  ⟨htidy, h.weaken, fun _ => h⟩

/-- A condition in brackets. -/
theorem tidy_condition {e : Expr} (h : e.WellFormed .source) :
    Token.Tidy (bracket (e.written false)) :=
  ((Expr.isSpelled h).tidy.concat (by decide) (by decide)).cons (by decide) (by decide)

/-- What is written for a statement of a source is read as the statement. -/
theorem isSpelled {stmt : Stmt} (h : stmt.IsSource) : stmt.IsSpelled := by
  induction stmt with
  | block p body ih =>
    have hbody := fun stmt hstmt => ih stmt hstmt (allSource_iff.mp h stmt hstmt)
    have hwritten : (Stmt.block p body).written false = Pattern.openBrace.token ::
        (body.flatMap (written false) ++ [Pattern.closeBrace.token]) := by
      rw [← writtenAll_eq]
      rfl
    have hunplaced : unplaced (Stmt.block p body) = .block .start (body.map unplaced) :=
      congrArg (Stmt.block .start) (moveAll_eq _ body)
    have htidy : Token.Tidy (body.flatMap (written false)) :=
      .flatMap fun stmt hstmt => (hbody stmt hstmt).tidy
    refine .of_spells ?_ ?_
    · rw [hwritten]
      exact (htidy.concat (by decide) (by decide)).cons (by decide) (by decide)
    · rw [hwritten, hunplaced]
      exact .block fun stmt hstmt => (hbody stmt hstmt).read
  | declaration d => exact .of_spells (Declaration.tidy h) (Declaration.spellsStmt h)
  | assignment a => exact .of_spells (Assignment.tidy h) (Assignment.spellsStmt h)
  | update u => exact .of_spells (Update.tidy h (.inl rfl)) (Update.spellsStmt h)
  | expression p e =>
    obtain ⟨⟨q, n, args, rfl⟩, hwell⟩ := h
    have hspelled := Expr.isSpelled hwell
    refine .of_spells (hspelled.tidy.concat (by decide) (by decide)) ?_
    have hread := hspelled.whole
    show SpellsStmt false (Expr.written false _ ++ _) _
    rw [Expr.written_call] at hread ⊢
    exact .expression (name_ne_final hwell.1) hread
  | call p e =>
    obtain ⟨-, hdotted, hwell⟩ := h
    have hchain := Expr.isChain (by simp [hdotted]) hwell
    obtain ⟨n, us, hcons, hn⟩ := Expr.chain_of_isDotted hdotted hwell
    refine .of_spells (hchain.tidy.concat (by decide) (by decide)) ?_
    have hread := hchain.base
    show SpellsStmt false (e.chain false ++ _) _
    rw [hcons] at hread ⊢
    exact .call (name_ne_final hn) hread
  | ifElse p test consequent alternate hconsequent halternate =>
    obtain ⟨htest, hblock, hthen, helse⟩ := h
    have hfirst := hconsequent hthen
    have hcondition := (Expr.isSpelled htest).whole
    cases alternate with
    | none =>
      refine ⟨?_, ?_, nofun⟩
      · exact ((tidy_condition htest).append (hfirst.tidy.append .nil)).cons (by decide) (by decide)
      · show SpellsStmt true (_ :: (_ ++ (consequent.written false ++ []))) _
        rw [List.append_nil]
        exact .ifThen hcondition (hfirst.block hblock)
    | some stmt =>
      have hsecond := halternate stmt rfl helse.2
      refine ⟨?_, .ifElse hcondition (hfirst.block hblock) hsecond.read, nofun⟩
      exact ((tidy_condition htest).append (hfirst.tidy.append
        (hsecond.tidy.cons (by decide) (by decide)))).cons (by decide) (by decide)
  | whileLoop p test body ih =>
    obtain ⟨htest, hblock, hbody⟩ := h
    refine .of_spells ?_ (.whileLoop (Expr.isSpelled htest).whole ((ih hbody).block hblock))
    exact ((tidy_condition htest).append (ih hbody).tidy).cons (by decide) (by decide)
  | doWhileLoop p body test ih =>
    obtain ⟨htest, hblock, hbody⟩ := h
    refine .of_spells ?_ (.doWhileLoop ((ih hbody).block hblock) (Expr.isSpelled htest).whole)
    exact ((ih hbody).tidy.append (((tidy_condition htest).concat (by decide) (by decide)).cons
      (by decide) (by decide))).cons (by decide) (by decide)
  | forLoop p init test step body ih =>
    obtain ⟨hinit, htest, hstep, hblock, hbody⟩ := h
    have hread := SpellsStmt.forLoop (spellsInit hinit) (spellsTest htest) (spellsStep hstep)
      ((ih hbody).block hblock)
    refine .of_spells ?_ ?_
    · exact (((tidy_forHead hinit htest hstep).append (ih hbody).tidy).cons (by decide)
        (by decide)).cons (by decide) (by decide)
    · show SpellsStmt false (_ :: _ :: (forHead false init test step ++ body.written false)) _
      rw [forHead, List.append_assoc, List.append_assoc]
      exact hread
  | unsupported kind => exact h.elim

end Stmt

/-! ## Texts -/

/-- Tokens with blanks behind them are cut as they stand. -/
theorem scans_spaced {ts : List Token} (h : ∀ t ∈ ts, t.inSource = true) :
    Token.Scans (fun _ => true) (Token.spaced ts).toList ts := by
  induction ts with
  | nil => exact .nil
  | cons t ts ih =>
    obtain ⟨hpos, hlexeme, -⟩ := Token.inSource_iff.mp (h t List.mem_cons_self)
    have htoken : t = .bare t.kind t.text := by
      rw [Token.bare, ← hpos]
    have hfirst : Token.Scans (· == ' ') t.text.toList [t] := by
      rw [htoken]
      exact .lexeme_blank hlexeme
    have hrest := ih fun u hu => h u (List.mem_cons_of_mem t hu)
    have htext : (Token.spaced (t :: ts)).toList =
        t.text.toList ++ ' ' :: (Token.spaced ts).toList := by
      simp [Token.spaced, Text.concat]
    rw [htext]
    exact hfirst.spaced rfl hrest

/-- The source text of a program is cut into tokens, which are read as the program, apart
from the places where things stand. -/
def Program.IsRecovered (literals : Bool) (program : Program) : Prop :=
  ∃ tokens found, tokenize (program.sourceText literals) = .ok tokens ∧
    Program.ofTokens tokens = .ok found ∧ unplaced found = unplaced program

/-- Every program is read back from its source text, if literals stand in brackets before
a field, a method, a subscript or a change by one. -/
theorem Program.isRecovered_of_isSource (program : Program) (h : program.IsSource) :
    program.IsRecovered false := by
  have hbody := fun stmt hstmt => Stmt.isSpelled (h stmt hstmt)
  have hwritten : program.written false = program.body.flatMap (Stmt.written false) :=
    Stmt.writtenAll_eq program.body
  have htidy : Token.Tidy (program.written false) := by
    rw [hwritten]
    exact .flatMap fun stmt hstmt => (hbody stmt hstmt).tidy
  have hread := program_read (fun stmt hstmt => (hbody stmt hstmt).read) fun stmt hstmt t ht => by
    obtain ⟨hpos, -, hmodifier⟩ := Token.inSource_iff.mp
      ((hbody stmt hstmt).tidy.inSource t (List.mem_of_mem_head? ht))
    exact ⟨hmodifier, hpos⟩
  obtain ⟨tokens, htokens, hunplaced⟩ := (scans_spaced htidy.inSource).tokenize_eq
  rw [← hwritten, ← hunplaced] at hread
  obtain ⟨found, rest, hfound, heq, -⟩ := Tracks.program.of_moved hread
  refine ⟨tokens, found, htokens, ?_, heq⟩
  rw [Program.ofTokens, hfound]
  rfl

/-- A program with a chain of branches, loops of all kinds, chains of calls and literals in
all places where they need brackets. -/
def tableProgram : Program :=
  let x (n : String) : Expr := .name .start n
  let c (raw : String) : Expr := .literal .start raw
  ⟨.start, [
    .declaration ⟨.start, "rows", "Table", 2, some (.arrayLiteral .start
      [.arrayLiteral .start [c "1", .unary .start .neg (c "2.5")],
        .assign .start (x "last") .set (.newArray .start "double" [x "n", c "3"])])⟩,
    .forLoop .start (some (.declaration ⟨.start, "i", "int", 0, some (c "0")⟩))
      (some (.binary .start .lt (x "i") (.length .start (x "rows"))))
      (some (.expression (.assign .start
        (.index .start (.index .start (x "rows") [x "i"]) [c "0"]) .add (c "1"))))
      (.block .start [
        .ifElse .start (.binary .start .and (.unary .start .not (x "done"))
            (.methodCall .start (c "\"a\"") "equals" [x "key"]))
          (.block .start [.call .start (.methodCall .start (.index .start
            (.property .start (x "out") "list") [x "i", x "j"]) "add" [.update .start .increment
              (x "count"), .newObject .start "Cell" [c "'b'"]])])
          (some (.ifElse .start (c "true")
            (.block .start [.update ⟨.start, .index .start (x "rows") [x "i", x "j"], .decrement⟩])
            (some (.block .start []))))]),
    .doWhileLoop .start (.block .start [.expression .start (.call .start "step" [])])
      (.binary .start .ne (.index .start (c "\"abc\"") [c "0"]) (c "'a'")),
    .whileLoop .start (.binary .start .or (x "p") (.binary .start .or (x "q") (x "r")))
      (.block .start [.assignment ⟨.start, x "x", .rem, .update .start .decrement (c "5")⟩])]⟩

theorem Program.isRecovered_of_isSource_table :
    tableProgram.IsSource ∧ tableProgram.IsRecovered false := by
  have hsource : tableProgram.IsSource := by
    simp +decide [tableProgram, Program.IsSource, Stmt.IsSource, Stmt.AllSource, Stmt.ElseSource,
      Declaration.IsSource, Assignment.IsSource, Update.IsSource, ForInit.IsSource,
      ForUpdate.IsSource, Expr.WellFormed, Vocabulary.IsLiteral, Vocabulary.source]
  exact ⟨hsource, Program.isRecovered_of_isSource tableProgram hsource⟩

/-- A program is not read back if the reader refuses what is written for it. -/
theorem Program.not_isRecovered {literals : Bool} {program : Program}
    (hlexemes : ∀ t ∈ program.written literals, t.inSource = true)
    (hrefused : (Reading.program (program.written literals ++ [.bare .eof ""])).isOk = false) :
    ¬ program.IsRecovered literals := by
  intro hrecovered
  obtain ⟨tokens, found, htokens, hfound, -⟩ := hrecovered
  obtain ⟨us, hus, hunplaced⟩ := (scans_spaced hlexemes).tokenize_eq
  obtain rfl : us = tokens := Except.ok.inj (hus.symm.trans htokens)
  unfold Program.ofTokens at hfound
  cases hread : Reading.program us with
  | error stop =>
    rw [hread] at hfound
    cases hfound
  | ok r =>
    have hmoved : Reading.program (unplaced us) = .ok (unplaced r.1, unplaced r.2) :=
      Tracks.program.moved hread
    rw [hunplaced] at hmoved
    rw [hmoved] at hrefused
    cases hrefused

/-- A program that assigns a value. -/
def assigning (value : Expr) : Program :=
  ⟨.start, [.assignment ⟨.start, .name .start "x", .set, value⟩]⟩

/-- A literal before a method, a subscript or a change by one. -/
def literalReceiver : Expr := .methodCall .start (.literal .start "\"a\"") "f" []

@[inherit_doc literalReceiver]
def literalArray : Expr := .index .start (.literal .start "\"a\"") [.literal .start "0"]

@[inherit_doc literalReceiver]
def literalCounter : Expr := .update .start .increment (.literal .start "5")

/-- Without brackets round the literal, none of them is read back. -/
theorem not_isRecovered_of_literal_base :
    ((assigning literalReceiver).IsSource ∧ ¬ (assigning literalReceiver).IsRecovered true) ∧
      ((assigning literalArray).IsSource ∧ ¬ (assigning literalArray).IsRecovered true) ∧
      ((assigning literalCounter).IsSource ∧ ¬ (assigning literalCounter).IsRecovered true) := by
  have hsource : ∀ value ∈ [literalReceiver, literalArray, literalCounter],
      (assigning value).IsSource := by
    simp +decide [literalReceiver, literalArray, literalCounter, assigning, Program.IsSource,
      Stmt.IsSource, Assignment.IsSource, Expr.WellFormed, Vocabulary.IsLiteral, Vocabulary.source]
  refine ⟨⟨hsource _ (by simp), ?_⟩, ⟨hsource _ (by simp), ?_⟩, hsource _ (by simp), ?_⟩
  · exact Program.not_isRecovered (by decide) (by decide)
  · exact Program.not_isRecovered (by decide) (by decide)
  · exact Program.not_isRecovered (by decide) (by decide)

end Pseudocode
