import Pseudocode.Proofs.Conversion.Styles
import Pseudocode.Proofs.Layout
import Pseudocode.Proofs.Render.SideBySide
set_option autoImplicit false

/-!
# Assignments and comparisons in pseudocode

Pseudocode writes the sign `=` for an assignment and for a test for equality.  Take two programs
that differ in one such sign inside an expression: an assignment in the one, and in the other the
comparison in its place.  Their pseudocode is the same just when the brackets agree: those round
the assignment and round the comparison at the spot where they stand, and those inside.
-/

namespace Pseudocode

/-- The spot of a gap in a program. -/
def Program.Gap.spot (style : Style) (x : Sign) (gap : Program.Gap) : Spot :=
  gap.gap.spot style x

/-- Two programs that differ in one sign are written alike but for one line. -/
theorem Program.render_fill {style : Style} (hs : style ∈ Style.catalogue) {gap : Program.Gap}
    {x : Sign} (h : (gap.fill x.assigned).WellFormed .lexical) :
    ∀ same ∈ (gap.spot style x).alike? style x,
      Both (Page.Apart (same = true)) ((gap.fill x.assigned).render style)
        ((gap.fill x.compared).render style) := by
  intro same hsame
  have hyields : ∀ d ∈ gap.before ++ gap.gap.fill x.assigned :: gap.behind, ∀ page,
      Yields (Stmt.emit style d page) := fun d hd =>
    (Stmt.emit_yields (Style.isSound_of_mem hs) (h d hd)).1
  have hgap := Stmt.emit_fill hs gap.gap (h _ (by simp [Gap.fill])) same hsame
  exact Stmt.emitAll_apart (fun d hd => hyields d (by simp [hd])) hgap.1
    (fun d hd => hyields d (by simp [hd])) _

namespace Conversion

/-- The source is accepted, and this is the program that it is read as. -/
structure Accepts (source : String) (program : Program) : Prop where
  filled : Text.isBlankText source = false
  inScope : Scope.violation? (Source.normalize source) = none
  read : ∃ tokens, tokenize (Source.normalize source) = .ok tokens ∧
    Program.ofTokens tokens = .ok program

namespace Accepts

variable {source : String} {program : Program}

theorem wellFormed (h : Accepts source program) : program.WellFormed .lexical := by
  obtain ⟨tokens, htokens, hread⟩ := h.read
  rcases Program.ofTokens_cases htokens with ⟨program', hread', hwf⟩ | ⟨reason, t, ahead, hread'⟩
  · obtain rfl := Except.ok.inj (hread'.symm.trans hread)
    exact hwf
  · cases hread'.symm.trans hread

/-- An accepted source is converted to what is written for its program. -/
theorem convert_eq (h : Accepts source program) {style : Style} (hs : style ∈ Style.catalogue)
    {page : Page} (hpage : program.render style = .ok page) :
    convert source (some style.id) = .ok ⟨some page.output, []⟩ := by
  obtain ⟨tokens, htokens, hread⟩ := h.read
  unfold convert Conversion.run
  rw [h.filled, Style.select_id hs]
  unfold Conversion.ofSource
  simp only [h.inScope, htokens, Conversion.ofTokens, hread, Conversion.finish, hpage,
    Bool.false_eq_true, if_false]

end Accepts

end Conversion

open Conversion (Accepts)

/-- **Signs.**  Take two accepted sources whose programs differ in one sign inside an expression,
which is an assignment in the first and the comparison in its place in the second.  Both are
converted, in every style of the catalogue, and the pseudocode is the same just when the two are
alike at the spot where the sign stands, as far as anything is said of that spot. -/
theorem convert_eq_iff_alike {source source' : String} {gap : Program.Gap} {x : Sign}
    {program : Program} (h : Accepts source (gap.fill x.assigned)) (h' : Accepts source' program)
    (hprogram : unplaced program = unplaced (gap.fill x.compared)) {style : Style}
    (hs : style ∈ Style.catalogue) {same : Bool}
    (hsame : (gap.spot style x).alike? style x = some same) :
    ∃ text text', convert source (some style.id) = .ok ⟨some text, []⟩ ∧
      convert source' (some style.id) = .ok ⟨some text', []⟩ ∧ (text = text' ↔ same = true) := by
  obtain ⟨page, page', hpage, hpage', hapart⟩ := Program.render_fill hs h.wellFormed same hsame
  have hmoved := (Program.render_eq_of_unplaced hprogram style).trans hpage'
  exact ⟨page.output, page'.output, h.convert_eq hs hpage, h'.convert_eq hs hmoved,
    hapart.output_eq_iff⟩

/-! ## Two pairs of sources -/

/-- The value of an assignment, with a sign in it. -/
def chainedGap : Program.Gap where
  pos := ⟨1, 1⟩
  before := []
  gap := .value ⟨⟨1, 1⟩, .name ⟨1, 1⟩ "x", .set, default⟩ .here
  behind := []

/-- The sign in `x = a = b && c;`. -/
def chainedSign : Sign where
  pos := ⟨1, 5⟩
  target := .name ⟨1, 5⟩ "a"
  value := .binary ⟨1, 9⟩ .and (.name ⟨1, 9⟩ "b") (.name ⟨1, 14⟩ "c")
  depth := 1
  isTarget := rfl
  isLoose := ⟨by decide, trivial⟩

theorem accepts_chainedAssignment :
    Accepts "x = a = b && c;" (chainedGap.fill chainedSign.assigned) where
  filled := by decide +kernel
  inScope := by decide +kernel
  read := by
    refine ⟨[⟨.identifier, "x", ⟨1, 1⟩⟩, ⟨.operator, "=", ⟨1, 3⟩⟩, ⟨.identifier, "a", ⟨1, 5⟩⟩,
      ⟨.operator, "=", ⟨1, 7⟩⟩, ⟨.identifier, "b", ⟨1, 9⟩⟩, ⟨.operator, "&&", ⟨1, 11⟩⟩,
      ⟨.identifier, "c", ⟨1, 14⟩⟩, ⟨.semicolon, ";", ⟨1, 15⟩⟩, ⟨.eof, "", ⟨1, 16⟩⟩], ?_, rfl⟩
    decide +kernel

/-- The program of `x = a == b && c;`. -/
def chainedComparison : Program :=
  ⟨⟨1, 1⟩, [.assignment ⟨⟨1, 1⟩, .name ⟨1, 1⟩ "x", .set,
    .binary ⟨1, 5⟩ .and (.binary ⟨1, 5⟩ .eq (.name ⟨1, 5⟩ "a") (.name ⟨1, 10⟩ "b"))
      (.name ⟨1, 15⟩ "c")⟩]⟩

theorem accepts_chainedComparison : Accepts "x = a == b && c;" chainedComparison where
  filled := by decide +kernel
  inScope := by decide +kernel
  read := by
    refine ⟨[⟨.identifier, "x", ⟨1, 1⟩⟩, ⟨.operator, "=", ⟨1, 3⟩⟩, ⟨.identifier, "a", ⟨1, 5⟩⟩,
      ⟨.operator, "==", ⟨1, 7⟩⟩, ⟨.identifier, "b", ⟨1, 10⟩⟩, ⟨.operator, "&&", ⟨1, 12⟩⟩,
      ⟨.identifier, "c", ⟨1, 15⟩⟩, ⟨.semicolon, ";", ⟨1, 16⟩⟩, ⟨.eof, "", ⟨1, 17⟩⟩], ?_, rfl⟩
    decide +kernel

/-- The two are told apart by the brackets round the assignment. -/
theorem convert_eq_iff_alike_chained :
    Accepts "x = a = b && c;" (chainedGap.fill chainedSign.assigned) ∧
      Accepts "x = a == b && c;" chainedComparison ∧
      ∃ text text', convert "x = a = b && c;" (some "sc-02") = .ok ⟨some text, []⟩ ∧
        convert "x = a == b && c;" (some "sc-02") = .ok ⟨some text', []⟩ ∧ text ≠ text' := by
  have hs : Style.structured "sc-02" ∈ Style.catalogue := by decide
  have hsame : (chainedGap.spot (.structured "sc-02") chainedSign).alike?
      (.structured "sc-02") chainedSign = some false := by decide
  obtain ⟨text, text', htext, htext', hiff⟩ :=
    convert_eq_iff_alike accepts_chainedAssignment accepts_chainedComparison rfl hs hsame
  exact ⟨accepts_chainedAssignment, accepts_chainedComparison, text, text', htext, htext',
    fun heq => Bool.false_ne_true (hiff.mp heq)⟩

/-- The test of a branch, with a sign in it. -/
def branchGap : Program.Gap where
  pos := ⟨1, 1⟩
  before := []
  gap := .test ⟨1, 1⟩ .here (.block ⟨1, 12⟩
    [.assignment ⟨⟨1, 14⟩, .name ⟨1, 14⟩ "x", .set, .literal ⟨1, 18⟩ "1"⟩]) none
  behind := []

/-- The sign in `if (a = b) { x = 1; }`. -/
def branchSign : Sign where
  pos := ⟨1, 5⟩
  target := .name ⟨1, 5⟩ "a"
  value := .name ⟨1, 9⟩ "b"
  depth := 0
  isTarget := rfl
  isLoose := trivial

/-- A branch on the value of an assignment. -/
def branchAssignment : String :=
  "if (a = b) \x7b x = 1; \x7d"

/-- A branch on a comparison. -/
def branchComparison : String :=
  "if (a == b) \x7b x = 1; \x7d"

theorem accepts_branchAssignment :
    Accepts branchAssignment (branchGap.fill branchSign.assigned) where
  filled := by decide +kernel
  inScope := by decide +kernel
  read := by
    refine ⟨[⟨.keyword, "if", ⟨1, 1⟩⟩, ⟨.paren, "(", ⟨1, 4⟩⟩, ⟨.identifier, "a", ⟨1, 5⟩⟩,
      ⟨.operator, "=", ⟨1, 7⟩⟩, ⟨.identifier, "b", ⟨1, 9⟩⟩, ⟨.paren, ")", ⟨1, 10⟩⟩,
      ⟨.brace, "\x7b", ⟨1, 12⟩⟩, ⟨.identifier, "x", ⟨1, 14⟩⟩, ⟨.operator, "=", ⟨1, 16⟩⟩,
      ⟨.number, "1", ⟨1, 18⟩⟩, ⟨.semicolon, ";", ⟨1, 19⟩⟩, ⟨.brace, "\x7d", ⟨1, 21⟩⟩,
      ⟨.eof, "", ⟨1, 22⟩⟩], ?_, rfl⟩
    decide +kernel

/-- The program of the branch on a comparison. -/
def branchProgram : Program :=
  ⟨⟨1, 1⟩, [.ifElse ⟨1, 1⟩ (.binary ⟨1, 5⟩ .eq (.name ⟨1, 5⟩ "a") (.name ⟨1, 10⟩ "b"))
    (.block ⟨1, 13⟩ [.assignment ⟨⟨1, 15⟩, .name ⟨1, 15⟩ "x", .set, .literal ⟨1, 19⟩ "1"⟩]) none]⟩

theorem accepts_branchComparison : Accepts branchComparison branchProgram where
  filled := by decide +kernel
  inScope := by decide +kernel
  read := by
    refine ⟨[⟨.keyword, "if", ⟨1, 1⟩⟩, ⟨.paren, "(", ⟨1, 4⟩⟩, ⟨.identifier, "a", ⟨1, 5⟩⟩,
      ⟨.operator, "==", ⟨1, 7⟩⟩, ⟨.identifier, "b", ⟨1, 10⟩⟩, ⟨.paren, ")", ⟨1, 11⟩⟩,
      ⟨.brace, "\x7b", ⟨1, 13⟩⟩, ⟨.identifier, "x", ⟨1, 15⟩⟩, ⟨.operator, "=", ⟨1, 17⟩⟩,
      ⟨.number, "1", ⟨1, 19⟩⟩, ⟨.semicolon, ";", ⟨1, 20⟩⟩, ⟨.brace, "\x7d", ⟨1, 22⟩⟩,
      ⟨.eof, "", ⟨1, 23⟩⟩], ?_, rfl⟩
    decide +kernel

/-- A branch on the value of an assignment and one on a comparison are written alike, in every
style. -/
theorem convert_branch_alike :
    Accepts branchAssignment (branchGap.fill branchSign.assigned) ∧
      Accepts branchComparison branchProgram ∧
      unplaced branchProgram = unplaced (branchGap.fill branchSign.compared) ∧
      ∀ style ∈ Style.catalogue, ∃ text,
        convert branchAssignment (some style.id) = .ok ⟨some text, []⟩ ∧
          convert branchComparison (some style.id) = .ok ⟨some text, []⟩ := by
  have hunplaced : unplaced branchProgram = unplaced (branchGap.fill branchSign.compared) := rfl
  have hall : ∀ style ∈ Style.catalogue,
      true ∈ (branchGap.spot style branchSign).alike? style branchSign := by decide
  refine ⟨accepts_branchAssignment, accepts_branchComparison, hunplaced, fun style hs => ?_⟩
  obtain ⟨page, page', hpage, hpage', hapart⟩ :=
    Program.render_fill hs accepts_branchAssignment.wellFormed true (hall style hs)
  have hmoved := (Program.render_eq_of_unplaced hunplaced style).trans hpage'
  refine ⟨page.output, accepts_branchAssignment.convert_eq hs hpage, ?_⟩
  rw [accepts_branchComparison.convert_eq hs hmoved, hapart.output_eq_iff.mpr rfl]

end Pseudocode
