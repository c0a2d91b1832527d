import Pseudocode.Conversion
import Pseudocode.Proofs.Reader.Statement
import Pseudocode.Proofs.Render.Total
set_option autoImplicit false

/-!
# Conversion always comes to an end

Every source is either converted or refused with one diagnostic.  What could go wrong
besides does not: the tokens of a text end with `eof`, so reading does not run out of
them, and a program that was read can be rendered.
-/

namespace Pseudocode

/-- Reading the tokens of a text ends with a well-formed program or at a token that is
refused. -/
theorem Program.ofTokens_cases {text : String} {tokens : List Token}
    (h : tokenize text = .ok tokens) :
    (∃ program, ofTokens tokens = .ok program ∧ program.WellFormed .lexical) ∨
      ∃ reason t rest, ofTokens tokens = .error (.refused reason t rest) := by
  have htracks : Reading.Tracks id .lexical (fun program _ => program.WellFormed .lexical)
      Reading.program Reading.program tokens := Reading.Tracks.program
  have hread := htracks (Token.scan_admits h)
  unfold ofTokens
  cases hprogram : Reading.program tokens with
  | ok r =>
    simp only [hprogram] at hread
    exact .inl ⟨r.1, rfl, hread.2.2⟩
  | error stop =>
    simp only [hprogram] at hread
    cases stop with
    | refused reason t rest => exact .inr ⟨reason, t, rest, rfl⟩
    | exhausted => exact absurd (hread.2.closed (Token.scan_closed h)) Token.not_closed_nil

/-- A token that is refused is one of the tokens, with what comes behind it. -/
theorem Program.exists_of_refused {text : String} {tokens : List Token}
    (h : tokenize text = .ok tokens) {reason : Refusal} {t : Token} {ahead : List Token}
    (hrefused : ofTokens tokens = .error (.refused reason t ahead)) :
    ∃ before, tokens = before ++ t :: ahead := by
  have htracks : Reading.Tracks id .lexical (fun program _ => program.WellFormed .lexical)
      Reading.program Reading.program tokens := Reading.Tracks.program
  have hread := htracks (Token.scan_admits h)
  unfold ofTokens at hrefused
  cases hprogram : Reading.program tokens with
  | ok r =>
    rw [hprogram] at hrefused
    cases hrefused
  | error stop =>
    rw [hprogram] at hrefused
    obtain rfl := Except.error.inj hrefused
    simp only [hprogram] at hread
    obtain ⟨before, hbefore⟩ := hread.2.suffix
    exact ⟨before, hbefore.symm⟩

/-- A program that was read from a text can be written in every style of the
catalogue. -/
theorem Program.render_of_ofTokens {text : String} {tokens : List Token} {program : Program}
    (htokens : tokenize text = .ok tokens) (hprogram : ofTokens tokens = .ok program)
    {style : Style} (hstyle : style ∈ Style.catalogue) :
    ∃ page, program.render style = .ok page := by
  rcases ofTokens_cases htokens with ⟨program', hread, hwf⟩ | ⟨reason, t, rest, hread⟩
  · rw [hread] at hprogram
    obtain rfl := Except.ok.inj hprogram
    exact render_yields hstyle hwf
  · rw [hread] at hprogram
    cases hprogram

theorem Style.mem_of_select {id : Option String} {style : Style} (h : select id = .ok style) :
    style ∈ catalogue := by
  unfold select at h
  split at h
  · rename_i found hfound
    obtain rfl := Except.ok.inj h
    exact List.mem_of_find?_eq_some hfound
  · cases h

/-- The source passes all stages: it is not blank, the style is known, nothing in it is
out of scope, and its tokens are those of `program`. -/
structure Passes (source : String) (styleId : Option String) (style : Style)
    (program : Program) : Prop where
  notBlank : Text.isBlankText source = false
  selected : Style.select styleId = .ok style
  inScope : Scope.violation? (Source.normalize source) = none
  read : ∃ tokens, tokenize (Source.normalize source) = .ok tokens ∧
    Program.ofTokens tokens = .ok program

/-- The report is that of a conversion that was carried out to its end, with pseudocode
and no diagnostic, or that of a source which some stage refused, with one diagnostic and
no pseudocode. -/
def Report.Settles (report : Report) (source : String) (styleId : Option String) : Prop :=
  (∃ style program page, Passes source styleId style program ∧
    program.render style = .ok page ∧ report = ⟨some page.output, []⟩) ∨
  (¬ ∃ style program, Passes source styleId style program) ∧
    ∃ d : Diagnostic, d.stage.name ∈ ["input", "scope", "tokenization", "parse"] ∧
      report = ⟨none, [d]⟩

theorem Stage.name_mem (stage : Stage) :
    stage.name ∈ ["input", "scope", "tokenization", "parse"] := by
  cases stage <;> decide

namespace Conversion

/-- A refusal settles a source that does not pass. -/
theorem reject_settles {source : String} {styleId : Option String}
    (h : ¬ ∃ style program, Passes source styleId style program) (events : List Event)
    (d : Diagnostic) :
    ∃ report, (reject events d).outcome = .ok report ∧ report.Settles source styleId :=
  ⟨_, rfl, .inr ⟨h, d, d.stage.name_mem, rfl⟩⟩

theorem ofTokens_settles {source : String} {styleId : Option String} {style : Style}
    {tokens : List Token} (hblank : Text.isBlankText source = false)
    (hstyle : Style.select styleId = .ok style)
    (hscope : Scope.violation? (Source.normalize source) = none)
    (htokens : tokenize (Source.normalize source) = .ok tokens) (events : List Event) :
    ∃ report, (ofTokens events source style tokens).outcome = .ok report ∧
      report.Settles source styleId := by
  unfold ofTokens
  rcases Program.ofTokens_cases htokens with ⟨program, hread, hwf⟩ | ⟨reason, t, rest, hread⟩
  · obtain ⟨page, hpage⟩ := Program.render_yields (Style.mem_of_select hstyle) hwf
    simp only [hread, finish, hpage]
    have hpasses : Passes source styleId style program :=
      ⟨hblank, hstyle, hscope, tokens, htokens, hread⟩
    exact ⟨_, rfl, .inl ⟨style, program, page, hpasses, hpage, rfl⟩⟩
  · simp only [hread]
    refine reject_settles ?_ _ _
    rintro ⟨style', program, hpasses⟩
    obtain ⟨tokens', htokens', hread'⟩ := hpasses.read
    rw [htokens] at htokens'
    obtain rfl := Except.ok.inj htokens'
    rw [hread] at hread'
    cases hread'

theorem run_settles (source : String) (styleId : Option String) :
    ∃ report, (run source styleId).outcome = .ok report ∧ report.Settles source styleId := by
  unfold run
  split
  · rename_i hblank
    refine reject_settles ?_ _ _
    rintro ⟨style, program, hpasses⟩
    rw [hpasses.notBlank] at hblank
    cases hblank
  rename_i hblank
  have hblank : Text.isBlankText source = false := by simpa using hblank
  split
  · rename_i unknown hunknown
    refine reject_settles ?_ _ _
    rintro ⟨style, program, hpasses⟩
    rw [hpasses.selected] at hunknown
    cases hunknown
  rename_i style hstyle
  unfold ofSource
  dsimp only
  split
  · rename_i construct p hviolation
    refine reject_settles ?_ _ _
    rintro ⟨style, program, hpasses⟩
    rw [hpasses.inScope] at hviolation
    cases hviolation
  rename_i hscope
  split
  · rename_i e herror
    refine reject_settles ?_ _ _
    rintro ⟨style, program, hpasses⟩
    obtain ⟨tokens, htokens, -⟩ := hpasses.read
    rw [herror] at htokens
    cases htokens
  · rename_i tokens htokens
    exact ofTokens_settles hblank hstyle hscope htokens _

end Conversion

/-- Conversion settles every source, in whatever style is asked for: it yields a report,
and the report has either pseudocode or one diagnostic of one of the four stages, never
both and never neither.  In particular, every program that is read from a text can be
rendered in every style of the catalogue. -/
theorem convert_settles (source : String) (styleId : Option String) :
    (∃ report, convert source styleId = .ok report ∧ report.Settles source styleId) ∧
      ∀ text tokens program, tokenize text = .ok tokens → Program.ofTokens tokens = .ok program →
        ∀ style ∈ Style.catalogue, ∃ page, program.render style = .ok page := by
  refine ⟨Conversion.run_settles source styleId, ?_⟩
  intro text tokens program htokens hprogram style hstyle
  exact Program.render_of_ofTokens htokens hprogram hstyle

/-- A loop whose step is a compound assignment, whose bounds are numbers and whose call
some style writes with both of its arguments. -/
def fillingLoop : String :=
  "for (int i = 0; i < 9; i += 2) m.put(i, 1);"

/-- The tokens of the loop. -/
def fillingLoopTokens : List Token :=
  [⟨.keyword, "for", ⟨1, 1⟩⟩, ⟨.paren, "(", ⟨1, 5⟩⟩, ⟨.keyword, "int", ⟨1, 6⟩⟩,
    ⟨.identifier, "i", ⟨1, 10⟩⟩, ⟨.operator, "=", ⟨1, 12⟩⟩, ⟨.number, "0", ⟨1, 14⟩⟩,
    ⟨.semicolon, ";", ⟨1, 15⟩⟩, ⟨.identifier, "i", ⟨1, 17⟩⟩, ⟨.operator, "<", ⟨1, 19⟩⟩,
    ⟨.number, "9", ⟨1, 21⟩⟩, ⟨.semicolon, ";", ⟨1, 22⟩⟩, ⟨.identifier, "i", ⟨1, 24⟩⟩,
    ⟨.operator, "+=", ⟨1, 26⟩⟩, ⟨.number, "2", ⟨1, 29⟩⟩, ⟨.paren, ")", ⟨1, 30⟩⟩,
    ⟨.identifier, "m", ⟨1, 32⟩⟩, ⟨.dot, ".", ⟨1, 33⟩⟩, ⟨.identifier, "put", ⟨1, 34⟩⟩,
    ⟨.paren, "(", ⟨1, 37⟩⟩, ⟨.identifier, "i", ⟨1, 38⟩⟩, ⟨.comma, ",", ⟨1, 39⟩⟩,
    ⟨.number, "1", ⟨1, 41⟩⟩, ⟨.paren, ")", ⟨1, 42⟩⟩, ⟨.semicolon, ";", ⟨1, 43⟩⟩,
    ⟨.eof, "", ⟨1, 44⟩⟩]

theorem tokenize_fillingLoop : tokenize fillingLoop = .ok fillingLoopTokens :=
  tokenize_of_toOption (by decide +kernel)

theorem convert_settles_fillingLoop :
    (∃ report, convert fillingLoop (some "sc-06") = .ok report ∧
      report.Settles fillingLoop (some "sc-06")) ∧
      tokenize fillingLoop = .ok fillingLoopTokens ∧
      ∃ program, Program.ofTokens fillingLoopTokens = .ok program ∧
        ∀ style ∈ Style.catalogue, ∃ page, program.render style = .ok page := by
  obtain ⟨hsettles, hrender⟩ := convert_settles fillingLoop (some "sc-06")
  exact ⟨hsettles, tokenize_fillingLoop, _, rfl, hrender _ _ _ tokenize_fillingLoop rfl⟩

end Pseudocode
