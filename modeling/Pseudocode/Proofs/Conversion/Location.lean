import Pseudocode.Proofs.Conversion
import Pseudocode.Proofs.Scope
import Pseudocode.Proofs.Source.Location
import Pseudocode.Proofs.Token.Places
set_option autoImplicit false

/-!
# Diagnostics point at the source

A fault is found in the normal form of a source, by one of three stages.  Line ends, tabs,
comments and literals all come between the source and the place where a stage finds it.
The diagnostic nevertheless names the line and the column of the character in the source
that the fault is about.
-/

namespace Pseudocode

open Source (maskLiterals isQuote Marks InSource IsEnd)

/-- A fault of a text in normal form: the stage that finds it, its wording and its
position. -/
inductive Fault (normal : String) : Stage → String → Pos → Prop where
  | scope {construct : Construct} {p : Pos}
      (hviolation : Scope.violation? normal = some (construct, p)) :
      Fault normal .scope construct.reason p
  | tokenization {e : LexicalError} (herror : tokenize normal = .error e) :
      Fault normal .tokenization e.reason.message e.pos
  | parse {tokens : List Token} {reason : Refusal} {t : Token} {ahead : List Token}
      (htokens : tokenize normal = .ok tokens)
      (hrefused : Program.ofTokens tokens = .error (.refused reason t ahead)) :
      Fault normal .parse reason.message t.pos

/-- The conversion of a source that is not blank depends on its normal form, up to the
place that is reported.  Either the normal form spells a program, and all sources with that
normal form are converted to the text of the program, in any style; or there is one fault
that is reported for all of them, in any style. -/
theorem Conversion.ofSource_outcomes (normal : String) :
    (∃ program : Program, program.WellFormed .lexical ∧
      ∀ source, Source.normalize source = normal → ∀ style page,
        program.render style = .ok page →
        (ofSource source style).outcome = .ok ⟨some page.output, []⟩) ∨
    ∃ stage message p, Fault normal stage message p ∧
      ∀ source, Source.normalize source = normal → ∀ style,
        (ofSource source style).outcome = .ok ⟨none, [located source stage message p]⟩ := by
  cases hscope : Scope.violation? normal with
  | some violation =>
    obtain ⟨construct, p⟩ := violation
    refine .inr ⟨_, _, _, .scope hscope, ?_⟩
    rintro source rfl style
    unfold ofSource
    simp only [hscope, reject]
  | none =>
    cases htokens : tokenize normal with
    | error e =>
      refine .inr ⟨_, _, _, .tokenization htokens, ?_⟩
      rintro source rfl style
      unfold ofSource
      simp only [hscope, htokens, reject]
    | ok tokens =>
      rcases Program.ofTokens_cases htokens with
        ⟨program, hread, hwf⟩ | ⟨reason, t, ahead, hread⟩
      · refine .inl ⟨program, hwf, ?_⟩
        rintro source rfl style page hpage
        unfold ofSource
        simp only [hscope, htokens, ofTokens, hread, finish, hpage]
      · refine .inr ⟨_, _, _, .parse htokens hread, ?_⟩
        rintro source rfl style
        unfold ofSource
        simp only [hscope, htokens, ofTokens, hread, reject]

/-- In a style of the catalogue, all sources with one normal form are converted to one text,
or one fault is reported for all of them. -/
theorem Conversion.ofSource_cases (normal : String) {style : Style}
    (hstyle : style ∈ Style.catalogue) :
    (∃ text, ∀ source, Source.normalize source = normal →
      (ofSource source style).outcome = .ok ⟨some text, []⟩) ∨
    ∃ stage message p, Fault normal stage message p ∧ ∀ source, Source.normalize source = normal →
      (ofSource source style).outcome = .ok ⟨none, [located source stage message p]⟩ := by
  rcases ofSource_outcomes normal with
    ⟨program, hwf, hconverts⟩ | ⟨stage, message, p, hfault, hreports⟩
  · obtain ⟨page, hpage⟩ := Program.render_yields hstyle hwf
    exact .inl ⟨page.output, fun source hsource => hconverts source hsource style page hpage⟩
  · exact .inr ⟨stage, message, p, hfault, fun source hsource => hreports source hsource style⟩

/-! ## The places of faults -/

theorem Text.visible_of_isWordChar {c : Char} (h : isWordChar c = true) : c ≠ ' ' ∧ c ≠ '\n' := by
  constructor
  · rintro rfl
    cases h
  · rintro rfl
    cases h

/-- A word by which a construct shows, in the masked form of a text. -/
structure Construct.ShowsAt (construct : Construct) (text : String) (p : Pos)
    (front : List Char) (c : Char) : Prop where
  position : p = Pos.start.after front
  shows : ∃ before body after rest, construct.Shows before p (c :: body) after ∧
    Scope.codePieces text = before ++ .word p (c :: body) :: after ∧
    (maskLiterals text).toList = front ++ c :: body ++ rest
  visible : c ≠ ' ' ∧ c ≠ '\n'

theorem Scope.exists_showsAt {text : String} {construct : Construct} {p : Pos}
    (h : violation? text = some (construct, p)) :
    ∃ front c, construct.ShowsAt text p front c := by
  obtain ⟨before, word, after, hpieces, hshows⟩ := exists_of_violation? h
  have hmem : .word p word ∈ codePieces text := by
    rw [hpieces]
    exact List.mem_append_right before List.mem_cons_self
  obtain ⟨front, rest, hcut, hp, hne, hword⟩ := exists_of_mem_pieces hmem
  obtain ⟨c, body, rfl⟩ := List.exists_cons_of_ne_nil hne
  have hvisible := Text.visible_of_isWordChar (hword c List.mem_cons_self)
  exact ⟨front, c, hp, ⟨before, body, after, rest, hshows, hpieces, hcut⟩, hvisible⟩

/-- The line and the column of a diagnostic, for each stage.

* What is wrong with the input as a whole is reported at its first character.
* A construct outside the subset is reported at the word by which it shows.
* A text that cannot be cut into tokens is reported at the first character that starts no
  token: an unsupported character, or the opening quote of a literal without end.
* A token that is refused is reported at its first character, the last one (`eof`) just
  past the end of the source. -/
inductive Diagnostic.PointsInto (source : String) (d : Diagnostic) : Prop where
  | input (hstage : d.stage = .input) (hline : d.line = 1) (hcolumn : d.column = 1)
  | scope (hstage : d.stage = .scope) (construct : Construct) (p : Pos) (front : List Char)
      (c : Char) (hmessage : d.message = construct.reason)
      (hshows : construct.ShowsAt (Source.normalize source) p front c)
      (hmarks : Marks source front c d.line d.column)
  | unsupported (hstage : d.stage = .tokenization) (front rest : List Char) (c : Char)
      (tokens : List Token) (hcut : (Source.normalize source).toList = front ++ c :: rest)
      (hfront : tokenize (String.ofList front) = .ok tokens)
      (hmessage : d.message = (LexicalError.Reason.unsupportedCharacter c).message)
      (hmarks : Marks source front c d.line d.column)
  | unterminated (hstage : d.stage = .tokenization) (front rest : List Char) (quote : Char)
      (tokens : List Token) (hcut : (Source.normalize source).toList = front ++ quote :: rest)
      (hfront : tokenize (String.ofList front) = .ok tokens) (hquote : isQuote quote = true)
      (hopen : Token.literalLength? quote rest = none)
      (hmessage : d.message = LexicalError.Reason.unterminatedLiteral.message)
      (hmarks : Marks source front quote d.line d.column)
  | token (hstage : d.stage = .parse) (tokens ahead : List Token) (reason : Refusal) (t : Token)
      (htokens : tokenize (Source.normalize source) = .ok tokens)
      (hrefused : Program.ofTokens tokens = .error (.refused reason t ahead))
      (hmessage : d.message = reason.message) (hkind : t.kind ≠ .eof)
      (front : List Char) (c : Char) (body rest : List Char)
      (hcut : (Source.normalize source).toList = front ++ c :: body ++ rest)
      (htext : t.text = String.ofList (c :: body)) (hpos : t.pos = Pos.start.after front)
      (hmarks : Marks source front c d.line d.column)
  | eof (hstage : d.stage = .parse) (tokens ahead : List Token) (reason : Refusal) (t : Token)
      (htokens : tokenize (Source.normalize source) = .ok tokens)
      (hrefused : Program.ofTokens tokens = .error (.refused reason t ahead))
      (hmessage : d.message = reason.message) (hkind : t.kind = .eof)
      (hend : IsEnd source d.line d.column)

/-- A fault of the normal form is reported at the place in the source that it is about. -/
theorem Fault.pointsInto {source : String} {stage : Stage} {message : String} {p : Pos}
    (h : Fault (Source.normalize source) stage message p) :
    InSource source (Conversion.located source stage message p).line
        (Conversion.located source stage message p).column ∧
      (Conversion.located source stage message p).PointsInto source := by
  have hnormal : Source.Blanked (Source.expandTabs (Source.unifyLineEnds source.toList))
      (Source.normalize source).toList := by
    rw [Source.normalize, String.toList_ofList]
    exact Source.blanked_normalChars source.toList
  cases h with
  | @scope construct p hviolation =>
    obtain ⟨front, c, hshows⟩ := Scope.exists_showsAt hviolation
    obtain ⟨before, body, after, rest, -, -, hcut⟩ := hshows.shows
    have hmasked := hnormal.trans (Source.blanked_maskChars none _)
    rw [maskLiterals, String.toList_ofList] at hcut
    rw [hcut, List.append_assoc, List.cons_append] at hmasked
    have hmarks := Source.marks_of_blanked hmasked hshows.visible.1 hshows.visible.2 hshows.position
    exact ⟨hmarks.inSource, .scope rfl construct p front c rfl hshows hmarks⟩
  | @tokenization e herror =>
    obtain ⟨front, c, rest, hcut, hpos, hspace, hlexeme, tokens, hfront⟩ := Token.scan_error herror
    obtain ⟨hblank, hfeed⟩ := Token.visible_of_isSpace hspace
    have hfront : tokenize (String.ofList front) = .ok tokens := by
      rw [tokenize, String.toList_ofList, hfront]
    rw [hcut] at hnormal
    have hmarks := Source.marks_of_blanked hnormal hblank hfeed hpos
    refine ⟨hmarks.inSource, ?_⟩
    rcases Token.lexeme_error hlexeme with hreason | ⟨hreason, hquote, hopen⟩
    · exact .unsupported rfl front rest c tokens hcut hfront
        (congrArg LexicalError.Reason.message hreason) hmarks
    · exact .unterminated rfl front rest c tokens hcut hfront hquote hopen
        (congrArg LexicalError.Reason.message hreason) hmarks
  | @parse tokens reason t ahead htokens hrefused =>
    obtain ⟨before, hbefore⟩ := Program.exists_of_refused htokens hrefused
    have hmem : t ∈ tokens := by
      rw [hbefore]
      exact List.mem_append_right before List.mem_cons_self
    cases Token.scan_stands htokens hmem with
    | atEnd hkind hpos =>
      have hbehind := Source.behind_of_blanked hnormal hpos
      exact ⟨hbehind.inSource, .eof rfl tokens ahead reason t htokens hrefused rfl hkind
        hbehind.isEnd⟩
    | inside front c body rest hcut htext hpos hspace hkind =>
      obtain ⟨hblank, hfeed⟩ := Token.visible_of_isSpace hspace
      rw [hcut, List.append_assoc, List.cons_append] at hnormal
      have hmarks := Source.marks_of_blanked hnormal hblank hfeed hpos
      exact ⟨hmarks.inSource, .token rfl tokens ahead reason t htokens hrefused rfl hkind front c
        body rest hcut htext hpos hmarks⟩

/-- Every source has a first line with a first column. -/
theorem Source.inSource_one (source : String) : InSource source 1 1 := by
  have hfirst : Behind source [] (unifyLineEnds source.toList) 1 1 := ⟨rfl, rfl, rfl⟩
  exact hfirst.inSource

/-- **Location.**  Whatever the source and the style, the conversion yields a report, and
every diagnostic in it names a line of the source and a column of that line (or the column
behind it), at which the character stands that the diagnostic is about. -/
theorem convert_points_into_source (source : String) (styleId : Option String) :
    ∃ report, convert source styleId = .ok report ∧ ∀ d ∈ report.errors,
      InSource source d.line d.column ∧ d.PointsInto source := by
  have hinput : ∀ message, InSource source 1 1 ∧
      (⟨.input, message, 1, 1⟩ : Diagnostic).PointsInto source :=
    fun _ => ⟨Source.inSource_one source, .input rfl rfl rfl⟩
  unfold convert Conversion.run
  split
  · exact ⟨_, rfl, List.forall_mem_singleton.mpr (hinput _)⟩
  cases hstyle : Style.select styleId with
  | error unknown => exact ⟨_, rfl, List.forall_mem_singleton.mpr (hinput _)⟩
  | ok style =>
    rcases Conversion.ofSource_cases (Source.normalize source) (Style.mem_of_select hstyle) with
      ⟨text, htext⟩ | ⟨stage, message, p, hfault, hreport⟩
    · exact ⟨_, htext source rfl, List.forall_mem_nil _⟩
    · exact ⟨_, hreport source rfl, List.forall_mem_singleton.mpr hfault.pointsInto⟩

/-- A sign that is not supported, behind tabs, a comment over two lines, a literal with a
tab in it and line ends of three kinds. -/
def crookedSource : String :=
  "/* a\tb\r\n */\ts = \"x\ty\";\r\tz @ 1;\n"

/-- What is wrong with the source, and where. -/
def crookedDiagnostic : Diagnostic :=
  ⟨.tokenization, "Unsupported character '@'", 3, 4⟩

theorem tokenize_crookedSource :
    tokenize (Source.normalize crookedSource) = .error ⟨.unsupportedCharacter '@', ⟨3, 5⟩⟩ := by
  decide +kernel

theorem convert_crookedSource :
    convert crookedSource none = .ok ⟨none, [crookedDiagnostic]⟩ := by
  have hblank : Text.isBlankText crookedSource = false := by decide
  have hscope : Scope.violation? (Source.normalize crookedSource) = none := by decide
  have hlocated : Conversion.located crookedSource .tokenization
      (LexicalError.Reason.unsupportedCharacter '@').message ⟨3, 5⟩ = crookedDiagnostic := by
    decide
  obtain ⟨style, hstyle⟩ : ∃ style, Style.select none = .ok style := ⟨_, rfl⟩
  unfold convert Conversion.run
  rw [hblank, hstyle]
  unfold Conversion.ofSource
  simp only [hscope, tokenize_crookedSource, hlocated]
  rfl

theorem convert_points_into_crookedSource :
    convert crookedSource none = .ok ⟨none, [crookedDiagnostic]⟩ ∧
      InSource crookedSource 3 4 ∧ crookedDiagnostic.PointsInto crookedSource := by
  obtain ⟨report, hreport, hpoints⟩ := convert_points_into_source crookedSource none
  obtain rfl := Except.ok.inj (convert_crookedSource.symm.trans hreport)
  exact ⟨hreport, hpoints crookedDiagnostic List.mem_cons_self⟩

end Pseudocode
