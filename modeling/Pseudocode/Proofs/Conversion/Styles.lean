import Pseudocode.Proofs.Conversion.Location
import Pseudocode.Proofs.Render.Outline
set_option autoImplicit false

/-!
# Styles change the spelling only

A source is refused in every style or in none, and for the same reason at the same place.
The pseudocode of one style has as many lines as that of another, and each line is nested as
deep as the one in its place: whatever the loops are called and however much a block is
indented, it is the outline of the program that the lines follow.
-/

namespace Pseudocode

open Source (leadingBlanks)

/-- How deep a line is nested in a style: its leading blanks, counted in steps of the
indentation. -/
def Style.nesting (style : Style) (line : List Char) : Int :=
  leadingBlanks line / style.indent

/-- Two texts, each in its style, are laid out alike: they have the same number of lines, and
lines with the same number are nested equally deep.  No line is indented by part of a
step. -/
structure LaidOutAlike (style₁ style₂ : Style) (text₁ text₂ : String) : Prop where
  length_eq : (Source.lines text₁.toList).length = (Source.lines text₂.toList).length
  nesting_eq : ∀ (k : Nat) line₁ line₂, (Source.lines text₁.toList)[k]? = some line₁ →
    (Source.lines text₂.toList)[k]? = some line₂ → style₁.nesting line₁ = style₂.nesting line₂
  whole₁ : ∀ line ∈ Source.lines text₁.toList, style₁.indent ∣ leadingBlanks line
  whole₂ : ∀ line ∈ Source.lines text₂.toList, style₂.indent ∣ leadingBlanks line

namespace Style

theorem indent_pos {style : Style} (h : style ∈ catalogue) : 0 < style.indent := by
  have hall : ∀ style ∈ catalogue, 0 < style.indent := by decide
  exact hall style h

theorem select_id {style : Style} (h : style ∈ catalogue) : select (some style.id) = .ok style := by
  have hall : ∀ style ∈ catalogue, find? style.id = some style := by decide
  unfold select
  rw [Option.getD_some, hall style h]

/-- A line that shows the depth `d`. -/
theorem nesting_of_leadingBlanks {style : Style} (h : style ∈ catalogue) {line : List Char}
    {d : Nat} (hline : leadingBlanks line = d * style.indent.toNat) :
    style.nesting line = d ∧ style.indent ∣ leadingBlanks line := by
  have hpos := indent_pos h
  have hindent : (style.indent.toNat : Int) = style.indent := Int.toNat_of_nonneg (by omega)
  have hblanks : (leadingBlanks line : Int) = d * style.indent := by
    rw [hline, Int.natCast_mul, hindent]
  constructor
  · rw [nesting, hblanks, Int.mul_ediv_cancel _ (by omega)]
  · rw [hblanks]
    exact Int.dvd_mul_left _ _

end Style

/-- Texts that show the same depths are laid out alike. -/
theorem LaidOutAlike.of_depths {style₁ style₂ : Style} (h₁ : style₁ ∈ Style.catalogue)
    (h₂ : style₂ ∈ Style.catalogue) {text₁ text₂ : String} {depths : List Nat}
    (hblanks₁ : (Source.lines text₁.toList).map leadingBlanks =
      depths.map (· * style₁.indent.toNat))
    (hblanks₂ : (Source.lines text₂.toList).map leadingBlanks =
      depths.map (· * style₂.indent.toNat)) :
    LaidOutAlike style₁ style₂ text₁ text₂ := by
  have hdepth : ∀ {style : Style} {text : String},
      (Source.lines text.toList).map leadingBlanks = depths.map (· * style.indent.toNat) →
      ∀ {k : Nat} {line : List Char}, (Source.lines text.toList)[k]? = some line →
        ∃ d, depths[k]? = some d ∧ leadingBlanks line = d * style.indent.toNat := by
    intro style text hblanks k line hline
    have hat := congrArg (·[k]?) hblanks
    simp only [List.getElem?_map, hline, Option.map_some] at hat
    obtain ⟨d, hd, hshown⟩ := Option.map_eq_some_iff.mp hat.symm
    exact ⟨d, hd, hshown.symm⟩
  have hlength := congrArg List.length hblanks₁
  have hlength' := congrArg List.length hblanks₂
  rw [List.length_map, List.length_map] at hlength hlength'
  refine ⟨hlength.trans hlength'.symm, ?_, ?_, ?_⟩
  · intro k line₁ line₂ hline₁ hline₂
    obtain ⟨d, hd, hshown₁⟩ := hdepth hblanks₁ hline₁
    obtain ⟨d', hd', hshown₂⟩ := hdepth hblanks₂ hline₂
    obtain rfl := Option.some.inj (hd.symm.trans hd')
    rw [(Style.nesting_of_leadingBlanks h₁ hshown₁).1,
      (Style.nesting_of_leadingBlanks h₂ hshown₂).1]
  · intro line hline
    obtain ⟨k, hk⟩ := List.mem_iff_getElem?.mp hline
    obtain ⟨d, -, hshown⟩ := hdepth hblanks₁ hk
    exact (Style.nesting_of_leadingBlanks h₁ hshown).2
  · intro line hline
    obtain ⟨k, hk⟩ := List.mem_iff_getElem?.mp hline
    obtain ⟨d, -, hshown⟩ := hdepth hblanks₂ hk
    exact (Style.nesting_of_leadingBlanks h₂ hshown).2

/-- **Two styles.**  Whatever the source, in any two styles of the catalogue it is refused with
one and the same diagnostic, or it is converted in both of them, to texts that are laid out
alike. -/
theorem convert_in_two_styles (source : String) {style₁ style₂ : Style}
    (h₁ : style₁ ∈ Style.catalogue) (h₂ : style₂ ∈ Style.catalogue) :
    (∃ d, convert source (some style₁.id) = .ok ⟨none, [d]⟩ ∧
      convert source (some style₂.id) = .ok ⟨none, [d]⟩) ∨
    ∃ text₁ text₂, convert source (some style₁.id) = .ok ⟨some text₁, []⟩ ∧
      convert source (some style₂.id) = .ok ⟨some text₂, []⟩ ∧
      LaidOutAlike style₁ style₂ text₁ text₂ := by
  have hconvert : ∀ {style : Style}, style ∈ Style.catalogue → convert source (some style.id) =
      if Text.isBlankText source then .ok ⟨none, [⟨.input, "Empty input", 1, 1⟩]⟩
      else (Conversion.ofSource source style).outcome := by
    intro style hstyle
    unfold convert Conversion.run
    rw [Style.select_id hstyle]
    split <;> rfl
  rw [hconvert h₁, hconvert h₂]
  cases hblank : Text.isBlankText source with
  | true => exact .inl ⟨_, rfl, rfl⟩
  | false =>
    simp only [Bool.false_eq_true, if_false]
    rcases Conversion.ofSource_outcomes (Source.normalize source) with
      ⟨program, hwf, hconverts⟩ | ⟨stage, message, p, -, hreports⟩
    · obtain ⟨page₁, hpage₁⟩ := Program.render_yields h₁ hwf
      obtain ⟨page₂, hpage₂⟩ := Program.render_yields h₂ hwf
      refine .inr ⟨page₁.output, page₂.output, hconverts source rfl _ _ hpage₁,
        hconverts source rfl _ _ hpage₂, ?_⟩
      have hshown₁ := (Program.render_laidOut h₁ hwf _ hpage₁).leadingBlanks_output
      have hshown₂ := (Program.render_laidOut h₂ hwf _ hpage₂).leadingBlanks_output
      exact .of_depths h₁ h₂ hshown₁ hshown₂
    · exact .inl ⟨_, hreports source rfl style₁, hreports source rfl style₂⟩

/-- A declaration that does not show, a loop in a loop, and a call that one of the styles
writes as an element. -/
def nestedLoops : String :=
  "Scanner s; do for (i = 0; i < 3; i++) m.put(i, 1); while (b);"

/-- Its tokens. -/
def nestedLoopsTokens : List Token :=
  [⟨.identifier, "Scanner", ⟨1, 1⟩⟩, ⟨.identifier, "s", ⟨1, 9⟩⟩, ⟨.semicolon, ";", ⟨1, 10⟩⟩,
    ⟨.keyword, "do", ⟨1, 12⟩⟩, ⟨.keyword, "for", ⟨1, 15⟩⟩, ⟨.paren, "(", ⟨1, 19⟩⟩,
    ⟨.identifier, "i", ⟨1, 20⟩⟩, ⟨.operator, "=", ⟨1, 22⟩⟩, ⟨.number, "0", ⟨1, 24⟩⟩,
    ⟨.semicolon, ";", ⟨1, 25⟩⟩, ⟨.identifier, "i", ⟨1, 27⟩⟩, ⟨.operator, "<", ⟨1, 29⟩⟩,
    ⟨.number, "3", ⟨1, 31⟩⟩, ⟨.semicolon, ";", ⟨1, 32⟩⟩, ⟨.identifier, "i", ⟨1, 34⟩⟩,
    ⟨.operator, "++", ⟨1, 35⟩⟩, ⟨.paren, ")", ⟨1, 37⟩⟩, ⟨.identifier, "m", ⟨1, 39⟩⟩,
    ⟨.dot, ".", ⟨1, 40⟩⟩, ⟨.identifier, "put", ⟨1, 41⟩⟩, ⟨.paren, "(", ⟨1, 44⟩⟩,
    ⟨.identifier, "i", ⟨1, 45⟩⟩, ⟨.comma, ",", ⟨1, 46⟩⟩, ⟨.number, "1", ⟨1, 48⟩⟩,
    ⟨.paren, ")", ⟨1, 49⟩⟩, ⟨.semicolon, ";", ⟨1, 50⟩⟩, ⟨.keyword, "while", ⟨1, 52⟩⟩,
    ⟨.paren, "(", ⟨1, 58⟩⟩, ⟨.identifier, "b", ⟨1, 59⟩⟩, ⟨.paren, ")", ⟨1, 60⟩⟩,
    ⟨.semicolon, ";", ⟨1, 61⟩⟩, ⟨.eof, "", ⟨1, 62⟩⟩]

/-- The program that they spell. -/
def nestedLoopsProgram : Program :=
  ⟨⟨1, 1⟩,
    [.declaration ⟨⟨1, 1⟩, "s", "Scanner", 0, none⟩,
      .doWhileLoop ⟨1, 12⟩
        (.forLoop ⟨1, 15⟩
          (some (.assignment ⟨⟨1, 20⟩, .name ⟨1, 20⟩ "i", .set, .literal ⟨1, 24⟩ "0"⟩))
          (some (.binary ⟨1, 27⟩ .lt (.name ⟨1, 27⟩ "i") (.literal ⟨1, 31⟩ "3")))
          (some (.update ⟨⟨1, 34⟩, .name ⟨1, 34⟩ "i", .increment⟩))
          (.call ⟨1, 39⟩ (.methodCall ⟨1, 39⟩ (.name ⟨1, 39⟩ "m") "put"
            [.name ⟨1, 45⟩ "i", .literal ⟨1, 48⟩ "1"])))
        (.name ⟨1, 59⟩ "b")]⟩

/-- The source in capitals. -/
def nestedLoopsCapital : String :=
  "REPEAT\n  FOR i = 0 ; i < 3 ; i = i + 1\n    m.put(i, 1)\n  END FOR\nUNTIL NOT b"

/-- The source with a single loop word. -/
def nestedLoopsLooping : String :=
  "loop\n    loop i from 0 to 2\n        m[i] = 1\n    end loop\nuntil not b"

theorem normalize_nestedLoops : Source.normalize nestedLoops = nestedLoops := by
  decide +kernel

theorem tokenize_nestedLoops : tokenize nestedLoops = .ok nestedLoopsTokens :=
  tokenize_of_toOption (by decide +kernel)

theorem convert_nestedLoops {style : Style} (hstyle : style ∈ Style.catalogue) {page : Page}
    (hpage : nestedLoopsProgram.render style = .ok page) :
    convert nestedLoops (some style.id) = .ok ⟨some page.output, []⟩ := by
  have hblank : Text.isBlankText nestedLoops = false := by decide +kernel
  have hscope : Scope.violation? nestedLoops = none := by decide +kernel
  have hread : Program.ofTokens nestedLoopsTokens = .ok nestedLoopsProgram := rfl
  unfold convert Conversion.run
  rw [hblank, Style.select_id hstyle]
  unfold Conversion.ofSource
  simp only [normalize_nestedLoops, hscope, tokenize_nestedLoops, Conversion.ofTokens, hread,
    Conversion.finish, hpage, Bool.false_eq_true, if_false]

theorem convert_in_two_styles_nestedLoops :
    Style.capital "sc-01" ∈ Style.catalogue ∧
      Style.looping "sc-06" false Style.collectionMethods ∈ Style.catalogue ∧
      convert nestedLoops (some "sc-01") = .ok ⟨some nestedLoopsCapital, []⟩ ∧
      convert nestedLoops (some "sc-06") = .ok ⟨some nestedLoopsLooping, []⟩ ∧
      LaidOutAlike (.capital "sc-01") (.looping "sc-06" false Style.collectionMethods)
        nestedLoopsCapital nestedLoopsLooping := by
  have hcapital : Style.capital "sc-01" ∈ Style.catalogue := by decide
  have hlooping : Style.looping "sc-06" false Style.collectionMethods ∈ Style.catalogue := by
    decide
  have h₁ : convert nestedLoops (some "sc-01") = .ok ⟨some nestedLoopsCapital, []⟩ :=
    convert_nestedLoops hcapital rfl
  have h₂ : convert nestedLoops (some "sc-06") = .ok ⟨some nestedLoopsLooping, []⟩ :=
    convert_nestedLoops hlooping rfl
  refine ⟨hcapital, hlooping, h₁, h₂, ?_⟩
  rcases convert_in_two_styles nestedLoops hcapital hlooping with
    ⟨d, hrefused, -⟩ | ⟨text₁, text₂, htext₁, htext₂, halike⟩
  · cases h₁.symm.trans hrefused
  · cases h₁.symm.trans htext₁
    cases h₂.symm.trans htext₂
    exact halike

end Pseudocode
