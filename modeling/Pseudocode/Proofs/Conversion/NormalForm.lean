import Pseudocode.Proofs.Conversion.Location
set_option autoImplicit false

/-!
# Conversion sees the normal form only

A source and its normal form are converted alike, unless the normal form is blank, as that
of a source with nothing but comments.  The reports differ in columns only, and the columns
of the one are those of the other, taken back to the source.
-/

namespace Pseudocode

namespace Source

/-- The characters of a text with its line ends unified. -/
theorem mem_unifyLineEnds {c : Char} {cs : List Char} (h : c ∈ unifyLineEnds cs) :
    c ∈ cs ∨ c = '\n' := by
  fun_induction unifyLineEnds cs with
  | case1 => cases h
  | case2 cs ih =>
    rcases List.mem_cons.mp h with rfl | h
    · exact .inr rfl
    · rcases ih h with hmem | hfeed
      · exact .inl (List.mem_cons_of_mem _ (List.mem_cons_of_mem _ hmem))
      · exact .inr hfeed
  | case3 d cs _ ih =>
    rcases List.mem_cons.mp h with rfl | h
    · split
      · exact .inr rfl
      · exact .inl List.mem_cons_self
    · rcases ih h with hmem | hfeed
      · exact .inl (List.mem_cons_of_mem _ hmem)
      · exact .inr hfeed

/-- The normal form of a blank source is blank. -/
theorem isBlankText_normalize {source : String} (h : Text.isBlankText source = true) :
    Text.isBlankText (normalize source) = true := by
  unfold Text.isBlankText at h ⊢
  rw [List.all_eq_true] at h ⊢
  intro c hc
  rw [normalize, String.toList_ofList] at hc
  rcases (blanked_normalChars source.toList).mem hc with hmem | rfl
  · rcases (mem_expandTabs hmem).2 with hmem | rfl
    · rcases mem_unifyLineEnds hmem with hmem | rfl
      · exact h c hmem
      · decide
    · decide
  · decide

/-- The characters of a line are characters of the text. -/
theorem mem_of_line? {n : Nat} {cs l : List Char} (h : line? n cs = some l) {c : Char}
    (hc : c ∈ l) : c ∈ cs := by
  induction n generalizing cs with
  | zero =>
    obtain rfl := Option.some.inj h
    exact (List.takeWhile_subset _) hc
  | succ n ih =>
    rw [line?] at h
    cases hdrop : cs.dropWhile (· ≠ '\n') with
    | nil =>
      rw [hdrop] at h
      cases h
    | cons d rest =>
      rw [hdrop] at h
      have hrest : d :: rest ⊆ cs := by
        rw [← hdrop]
        exact (List.dropWhile_sublist _).subset
      exact hrest (List.mem_cons_of_mem d (ih h))

/-- In a text without tabs, every column stays as it is. -/
theorem sourceColumn_of_not_mem {source : String} (h : '\t' ∉ unifyLineEnds source.toList)
    (line : Int) {column : Int} (hcolumn : 1 ≤ column) :
    sourceColumn source line column = column := by
  unfold sourceColumn
  split
  · rfl
  · split
    · rfl
    · rename_i cs hline
      exact columnIn_of_not_mem (fun htab => h (mem_of_line? hline htab)) hcolumn

theorem sourceColumn_normalize (source : String) (line : Int) {column : Int}
    (hcolumn : 1 ≤ column) : sourceColumn (normalize source) line column = column := by
  apply sourceColumn_of_not_mem _ line hcolumn
  rw [normalize, String.toList_ofList, unifyLineEnds_normalChars]
  exact fun htab => (ne_of_mem_normalChars htab).2 rfl

/-- The first character of a source is the first one of its normal form. -/
theorem sourceColumn_one (source : String) : sourceColumn source 1 1 = 1 :=
  columnIn_self 1 1 _

end Source

/-- Columns of faults are counted from one. -/
theorem Fault.one_le_column {normal : String} {stage : Stage} {message : String} {p : Pos}
    (h : Fault normal stage message p) : 1 ≤ p.column := by
  have hfront : ∃ front, p = Pos.start.after front := by
    cases h with
    | scope hviolation =>
      obtain ⟨front, c, hshows⟩ := Scope.exists_showsAt hviolation
      exact ⟨front, hshows.position⟩
    | tokenization herror =>
      obtain ⟨front, c, rest, -, hpos, -⟩ := Token.scan_error herror
      exact ⟨front, hpos⟩
    | parse htokens hrefused =>
      obtain ⟨before, rfl⟩ := Program.exists_of_refused htokens hrefused
      have hstands := Token.scan_stands htokens (List.mem_append_right before List.mem_cons_self)
      cases hstands with
      | atEnd hkind hpos => exact ⟨_, hpos⟩
      | inside front c body rest hcut htext hpos hspace hkind => exact ⟨front, hpos⟩
  obtain ⟨front, rfl⟩ := hfront
  exact Pos.one_le_column_after front

/-- A diagnostic for the normal form of a source, as one for the source. -/
def Diagnostic.relocate (source : String) (d : Diagnostic) : Diagnostic :=
  { d with column := Source.sourceColumn source d.line d.column }

/-- A report on the normal form of a source, as one on the source. -/
def Report.relocate (source : String) (report : Report) : Report :=
  { report with errors := report.errors.map (Diagnostic.relocate source) }

theorem Fault.located_eq {source : String} {stage : Stage} {message : String} {p : Pos}
    (h : Fault (Source.normalize source) stage message p) :
    Conversion.located source stage message p =
      (Conversion.located (Source.normalize source) stage message p).relocate source := by
  have hcolumn : (1 : Int) ≤ p.column := Int.ofNat_le.mpr h.one_le_column
  unfold Conversion.located Diagnostic.relocate
  rw [Source.sourceColumn_normalize source _ hcolumn]

/-- **Normal form.**  A text in normal form is its own normal form.  And if the normal form
of a source is not blank, then it is converted as the source is: to the same pseudocode, or
with the same diagnostic at the same line, whose column is that of the source once it is
taken back. -/
theorem convert_normalize :
    (∀ text, Source.normalize (Source.normalize text) = Source.normalize text) ∧
      ∀ (source : String) (styleId : Option String),
        Text.isBlankText (Source.normalize source) = false →
        ∃ report, convert (Source.normalize source) styleId = .ok report ∧
          convert source styleId = .ok (report.relocate source) := by
  refine ⟨Source.normalize_normalize, ?_⟩
  intro source styleId hnormal
  have hsource : Text.isBlankText source = false := by
    cases hblank : Text.isBlankText source with
    | false => rfl
    | true => exact absurd (Source.isBlankText_normalize hblank) (by simp [hnormal])
  unfold convert Conversion.run
  simp only [hnormal, hsource, Bool.false_eq_true, if_false]
  cases hstyle : Style.select styleId with
  | error unknown =>
    refine ⟨_, rfl, ?_⟩
    simp [Conversion.reject, Report.relocate, Diagnostic.relocate, Source.sourceColumn_one]
  | ok style =>
    have hagain := Source.normalize_normalize source
    rcases Conversion.ofSource_cases (Source.normalize source) (Style.mem_of_select hstyle) with
      ⟨text, htext⟩ | ⟨stage, message, p, hfault, hreport⟩
    · exact ⟨⟨some text, []⟩, htext (Source.normalize source) hagain, htext source rfl⟩
    · refine ⟨_, hreport (Source.normalize source) hagain, ?_⟩
      rw [Report.relocate, List.map_singleton, ← hfault.located_eq]
      exact hreport source rfl

theorem convert_normalize_crookedSource :
    Text.isBlankText (Source.normalize crookedSource) = false ∧
      ∃ report, convert (Source.normalize crookedSource) none = .ok report ∧
        convert crookedSource none = .ok (report.relocate crookedSource) ∧
        report.relocate crookedSource = ⟨none, [crookedDiagnostic]⟩ := by
  have hnormal : Text.isBlankText (Source.normalize crookedSource) = false := by decide
  obtain ⟨report, hreport, hrelocate⟩ := convert_normalize.2 crookedSource none hnormal
  refine ⟨hnormal, report, hreport, hrelocate, ?_⟩
  exact Except.ok.inj (hrelocate.symm.trans convert_crookedSource)

end Pseudocode
