import Mathlib.Data.List.Induction
import Mathlib.Data.List.TakeWhile
import Pseudocode.Proofs.Source.Blanking
import Pseudocode.Source.Column
set_option autoImplicit false

/-!
# Places in a source

A place in a source is a line and a column, counted from one, in the text with its line
ends unified.  The normal form of the source has the same lines, but tabs make columns in
it larger.  This module goes from a place in the normal form, or in a text that was blanked
further, back to the source: the way back ends at the character that stands there, and at
the end of the source if it starts at the end.
-/

namespace Pseudocode

theorem Pos.next_newline (p : Pos) : p.next '\n' = ⟨p.line + 1, 1⟩ :=
  if_pos rfl

theorem Pos.next_of_ne (p : Pos) {c : Char} (h : c ≠ '\n') : p.next c = ⟨p.line, p.column + 1⟩ :=
  if_neg h

theorem Pos.after_concat (p : Pos) (cs : List Char) (c : Char) :
    p.after (cs ++ [c]) = (p.after cs).next c :=
  p.after_append cs [c]

/-- No text leads to a column before the first one. -/
theorem Pos.one_le_column_after (cs : List Char) : 1 ≤ (start.after cs).column := by
  induction cs using List.reverseRecOn with
  | nil => exact Nat.le_refl 1
  | append_singleton cs c ih =>
    rw [after_concat, next]
    split
    · exact Nat.le_refl 1
    · exact Nat.le_succ_of_le ih

namespace Source

/-! ## Lines -/

/-- The lines of a text, without their line feeds. -/
def lines (cs : List Char) : List (List Char) :=
  cs.splitOn '\n'

theorem lines_of_not_mem {cs : List Char} (h : '\n' ∉ cs) : lines cs = [cs] := by
  apply List.splitOnP_eq_singleton
  intro c hc
  exact beq_eq_false_iff_ne.mpr (ne_of_mem_of_not_mem hc h)

theorem lines_append_newline {cs : List Char} (h : '\n' ∉ cs) (ds : List Char) :
    lines (cs ++ '\n' :: ds) = cs :: lines ds := by
  have hsplit : lines (cs ++ '\n' :: ds) = lines cs ++ lines ds :=
    List.splitOnP_append_cons cs ds (by simp)
  rw [hsplit, lines_of_not_mem h, List.singleton_append]

theorem takeWhile_of_not_mem {cs : List Char} (h : '\n' ∉ cs) (ds : List Char) :
    (cs ++ ds).takeWhile (· ≠ '\n') = cs ++ ds.takeWhile (· ≠ '\n') := by
  apply List.takeWhile_append_of_pos
  intro c hc
  exact decide_eq_true (ne_of_mem_of_not_mem hc h)

theorem dropWhile_of_not_mem {cs : List Char} (h : '\n' ∉ cs) (ds : List Char) :
    (cs ++ ds).dropWhile (· ≠ '\n') = ds.dropWhile (· ≠ '\n') := by
  apply List.dropWhile_append_of_pos
  intro c hc
  exact decide_eq_true (ne_of_mem_of_not_mem hc h)

/-- The first line ends before the first line feed. -/
theorem lines_eq (cs : List Char) : ∃ others, lines cs = cs.takeWhile (· ≠ '\n') :: others := by
  by_cases h : '\n' ∈ cs
  · obtain ⟨ds, es, rfl, hds⟩ := List.eq_append_cons_of_mem h
    refine ⟨lines es, ?_⟩
    rw [lines_append_newline hds, takeWhile_of_not_mem hds]
    simp
  · have htake := takeWhile_of_not_mem h []
    rw [List.append_nil, List.takeWhile_nil, List.append_nil] at htake
    exact ⟨[], by rw [lines_of_not_mem h, htake]⟩

/-- Looking for a line by its number finds the line of that number. -/
theorem line?_eq (n : Nat) (cs : List Char) : line? n cs = (lines cs)[n]? := by
  induction n generalizing cs with
  | zero =>
    obtain ⟨others, hlines⟩ := lines_eq cs
    rw [hlines, line?, List.getElem?_cons_zero]
  | succ n ih =>
    by_cases h : '\n' ∈ cs
    · obtain ⟨ds, es, rfl, hds⟩ := List.eq_append_cons_of_mem h
      have hdrop : (ds ++ '\n' :: es).dropWhile (· ≠ '\n') = '\n' :: es := by
        rw [dropWhile_of_not_mem hds]
        simp
      rw [lines_append_newline hds, List.getElem?_cons_succ, ← ih es, line?, hdrop]
    · have hdrop := dropWhile_of_not_mem h []
      rw [List.append_nil, List.dropWhile_nil] at hdrop
      rw [lines_of_not_mem h, line?, hdrop]
      rfl

/-- The lines that are complete after a text, and the part of the next line that is there
already: they make the position behind the text, and the lines of any longer text start
with them.  Expanding the tabs lengthens the part and leaves the lines. -/
theorem exists_part (cs : List Char) :
    ∃ full part, (∀ rest, lines (cs ++ rest) = full ++ lines (part ++ rest)) ∧ '\n' ∉ part ∧
      Pos.start.after cs = ⟨full.length + 1, part.length + 1⟩ ∧
      Pos.start.after (expandTabs cs) = ⟨full.length + 1, (expandTabs part).length + 1⟩ := by
  induction cs using List.reverseRecOn with
  | nil => exact ⟨[], [], fun _ => rfl, List.not_mem_nil, rfl, rfl⟩
  | append_singleton cs c ih =>
    obtain ⟨full, part, hlines, hpart, hpos, hexpanded⟩ := ih
    by_cases hc : c = '\n'
    · subst hc
      refine ⟨full ++ [part], [], ?_, List.not_mem_nil, ?_, ?_⟩
      · intro rest
        rw [List.append_assoc, hlines, List.singleton_append, lines_append_newline hpart]
        simp
      · rw [Pos.after_concat, hpos, Pos.next_newline]
        simp
      · rw [expandTabs_append, Pos.after_append, hexpanded, expandTabs_cons_of_ne (by decide)]
        simp [expandTabs, Pos.next_newline]
    · refine ⟨full, part ++ [c], ?_, ?_, ?_, ?_⟩
      · intro rest
        rw [List.append_assoc, hlines, List.append_assoc]
      · simp [hpart, Ne.symm hc]
      · rw [Pos.after_concat, hpos, Pos.next_of_ne _ hc]
        simp
      · have hfeed : ∀ d ∈ expandTabs [c], d ≠ '\n' := by
          intro d hd
          rcases (mem_expandTabs hd).2 with hd | rfl
          · rw [List.mem_singleton.mp hd]
            exact hc
          · decide
        rw [expandTabs_append, Pos.after_append, hexpanded, Pos.after_of_no_newline _ hfeed,
          expandTabs_append, List.length_append]
        simp only [Pos.mk.injEq, true_and]
        omega

/-! ## Columns -/

theorem width_pos (c : Char) : 0 < width c := by
  unfold width
  split <;> decide

/-- A character takes as many columns as there are characters in its place. -/
theorem length_expandTabs_cons (c : Char) (cs : List Char) :
    (expandTabs (c :: cs)).length = width c + (expandTabs cs).length := by
  rw [expandTabs_cons, List.length_append, width]
  split <;> rfl

/-- The way back along a line: behind a part of it, the columns of the expanded part are
those of the part. -/
theorem columnIn_append (part rest : List Char) (expanded plain : Int) :
    columnIn (expanded + (expandTabs part).length) expanded plain (part ++ rest) =
      columnIn (expanded + (expandTabs part).length) (expanded + (expandTabs part).length)
        (plain + part.length) rest := by
  induction part generalizing expanded plain with
  | nil => simp [expandTabs]
  | cons c part ih =>
    have hwidth := length_expandTabs_cons c part
    have hnot : ¬ expanded + (expandTabs (c :: part)).length < expanded + width c := by omega
    rw [List.cons_append, columnIn, if_neg hnot, hwidth, Int.natCast_add, ← Int.add_assoc, ih,
      List.length_cons]
    congr 1
    omega

/-- The first column of what is left is its own. -/
theorem columnIn_self (expanded plain : Int) (cs : List Char) :
    columnIn expanded expanded plain cs = plain := by
  cases cs with
  | nil => simp [columnIn]
  | cons c cs =>
    have hwidth := width_pos c
    rw [columnIn, if_pos (by omega)]

/-! ## From the normal form to the source -/

/-- The lines of a source. -/
def sourceLines (source : String) : List (List Char) :=
  lines (unifyLineEnds source.toList)

/-- The character at a line and a column of a source. -/
def charAt? (source : String) (line column : Int) : Option Char :=
  (sourceLines source)[(line - 1).toNat]?.bind (·[(column - 1).toNat]?)

/-- The source has the line, and on it the column or the end of the line. -/
structure InSource (source : String) (line column : Int) : Prop where
  line_pos : 1 ≤ line
  line_le : line ≤ (sourceLines source).length
  column_pos : 1 ≤ column
  column_le : ∀ l ∈ (sourceLines source)[(line - 1).toNat]?, column ≤ l.length + 1

/-- The place just past the last character of a source. -/
def IsEnd (source : String) (line column : Int) : Prop :=
  line = (sourceLines source).length ∧
    ∀ l ∈ (sourceLines source).getLast?, column = l.length + 1

/-- The line and the column in the source of what stands behind the characters `front`. -/
structure Behind (source : String) (front rest : List Char) (line column : Int) : Prop where
  cut : unifyLineEnds source.toList = front ++ rest
  line_eq : line = (Pos.start.after front).line
  column_eq : column = (Pos.start.after front).column

namespace Behind

variable {source : String} {front rest : List Char} {line column : Int}

/-- The line of a place, and what it has before and behind the place. -/
theorem exists_line (h : Behind source front rest line column) :
    ∃ full part, (sourceLines source) = full ++ lines (part ++ rest) ∧ '\n' ∉ part ∧
      line = full.length + 1 ∧ column = part.length + 1 ∧
      (sourceLines source)[(line - 1).toNat]? = some (part ++ rest.takeWhile (· ≠ '\n')) := by
  obtain ⟨full, part, hlines, hpart, hpos, -⟩ := exists_part front
  have hsource : sourceLines source = full ++ lines (part ++ rest) := by
    rw [sourceLines, h.cut, hlines]
  have hline : line = full.length + 1 := by rw [h.line_eq, hpos]; simp
  obtain ⟨others, hothers⟩ := lines_eq (part ++ rest)
  refine ⟨full, part, hsource, hpart, hline, by rw [h.column_eq, hpos]; simp, ?_⟩
  rw [hsource, hothers, takeWhile_of_not_mem hpart, hline]
  simp

theorem inSource (h : Behind source front rest line column) : InSource source line column := by
  obtain ⟨full, part, hsource, -, hline, hcolumn, hat⟩ := h.exists_line
  obtain ⟨others, hothers⟩ := lines_eq (part ++ rest)
  refine ⟨by omega, ?_, by omega, ?_⟩
  · rw [hsource, hothers, hline, List.length_append, List.length_cons]
    omega
  · intro l hl
    obtain rfl := Option.some.inj (hat.symm.trans hl)
    rw [hcolumn, List.length_append]
    omega

theorem charAt?_eq {c : Char} (h : Behind source front (c :: rest) line column)
    (hc : c ≠ '\n') : charAt? source line column = some c := by
  obtain ⟨full, part, -, -, -, hcolumn, hat⟩ := h.exists_line
  rw [charAt?, hat, hcolumn]
  simp [hc]

theorem isEnd (h : Behind source front [] line column) : IsEnd source line column := by
  obtain ⟨full, part, hsource, hpart, hline, hcolumn, -⟩ := h.exists_line
  rw [List.append_nil, lines_of_not_mem hpart] at hsource
  rw [IsEnd, hsource]
  refine ⟨by simp [hline], ?_⟩
  intro l hl
  rw [List.getLast?_concat] at hl
  obtain rfl := Option.some.inj hl
  exact hcolumn

/-- The way back from the source with its tabs expanded. -/
theorem of_expandTabs (h : unifyLineEnds source.toList = front ++ rest) {p : Pos}
    (hp : p = Pos.start.after (expandTabs front)) :
    Behind source front rest p.line (sourceColumn source p.line p.column) := by
  obtain ⟨full, part, hlines, hpart, hpos, hexpanded⟩ := exists_part front
  obtain ⟨others, hothers⟩ := lines_eq (part ++ rest)
  rw [hexpanded] at hp
  subst hp
  refine ⟨h, by rw [hpos], ?_⟩
  have hline : line? (((full.length + 1 : Nat) : Int) - 1).toNat (unifyLineEnds source.toList) =
      some (part ++ rest.takeWhile (· ≠ '\n')) := by
    rw [line?_eq, h, hlines, hothers, takeWhile_of_not_mem hpart]
    simp
  have hfirst : ¬ ((full.length + 1 : Nat) : Int) < 1 := by omega
  have hcolumn := columnIn_append part (rest.takeWhile (· ≠ '\n')) 1 1
  rw [columnIn_self] at hcolumn
  rw [sourceColumn, if_neg hfirst, hline, hpos]
  simp only [Int.natCast_add, Int.natCast_one, Int.add_comm _ (1 : Int), hcolumn]

end Behind

/-- A character that can be seen once the tabs are expanded was there before. -/
theorem exists_of_expandTabs {cs ds es : List Char} {c : Char}
    (h : expandTabs cs = ds ++ c :: es) (hc : c ≠ ' ') :
    ∃ front rest, cs = front ++ c :: rest ∧ expandTabs front = ds := by
  induction cs generalizing ds with
  | nil => simp [expandTabs] at h
  | cons b cs ih =>
    by_cases htab : b = '\t'
    · subst htab
      rw [expandTabs_cons, if_pos rfl] at h
      match ds with
      | [] => exact absurd (List.cons.inj h).1.symm hc
      | [d] => exact absurd (List.cons.inj (List.cons.inj h).2).1.symm hc
      | d₁ :: d₂ :: ds =>
        obtain ⟨hd₁, htail⟩ := List.cons.inj h
        obtain ⟨hd₂, htail⟩ := List.cons.inj htail
        obtain ⟨front, rest, rfl, rfl⟩ := ih htail
        exact ⟨'\t' :: front, rest, rfl, by rw [← hd₁, ← hd₂]; rfl⟩
    · rw [expandTabs_cons_of_ne htab] at h
      match ds with
      | [] =>
        obtain ⟨rfl, -⟩ := List.cons.inj h
        exact ⟨[], cs, rfl, rfl⟩
      | d :: ds =>
        obtain ⟨rfl, htail⟩ := List.cons.inj h
        obtain ⟨front, rest, rfl, rfl⟩ := ih htail
        exact ⟨b :: front, rest, rfl, expandTabs_cons_of_ne htab front⟩

/-- The line and the column in the source of the character `c`, which a blanked form of
the source shows behind the characters `shown`. -/
structure Marks (source : String) (shown : List Char) (c : Char) (line column : Int) : Prop where
  charAt : charAt? source line column = some c
  inSource : InSource source line column
  behind : ∃ front rest, Behind source front (c :: rest) line column ∧
    Blanked (expandTabs front) shown

/-- Every character that a blanked form of a source shows is found in the source. -/
theorem marks_of_blanked {source : String} {ds es : List Char} {c : Char} {p : Pos}
    (h : Blanked (expandTabs (unifyLineEnds source.toList)) (ds ++ c :: es)) (hc : c ≠ ' ')
    (hfeed : c ≠ '\n') (hp : p = Pos.start.after ds) :
    Marks source ds c p.line (sourceColumn source p.line p.column) := by
  obtain ⟨ds', es', hcut, hds, hes⟩ := h.exists_append
  cases hes with
  | cons hhead htail =>
    rw [hhead.eq_of_visible hc] at hcut
    obtain ⟨front, rest, hsource, rfl⟩ := exists_of_expandTabs hcut hc
    have hbehind := Behind.of_expandTabs hsource (hp.trans (hds.after_eq _).symm)
    exact ⟨hbehind.charAt?_eq hfeed, hbehind.inSource, front, rest, hbehind, hds⟩

/-- The end of a blanked form of a source is the end of the source. -/
theorem behind_of_blanked {source : String} {ds : List Char} {p : Pos}
    (h : Blanked (expandTabs (unifyLineEnds source.toList)) ds) (hp : p = Pos.start.after ds) :
    Behind source (unifyLineEnds source.toList) [] p.line (sourceColumn source p.line p.column) :=
  Behind.of_expandTabs (List.append_nil _).symm (hp.trans (h.after_eq _).symm)

/-- On a text without tabs, columns are what they are. -/
theorem columnIn_of_not_mem {cs : List Char} (h : '\t' ∉ cs) {column first : Int}
    (hfirst : first ≤ column) : columnIn column first first cs = column := by
  induction cs generalizing first with
  | nil =>
    rw [columnIn]
    omega
  | cons c cs ih =>
    rw [List.mem_cons, not_or] at h
    have hwidth : width c = 1 := if_neg fun hc => h.1 hc.symm
    rw [columnIn, hwidth]
    split
    · omega
    · exact ih h.2 (by omega)

end Source

end Pseudocode
