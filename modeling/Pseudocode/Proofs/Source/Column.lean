import Mathlib.Algebra.GroupWithZero.Nat
import Mathlib.Order.Bounds.Defs
import Pseudocode.Proofs.Source.Location
set_option autoImplicit false

/-!
# Columns before and after tabs are expanded

Expanding the tabs of a line moves every character to a column of its own, further to the
right the more tabs stand before it.  `sourceColumn` undoes that.  A column that a character
moved to leads back to the character, one inside a tab to the tab, one behind the end as far
behind the end, and columns keep their order on the way.
-/

namespace Pseudocode.Source

/-! ## The way there -/

/-- The columns that the characters take. -/
def totalWidth (cs : List Char) : Nat :=
  (cs.map width).sum

/-- The column, once tabs are expanded, of the character in the given column of a line.  The
column behind the last character stands for the end of the line. -/
def expandedColumn (cs : List Char) (column : Nat) : Nat :=
  1 + totalWidth (cs.take (column - 1))

@[simp] theorem totalWidth_nil : totalWidth [] = 0 := rfl

@[simp] theorem totalWidth_cons (c : Char) (cs : List Char) :
    totalWidth (c :: cs) = width c + totalWidth cs := by
  simp [totalWidth]

/-- The characters take as many columns as there are characters once tabs are expanded. -/
theorem length_expandTabs (cs : List Char) : (expandTabs cs).length = totalWidth cs := by
  induction cs with
  | nil => rfl
  | cons c cs ih => rw [length_expandTabs_cons, ih, totalWidth_cons]

/-! ## The way back along a line -/

/-- The way back does not lead to a column before the one it starts from. -/
theorem le_columnIn {column expanded : Int} (h : expanded ≤ column) (plain : Int)
    (cs : List Char) : plain ≤ columnIn column expanded plain cs := by
  induction cs generalizing expanded plain with
  | nil =>
    rw [columnIn]
    omega
  | cons c cs ih =>
    rw [columnIn]
    split
    · exact Int.le_refl plain
    · rename_i hbehind
      have hrest := ih (Int.not_lt.mp hbehind) (plain + 1)
      omega

/-- Columns keep their order. -/
theorem columnIn_mono {column column' : Int} (h : column ≤ column') (expanded plain : Int)
    (cs : List Char) :
    columnIn column expanded plain cs ≤ columnIn column' expanded plain cs := by
  induction cs generalizing expanded plain with
  | nil =>
    rw [columnIn, columnIn]
    omega
  | cons c cs ih =>
    rw [columnIn, columnIn]
    by_cases hhere : column < expanded + width c
    · rw [if_pos hhere]
      split
      · exact Int.le_refl plain
      · rename_i hbehind
        have hrest := le_columnIn (Int.not_lt.mp hbehind) (plain + 1) cs
        omega
    · rw [if_neg hhere, if_neg (by omega)]
      exact ih _ _

/-- The way back passes as many characters as fit before the column, and goes on behind the
end of the line by what is left. -/
theorem exists_columnIn {column expanded : Int} (h : expanded ≤ column) (plain : Int)
    (cs : List Char) :
    ∃ n, IsGreatest {m | m ≤ cs.length ∧ expanded + totalWidth (cs.take m) ≤ column} n ∧
      columnIn column expanded plain cs = plain + n +
        if expanded + totalWidth cs < column then column - (expanded + totalWidth cs) else 0 := by
  induction cs generalizing expanded plain with
  | nil =>
    refine ⟨0, ⟨⟨Nat.le_refl 0, by simpa using h⟩, fun m hm => hm.1⟩, ?_⟩
    rw [columnIn, totalWidth_nil]
    omega
  | cons c cs ih =>
    rw [columnIn, totalWidth_cons]
    by_cases hhere : column < expanded + width c
    · refine ⟨0, ⟨⟨Nat.zero_le _, by simpa using h⟩, ?_⟩, ?_⟩
      · rintro (_ | m) ⟨-, hm⟩
        · exact Nat.le_refl 0
        · rw [List.take_succ_cons, totalWidth_cons] at hm
          omega
      · rw [if_pos hhere, if_neg (by omega)]
        simp
    · obtain ⟨n, ⟨⟨hlength, hfits⟩, hgreatest⟩, hcolumn⟩ :=
        ih (Int.not_lt.mp hhere) (plain + 1)
      refine ⟨n + 1, ⟨⟨?_, ?_⟩, ?_⟩, ?_⟩
      · exact Nat.succ_le_succ hlength
      · rw [List.take_succ_cons, totalWidth_cons]
        omega
      · rintro (_ | m) ⟨hm, hfits'⟩
        · exact Nat.zero_le _
        · rw [List.take_succ_cons, totalWidth_cons] at hfits'
          exact Nat.succ_le_succ (hgreatest ⟨Nat.le_of_succ_le_succ hm, by omega⟩)
      · rw [if_neg hhere, hcolumn]
        simp only [Int.natCast_add, Int.natCast_one, ← Int.add_assoc]
        omega

/-- From the column that a character has moved to, the way back leads to the character. -/
theorem columnIn_expandedColumn {cs : List Char} {c : Nat} (hfirst : 1 ≤ c)
    (hlast : c ≤ cs.length + 1) : columnIn (expandedColumn cs c) 1 1 cs = c := by
  have hback := columnIn_append (cs.take (c - 1)) (cs.drop (c - 1)) 1 1
  rw [columnIn_self, List.take_append_drop, length_expandTabs, List.length_take] at hback
  rw [expandedColumn, Int.natCast_add, Int.natCast_one, hback]
  omega

/-- Any other column leads back to the last character that starts there or before, and on
from the end of the line by what is left. -/
theorem exists_expandedColumn {column : Int} (h : 1 ≤ column) (cs : List Char) :
    ∃ c, IsGreatest {d | 1 ≤ d ∧ d ≤ cs.length + 1 ∧ (expandedColumn cs d : Int) ≤ column} c ∧
      columnIn column 1 1 cs = c +
        if (expandedColumn cs (cs.length + 1) : Int) < column
        then column - expandedColumn cs (cs.length + 1) else 0 := by
  obtain ⟨n, ⟨⟨hlength, hfits⟩, hgreatest⟩, hcolumn⟩ := exists_columnIn h 1 cs
  refine ⟨n + 1, ⟨⟨Nat.le_add_left 1 n, Nat.succ_le_succ hlength, ?_⟩, ?_⟩, ?_⟩
  · simpa [expandedColumn] using hfits
  · rintro d ⟨hfirst, hlast, hd⟩
    have hle : d - 1 ≤ n := hgreatest ⟨by omega, by simpa [expandedColumn] using hd⟩
    omega
  · rw [hcolumn, expandedColumn, Nat.add_sub_cancel, List.take_length]
    simp only [Int.natCast_add, Int.natCast_one, Int.add_comm (1 : Int) n]

/-! ## The way back in a source -/

variable {source : String} {line : Int} {cs : List Char}

/-- On a line of the source the way back is the one along the line. -/
theorem sourceColumn_eq (hfirst : 1 ≤ line)
    (hline : (sourceLines source)[(line - 1).toNat]? = some cs) (column : Int) :
    sourceColumn source line column = columnIn column 1 1 cs := by
  have hfound : line? (line - 1).toNat (unifyLineEnds source.toList) = some cs := by
    rw [line?_eq]
    exact hline
  rw [sourceColumn, if_neg (Int.not_lt.mpr hfirst), hfound]

/-- **Columns of a source.**  On every line of a source, a column of the line with its tabs
expanded leads back to the last place of the line, its end included, that is not to the right
of it, and to as much behind the end as the column is behind it.  So the column that a place has
moved to leads back to the place, and columns keep their order, wherever they lie. -/
theorem sourceColumn_inverts_expansion (hfirst : 1 ≤ line)
    (hline : (sourceLines source)[(line - 1).toNat]? = some cs) :
    (∀ column : Int, 1 ≤ column → ∃ c : Nat,
      IsGreatest {d | 1 ≤ d ∧ d ≤ cs.length + 1 ∧ (expandedColumn cs d : Int) ≤ column} c ∧
      sourceColumn source line column = c +
        if (expandedColumn cs (cs.length + 1) : Int) < column
        then column - expandedColumn cs (cs.length + 1) else 0) ∧
    (∀ c : Nat, 1 ≤ c → c ≤ cs.length + 1 →
      sourceColumn source line (expandedColumn cs c) = c) ∧
    ∀ column column' : Int, column ≤ column' →
      sourceColumn source line column ≤ sourceColumn source line column' := by
  refine ⟨?_, ?_, ?_⟩
  · intro column hcolumn
    rw [sourceColumn_eq hfirst hline]
    exact exists_expandedColumn hcolumn cs
  · intro c hc hlast
    rw [sourceColumn_eq hfirst hline]
    exact columnIn_expandedColumn hc hlast
  · intro column column' hle
    rw [sourceColumn_eq hfirst hline, sourceColumn_eq hfirst hline]
    exact columnIn_mono hle 1 1 cs

/-- A source whose second line has a tab at both ends. -/
def tabbedEnds : String :=
  "a\r\n\tx\t"

/-- The end of the second line moves from column 4 to column 6, so that column 8 is two columns
behind it. -/
theorem sourceColumn_inverts_expansion_tabbedEnds :
    (sourceLines tabbedEnds)[((2 : Int) - 1).toNat]? = some ['\t', 'x', '\t'] ∧
      expandedColumn ['\t', 'x', '\t'] 4 = 6 ∧
      (∃ c : Nat, IsGreatest {d | 1 ≤ d ∧ d ≤ 4 ∧
          (expandedColumn ['\t', 'x', '\t'] d : Int) ≤ 8} c ∧
        sourceColumn tabbedEnds 2 8 = c + 2) ∧
      sourceColumn tabbedEnds 2 (expandedColumn ['\t', 'x', '\t'] 3) = 3 ∧
      sourceColumn tabbedEnds 2 (-3) ≤ sourceColumn tabbedEnds 2 2 := by
  have hline : (sourceLines tabbedEnds)[((2 : Int) - 1).toNat]? = some ['\t', 'x', '\t'] := by
    rw [sourceLines, ← line?_eq]
    decide
  obtain ⟨hgreatest, hinverse, hmono⟩ := sourceColumn_inverts_expansion (by decide) hline
  exact ⟨hline, rfl, hgreatest 8 (by decide), hinverse 3 (by decide) (by decide),
    hmono (-3) 2 (by decide)⟩

end Pseudocode.Source
