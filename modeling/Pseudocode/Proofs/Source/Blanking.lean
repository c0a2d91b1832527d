import Mathlib.Data.List.Forall2
import Pseudocode.Position
import Pseudocode.Source.Mask
set_option autoImplicit false

/-!
# Blanked texts

Comments and the contents of literals are blanked in place.  `Blanked` says what that
means for a text as a whole: character by character it is kept or it becomes a blank, and
line feeds are kept.  So every character that can be seen is where it was, and positions
stay what they are.

A text in normal form is its own normal form: blanking leaves no comment behind and
opens none, and it keeps every literal as it was.
-/

namespace Pseudocode.Source

/-- A character as it was, or a blank for one that is no line feed. -/
def Blanks (c d : Char) : Prop :=
  d = c ∨ d = ' ' ∧ c ≠ '\n'

/-- The second text is the first one with some characters blanked. -/
def Blanked (cs ds : List Char) : Prop :=
  List.Forall₂ Blanks cs ds

theorem Blanks.refl (c : Char) : Blanks c c :=
  .inl rfl

theorem Blanks.blank {c : Char} (h : c ≠ '\n') : Blanks c ' ' :=
  .inr ⟨rfl, h⟩

theorem Blanks.trans {c d e : Char} (h : Blanks c d) (h' : Blanks d e) : Blanks c e := by
  rcases h' with rfl | ⟨rfl, hd⟩
  · exact h
  · rcases h with rfl | ⟨rfl, hc⟩
    · exact .blank hd
    · exact .blank hc

/-- What can be seen was there before. -/
theorem Blanks.eq_of_visible {c d : Char} (h : Blanks c d) (hd : d ≠ ' ') : c = d := by
  rcases h with rfl | ⟨rfl, -⟩
  · rfl
  · exact absurd rfl hd

namespace Blanked

variable {cs ds es : List Char}

theorem trans (h : Blanked cs ds) (h' : Blanked ds es) : Blanked cs es := by
  induction h generalizing es with
  | nil => exact h'
  | cons hhead htail ih =>
    cases h' with
    | cons hhead' htail' => exact .cons (hhead.trans hhead') (ih htail')

/-- The parts of a blanked text are parts of the text, blanked. -/
theorem exists_append (h : Blanked cs (ds ++ es)) :
    ∃ ds' es', cs = ds' ++ es' ∧ Blanked ds' ds ∧ Blanked es' es :=
  ⟨cs.take ds.length, cs.drop ds.length, (List.take_append_drop ds.length cs).symm,
    List.forall₂_take_append cs ds es h, List.forall₂_drop_append cs ds es h⟩

/-- Positions do not change. -/
theorem after_eq (h : Blanked cs ds) (p : Pos) : p.after cs = p.after ds := by
  induction h generalizing p with
  | nil => rfl
  | cons hhead htail ih =>
    have hnext : ∀ {c d : Char}, Blanks c d → p.next c = p.next d := by
      intro c d hcd
      rcases hcd with rfl | ⟨rfl, hc⟩
      · rfl
      · simp [Pos.next, hc]
    rw [Pos.after_cons, Pos.after_cons, hnext hhead, ih]

end Blanked

/-! ## Comments and literals -/

theorem blanked_blankComments (r : Region) (cs : List Char) : Blanked cs (blankComments r cs) := by
  fun_induction blankComments r cs with
  | case1 => exact .nil
  | case2 cs ih | case3 cs ih | case9 cs ih =>
    exact .cons (.blank (by decide)) (.cons (.blank (by decide)) ih)
  | case4 c cs _ _ ih | case6 q c cs _ ih => exact .cons (.refl c) ih
  | case5 q c cs ih => exact .cons (.refl _) (.cons (.refl c) ih)
  | case7 cs ih => exact .cons (.refl _) ih
  | case8 c cs hc ih => exact .cons (.blank hc) ih
  | case10 c cs _ ih =>
    apply List.Forall₂.cons _ ih
    split
    · rename_i hc
      exact .inl hc.symm
    · rename_i hc
      exact .blank hc

theorem blanked_maskChars (quote : Option Char) (cs : List Char) :
    Blanked cs (maskChars quote cs) := by
  fun_induction maskChars quote cs with
  | case1 => exact .nil
  | case2 c cs ih | case5 q c cs _ _ ih => exact .cons (.refl c) ih
  | case3 q cs ih => exact .cons (.blank (by decide)) (.cons (.refl _) ih)
  | case4 q c cs hc ih => exact .cons (.blank (by decide)) (.cons (.blank hc) ih)
  | case6 q c cs _ hc ih => exact .cons (.blank fun h => hc (.inl h)) ih

/-! ## Regions

Blanking comments is walking along the text and deciding for each character what it
belongs to.  The regions are written down here one by one; they alone say which characters
are blanked, and they are the same in a text and in what is left of it, but that comments
have become code. -/

/-- The region that each character of a text belongs to, if the text starts in `r`.  The
two signs that open or close a comment belong to the comment, a quote that opens a literal
still belongs to the code, and the one that closes it to the literal. -/
def regions : (r : Region) → List Char → List Region
  | _, [] => []
  | .code, '/' :: '/' :: cs => .lineComment :: .lineComment :: regions .lineComment cs
  | .code, '/' :: '*' :: cs => .blockComment :: .blockComment :: regions .blockComment cs
  | .code, c :: cs => .code :: regions (if isQuote c then .literal c else .code) cs
  | .literal q, '\\' :: _ :: cs => .literal q :: .literal q :: regions (.literal q) cs
  | .literal q, c :: cs => .literal q :: regions (if c = q ∨ c = '\n' then .code else .literal q) cs
  | .lineComment, c :: cs =>
    if c = '\n' then .code :: regions .code cs else .lineComment :: regions .lineComment cs
  | .blockComment, '*' :: '/' :: cs => .blockComment :: .blockComment :: regions .code cs
  | .blockComment, _ :: cs => .blockComment :: regions .blockComment cs

namespace Region

/-- The characters of a comment. -/
def isComment : Region → Bool
  | .lineComment | .blockComment => true
  | _ => false

/-- What is left of a character of a region. -/
def shown (r : Region) (c : Char) : Char :=
  if r.isComment = true ∧ c ≠ '\n' then ' ' else c

/-- What a region is once its comments are blanked. -/
def settled : Region → Region
  | .literal q => .literal q
  | _ => .code

theorem shown_settled (r : Region) (c : Char) : r.settled.shown c = c := by
  cases r <;> rfl

end Region

/-- In code, a character that opens no comment belongs to the code. -/
theorem regions_code_cons {c : Char} {cs : List Char}
    (h : c = '/' → ∀ d ∈ cs.head?, d ≠ '/' ∧ d ≠ '*') :
    regions .code (c :: cs) = .code :: regions (if isQuote c then .literal c else .code) cs := by
  rw [regions]
  · rintro ds rfl rfl
    exact (h rfl '/' rfl).1 rfl
  · rintro ds rfl rfl
    exact (h rfl '*' rfl).2 rfl

theorem regions_literal_cons {q c : Char} {cs : List Char} (h : c = '\\' → cs = []) :
    regions (.literal q) (c :: cs) =
      .literal q :: regions (if c = q ∨ c = '\n' then .code else .literal q) cs := by
  rw [regions]
  rintro d ds rfl rfl
  cases h rfl

/-- A blank or a line feed in the code belongs to the code. -/
theorem regions_code_gap {c : Char} (h : c = ' ' ∨ c = '\n') (cs : List Char) :
    regions .code (c :: cs) = .code :: regions .code cs := by
  have hquote : isQuote c = false := by rcases h with rfl | rfl <;> decide
  rw [regions_code_cons]
  · simp [hquote]
  · rintro rfl
    rcases h with h | h <;> cases h

/-- Blanking comments shows every character as its region says. -/
theorem blankComments_eq (r : Region) (cs : List Char) :
    blankComments r cs = List.zipWith Region.shown (regions r cs) cs := by
  fun_induction blankComments r cs with
  | case1 r => cases r <;> rfl
  | case2 cs ih | case3 cs ih | case5 q c cs ih | case7 cs ih | case9 cs ih =>
    rw [regions, ih]
    rfl
  | case4 c cs hline hblock ih =>
    rw [regions, ih]
    · rfl
    · exact hline
    · exact hblock
  | case6 q c cs hescape ih =>
    rw [regions, ih]
    · rfl
    · exact hescape
  | case8 c cs hc ih =>
    rw [regions, if_neg hc, ih]
    simp [Region.shown, Region.isComment, hc]
  | case10 c cs hclose ih =>
    rw [regions, ih]
    · by_cases hc : c = '\n' <;> simp [Region.shown, Region.isComment, hc]
    · exact hclose

/-- The regions of what is left of a text are those of the text, with the comments turned
into code. -/
theorem regions_settled (r : Region) (cs : List Char) :
    regions r.settled (blankComments r cs) = (regions r cs).map Region.settled := by
  fun_induction blankComments r cs with
  | case1 r => cases r <;> rfl
  | case2 cs ih | case3 cs ih | case9 cs ih =>
    simp only [Region.settled] at ih
    simp only [Region.settled, regions_code_gap (.inl rfl), regions, ih, List.map_cons]
  | case4 c cs hline hblock ih =>
    -- A slash that opens no comment is not followed by a sign that makes it open one.
    have hopens : c = '/' → ∀ d ∈ (blankComments .code cs).head?, d ≠ '/' ∧ d ≠ '*' := by
      intro hc d hd
      have hblanked := blanked_blankComments .code cs
      obtain ⟨ds, hds⟩ := List.head?_eq_some_iff.mp hd
      rw [hds] at hblanked
      cases hblanked with
      | cons hhead htail =>
        constructor
        · rintro rfl
          rw [hhead.eq_of_visible (by decide)] at hline
          exact hline _ hc rfl
        · rintro rfl
          rw [hhead.eq_of_visible (by decide)] at hblock
          exact hblock _ hc rfl
    rw [regions.eq_4 c cs hline hblock, List.map_cons, ← ih]
    cases hquote : isQuote c with
    | true =>
      simp only [if_true, Region.settled]
      rw [regions_code_cons]
      · simp only [hquote, if_true]
      · rintro rfl
        cases hquote
    | false =>
      simp only [Bool.false_eq_true, if_false, Region.settled]
      rw [regions_code_cons hopens]
      simp only [hquote, Bool.false_eq_true, if_false]
  | case5 q c cs ih =>
    simp only [Region.settled] at ih
    simp only [Region.settled, regions, ih, List.map_cons]
  | case6 q c cs hescape ih =>
    have hlast : c = '\\' → cs = [] := by
      intro hc
      cases cs with
      | nil => rfl
      | cons d ds => exact (hescape d ds hc rfl).elim
    simp only [Region.settled]
    rw [regions_literal_cons hlast, regions_literal_cons, List.map_cons, ← ih]
    · split <;> rfl
    · intro hc
      rw [hlast hc, blankComments]
  | case7 cs ih =>
    simp only [Region.settled] at ih
    simp only [Region.settled, regions_code_gap (.inr rfl), regions, if_true, ih, List.map_cons]
  | case8 c cs hc ih =>
    simp only [Region.settled] at ih
    simp only [Region.settled, regions_code_gap (.inl rfl), regions, if_neg hc, ih, List.map_cons]
  | case10 c cs hclose ih =>
    have hgap : (if c = '\n' then '\n' else ' ') = ' ' ∨
        (if c = '\n' then '\n' else ' ') = '\n' := by
      split
      · exact .inr rfl
      · exact .inl rfl
    simp only [Region.settled] at ih
    rw [regions.eq_9 c cs hclose, List.map_cons, ← ih]
    exact regions_code_gap hgap _

/-! ## The normal form of a normal form -/

theorem length_regions (r : Region) (cs : List Char) : (regions r cs).length = cs.length := by
  fun_induction regions r cs <;> simp_all

/-- Blanking comments again changes nothing. -/
theorem blankComments_settled (r : Region) (cs : List Char) :
    blankComments r.settled (blankComments r cs) = blankComments r cs := by
  have hlength : (regions r cs).length = (blankComments r cs).length := by
    rw [length_regions, (blanked_blankComments r cs).length_eq]
  rw [blankComments_eq r.settled, regions_settled]
  apply List.ext_getElem
  · simp [hlength]
  · intro k _ _
    simp [Region.shown_settled]

/-! ## Line ends and tabs -/

theorem not_mem_unifyLineEnds (cs : List Char) : '\r' ∉ unifyLineEnds cs := by
  fun_induction unifyLineEnds cs with
  | case1 => simp
  | case2 cs ih => simpa using ih
  | case3 c cs _ ih =>
    rw [List.mem_cons, not_or]
    refine ⟨?_, ih⟩
    split
    · decide
    · rename_i hc
      exact fun h => hc h.symm

theorem unifyLineEnds_of_not_mem {cs : List Char} (h : '\r' ∉ cs) : unifyLineEnds cs = cs := by
  fun_induction unifyLineEnds cs with
  | case1 => rfl
  | case2 cs ih => simp at h
  | case3 c cs _ ih =>
    rw [List.mem_cons, not_or] at h
    rw [if_neg (fun hc => h.1 hc.symm), ih h.2]

theorem expandTabs_cons (c : Char) (cs : List Char) :
    expandTabs (c :: cs) =
      (if c = '\t' then List.replicate tabWidth ' ' else [c]) ++ expandTabs cs :=
  List.flatMap_cons

theorem expandTabs_cons_of_ne {c : Char} (h : c ≠ '\t') (cs : List Char) :
    expandTabs (c :: cs) = c :: expandTabs cs := by
  rw [expandTabs_cons, if_neg h, List.singleton_append]

theorem expandTabs_append (cs ds : List Char) :
    expandTabs (cs ++ ds) = expandTabs cs ++ expandTabs ds :=
  List.flatMap_append

/-- The characters of a text with its tabs expanded. -/
theorem mem_expandTabs {c : Char} {cs : List Char} (h : c ∈ expandTabs cs) :
    c ≠ '\t' ∧ (c ∈ cs ∨ c = ' ') := by
  obtain ⟨d, hd, hc⟩ := List.mem_flatMap.mp h
  by_cases htab : d = '\t'
  · rw [if_pos htab] at hc
    obtain rfl := List.eq_of_mem_replicate hc
    exact ⟨by decide, .inr rfl⟩
  · rw [if_neg htab] at hc
    obtain rfl := List.mem_singleton.mp hc
    exact ⟨htab, .inl hd⟩

theorem expandTabs_of_not_mem {cs : List Char} (h : '\t' ∉ cs) : expandTabs cs = cs := by
  induction cs with
  | nil => rfl
  | cons c cs ih =>
    rw [List.mem_cons, not_or] at h
    rw [expandTabs_cons_of_ne (fun hc => h.1 hc.symm), ih h.2]

/-- A blanked text has no characters of its own but blanks. -/
theorem Blanked.mem {cs ds : List Char} (h : Blanked cs ds) {d : Char} (hd : d ∈ ds) :
    d ∈ cs ∨ d = ' ' := by
  induction h with
  | nil => cases hd
  | cons hhead htail ih =>
    rcases List.mem_cons.mp hd with rfl | hd
    · rcases hhead with rfl | ⟨rfl, -⟩
      · exact .inl List.mem_cons_self
      · exact .inr rfl
    · rcases ih hd with hmem | hblank
      · exact .inl (List.mem_cons_of_mem _ hmem)
      · exact .inr hblank

theorem blanked_normalChars (cs : List Char) :
    Blanked (expandTabs (unifyLineEnds cs)) (normalChars cs) :=
  blanked_blankComments .code _

/-- There are neither carriage returns nor tabs in a normal form. -/
theorem ne_of_mem_normalChars {c : Char} {cs : List Char} (h : c ∈ normalChars cs) :
    c ≠ '\r' ∧ c ≠ '\t' := by
  rcases (blanked_normalChars cs).mem h with hmem | rfl
  · obtain ⟨htab, horigin⟩ := mem_expandTabs hmem
    refine ⟨?_, htab⟩
    rintro rfl
    rcases horigin with hreturn | hblank
    · exact not_mem_unifyLineEnds cs hreturn
    · cases hblank
  · exact ⟨by decide, by decide⟩

theorem unifyLineEnds_normalChars (cs : List Char) :
    unifyLineEnds (normalChars cs) = normalChars cs :=
  unifyLineEnds_of_not_mem fun h => (ne_of_mem_normalChars h).1 rfl

/-- The normal form of a normal form is the normal form itself. -/
theorem normalChars_normalChars (cs : List Char) :
    normalChars (normalChars cs) = normalChars cs := by
  have htabs : '\t' ∉ normalChars cs := fun h => (ne_of_mem_normalChars h).2 rfl
  calc normalChars (normalChars cs)
      = blankComments .code (expandTabs (normalChars cs)) := by
        rw [normalChars, unifyLineEnds_normalChars]
    _ = blankComments .code (normalChars cs) := by rw [expandTabs_of_not_mem htabs]
    _ = normalChars cs := blankComments_settled .code _

theorem normalize_normalize (source : String) :
    normalize (normalize source) = normalize source := by
  simp only [normalize, String.toList_ofList, normalChars_normalChars]

end Pseudocode.Source
