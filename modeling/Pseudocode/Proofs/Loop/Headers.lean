import Pseudocode.Proofs.Loop.Arithmetic
import Pseudocode.Proofs.Reader.Statement
import Pseudocode.Proofs.Render.Words
set_option autoImplicit false

/-!
# What a counting header shows

The header of a counting loop names a variable, its first and last values and the step between
them.  Of a loop that counts with one variable, by adding or subtracting and up to a bound, it
shows every word of the test and of the update.  Of any other loop it shows what it can make out:
a test that is no comparison is left out, and an update that neither adds nor subtracts is written
as if it added one.
-/

namespace Pseudocode

open Text (Stands isBlank dropBlanks)

/-! ## Words at the ends of a text -/

namespace Text

/-- Cutting blanks off the front stops at the first other character. -/
theorem dropBlanks_append {cs ds : List Char} (h : ∃ c ∈ ds.head?, isBlank c = false) :
    dropBlanks (cs ++ ds) = dropBlanks cs ++ ds := by
  obtain ⟨c, hc, hblank⟩ := h
  obtain ⟨ds, rfl⟩ := List.head?_eq_some_iff.mp hc
  unfold dropBlanks
  induction cs with
  | nil => simp [hblank]
  | cons b cs ih =>
    rw [List.cons_append, List.dropWhile_cons, List.dropWhile_cons, ih]
    split <;> rfl

theorem endsApart_of_suffix {before : String} {cs : List Char} (h : endsApart before = true)
    (hcs : cs <:+ before.toList) : endsApart (String.ofList cs) = true := by
  obtain ⟨front, hfront⟩ := hcs
  rw [endsApart, ← hfront, List.getLast?_append] at h
  rw [endsApart, String.toList_ofList]
  cases hlast : cs.getLast? with
  | none => rfl
  | some c => simpa [hlast] using h

theorem startsApart_of_prefix {after : String} {cs : List Char} (h : startsApart after = true)
    (hcs : cs <+: after.toList) : startsApart (String.ofList cs) = true := by
  obtain ⟨back, hback⟩ := hcs
  rw [startsApart, ← hback, List.head?_append] at h
  rw [startsApart, String.toList_ofList]
  cases hfirst : cs.head? with
  | none => rfl
  | some c => simpa [hfirst] using h

/-- A name is not cut off, nor is anything put next to it. -/
theorem Stands.trim {n text : String} (hn : Token.isLexeme .identifier n = true)
    (h : Stands n text) : Stands n (trim text) := by
  obtain ⟨before, after, rfl, hbefore, hafter⟩ := h
  have hvisible : ∀ c ∈ n.toList, isBlank c = false := fun c hc =>
    Token.isBlank_of_isWordPart (Token.isWordPart_of_mem hn c hc)
  have hne : n.toList ≠ [] := by
    intro hnil
    simp [Token.isLexeme, hnil] at hn
  have hfirst : ∀ ds, ∃ c ∈ (n.toList ++ ds).head?, isBlank c = false := by
    intro ds
    refine ⟨n.toList.head hne, ?_, hvisible _ (List.head_mem hne)⟩
    simp [List.head?_append, List.head?_eq_some_head hne]
  have hlast : ∀ ds, ∃ c ∈ (n.toList.reverse ++ ds).head?, isBlank c = false := by
    intro ds
    refine ⟨n.toList.getLast hne, ?_, hvisible _ (List.getLast_mem hne)⟩
    simp [List.head?_append, List.getLast?_eq_some_getLast hne]
  have htrim : (Text.trim (before ++ n ++ after)).toList =
      dropBlanks before.toList ++ n.toList ++ (dropBlanks after.toList.reverse).reverse := by
    simp only [Text.trim, String.toList_ofList, String.toList_append, List.append_assoc]
    rw [dropBlanks_append (hfirst _)]
    simp only [List.reverse_append, List.append_assoc]
    rw [dropBlanks_append (hlast _)]
    simp
  refine ⟨String.ofList (dropBlanks before.toList),
    String.ofList (dropBlanks after.toList.reverse).reverse, ?_,
    endsApart_of_suffix hbefore (List.dropWhile_suffix _), startsApart_of_prefix hafter ?_⟩
  · rw [← String.toList_inj, htrim]
    simp
  · rw [← List.reverse_suffix, List.reverse_reverse]
    exact List.dropWhile_suffix _

end Text

/-! ## Loops that count with a variable -/

/-- The variable gets its first value. -/
def ForInit.starts (v : String) : ForInit → Bool
  | .declaration d => d.name == v
  | .assignment a => a.target.isNamed v
  | .unsupported _ => false

/-- A comparison of the variable with a bound, other than for equality. -/
def Expr.bounds (v : String) : Expr → Bool
  | .binary _ op l r => op.isRelational && op != .eq && (l.isNamed v || r.isNamed v)
  | _ => false

/-- The variable plus or minus something. -/
def Expr.shifts (v : String) : Expr → Bool
  | .binary _ op l _ => (op == .add || op == .sub) && l.isNamed v
  | _ => false

/-- The variable is changed by one, or by adding or subtracting something. -/
def ForUpdate.shifts (v : String) : ForUpdate → Bool
  | .update u => u.target.isNamed v
  | .expression (.update _ _ e) => e.isNamed v
  | .expression (.assign _ target op value) =>
    target.isNamed v && (op == .add || op == .sub || op == .set && value.shifts v)
  | _ => false

/-- The loop counts with the variable `v`: it starts with it, or changes it and starts wherever it
is; it compares it with a bound; and it goes on by adding to it or subtracting from it.  A missing
part says nothing. -/
structure CountsWith (v : String) (init : Option ForInit) (test : Option Expr)
    (update : Option ForUpdate) : Prop where
  starts : ∀ i ∈ init, i.starts v = true
  found : init = none → loopVariable test update = v
  bounded : ∀ e ∈ test, e.bounds v = true
  shifted : ∀ u ∈ update, u.shifts v = true

/-- The word is among those of the update that its text shows. -/
def ForUpdate.Shows (n : String) (u : ForUpdate) : Prop :=
  ∃ e ∈ u.operands, e.Shows n

namespace Expr

variable {n v : String} {e : Expr}

theorem Shows.exists_child (h : e.Shows n) (hown : e.shownWords = []) :
    ∃ c ∈ e.shownChildren, c.Shows n := by
  cases h with
  | own h => simp [hown] at h
  | child hc h => exact ⟨_, hc, h⟩

theorem Shows.of_pair {l r : Expr} (h : e.Shows n) (hown : e.shownWords = [])
    (hparts : e.shownChildren = [l, r]) : l.Shows n ∨ r.Shows n := by
  obtain ⟨c, hc, hshows⟩ := h.exists_child hown
  simp only [hparts, List.mem_cons, List.not_mem_nil, or_false] at hc
  rcases hc with rfl | rfl
  · exact .inl hshows
  · exact .inr hshows

/-- The words that are shown are names. -/
theorem Shows.isLexeme (he : e.WellFormed .lexical) (h : e.Shows n) :
    Token.isLexeme .identifier n = true := by
  have hname : ∀ {n : String}, Vocabulary.lexical .identifier n →
      Token.isLexeme .identifier n = true := by
    intro n hn
    rcases hn with ⟨heof, -⟩ | hn
    · cases heof
    · exact hn
  induction h with
  | @own e h =>
    cases e with
    | name =>
      obtain rfl := List.mem_singleton.mp h
      exact hname he
    | call | newObject =>
      obtain rfl := List.mem_singleton.mp h
      exact hname he.1
    | property =>
      obtain rfl := List.mem_singleton.mp h
      exact hname he.2.1
    | _ => simp [shownWords] at h
  | child hc _ ih => exact ih (he.of_mem_shownChildren hc)

theorem Shows.eq_of_isNamed (h : e.Shows n) (he : e.isNamed v = true) : n = v := by
  cases e with
  | name p m =>
    simp only [isNamed, Bool.and_eq_true, beq_iff_eq] at he
    cases h with
    | own h => exact (List.mem_singleton.mp h).trans he.2
    | child hc => simp [shownChildren, children] at hc
  | _ => simp [isNamed] at he

/-- What shows a word is no number. -/
theorem Shows.numericValue (h : e.Shows n) : e.numericValue = .ok none := by
  induction h with
  | @own e h =>
    cases e with
    | literal | unary => simp [shownWords] at h
    | _ => rfl
  | @child e c hc _ ih =>
    cases e with
    | literal => simp [shownChildren, children] at hc
    | unary p op operand =>
      obtain rfl := List.mem_singleton.mp hc
      cases op with
      | neg => rw [Expr.numericValue, ih]; rfl
      | _ => rfl
    | _ => rfl

/-- A comparison with a bound shows the variable and the bound. -/
theorem Shows.of_bounds (h : e.Shows n) (he : e.bounds v = true) :
    n = v ∨ ∃ op bound, loopBound? (some e) v = some (op, bound) ∧ op ≠ .eq ∧ bound.Shows n := by
  cases e with
  | binary p op l r =>
    simp only [bounds, Bool.and_eq_true, Bool.or_eq_true, bne_iff_ne] at he
    obtain ⟨⟨hrelational, hne⟩, hnamed⟩ := he
    have hswapped : op.swapped ≠ .eq := by
      cases op <;> simp_all [BinaryOp.swapped]
    unfold loopBound?
    simp only [hrelational, Bool.not_true, Bool.false_eq_true, if_false]
    cases hl : l.isNamed v with
    | true =>
      rcases h.of_pair rfl rfl with hleft | hright
      · exact .inl (hleft.eq_of_isNamed hl)
      · exact .inr ⟨op, r, by simp, hne, hright⟩
    | false =>
      have hr : r.isNamed v = true := by simpa [hl] using hnamed
      rcases h.of_pair rfl rfl with hleft | hright
      · exact .inr ⟨op.swapped, l, by simp [hr], hswapped, hleft⟩
      · exact .inl (hright.eq_of_isNamed hr)
  | _ => simp [bounds] at he

end Expr

/-- A change of the variable shows the variable and the step. -/
theorem ForUpdate.Shows.of_shifts {n v : String} {u : ForUpdate} (h : u.Shows n)
    (hu : u.shifts v = true) (p : Pos) : n = v ∨ (loopStep p (some u) v).1.Shows n := by
  obtain ⟨e, he, h⟩ := h
  cases u with
  | unsupported => simp [operands] at he
  | update u =>
    obtain rfl := List.mem_singleton.mp he
    exact .inl (h.eq_of_isNamed hu)
  | expression d =>
    obtain rfl := List.mem_singleton.mp he
    cases e with
    | update q op operand =>
      obtain ⟨c, hc, hshows⟩ := h.exists_child rfl
      obtain rfl := List.mem_singleton.mp hc
      exact .inl (hshows.eq_of_isNamed hu)
    | assign q target op value =>
      simp only [shifts, Bool.and_eq_true, Bool.or_eq_true, beq_iff_eq] at hu
      obtain ⟨htarget, (rfl | rfl) | ⟨rfl, hvalue⟩⟩ := hu
      · exact (h.of_pair rfl rfl).imp_left (·.eq_of_isNamed htarget)
      · exact (h.of_pair rfl rfl).imp_left (·.eq_of_isNamed htarget)
      · cases value with
        | binary q' op l r =>
          simp only [Expr.shifts, Bool.and_eq_true, Bool.or_eq_true, beq_iff_eq] at hvalue
          obtain ⟨hop, hl⟩ := hvalue
          have hstep : (loopStep p
              (some (.expression (.assign q target .set (.binary q' op l r)))) v).1 = r := by
            rcases hop with rfl | rfl <;> simp [loopStep, htarget, hl]
          rw [hstep]
          rcases h.of_pair rfl rfl with hshows | hshows
          · exact .inl (hshows.eq_of_isNamed htarget)
          · exact (hshows.of_pair rfl rfl).imp_left (·.eq_of_isNamed hl)
        | _ => simp [Expr.shifts] at hvalue
    | _ => simp [shifts] at hu

theorem ForUpdate.WellFormed.of_mem_operands {V : Vocabulary} {u : ForUpdate} {e : Expr}
    (hu : u.WellFormed V) (he : e ∈ u.operands) : e.WellFormed V := by
  cases u with
  | update u =>
    obtain rfl := List.mem_singleton.mp he
    exact hu.2.1
  | expression d =>
    obtain rfl := List.mem_singleton.mp he
    exact hu
  | unsupported => exact hu.elim

/-! ## The header -/

/-- The text of the variable is its name. -/
theorem Expr.eq_of_render_isNamed {s : Setting} {slot : Slot} {v text : String} {e : Expr}
    (he : e.isNamed v = true) (h : s.render slot e = .ok text) : text = v := by
  cases e with
  | name p n =>
    simp only [isNamed, Bool.and_eq_true, beq_iff_eq] at he
    cases h
    exact he.2
  | _ => simp [isNamed] at he

namespace Setting

variable {s : Setting} {n v : String} {init : Option ForInit} {test : Option Expr}
  {update : Option ForUpdate}

/-- The header starts with the variable. -/
theorem loopStart_eq (hcounts : CountsWith v init test update) {start : String × String}
    (h : s.loopStart init test update = .ok start) : start.1 = v := by
  unfold loopStart at h
  split at h
  · rename_i d
    obtain ⟨value, -, h⟩ := exists_of_bind h
    cases h
    simpa [ForInit.starts] using hcounts.starts _ rfl
  · rename_i a
    obtain ⟨name, hname, h⟩ := exists_of_bind h
    obtain ⟨value, -, h⟩ := exists_of_bind h
    cases h
    exact (Expr.eq_of_render_isNamed (hcounts.starts _ rfl) hname)
  · rename_i hdeclaration hassignment
    cases h
    obtain _ | i := init
    · exact hcounts.found rfl
    · cases i with
      | declaration d => exact absurd rfl (hdeclaration d)
      | assignment a => exact absurd rfl (hassignment a)
      | unsupported kind => cases hcounts.starts _ rfl

/-- A last value that stops before a bound shows the bound. -/
theorem stands_endBefore (hs : s.style ∈ Style.catalogue) {bound step : Expr}
    (hbound : bound.WellFormed .lexical) (hn : bound.Shows n) {op : BinaryOp} {last : String}
    (h : s.endBefore op bound step = .ok last) : Stands n last := by
  unfold endBefore at h
  obtain ⟨_, hnone, h⟩ := exists_of_bind h
  cases hn.numericValue.symm.trans hnone
  obtain ⟨value, -, h⟩ := exists_of_bind h
  obtain ⟨text, htext, h⟩ := exists_of_bind h
  obtain ⟨stepText, -, h⟩ := exists_of_bind h
  cases h
  refine (stands_of_shows hs hbound hn htext).trans ?_
  rw [String.append_assoc]
  refine .before ?_
  split <;> decide

/-- The last value shows the bound. -/
theorem stands_loopEnd (hs : s.style ∈ Style.catalogue) {op : BinaryOp} {bound step : Expr}
    (hbound : loopBound? test v = some (op, bound)) (hop : op ≠ .eq)
    (hwell : bound.WellFormed .lexical) (hn : bound.Shows n) {direction : Direction}
    {last : String × Direction} (h : s.loopEnd test v step direction = .ok last) :
    Stands n last.1 := by
  unfold loopEnd at h
  rw [hbound] at h
  dsimp only at h
  split at h
  · exact absurd rfl hop
  · obtain ⟨text, htext, h⟩ := exists_of_bind h
    cases h
    exact stands_of_shows hs hwell hn htext
  · obtain ⟨text, htext, h⟩ := exists_of_bind h
    cases h
    exact stands_of_shows hs hwell hn htext
  · obtain ⟨text, htext, h⟩ := exists_of_bind h
    cases h
    exact stands_endBefore hs hwell hn htext
  · split at h
    · obtain ⟨text, htext, h⟩ := exists_of_bind h
      cases h
      exact stands_endBefore hs hwell hn htext
    · obtain ⟨text, htext, h⟩ := exists_of_bind h
      cases h
      exact stands_endBefore hs hwell hn htext
  · obtain ⟨text, htext, h⟩ := exists_of_bind h
    cases h
    exact stands_endBefore hs hwell hn htext

/-- The header of a loop that counts shows every word that the test and the update show. -/
theorem stands_countingHeader (hs : s.style ∈ Style.catalogue)
    (htest : ∀ e ∈ test, e.WellFormed .lexical) (hupdate : ∀ u ∈ update, u.WellFormed .lexical)
    (hcounts : CountsWith v init test update) {p : Pos} {header : String}
    (h : s.countingHeader p init test update = .ok header)
    (hn : (∃ e ∈ test, e.Shows n) ∨ ∃ u ∈ update, u.Shows n) : Stands n header := by
  unfold countingHeader at h
  obtain ⟨⟨name, start⟩, hstart, h⟩ := exists_of_bind h
  obtain rfl : name = v := loopStart_eq hcounts hstart
  obtain ⟨step, direction₀, hstep⟩ : ∃ step direction, loopStep p update name = (step, direction) :=
    ⟨_, _, rfl⟩
  dsimp only at h
  rw [hstep] at h
  obtain ⟨⟨last, direction⟩, hlast, h⟩ := exists_of_bind h
  obtain ⟨stepValue, hvalue, h⟩ := exists_of_bind h
  have hwhere : Stands n (name ++ " from " ++ start ++ " " ++ direction.word ++ " " ++ last) ∨
      step.Shows n := by
    have hfirst : Stands name
        (name ++ " from " ++ start ++ " " ++ direction.word ++ " " ++ last) := by
      simp only [String.append_assoc]
      exact .before (by decide)
    rcases hn with ⟨e, he, hn⟩ | ⟨u, hu, hn⟩
    · rcases hn.of_bounds (hcounts.bounded e he) with rfl | ⟨op, bound, hbound, hop, hn⟩
      · exact .inl hfirst
      · obtain rfl := Option.mem_def.mp he
        have hwell := loopBound?_wellFormed htest hbound
        exact .inl ((stands_loopEnd hs hbound hop hwell hn hlast).trans
          (.behind (by decide)))
    · obtain rfl := Option.mem_def.mp hu
      rcases hn.of_shifts (hcounts.shifted u hu) p with rfl | hn
      · exact .inl hfirst
      · rw [hstep] at hn
        exact .inr hn
  have hname : Token.isLexeme .identifier n = true := by
    rcases hn with ⟨e, he, hn⟩ | ⟨u, hu, d, hd, hn⟩
    · exact hn.isLexeme (htest e he)
    · exact hn.isLexeme ((hupdate u hu).of_mem_operands hd)
  split at h
  · rename_i hone
    obtain rfl := Except.ok.inj h
    rcases hwhere with hn | hn
    · exact hn.trim hname
    · -- a number shows no words
      rw [hn.numericValue, hone] at hvalue
      exact absurd (Except.ok.inj hvalue) (by simp)
  · obtain ⟨stepText, hstepText, h⟩ := exists_of_bind h
    obtain rfl := Except.ok.inj h
    refine Stands.trim hname ?_
    rcases hwhere with hn | hn
    · have hfront : ∀ header, Stands header (header ++ " step " ++ stepText) := by
        intro header
        rw [String.append_assoc]
        exact .before (by decide)
      exact hn.trans (hfront _)
    · have hwell : (loopStep p update name).1.WellFormed .lexical := loopStep_wellFormed hupdate p _
      rw [hstep] at hwell
      refine (stands_of_shows hs hwell hn hstepText).trans ?_
      exact .behind (by decide)

/-! ## What the header leaves out -/

/-- An update that multiplies or divides is written like a change by one. -/
theorem forHead_of_scaling {op : AssignOp} (hop : op ∈ [AssignOp.mul, .div, .rem]) (p q q' : Pos)
    (init : Option ForInit) (test : Option Expr) (target value : Expr)
    (hfamily : s.style.keywords.loopFamily = true) :
    s.forHead p init test (some (.expression (.assign q target op value))) =
      s.forHead p init test (some (.update ⟨q', target, .increment⟩)) := by
  unfold forHead
  rw [if_pos hfamily, if_pos hfamily]
  simp only [List.mem_cons, List.not_mem_nil, or_false] at hop
  rcases hop with rfl | rfl | rfl <;> rfl

/-- A test that is no comparison is left out, and so is one for equality if the loop starts with
a value. -/
theorem forHead_of_unbounded {e : Expr} (p : Pos) {init : Option ForInit}
    (hsupported : ∀ kind, init ≠ some (.unsupported kind)) (update : Option ForUpdate)
    (hfamily : s.style.keywords.loopFamily = true)
    (he : e.isRelational = false ∨ init ≠ none ∧ ∃ q l r, e = .binary q .eq l r) :
    s.forHead p init (some e) update = s.forHead p init none update := by
  have hend : ∀ name step direction,
      s.loopEnd (some e) name step direction = s.loopEnd none name step direction := by
    intro name step direction
    rcases he with he | ⟨-, q, l, r, rfl⟩
    · have hnone : loopBound? (some e) name = none := by
        cases e with
        | binary q op l r => simp [loopBound?, show op.isRelational = false from he]
        | _ => rfl
      unfold loopEnd
      rw [hnone]
      rfl
    · obtain ⟨bound, hbound⟩ : ∃ bound,
          loopBound? (some (.binary q .eq l r)) name = some (.eq, bound) := by
        cases hside : !l.isNamed name && r.isNamed name with
        | true => exact ⟨l, by simp only [loopBound?, hside]; rfl⟩
        | false => exact ⟨r, by simp only [loopBound?, hside]; rfl⟩
      unfold loopEnd
      rw [hbound]
      rfl
  have hstart : s.loopStart init (some e) update = s.loopStart init none update := by
    rcases he with he | ⟨hinit, -⟩
    · have hsides : e.comparedSides = [] := by
        cases e with
        | binary q op l r => simp [Expr.comparedSides, show op.isRelational = false from he]
        | _ => rfl
      have hvariable : loopVariable (some e) update = loopVariable none update := by
        unfold loopVariable
        rw [Option.elim_some, Option.elim_none, hsides]
      unfold loopStart
      rw [hvariable]
    · obtain _ | i := init
      · exact absurd rfl hinit
      · cases i with
        | unsupported kind => exact absurd rfl (hsupported kind)
        | _ => rfl
  unfold forHead
  rw [if_pos hfamily, if_pos hfamily]
  unfold countingHeader
  rw [hstart]
  simp only [hend]

end Setting

/-! ## Programs -/

theorem Stmt.WellFormed.of_mem_children {V : Vocabulary} {s c : Stmt} (hs : s.WellFormed V)
    (hc : c ∈ s.children) : c.WellFormed V := by
  cases s <;> simp only [children, WellFormed, allWellFormed_iff, optionWellFormed_iff,
    List.mem_cons, List.not_mem_nil, or_false, Option.mem_toList] at hs hc <;> grind

/-- The statements inside a well-formed one are well formed. -/
theorem Stmt.WellFormed.of_mem_parts {V : Vocabulary} {s d : Stmt} (hs : s.WellFormed V)
    (hd : d ∈ s.parts) : d.WellFormed V := by
  have hstep : ∀ s : Stmt, (∀ c ∈ s.children, c.WellFormed V → d ∈ c.parts → d.WellFormed V) →
      s.WellFormed V → d ∈ s.parts → d.WellFormed V := by
    intro s ih hs hd
    rw [parts_eq] at hd
    rcases List.mem_cons.mp hd with rfl | hd
    · exact hs
    · obtain ⟨c, hc, hd⟩ := List.mem_flatMap.mp hd
      exact ih c hc (hs.of_mem_children hc) hd
  induction s with
  | block p body ih => exact hstep (.block p body) ih hs hd
  | ifElse p test consequent alternate ihc iha =>
    refine hstep _ ?_ hs hd
    intro c hc
    rcases List.mem_cons.mp hc with rfl | hc
    · exact ihc
    · exact iha c (Option.mem_toList.mp hc)
  | whileLoop p test body ih | doWhileLoop p body test ih | forLoop p init test step body ih =>
    refine hstep _ ?_ hs hd
    intro c hc
    obtain rfl := List.mem_singleton.mp hc
    exact ih
  | _ => exact hstep _ (by simp [children]) hs hd

/-- **Counting headers.**  Take a loop of a program that was read from a text, and a style with a
single loop word.  If the loop counts with a variable, its header shows every word of the test and
of the update that expressions show at all.  If not, the header may leave out something: an update
that multiplies or divides is written like `++`, and a test that is no comparison, or one for
equality behind a first value, like no test. -/
theorem Program.forHead_shows {text : String} {tokens : List Token} {program : Program}
    (htokens : tokenize text = .ok tokens) (hprogram : ofTokens tokens = .ok program) {p : Pos}
    {init : Option ForInit} {test : Option Expr} {update : Option ForUpdate} {body : Stmt}
    (hloop : .forLoop p init test update body ∈ program.body.flatMap Stmt.parts) {style : Style}
    (hstyle : style ∈ Style.catalogue) (hfamily : style.keywords.loopFamily = true)
    (types : TypeTable) :
    ∃ head, Setting.forHead ⟨style, types⟩ p init test update = .ok head ∧
      (∀ v, CountsWith v init test update → ∀ n,
        ((∃ e ∈ test, e.Shows n) ∨ ∃ u ∈ update, u.Shows n) → Stands n head) ∧
      (∀ q target op value, update = some (.expression (.assign q target op value)) →
        op ∈ [AssignOp.mul, .div, .rem] → ∀ q', Setting.forHead ⟨style, types⟩ p init test
          (some (.update ⟨q', target, .increment⟩)) = .ok head) ∧
      ∀ e, test = some e →
        (e.isRelational = false ∨ init ≠ none ∧ ∃ q l r, e = .binary q .eq l r) →
        Setting.forHead ⟨style, types⟩ p init none update = .ok head := by
  have hwell := wellFormed_of_admits (Token.scan_admits htokens) hprogram
  obtain ⟨stmt, hstmt, hparts⟩ := List.mem_flatMap.mp hloop
  obtain ⟨hinit, htest, hupdate, -⟩ := (hwell stmt hstmt).of_mem_parts hparts
  obtain ⟨head, hhead⟩ := Setting.forHead_yields (s := ⟨style, types⟩)
    (Style.isSound_of_mem hstyle) p hinit htest hupdate
  refine ⟨head, hhead, ?_, ?_, ?_⟩
  · intro v hcounts n hn
    unfold Setting.forHead at hhead
    rw [if_pos hfamily] at hhead
    obtain ⟨header, hheader, hhead⟩ := exists_of_bind hhead
    cases hhead
    exact (Setting.stands_countingHeader hstyle htest hupdate hcounts hheader hn).trans
      (.behind (by decide))
  · rintro q target op value rfl hop q'
    rw [← hhead]
    exact (Setting.forHead_of_scaling hop p q q' init test target value hfamily).symm
  · rintro e rfl he
    rw [← hhead]
    refine (Setting.forHead_of_unbounded p ?_ update hfamily he).symm
    rintro kind rfl
    exact hinit _ rfl

/-- A loop that counts down by an amount, with a bound that is computed. -/
def countdown : String :=
  "for (int i = n; i > a[m]; i -= k) \x7b \x7d"

/-- Its tokens. -/
def countdownTokens : List Token :=
  [⟨.keyword, "for", ⟨1, 1⟩⟩, ⟨.paren, "(", ⟨1, 5⟩⟩, ⟨.keyword, "int", ⟨1, 6⟩⟩,
    ⟨.identifier, "i", ⟨1, 10⟩⟩, ⟨.operator, "=", ⟨1, 12⟩⟩, ⟨.identifier, "n", ⟨1, 14⟩⟩,
    ⟨.semicolon, ";", ⟨1, 15⟩⟩, ⟨.identifier, "i", ⟨1, 17⟩⟩, ⟨.operator, ">", ⟨1, 19⟩⟩,
    ⟨.identifier, "a", ⟨1, 21⟩⟩, ⟨.bracket, "[", ⟨1, 22⟩⟩, ⟨.identifier, "m", ⟨1, 23⟩⟩,
    ⟨.bracket, "]", ⟨1, 24⟩⟩, ⟨.semicolon, ";", ⟨1, 25⟩⟩, ⟨.identifier, "i", ⟨1, 27⟩⟩,
    ⟨.operator, "-=", ⟨1, 29⟩⟩, ⟨.identifier, "k", ⟨1, 32⟩⟩, ⟨.paren, ")", ⟨1, 33⟩⟩,
    ⟨.brace, "\x7b", ⟨1, 35⟩⟩, ⟨.brace, "\x7d", ⟨1, 37⟩⟩, ⟨.eof, "", ⟨1, 38⟩⟩]

theorem tokenize_countdown : tokenize countdown = .ok countdownTokens :=
  tokenize_of_toOption (by decide +kernel)

/-- The loop that they spell. -/
def countdownInit : ForInit :=
  .declaration ⟨⟨1, 6⟩, "i", "int", 0, some (.name ⟨1, 14⟩ "n")⟩

/-- Its test. -/
def countdownTest : Expr :=
  .binary ⟨1, 17⟩ .gt (.name ⟨1, 17⟩ "i") (.index ⟨1, 21⟩ (.name ⟨1, 21⟩ "a") [.name ⟨1, 23⟩ "m"])

/-- Its update. -/
def countdownUpdate : ForUpdate :=
  .expression (.assign ⟨1, 27⟩ (.name ⟨1, 27⟩ "i") .sub (.name ⟨1, 32⟩ "k"))

theorem Program.forHead_shows_countdown :
    ∃ head, Setting.forHead ⟨.looping "sc-03" false Style.removal, .empty⟩ ⟨1, 1⟩ countdownInit
        countdownTest countdownUpdate = .ok head ∧
      CountsWith "i" countdownInit countdownTest countdownUpdate ∧
      Stands "m" head ∧ Stands "k" head := by
  have hloop : .forLoop ⟨1, 1⟩ countdownInit countdownTest countdownUpdate (.block ⟨1, 35⟩ []) ∈
      [Stmt.forLoop ⟨1, 1⟩ countdownInit countdownTest countdownUpdate
        (.block ⟨1, 35⟩ [])].flatMap Stmt.parts :=
    List.mem_cons_self
  have hcounts : CountsWith "i" countdownInit countdownTest countdownUpdate :=
    ⟨by rintro _ ⟨⟩; rfl, by simp, by rintro _ ⟨⟩; rfl, by rintro _ ⟨⟩; rfl⟩
  have hm : countdownTest.Shows "m" :=
    .child (List.mem_cons_of_mem _ List.mem_cons_self)
      (.child (List.mem_cons_of_mem _ List.mem_cons_self) (.own List.mem_cons_self))
  have hk : countdownUpdate.Shows "k" :=
    ⟨_, List.mem_cons_self,
      .child (List.mem_cons_of_mem _ List.mem_cons_self) (.own List.mem_cons_self)⟩
  obtain ⟨head, hhead, hshows, -⟩ := forHead_shows tokenize_countdown rfl hloop
    (by decide : Style.looping "sc-03" false Style.removal ∈ Style.catalogue) rfl .empty
  exact ⟨head, hhead, hcounts, hshows "i" hcounts "m" (.inl ⟨_, rfl, hm⟩),
    hshows "i" hcounts "k" (.inr ⟨_, rfl, hk⟩)⟩

/-- A loop with a second condition. -/
def guardedLoop : String :=
  "for (int i = 0; i < n && ok; i++) \x7b \x7d"

/-- Its tokens. -/
def guardedLoopTokens : List Token :=
  [⟨.keyword, "for", ⟨1, 1⟩⟩, ⟨.paren, "(", ⟨1, 5⟩⟩, ⟨.keyword, "int", ⟨1, 6⟩⟩,
    ⟨.identifier, "i", ⟨1, 10⟩⟩, ⟨.operator, "=", ⟨1, 12⟩⟩, ⟨.number, "0", ⟨1, 14⟩⟩,
    ⟨.semicolon, ";", ⟨1, 15⟩⟩, ⟨.identifier, "i", ⟨1, 17⟩⟩, ⟨.operator, "<", ⟨1, 19⟩⟩,
    ⟨.identifier, "n", ⟨1, 21⟩⟩, ⟨.operator, "&&", ⟨1, 23⟩⟩, ⟨.identifier, "ok", ⟨1, 26⟩⟩,
    ⟨.semicolon, ";", ⟨1, 28⟩⟩, ⟨.identifier, "i", ⟨1, 30⟩⟩, ⟨.operator, "++", ⟨1, 31⟩⟩,
    ⟨.paren, ")", ⟨1, 33⟩⟩, ⟨.brace, "\x7b", ⟨1, 35⟩⟩, ⟨.brace, "\x7d", ⟨1, 37⟩⟩,
    ⟨.eof, "", ⟨1, 38⟩⟩]

/-- A loop whose variable is doubled. -/
def doublingLoop : String :=
  "for (int i = 1; i < n; i *= 2) \x7b \x7d"

/-- Its tokens. -/
def doublingLoopTokens : List Token :=
  [⟨.keyword, "for", ⟨1, 1⟩⟩, ⟨.paren, "(", ⟨1, 5⟩⟩, ⟨.keyword, "int", ⟨1, 6⟩⟩,
    ⟨.identifier, "i", ⟨1, 10⟩⟩, ⟨.operator, "=", ⟨1, 12⟩⟩, ⟨.number, "1", ⟨1, 14⟩⟩,
    ⟨.semicolon, ";", ⟨1, 15⟩⟩, ⟨.identifier, "i", ⟨1, 17⟩⟩, ⟨.operator, "<", ⟨1, 19⟩⟩,
    ⟨.identifier, "n", ⟨1, 21⟩⟩, ⟨.semicolon, ";", ⟨1, 22⟩⟩, ⟨.identifier, "i", ⟨1, 24⟩⟩,
    ⟨.operator, "*=", ⟨1, 26⟩⟩, ⟨.number, "2", ⟨1, 29⟩⟩, ⟨.paren, ")", ⟨1, 30⟩⟩,
    ⟨.brace, "\x7b", ⟨1, 32⟩⟩, ⟨.brace, "\x7d", ⟨1, 34⟩⟩, ⟨.eof, "", ⟨1, 35⟩⟩]

theorem tokenize_guardedLoop : tokenize guardedLoop = .ok guardedLoopTokens :=
  tokenize_of_toOption (by decide +kernel)

theorem tokenize_doublingLoop : tokenize doublingLoop = .ok doublingLoopTokens :=
  tokenize_of_toOption (by decide +kernel)

theorem Text.Stands.subset {part text : String} (h : Stands part text) :
    part.toList ⊆ text.toList := by
  obtain ⟨before, after, rfl, -⟩ := h
  simp

/-- The header of the first loop names neither the bound nor the second condition, and that of the
second loop is the one with `++`. -/
theorem forHead_leaves_out :
    (∃ test update, tokenize guardedLoop = .ok guardedLoopTokens ∧
      Program.ofTokens guardedLoopTokens = .ok ⟨⟨1, 1⟩, [.forLoop ⟨1, 1⟩
        (some (.declaration ⟨⟨1, 6⟩, "i", "int", 0, some (.literal ⟨1, 14⟩ "0")⟩)) (some test)
        update (.block ⟨1, 35⟩ [])]⟩ ∧ test.Shows "n" ∧
      ∃ head, Setting.forHead ⟨.looping "sc-03" false Style.removal, .empty⟩ ⟨1, 1⟩
        (some (.declaration ⟨⟨1, 6⟩, "i", "int", 0, some (.literal ⟨1, 14⟩ "0")⟩)) (some test)
        update = .ok head ∧ ¬ Stands "n" head) ∧
    ∃ init test target value, tokenize doublingLoop = .ok doublingLoopTokens ∧
      Program.ofTokens doublingLoopTokens = .ok ⟨⟨1, 1⟩, [.forLoop ⟨1, 1⟩ init test
        (some (.expression (.assign ⟨1, 24⟩ target .mul value))) (.block ⟨1, 32⟩ [])]⟩ ∧
      Setting.forHead ⟨.looping "sc-03" false Style.removal, .empty⟩ ⟨1, 1⟩ init test
          (some (.expression (.assign ⟨1, 24⟩ target .mul value))) =
        Setting.forHead ⟨.looping "sc-03" false Style.removal, .empty⟩ ⟨1, 1⟩ init test
          (some (.update ⟨⟨1, 24⟩, target, .increment⟩)) := by
  refine ⟨⟨_, _, tokenize_guardedLoop, rfl, ?_, "loop i from 0 to", rfl, ?_⟩,
    _, _, _, _, tokenize_doublingLoop, rfl, rfl⟩
  · exact .child List.mem_cons_self
      (.child (List.mem_cons_of_mem _ List.mem_cons_self) (.own List.mem_cons_self))
  · intro h
    have hmem : 'n' ∈ "loop i from 0 to".toList := h.subset (by decide)
    exact absurd hmem (by decide)

end Pseudocode
