import Pseudocode.Proofs.Loop.Counting
import Pseudocode.Proofs.Render.Edges
import Pseudocode.Proofs.Render.Spots
set_option autoImplicit false

/-!
# The course of a loop

A counting header has the variable of a loop and its first value, and behind them the course that
the loop takes: its direction, its last value and its step.  From this it can be seen whether two
headers are the same.
-/

namespace Pseudocode

open Text (Framed Opens Closes isBlank dropBlanks)

theorem Both.ensure {ε α β : Type} {R : α → β → Prop} {P : α → Prop} {Q : β → Prop}
    {x : Except ε α} {y : Except ε β} (h : Both R x y) (hx : Ensures P x) (hy : Ensures Q y) :
    Both (fun a b => R a b ∧ P a ∧ Q b) x y := by
  obtain ⟨a, b, rfl, rfl, hab⟩ := h
  exact .ok ⟨hab, hx a rfl, hy b rfl⟩

/-! ## The last value -/

namespace BinaryOp

/-- A loop that is tested with the operator reaches its bound. -/
def reaches (op : BinaryOp) : Bool :=
  op == .le || op == .ge

/-- The direction of a loop that is tested with the operator. -/
def turns (op : BinaryOp) (direction : Direction) : Direction :=
  if op == .ge || op == .gt then .down else direction

/-- The side on which such a loop stops before a bound that it does not reach. -/
def stops (op : BinaryOp) (direction : Direction) : BinaryOp :=
  if op == .gt || op == .ne && direction == .down then .gt else .lt

theorem stops_eq_of_turns {op : BinaryOp} {d d' : Direction} (h : op.turns d = op.turns d') :
    op.stops d = op.stops d' := by
  cases op with
  | ne =>
    obtain rfl : d = d' := h
    rfl
  | _ => rfl

end BinaryOp

namespace Setting

variable {s : Setting} {test : Option Expr} {name : String} {same : Prop}

/-- Without a bound, or with a test for equality, there is no last value. -/
theorem loopEnd_of_no_bound (h : ∀ b ∈ loopBound? test name, b.1 = .eq) (step : Expr)
    (direction : Direction) : s.loopEnd test name step direction = .ok ("", direction) := by
  unfold loopEnd
  split
  · rfl
  · rename_i op bound hbound
    obtain rfl : op = .eq := h _ hbound
    rfl

/-- The last value of a loop that has a bound: the bound, or a value before it. -/
def lastValue (s : Setting) (op : BinaryOp) (bound step : Expr) (direction : Direction) :
    Except RenderError String :=
  if op.reaches then s.render .whole bound else s.endBefore (op.stops direction) bound step

theorem lastValue_yields (hs : s.style ∈ Style.catalogue) {bound step : Expr}
    (hbound : bound.WellFormed .lexical) (hstep : step.WellFormed .lexical) (op : BinaryOp)
    (direction : Direction) : Yields (s.lastValue op bound step direction) := by
  unfold lastValue
  split
  · exact render_yields (Style.isSound_of_mem hs) hbound .whole
  · exact endBefore_yields (Style.isSound_of_mem hs) hbound hstep _

theorem lastValue_of_turns {op : BinaryOp} {d d' : Direction} (h : op.turns d = op.turns d')
    (bound step : Expr) : s.lastValue op bound step d = s.lastValue op bound step d' := by
  rw [lastValue, lastValue, BinaryOp.stops_eq_of_turns h]

theorem loopEnd_of_bound {op : BinaryOp} {bound : Expr}
    (h : loopBound? test name = some (op, bound)) (hop : op ≠ .eq) (step : Expr)
    (direction : Direction) : s.loopEnd test name step direction = (do
      let last ← s.lastValue op bound step direction
      return (last, op.turns direction)) := by
  unfold loopEnd
  rw [h]
  cases op with
  | eq => exact absurd rfl hop
  | ne => cases direction <;> rfl
  | _ => rfl

/-- A loop has no last value, or it has one from its bound. -/
theorem bound_cases (test : Option Expr) (name : String) :
    (∀ b ∈ loopBound? test name, b.1 = .eq) ∨
      ∃ op bound, loopBound? test name = some (op, bound) ∧ op ≠ .eq := by
  cases hbound : loopBound? test name with
  | none => exact .inl (by simp)
  | some b =>
    by_cases hop : b.1 = .eq
    · exact .inl (by simpa using hop)
    · exact .inr ⟨b.1, b.2, rfl, hop⟩

/-- The last value does not end with a blank. -/
theorem endBefore_closes (hs : s.style ∈ Style.catalogue) {bound step : Expr}
    (hstep : step.WellFormed .lexical) (op : BinaryOp) :
    Ensures Closes (s.endBefore op bound step) := by
  have hwritten : Ensures Closes (s.writtenEnd op bound step) := by
    refine .after fun text => ?_
    refine (render_framed hs hstep .prefixed).bind ?_
    intro text' htext
    exact .ok (htext.closes.append _)
  refine .after fun value => .after fun value' => ?_
  split
  · split
    · exact .ok (Binary64.framed_plainText _).closes
    · exact hwritten
  · exact hwritten

theorem lastValue_closes (hs : s.style ∈ Style.catalogue) {bound step : Expr}
    (hbound : bound.WellFormed .lexical) (hstep : step.WellFormed .lexical) (op : BinaryOp)
    (direction : Direction) : Ensures Closes (s.lastValue op bound step direction) := by
  unfold lastValue
  split
  · exact (render_framed hs hbound .whole).mono fun text h => h.closes
  · exact endBefore_closes hs hstep _

theorem loopEnd_closes (hs : s.style ∈ Style.catalogue) {step : Expr}
    (htest : ∀ e ∈ test, e.WellFormed .lexical) (hstep : step.WellFormed .lexical)
    (name : String) (direction : Direction) :
    Ensures (fun last => last.1 = "" ∨ Closes last.1) (s.loopEnd test name step direction) := by
  rcases bound_cases test name with hnone | ⟨op, bound, hbound, hop⟩
  · rw [loopEnd_of_no_bound hnone]
    exact .ok (.inl rfl)
  · rw [loopEnd_of_bound hbound hop]
    refine (lastValue_closes hs (loopBound?_wellFormed htest hbound) hstep op direction).bind ?_
    intro last hlast
    exact .ok (.inr hlast)

/-- If one of the two is no number, the last value is not worked out. -/
theorem endBefore_eq_writtenEnd {bound step : Expr} (hbound : bound.WellFormed .lexical)
    (hstep : step.WellFormed .lexical)
    (h : bound.numericValue = .ok none ∨ step.numericValue = .ok none) (op : BinaryOp) :
    s.endBefore op bound step = s.writtenEnd op bound step := by
  obtain ⟨b, hb⟩ := Expr.numericValue_yields hbound
  obtain ⟨d, hd⟩ := Expr.numericValue_yields hstep
  unfold endBefore
  rw [hb, hd]
  rcases h with h | h
  · obtain rfl := Except.ok.inj (hb.symm.trans h)
    rfl
  · obtain rfl := Except.ok.inj (hd.symm.trans h)
    cases b <;> rfl

/-- Two bounds that are no numbers. -/
theorem loopEnd_of_bounds (hs : s.style ∈ Style.catalogue) {test' : Option Expr} {op : BinaryOp}
    {bound bound' step : Expr} (hop : op ≠ .eq) (h : loopBound? test name = some (op, bound))
    (h' : loopBound? test' name = some (op, bound')) (hwell : bound.WellFormed .lexical)
    (hwell' : bound'.WellFormed .lexical) (hnumber : bound.numericValue = .ok none)
    (hnumber' : bound'.numericValue = .ok none) (hstep : step.WellFormed .lexical)
    (direction : Direction)
    (hbound : TellsApart same (s.render .whole bound) (s.render .whole bound')) :
    Both (fun l l' => l.2 = l'.2 ∧ (l.1 = l'.1 ↔ same)) (s.loopEnd test name step direction)
      (s.loopEnd test' name step direction) := by
  rw [loopEnd_of_bound h hop, loopEnd_of_bound h' hop]
  have hlast : TellsApart same (s.lastValue op bound step direction)
      (s.lastValue op bound' step direction) := by
    unfold lastValue
    split
    · exact hbound
    · rw [endBefore_eq_writtenEnd hwell hstep (.inl hnumber),
        endBefore_eq_writtenEnd hwell' hstep (.inl hnumber')]
      refine hbound.bind fun a b hab => ?_
      refine .same (render_yields (Style.isSound_of_mem hs) hstep .prefixed) fun text => .ok ?_
      simp [hab]
  exact hlast.bind fun a b hab => .ok ⟨rfl, hab⟩

/-- A step that is no number stands at the end of the last value, or it is not written there. -/
theorem loopEnd_of_no_number (hs : s.style ∈ Style.catalogue)
    (htest : ∀ e ∈ test, e.WellFormed .lexical) (name : String) (direction : Direction) :
    ∃ (front : String) (strict : Bool) (direction' : Direction), ∀ {step : Expr} {text : String},
      step.WellFormed .lexical → step.numericValue = .ok none →
      s.render .prefixed step = .ok text → s.loopEnd test name step direction =
        .ok (if strict then front ++ text else front, direction') := by
  rcases bound_cases test name with hnone | ⟨op, bound, hbound, hop⟩
  · exact ⟨"", false, direction, fun {step text} _ _ _ => loopEnd_of_no_bound hnone step direction⟩
  · have hwell := loopBound?_wellFormed htest hbound
    obtain ⟨front, hfront⟩ := render_yields (Style.isSound_of_mem hs) hwell .whole
    cases hreaches : op.reaches with
    | true =>
      refine ⟨front, false, op.turns direction, fun {step text} _ _ _ => ?_⟩
      rw [loopEnd_of_bound hbound hop, lastValue, hreaches, if_pos rfl, hfront]
      rfl
    | false =>
      refine ⟨front ++ if op.stops direction = .lt then " - " else " + ", true,
        op.turns direction, fun {step text} hstep hnumber htext => ?_⟩
      rw [loopEnd_of_bound hbound hop, lastValue, hreaches, if_neg (by simp),
        endBefore_eq_writtenEnd hwell hstep (.inr hnumber), writtenEnd, hfront, htext]
      rfl

end Setting

/-! ## The text of a header -/

namespace Setting

variable {s : Setting}

/-- The direction of a loop, and what the header has behind it: the last value and the step. -/
def course (s : Setting) (test : Option Expr) (name : String) (step : Expr × Direction) :
    Except RenderError (Direction × String) := do
  let last ← s.loopEnd test name step.1 step.2
  let stepValue ← step.1.numericValue
  if stepValue = some (.ofNat 1) then
    return (last.2, last.1)
  else
    let text ← s.render .whole step.1
    return (last.2, last.1 ++ " step " ++ text)

/-- The header of a loop with the given variable, first value and course. -/
def headerText (start : String × String) (course : Direction × String) : String :=
  Text.trim (start.1 ++ " from " ++ start.2 ++ " " ++ (course.1.word ++ " " ++ course.2))

theorem countingHeader_eq (p : Pos) (init : Option ForInit) (test : Option Expr)
    (update : Option ForUpdate) : s.countingHeader p init test update = (do
      let start ← s.loopStart init test update
      let course ← s.course test start.1 (loopStep p update start.1)
      return headerText start course) := by
  unfold countingHeader course headerText
  cases s.loopStart init test update with
  | error e => rfl
  | ok start =>
    obtain ⟨name, first⟩ := start
    obtain ⟨step, direction, hstep⟩ :
        ∃ step direction, loopStep p update name = (step, direction) := ⟨_, _, rfl⟩
    simp only [bind, Except.bind, hstep]
    cases s.loopEnd test name step direction with
    | error e => rfl
    | ok last =>
      cases step.numericValue with
      | error e => rfl
      | ok value =>
        dsimp only
        split
        · simp [String.append_assoc, pure, Except.pure]
        · cases s.render .whole step with
          | error e => rfl
          | ok text => simp [String.append_assoc, pure, Except.pure]

/-- Trimming takes nothing from the middle of a header. -/
theorem toList_headerText (start : String × String) (course : Direction × String) :
    (headerText start course).toList = dropBlanks (start.1 ++ " from " ++ start.2).toList ++
      (dropBlanks (" " ++ (course.1.word ++ " " ++ course.2)).toList.reverse).reverse := by
  have hfront : ∃ c ∈ (start.1 ++ " from " ++ start.2).toList, isBlank c = false :=
    ⟨'f', by simp, by decide⟩
  have hback : ∃ c ∈ (" " ++ (course.1.word ++ " " ++ course.2)).toList, isBlank c = false := by
    refine ⟨'o', ?_, by decide⟩
    cases course.1 <;> simp [Direction.word]
  have hassoc : start.1 ++ " from " ++ start.2 ++ " " ++ (course.1.word ++ " " ++ course.2) =
      start.1 ++ " from " ++ start.2 ++ (" " ++ (course.1.word ++ " " ++ course.2)) :=
    String.append_assoc
  rw [headerText, hassoc, Text.toList_trim_append hfront hback]

/-- On the same course the headers differ in the variable or in the first value. -/
theorem headerText_start_inj {start start' : String × String} (h : Opens start.1)
    (h' : Opens start'.1) (course : Direction × String) :
    headerText start course = headerText start' course ↔
      start.1 ++ " from " ++ start.2 = start'.1 ++ " from " ++ start'.2 := by
  have hopens : ∀ {start : String × String}, Opens start.1 →
      Opens (start.1 ++ " from " ++ start.2) := fun hstart => (hstart.append _).append _
  rw [← String.toList_inj, toList_headerText, toList_headerText, (hopens h).dropBlanks,
    (hopens h').dropBlanks, List.append_left_inj, String.toList_inj]

/-- From the same start the headers differ in the course. -/
theorem headerText_course_inj {start : String × String} {course course' : Direction × String}
    (h : course.2 = "" ∨ Closes course.2) (h' : course'.2 = "" ∨ Closes course'.2) :
    headerText start course = headerText start course' ↔ course = course' := by
  -- Without a last value the header ends with the direction, and the blank behind it is trimmed.
  have htrimmed : ∀ {c : Direction × String}, c.2 = "" ∨ Closes c.2 →
      (dropBlanks (" " ++ (c.1.word ++ " " ++ c.2)).toList.reverse).reverse =
        ' ' :: (c.1.word.toList ++ if c.2 = "" then [] else ' ' :: c.2.toList) := by
    intro c hc
    rcases hc with hc | hc
    · rw [hc]
      cases c.1 <;> decide
    · have hne : c.2 ≠ "" := by
        intro hempty
        obtain ⟨d, hd, -⟩ := hc
        simp [hempty] at hd
      rw [((hc.append (c.1.word ++ " ")).append " ").dropBlanks, if_neg hne]
      simp
  constructor
  · intro heq
    have hlists := congrArg String.toList heq
    rw [toList_headerText, toList_headerText, htrimmed h, htrimmed h', List.append_right_inj,
      List.cons_inj_right] at hlists
    obtain ⟨direction, rest⟩ := course
    obtain ⟨direction', rest'⟩ := course'
    have hdirection : direction = direction' := by
      cases direction <;> cases direction' <;> simp [Direction.word] at hlists ⊢
    subst hdirection
    have hrest := List.append_cancel_left hlists
    dsimp only at hrest
    split at hrest <;> split at hrest <;> simp_all [String.toList_inj]
  · rintro rfl
    rfl

theorem course_yields (hs : s.style.isSound = true) {test : Option Expr} {step : Expr × Direction}
    (htest : ∀ e ∈ test, e.WellFormed .lexical) (hstep : step.1.WellFormed .lexical)
    (name : String) : Yields (s.course test name step) := by
  refine (loopEnd_yields hs htest hstep name step.2).bind fun last => ?_
  refine (Expr.numericValue_yields hstep).bind fun value => ?_
  split
  · exact .ok _
  · exact (render_yields hs hstep .whole).bind fun text => .ok _

/-- What stands behind the direction does not end with a blank. -/
theorem course_closes (hs : s.style ∈ Style.catalogue) {test : Option Expr}
    {step : Expr × Direction} (htest : ∀ e ∈ test, e.WellFormed .lexical)
    (hstep : step.1.WellFormed .lexical) (name : String) :
    Ensures (fun c => c.2 = "" ∨ Closes c.2) (s.course test name step) := by
  refine (loopEnd_closes hs htest hstep name step.2).bind ?_
  intro last hlast
  refine .after fun value => ?_
  split
  · exact .ok hlast
  · refine (render_framed hs hstep .whole).bind ?_
    intro text htext
    exact .ok (.inr (htext.closes.append _))

end Setting

/-! ## The variable of a loop -/

/-- The variable that a loop counts with.  An element of an array is no variable. -/
def Header.counter (header : Header) : String :=
  match header.init with
  | some (.declaration d) => d.name
  | some (.assignment a) => Option.getD ( Expr.variable? a.target) ""
  | _ => loopVariable header.test header.update

/-- The same variables have the one name and the other. -/
def NamesAlike (n n' : String) : Prop :=
  ∀ e : Expr, e.WellFormed .lexical → e.isNamed n = e.isNamed n'

theorem NamesAlike.loopStep {n n' : String} (h : NamesAlike n n') {update : Option ForUpdate}
    (hupdate : ∀ u ∈ update, u.WellFormed .lexical) (p : Pos) :
    loopStep p update n = loopStep p update n' := by
  unfold Pseudocode.loopStep
  split <;> try rfl
  rename_i q target q' op left right
  obtain ⟨-, htarget, -, -, hleft, -⟩ : (Expr.assign q target .set
    (.binary q' op left right)).WellFormed .lexical := hupdate _ rfl
  rw [h target htarget, h left hleft]

theorem NamesAlike.loopBound? {n n' : String} (h : NamesAlike n n') {test : Option Expr}
    (htest : ∀ e ∈ test, e.WellFormed .lexical) : loopBound? test n = loopBound? test n' := by
  unfold Pseudocode.loopBound?
  split
  · rename_i p op left right
    obtain ⟨-, hleft, hright⟩ : (Expr.binary p op left right).WellFormed .lexical := htest _ rfl
    rw [h left hleft, h right hright]
  · rfl

theorem Expr.isLexeme_of_variable {e : Expr} {n : String} (he : e.WellFormed .lexical)
    (h : Expr.variable? e = some n) : Token.isLexeme .identifier n = true := by
  cases e with
  | name p m =>
    obtain rfl := Option.some.inj h
    rcases he with ⟨heof, -⟩ | he
    · cases heof
    · exact he
  | _ => cases h

/-- The text of an element is not the name of a variable. -/
theorem namesAlike_of_index {s : Setting} {slot : Slot} {p : Pos} {base : Expr}
    {indices : List Expr} (hne : indices ≠ []) {text : String}
    (h : s.render slot (.index p base indices) = .ok text) : NamesAlike text "" := by
  have hmem : ']' ∈ text.toList := by
    obtain ⟨index, indices, rfl⟩ := List.exists_cons_of_ne_nil hne
    rw [Setting.render_index, Setting.renderAll_cons] at h
    obtain ⟨texts, htexts, h⟩ := exists_of_bind h
    obtain ⟨first, -, htexts⟩ := exists_of_bind htexts
    obtain ⟨others, -, htexts⟩ := exists_of_bind htexts
    obtain ⟨front, -, h⟩ := exists_of_bind h
    obtain rfl := Except.ok.inj htexts
    obtain rfl := Except.ok.inj h
    simp [Text.concat, Text.subscript]
  intro e he
  cases e with
  | name q n =>
    have hne : n ≠ text := by
      rintro rfl
      cases Token.isWordPart_of_mem (Expr.isLexeme_of_variable he rfl) _ hmem
    simp [Expr.isNamed, hne]
  | _ => rfl

namespace Setting

variable {s : Setting} {header : Header}

/-- The text of the variable stands for the same variables as its name. -/
theorem loopStart_namesAlike (hinit : ∀ i ∈ header.init, i.WellFormed .lexical) :
    Ensures (fun start => NamesAlike start.1 header.counter)
      (s.loopStart header.init header.test header.update) := by
  obtain ⟨init, test, update⟩ := header
  rcases init with - | ⟨d | a | kind⟩
  · exact .ok fun e he => rfl
  · refine .after fun value => .ok fun e he => rfl
  · intro start hstart
    obtain ⟨name, hname, hstart⟩ := exists_of_bind hstart
    obtain ⟨value, -, hstart⟩ := exists_of_bind hstart
    obtain rfl := Except.ok.inj hstart
    obtain ⟨htarget, hwell, -⟩ : a.WellFormed .lexical := hinit _ rfl
    obtain ⟨q, target, op, v⟩ := a
    cases target with
    | name q n =>
      obtain rfl := Except.ok.inj hname
      exact fun e he => rfl
    | index q base indices => exact namesAlike_of_index hwell.2.1 hname
    | _ => cases htarget
  · exact (hinit _ rfl).elim

/-- The header in terms of the variable. -/
theorem countingHeader_counter (h : header.WellFormed .lexical) (p : Pos) :
    s.countingHeader p header.init header.test header.update = (do
      let start ← s.loopStart header.init header.test header.update
      let course ← s.course header.test header.counter (loopStep p header.update header.counter)
      return headerText start course) := by
  rw [countingHeader_eq]
  cases hstart : s.loopStart header.init header.test header.update with
  | error e => rfl
  | ok start =>
    have halike := loopStart_namesAlike h.init start hstart
    have hcourse : ∀ step, s.course header.test start.1 step =
        s.course header.test header.counter step := by
      intro step
      unfold course loopEnd
      rw [halike.loopBound? h.test]
    show (do
      let course ← s.course header.test start.1 (loopStep p header.update start.1)
      return headerText start course) = _
    rw [hcourse, halike.loopStep h.update p]
    rfl

variable {header' : Header} {same : Prop} {p : Pos}

/-- Without a first step the variable is all that the other two parts are looked at for. -/
theorem loopStart_eq_of_counter (hinit : header.init = header'.init)
    (hcounter : header.counter = header'.counter) :
    s.loopStart header.init header.test header.update =
      s.loopStart header'.init header'.test header'.update := by
  obtain ⟨init, test, update⟩ := header
  obtain ⟨init', test', update'⟩ := header'
  obtain rfl : init = init' := hinit
  rcases init with - | ⟨d | a | kind⟩
  · have hname : loopVariable test update = loopVariable test' update' := hcounter
    simp only [loopStart, hname]
  · rfl
  · rfl
  · have hname : loopVariable test update = loopVariable test' update' := hcounter
    simp only [loopStart, hname]

/-- Two loops on the same course. -/
theorem countingHeader_of_start (hs : s.style ∈ Style.catalogue) {init init' : Option ForInit}
    {test : Option Expr} {update : Option ForUpdate}
    (h : Header.WellFormed .lexical ⟨init, test, update⟩)
    (h' : Header.WellFormed .lexical ⟨init', test, update⟩)
    (hcounter : Header.counter ⟨init, test, update⟩ = Header.counter ⟨init', test, update⟩)
    (hstart : Both (fun a b => (a.1 ++ " from " ++ a.2 = b.1 ++ " from " ++ b.2 ↔ same) ∧
      Opens a.1 ∧ Opens b.1) (s.loopStart init test update) (s.loopStart init' test update)) :
    TellsApart same (s.countingHeader p init test update)
      (s.countingHeader p init' test update) := by
  have hsound := Style.isSound_of_mem hs
  have hyields : Yields (s.course test (Header.counter ⟨init, test, update⟩)
      (loopStep p update (Header.counter ⟨init, test, update⟩))) :=
    course_yields hsound h.test (loopStep_wellFormed h.update p _) _
  have heq : s.countingHeader p init test update = _ := countingHeader_counter h p
  have heq' : s.countingHeader p init' test update = _ := countingHeader_counter h' p
  rw [heq, heq', ← hcounter]
  refine hstart.bind ?_
  rintro a b ⟨hab, ha, hb⟩
  refine .same hyields fun c => .ok ?_
  rw [headerText_start_inj ha hb, hab]

/-- Two loops from the same start. -/
theorem countingHeader_of_course (hs : s.style ∈ Style.catalogue) (h : header.WellFormed .lexical)
    (h' : header'.WellFormed .lexical) (hinit : header.init = header'.init)
    (hcounter : header.counter = header'.counter)
    (hcourse : Both (fun c c' => c = c' ↔ same)
      (s.course header.test header.counter (loopStep p header.update header.counter))
      (s.course header'.test header.counter (loopStep p header'.update header.counter))) :
    TellsApart same (s.countingHeader p header.init header.test header.update)
      (s.countingHeader p header'.init header'.test header'.update) := by
  rw [countingHeader_counter h, countingHeader_counter h', ← hcounter,
    ← loopStart_eq_of_counter hinit hcounter]
  refine .same (loopStart_yields (Style.isSound_of_mem hs) h.init _ _) fun start => ?_
  have hcloses := course_closes hs h.test (loopStep_wellFormed h.update p header.counter)
    header.counter
  have hcloses' := course_closes hs h'.test (loopStep_wellFormed h'.update p header.counter)
    header.counter
  refine (hcourse.ensure hcloses hcloses').bind ?_
  rintro c c' ⟨hcc, hc, hc'⟩
  exact .ok (by rw [headerText_course_inj hc hc', hcc])

end Setting

/-! ## Two courses -/

namespace Setting

variable {s : Setting} {test : Option Expr} {name : String} {same : Prop}

/-- Two courses with the same step. -/
theorem course_of_loopEnd (hs : s.style ∈ Style.catalogue) {test test' : Option Expr}
    {name : String} {step : Expr × Direction} (hstep : step.1.WellFormed .lexical)
    (hlast : Both (fun l l' => l.2 = l'.2 ∧ (l.1 = l'.1 ↔ same))
      (s.loopEnd test name step.1 step.2) (s.loopEnd test' name step.1 step.2)) :
    Both (fun c c' => c = c' ↔ same) (s.course test name step) (s.course test' name step) := by
  refine hlast.bind ?_
  rintro ⟨last, direction⟩ ⟨last', direction'⟩ ⟨hdirection, hsame⟩
  obtain rfl : direction = direction' := hdirection
  refine .same (Expr.numericValue_yields hstep) fun value => ?_
  split
  · exact .ok (by simpa using hsame)
  · refine .same (render_yields (Style.isSound_of_mem hs) hstep .whole) fun text => .ok ?_
    simpa using hsame

/-- The step is left out if it is one. -/
theorem course_of_one {step : Expr} {direction : Direction} {last : String × Direction}
    (hlast : s.loopEnd test name step direction = .ok last)
    (hone : step.numericValue = .ok (some (.ofNat 1))) :
    s.course test name (step, direction) = .ok (last.2, last.1) := by
  simp [course, hlast, hone, bind, Except.bind, pure, Except.pure]

theorem course_of_ne_one {step : Expr} {direction : Direction} {last : String × Direction}
    (hlast : s.loopEnd test name step direction = .ok last) {value : Option Binary64}
    (hvalue : step.numericValue = .ok value) (hne : value ≠ some (.ofNat 1)) {text : String}
    (htext : s.render .whole step = .ok text) :
    s.course test name (step, direction) = .ok (last.2, last.1 ++ " step " ++ text) := by
  rw [course, hlast, hvalue, htext]
  exact if_neg hne

/-- A text with a step behind it is longer than without. -/
theorem append_step_ne (last text : String) : last ++ " step " ++ text ≠ last := by
  intro heq
  have hlength := congrArg String.length heq
  simp only [String.length_append] at hlength
  have hstep : " step ".length = 6 := by decide
  omega

/-- A step that is written twice. -/
theorem place_step_inj {e e' : Expr} (h : s.style.wraps .prefixed e' = s.style.wraps .prefixed e)
    (a b : String) : s.style.place .prefixed e a ++ " step " ++ a =
      s.style.place .prefixed e' b ++ " step " ++ b ↔ a = b := by
  constructor
  · intro heq
    have hlists := congrArg String.toList heq
    have hlength := congrArg List.length hlists
    unfold Style.place at hlists hlength
    rw [h] at hlists hlength
    -- Both sides have their step twice, so that the steps have the same length.
    cases hwraps : s.style.wraps .prefixed e <;>
      simp only [hwraps, Text.bracketed, String.toList_append, List.length_append, if_true,
        Bool.false_eq_true, if_false] at hlists hlength
    all_goals exact String.toList_inj.mp (List.append_inj_right' hlists (by omega))
  · rintro rfl
    rw [Style.place, Style.place, h]

end Setting

/-! ## Counting up by one -/

namespace Expr

/-- The number one, written with its digit. -/
def isUnit : Expr → Bool
  | .literal _ raw => raw == "1"
  | _ => false

theorem wellFormed_one (p : Pos) : (Expr.literal p "1").WellFormed .lexical :=
  .inl (.inr (by decide))

/-- Whether the last value before the bound is written like the one with a step of one. -/
def endsAlike (bound step : Expr) : Bool :=
  decide (bound.numericValue ≠ .ok none) || step.isUnit

end Expr

/-- Whether the header has the direction that it has when the loop counts up. -/
def turnsAlike (test : Option Expr) (name : String) (direction : Direction) : Bool :=
  match loopBound? test name with
  | none => direction == .up
  | some (op, _) => op.turns direction == op.turns .up

/-- Whether the header has the last value that it has with a step of one. -/
def lastAlike (test : Option Expr) (name : String) (step : Expr) : Bool :=
  (loopBound? test name).all fun b => b.1 == .eq || b.1.reaches || b.2.endsAlike step

/-- Whether the header of a loop with the given step is the one of a loop that counts up by one. -/
def countsAlike (test : Option Expr) (name : String) (step : Expr × Direction) : Bool :=
  decide (step.1.numericValue = .ok (some (.ofNat 1))) && turnsAlike test name step.2 &&
    lastAlike test name step.1

theorem turnsAlike_of_no_bound {test : Option Expr} {name : String}
    (h : ∀ b ∈ loopBound? test name, b.1 = .eq) (direction : Direction) :
    turnsAlike test name direction = (direction == .up) := by
  cases hbound : loopBound? test name with
  | none => simp [turnsAlike, hbound]
  | some b =>
    have hop := h b hbound
    simp [turnsAlike, hbound, hop, BinaryOp.turns]

theorem lastAlike_of_no_bound {test : Option Expr} {name : String}
    (h : ∀ b ∈ loopBound? test name, b.1 = .eq) (step : Expr) :
    lastAlike test name step = true := by
  rw [lastAlike, Option.all_eq_true]
  intro b hb
  simp [h b hb]

namespace Setting

variable {s : Setting} {test : Option Expr} {name : String}

/-- Only the digit itself is written like it. -/
theorem render_eq_one_iff {step : Expr} (hone : step.numericValue = .ok (some (.ofNat 1)))
    {text : String} (htext : s.render .prefixed step = .ok text) :
    text = "1" ↔ step.isUnit = true := by
  cases step with
  | literal p raw =>
    have hintended : Numeral.isIntended raw = true := by
      by_contra hraw
      rw [Expr.numericValue, if_neg hraw] at hone
      cases hone
    have hliteral : s.style.literal raw = raw := by
      unfold Style.literal
      split
      · rename_i htrue
        rw [htrue] at hintended
        cases hintended
      split
      · rename_i hfalse
        rw [hfalse] at hintended
        cases hintended
      · rfl
    obtain rfl : raw = text := hliteral.symm.trans (Except.ok.inj htext)
    simp [Expr.isUnit]
  | unary p op operand =>
    cases op with
    | neg =>
      obtain ⟨t, -, htext⟩ := exists_of_bind htext
      have hminus : "-" ++ t = text := Except.ok.inj htext
      refine ⟨fun h => ?_, fun h => by cases h⟩
      rw [← hminus] at h
      exact absurd (congrArg String.toList h) (by simp)
    | _ => cases hone
  | _ => cases hone

/-- A number as the bound, and a step of one. -/
theorem endBefore_of_one {bound step : Expr} {b : Binary64} (hb : bound.numericValue = .ok (some b))
    (hone : step.numericValue = .ok (some (.ofNat 1))) (op : BinaryOp) :
    s.endBefore op bound step =
      .ok (if op = .lt then b.sub (.ofNat 1) else b.add (.ofNat 1)).plainText := by
  have hpositive : (Binary64.ofNat 1).isPositive = true := by decide
  rw [endBefore, hb, hone]
  simp only [bind, Except.bind, hpositive, if_true]
  rfl

/-- A bound with a step of one. -/
theorem endBefore_one (hs : s.style ∈ Style.catalogue) {bound step : Expr}
    (hbound : bound.WellFormed .lexical) (hstep : step.WellFormed .lexical)
    (hone : step.numericValue = .ok (some (.ofNat 1))) (op : BinaryOp) (p : Pos) :
    TellsApart (bound.endsAlike step = true) (s.endBefore op bound step)
      (s.endBefore op bound (.literal p "1")) := by
  have hsound := Style.isSound_of_mem hs
  obtain ⟨value, hvalue⟩ := Expr.numericValue_yields hbound
  cases value with
  | some b =>
    rw [endBefore_of_one hvalue hone, endBefore_of_one hvalue (numericValue_one p)]
    exact .ok (by simp [Expr.endsAlike, hvalue])
  | none =>
    obtain ⟨text, htext⟩ := render_yields hsound hstep .prefixed
    have hunit := render_eq_one_iff hone htext
    rw [endBefore_eq_writtenEnd hbound hstep (.inl hvalue),
      endBefore_eq_writtenEnd hbound (Expr.wellFormed_one p) (.inl hvalue)]
    refine .same (render_yields hsound hbound .whole) fun front => ?_
    rw [htext]
    exact .ok (by simpa [Expr.endsAlike, hvalue, Style.literal] using hunit)

/-- A bound with a step that is written out. -/
theorem endBefore_step_ne (hs : s.style ∈ Style.catalogue) {bound step : Expr}
    (hbound : bound.WellFormed .lexical) (hstep : step.WellFormed .lexical) (op : BinaryOp)
    (p : Pos) {last last' : String} (hlast : s.endBefore op bound step = .ok last)
    (hlast' : s.endBefore op bound (.literal p "1") = .ok last') (text : String) :
    last ++ " step " ++ text ≠ last' := by
  intro heq
  have hsound := Style.isSound_of_mem hs
  obtain ⟨value, hvalue⟩ := Expr.numericValue_yields hbound
  cases value with
  | some b =>
    -- A number has no blanks in it.
    rw [endBefore_of_one hvalue (numericValue_one p)] at hlast'
    have hmem : ' ' ∈ last'.toList := by simp [← heq]
    rw [← Except.ok.inj hlast'] at hmem
    cases Binary64.isBlank_plainText _ _ hmem
  | none =>
    obtain ⟨front, hfront⟩ := render_yields hsound hbound .whole
    obtain ⟨t, ht⟩ := render_yields hsound hstep .prefixed
    rw [endBefore_eq_writtenEnd hbound hstep (.inl hvalue), writtenEnd, hfront, ht] at hlast
    rw [endBefore_eq_writtenEnd hbound (Expr.wellFormed_one p) (.inl hvalue), writtenEnd,
      hfront] at hlast'
    obtain rfl := Except.ok.inj hlast
    have hone : front ++ (if op = .lt then " - " else " + ") ++ "1" = last' := Except.ok.inj hlast'
    have hlength := congrArg String.length (heq.trans hone.symm)
    simp only [String.length_append] at hlength
    have hstep : " step ".length = 6 := by decide
    have hdigit : "1".length = 1 := by decide
    omega

theorem lastValue_one (hs : s.style ∈ Style.catalogue) {bound step : Expr}
    (hbound : bound.WellFormed .lexical) (hstep : step.WellFormed .lexical)
    (hone : step.numericValue = .ok (some (.ofNat 1))) (op : BinaryOp) (direction : Direction)
    (p : Pos) : TellsApart ((op.reaches || bound.endsAlike step) = true)
      (s.lastValue op bound step direction) (s.lastValue op bound (.literal p "1") direction) := by
  unfold lastValue
  cases op.reaches with
  | true =>
    obtain ⟨last, hlast⟩ := render_yields (Style.isSound_of_mem hs) hbound .whole
    rw [if_pos rfl, if_pos rfl, hlast]
    exact .ok (by simp)
  | false => exact endBefore_one hs hbound hstep hone _ p

theorem lastValue_step_ne (hs : s.style ∈ Style.catalogue) {bound step : Expr}
    (hbound : bound.WellFormed .lexical) (hstep : step.WellFormed .lexical) {op : BinaryOp}
    {direction : Direction} {p : Pos} {last last' : String}
    (hlast : s.lastValue op bound step direction = .ok last)
    (hlast' : s.lastValue op bound (.literal p "1") direction = .ok last') (text : String) :
    last ++ " step " ++ text ≠ last' := by
  unfold lastValue at hlast hlast'
  cases hreaches : op.reaches with
  | true =>
    rw [hreaches, if_pos rfl] at hlast hlast'
    obtain rfl := Except.ok.inj (hlast.symm.trans hlast')
    exact append_step_ne last text
  | false =>
    rw [hreaches, if_neg (by simp)] at hlast hlast'
    exact endBefore_step_ne hs hbound hstep _ p hlast hlast' text

/-- The ends of two loops, of which one counts up by one: their directions agree or not, and where
they do, so do the last values or not. -/
structure EndsApart (test : Option Expr) (name : String) (step : Expr × Direction)
    (last last' : String × Direction) : Prop where
  direction_iff : last.2 = last'.2 ↔ turnsAlike test name step.2 = true
  last_iff : last.2 = last'.2 → step.1.numericValue = .ok (some (.ofNat 1)) →
    (last.1 = last'.1 ↔ lastAlike test name step.1 = true)
  step_ne : last.2 = last'.2 → ∀ text, last.1 ++ " step " ++ text ≠ last'.1

theorem loopEnd_one (hs : s.style ∈ Style.catalogue) (htest : ∀ e ∈ test, e.WellFormed .lexical)
    {step : Expr × Direction} (hstep : step.1.WellFormed .lexical) (name : String) (p : Pos) :
    Both (EndsApart test name step) (s.loopEnd test name step.1 step.2)
      (s.loopEnd test name (.literal p "1") .up) := by
  rcases bound_cases test name with hnone | ⟨op, bound, hbound, hop⟩
  · rw [loopEnd_of_no_bound hnone, loopEnd_of_no_bound hnone]
    refine .ok ⟨?_, ?_, ?_⟩
    · simp [turnsAlike_of_no_bound hnone]
    · intro _ _
      simp [lastAlike_of_no_bound hnone]
    · exact fun _ => append_step_ne ""
  · have hwell := loopBound?_wellFormed htest hbound
    obtain ⟨last, hlast⟩ := lastValue_yields hs hwell hstep op step.2
    obtain ⟨last', hlast'⟩ := lastValue_yields hs hwell (Expr.wellFormed_one p) op .up
    rw [loopEnd_of_bound hbound hop, loopEnd_of_bound hbound hop, hlast, hlast']
    refine .ok ⟨?_, ?_, ?_⟩
    · simp [turnsAlike, hbound]
    · intro hturns hone
      rw [lastValue_of_turns hturns] at hlast
      obtain ⟨t, t', ht, ht', hiff⟩ := lastValue_one hs hwell hstep hone op .up p
      obtain rfl := Except.ok.inj (ht.symm.trans hlast)
      obtain rfl := Except.ok.inj (ht'.symm.trans hlast')
      simpa [lastAlike, hbound, hop] using hiff
    · intro hturns
      rw [lastValue_of_turns hturns] at hlast
      exact lastValue_step_ne hs hwell hstep hlast hlast'

/-- A course, and the one of counting up by one. -/
theorem course_one (hs : s.style ∈ Style.catalogue) (htest : ∀ e ∈ test, e.WellFormed .lexical)
    {step : Expr × Direction} (hstep : step.1.WellFormed .lexical) (name : String) (p : Pos) :
    Both (fun c c' => c = c' ↔ countsAlike test name step = true) (s.course test name step)
      (s.course test name (.literal p "1", .up)) := by
  obtain ⟨last, last', hlast, hlast', hends⟩ := loopEnd_one hs htest hstep name p
  obtain ⟨value, hvalue⟩ := Expr.numericValue_yields hstep
  rw [course_of_one hlast' (numericValue_one p)]
  by_cases hone : value = some (.ofNat 1)
  · subst hone
    rw [course_of_one hlast hvalue]
    refine .ok ?_
    rw [Prod.mk.injEq, countsAlike, hvalue]
    simp only [decide_true, Bool.true_and, Bool.and_eq_true, ← hends.direction_iff]
    exact and_congr_right fun hdirection => hends.last_iff hdirection hvalue
  · obtain ⟨text, htext⟩ := render_yields (Style.isSound_of_mem hs) hstep .whole
    rw [course_of_ne_one hlast hvalue hone htext]
    refine .ok ?_
    have hne : countsAlike test name step = false := by simp [countsAlike, hvalue, hone]
    rw [hne, Prod.mk.injEq]
    refine iff_of_false ?_ (by simp)
    rintro ⟨hdirection, heq⟩
    exact hends.step_ne hdirection text heq

end Setting

/-! ## Loops that count with different variables -/

theorem Expr.comparedSides_wellFormed {V : Vocabulary} {e : Expr} (he : e.WellFormed V) :
    ∀ side ∈ e.comparedSides, side.WellFormed V := by
  cases e with
  | binary p op l r =>
    obtain ⟨-, hl, hr⟩ := he
    cases hop : op.isRelational <;> simp [comparedSides, hop, hl, hr]
  | _ => simp [comparedSides]

theorem ForUpdate.target?_wellFormed {V : Vocabulary} {u : ForUpdate} {e : Expr}
    (hu : u.WellFormed V) (h : u.target? = some e) : e.WellFormed V := by
  cases u with
  | update u =>
    obtain rfl := Option.some.inj h
    exact hu.2.1
  | expression d =>
    cases d with
    | assign p target op value =>
      obtain rfl := Option.some.inj h
      exact hu.2.1
    | update p op operand =>
      obtain rfl := Option.some.inj h
      exact hu.2
    | _ => cases h
  | unsupported kind => cases h

/-- A loop without a first step counts with a variable or with nothing. -/
theorem loopVariable_lexical {test : Option Expr} {update : Option ForUpdate}
    (htest : ∀ e ∈ test, e.WellFormed .lexical) (hupdate : ∀ u ∈ update, u.WellFormed .lexical) :
    loopVariable test update = "" ∨
      Token.isLexeme .identifier (loopVariable test update) = true := by
  unfold loopVariable
  dsimp only
  cases hfound : Option.or _ _ with
  | none => exact .inl rfl
  | some n =>
    refine .inr ?_
    rcases Option.or_eq_some_iff.mp hfound with hchanged | ⟨-, htested⟩
    · obtain ⟨target, htarget, hn⟩ := Option.bind_eq_some_iff.mp hchanged
      obtain ⟨u, hu, htarget⟩ := Option.bind_eq_some_iff.mp htarget
      exact Expr.isLexeme_of_variable (ForUpdate.target?_wellFormed (hupdate u hu) htarget) hn
    · obtain ⟨side, hside, hn⟩ := List.exists_of_findSome?_eq_some htested
      cases test with
      | none => cases hside
      | some e =>
        have hwell := Expr.comparedSides_wellFormed (htest e rfl) side hside
        exact Expr.isLexeme_of_variable hwell hn

namespace Setting

variable {s : Setting} {header header' : Header} {p : Pos}

/-- The first two words of a header that starts wherever its variable is. -/
theorem exists_headerText (n : String) (hn : n = "" ∨ Token.isLexeme .identifier n = true)
    (course : Direction × String) : ∃ rest,
      (headerText (n, if n = "" then "0" else n) course).toList =
        (if n = "" then "from" else n).toList ++ ' ' :: (if n = "" then '0' else 'f') :: rest := by
  rw [toList_headerText]
  rcases hn with rfl | hn
  · exact ⟨_, by simp [dropBlanks]; rfl⟩
  · have hne : n ≠ "" := by
      rintro rfl
      cases hn
    have hopens : Opens (n ++ " from " ++ n) :=
      ((Token.framed_of_isLexeme hn).opens.append _).append _
    simp only [hne, if_false, hopens.dropBlanks]
    exact ⟨_, by simp; rfl⟩

/-- The first word is the variable; without one it is `from`, and a loop that counts with a variable
of that name has the word a second time. -/
theorem headerText_ne {n n' : String} (hn : n = "" ∨ Token.isLexeme .identifier n = true)
    (hn' : n' = "" ∨ Token.isLexeme .identifier n' = true) (hne : n ≠ n')
    (course course' : Direction × String) :
    headerText (n, if n = "" then "0" else n) course ≠
      headerText (n', if n' = "" then "0" else n') course' := by
  intro heq
  obtain ⟨rest, hrest⟩ := exists_headerText n hn course
  obtain ⟨rest', hrest'⟩ := exists_headerText n' hn' course'
  have hword : ∀ {m : String}, m = "" ∨ Token.isLexeme .identifier m = true →
      ∀ c ∈ (if m = "" then "from" else m).toList, (c != ' ') = true := by
    intro m hm c hc
    have hpart : Token.isWordPart c = true := by
      split at hc
      · exact Token.isWordPart_of_mem (show Token.isLexeme .identifier "from" = true by decide) c hc
      · exact Token.isWordPart_of_mem (hm.resolve_left ‹_›) c hc
    rw [bne_iff_ne]
    rintro rfl
    cases hpart
  rw [← heq, hrest] at hrest'
  have hwords := congrArg (List.takeWhile (· != ' ')) hrest'
  rw [List.takeWhile_append_of_pos (hword hn), List.takeWhile_append_of_pos (hword hn')] at hwords
  simp only [List.takeWhile_cons, bne_self_eq_false, Bool.false_eq_true, if_false,
    List.append_nil] at hwords
  rw [hwords, List.append_right_inj] at hrest'
  by_cases hempty : n = "" <;> by_cases hempty' : n' = ""
  · exact hne (hempty.trans hempty'.symm)
  · simp [hempty, hempty'] at hrest'
  · simp [hempty, hempty'] at hrest'
  · rw [if_neg hempty, if_neg hempty'] at hwords
    exact hne (String.toList_inj.mp hwords)

/-- Two loops without a first step that count with different variables. -/
theorem countingHeader_of_counter_ne (hs : s.style ∈ Style.catalogue)
    (h : header.WellFormed .lexical) (h' : header'.WellFormed .lexical)
    (hinit : header.init = header'.init) (hne : header.counter ≠ header'.counter) :
    TellsApart False (s.countingHeader p header.init header.test header.update)
      (s.countingHeader p header'.init header'.test header'.update) := by
  have hsound := Style.isSound_of_mem hs
  rw [countingHeader_counter h, countingHeader_counter h']
  obtain ⟨course, hcourse⟩ := course_yields hsound h.test
    (loopStep_wellFormed h.update p header.counter) header.counter
  obtain ⟨course', hcourse'⟩ := course_yields hsound h'.test
    (loopStep_wellFormed h'.update p header'.counter) header'.counter
  rw [hcourse, hcourse']
  obtain ⟨init, test, update⟩ := header
  obtain ⟨init', test', update'⟩ := header'
  obtain rfl : init = init' := hinit
  rcases init with - | ⟨d | a | kind⟩
  · have hlexical := loopVariable_lexical h.test h.update
    have hlexical' := loopVariable_lexical h'.test h'.update
    exact .ok (iff_false_intro (headerText_ne hlexical hlexical' hne course course'))
  · exact absurd rfl hne
  · exact absurd rfl hne
  · exact (h.init _ rfl).elim

/-- The two headers are the same only if they have the same variable. -/
theorem countingHeader_of_counters (hs : s.style ∈ Style.catalogue) {header header' : Header}
    (h : header.WellFormed .lexical) (h' : header'.WellFormed .lexical)
    (hinit : header.init = header'.init) {same : Bool}
    (hcourse : header.counter = header'.counter → Both (fun c c' => c = c' ↔ same = true)
      (s.course header.test header.counter (loopStep p header.update header.counter))
      (s.course header'.test header.counter (loopStep p header'.update header.counter))) :
    TellsApart ((header.counter == header'.counter && same) = true)
      (s.countingHeader p header.init header.test header.update)
      (s.countingHeader p header'.init header'.test header'.update) := by
  by_cases hcounter : header.counter = header'.counter
  · refine (countingHeader_of_course hs h h' hinit hcounter (hcourse hcounter)).of_iff ?_
    simp [hcounter]
  · refine (countingHeader_of_counter_ne hs h h' hinit hcounter).of_iff ?_
    simp [hcounter]

/-- The same step. -/
theorem course_of_loopStep (hs : s.style ∈ Style.catalogue) {test : Option Expr}
    {update update' : Option ForUpdate} {name : String}
    (htest : ∀ e ∈ test, e.WellFormed .lexical) (hupdate : ∀ u ∈ update, u.WellFormed .lexical)
    (h : loopStep p update name = loopStep p update' name) :
    Both (fun c c' => c = c' ↔ true = true) (s.course test name (loopStep p update name))
      (s.course test name (loopStep p update' name)) := by
  obtain ⟨c, hc⟩ := course_yields (Style.isSound_of_mem hs) htest
    (loopStep_wellFormed hupdate p name) name
  exact ⟨c, c, hc, h ▸ hc, by simp⟩

/-- The last two parts of a loop matter to its variable only in that they have one. -/
theorem counter_eq_of_loopVariable {init : Option ForInit} {test test' : Option Expr}
    {update update' : Option ForUpdate}
    (h : loopVariable test update = loopVariable test' update') :
    Header.counter ⟨init, test, update⟩ = Header.counter ⟨init, test', update'⟩ := by
  rcases init with - | ⟨d | a | kind⟩
  · exact h
  · rfl
  · rfl
  · exact h

end Setting

end Pseudocode
