import Pseudocode.Proofs.Loop.Course
import Pseudocode.Proofs.Render.StatementSpots
set_option autoImplicit false

/-!
# Where a sign in a counting header is told apart

A counting header writes the first value of a loop, its bound and its step, and leaves out the rest
of its three parts.
-/

namespace Pseudocode

open Text (Opens)

/-! ## Gaps in the first part -/

theorem ForInit.Gap.fill_compared_wellFormed {V : Vocabulary} {x : Sign} {gap : ForInit.Gap}
    (h : (gap.fill x.assigned).WellFormed V) : (gap.fill x.compared).WellFormed V := by
  cases gap with
  | declaration d gap =>
    obtain ⟨⟨hname, htype, hvalue⟩, hkeyword⟩ := h
    refine ⟨⟨hname, htype, ?_⟩, hkeyword⟩
    intro e he
    obtain rfl := Option.some.inj he
    exact Expr.Gap.fill_compared_wellFormed (hvalue _ rfl)
  | target a gap =>
    have hassign : ((Expr.Gap.target a.pos gap a.op a.value).fill x.assigned).WellFormed V := h
    exact Expr.Gap.fill_compared_wellFormed hassign
  | value a gap =>
    have hassign : ((Expr.Gap.value a.pos a.target a.op gap).fill x.assigned).WellFormed V := h
    exact Expr.Gap.fill_compared_wellFormed hassign

theorem ForUpdate.Gap.fill_compared_wellFormed {V : Vocabulary} {x : Sign} {gap : ForUpdate.Gap}
    (h : (gap.fill x.assigned).WellFormed V) : (gap.fill x.compared).WellFormed V := by
  cases gap with
  | update u gap =>
    obtain ⟨htarget, hwell, hop⟩ := h
    exact ⟨Expr.Gap.isTarget_fill rfl htarget, Expr.Gap.fill_compared_wellFormed hwell, hop⟩
  | expression gap => exact Expr.Gap.fill_compared_wellFormed h

/-- The spot of a gap in the first part of a loop whose header gives the first value. -/
def ForInit.Gap.startSpot (style : Style) (e : Expr) : ForInit.Gap → Spot
  | .declaration _ gap | .target _ gap | .value _ gap => gap.spot style e .enclosed

namespace Setting

variable {s : Setting} {x : Sign} {test : Option Expr} {update : Option ForUpdate}

theorem loopStart_fill (hs : s.style ∈ Style.catalogue) (gap : ForInit.Gap)
    (h : (gap.fill x.assigned).WellFormed .lexical) :
    ∀ same ∈ (gap.startSpot s.style x.assigned).alike? s.style x,
      Both (fun a b => (a.1 ++ " from " ++ a.2 = b.1 ++ " from " ++ b.2 ↔ same = true) ∧
        Opens a.1 ∧ Opens b.1) (s.loopStart (some (gap.fill x.assigned)) test update)
        (s.loopStart (some (gap.fill x.compared)) test update) := by
  intro same hsame
  cases gap with
  | declaration d gap =>
    have hname : Opens d.name := (Vocabulary.framed_of_lexical h.1.1 (by decide)).opens
    have hvalue := render_fill hs gap .enclosed rfl (h.1.2.2 _ rfl) rfl rfl same hsame
    exact hvalue.bind fun a b hab => .ok ⟨by simp [hab], hname, hname⟩
  | target a gap =>
    obtain ⟨-, htarget, -, hvalue⟩ := h
    have htells := render_fill hs gap .enclosed rfl htarget rfl rfl same hsame
    have hframed := render_framed hs htarget .whole
    have hframed' := render_framed hs (Expr.Gap.fill_compared_wellFormed htarget) .whole
    refine (htells.ensure hframed hframed').bind ?_
    rintro name name' ⟨hsame, hname, hname'⟩
    refine .same (render_yields (Style.isSound_of_mem hs) hvalue .whole) fun value => ?_
    exact .ok ⟨by simp [hsame], hname.opens, hname'.opens⟩
  | value a gap =>
    obtain ⟨-, htarget, -, hvalue⟩ := h
    obtain ⟨name, hname⟩ := render_yields (Style.isSound_of_mem hs) htarget .whole
    have hopens := (render_framed hs htarget .whole name hname).opens
    have htells := render_fill hs gap .enclosed rfl hvalue rfl rfl same hsame
    simp only [loopStart, ForInit.Gap.fill, hname]
    exact htells.bind fun a b hab => .ok ⟨by simp [hab], hopens, hopens⟩

end Setting

/-! ## Gaps in the test -/

theorem Expr.isNamed_eq_false {e : Expr} (h : Expr.variable? e = none) (n : String) :
    e.isNamed n = false := by
  cases e with
  | name p m => cases h
  | _ => rfl

namespace Expr.Gap

variable {x : Sign}

/-- A gap is no number when what it is filled with is none. -/
theorem numericValue_fill {e : Expr} (he : e.numericValue = .ok none) (gap : Gap) :
    (gap.fill e).numericValue = .ok none := by
  induction gap with
  | here => exact he
  | operand p op gap ih =>
    cases op with
    | neg => rw [fill, numericValue, ih]; rfl
    | _ => rfl
  | item listing before gap behind => cases listing <;> rfl
  | _ => rfl

theorem numericValue_assigned (gap : Gap) : (gap.fill x.assigned).numericValue = .ok none :=
  gap.numericValue_fill rfl

theorem numericValue_compared (gap : Gap) : (gap.fill x.compared).numericValue = .ok none := by
  obtain ⟨op, l, r, h, -⟩ := x.compared_eq
  exact gap.numericValue_fill (by rw [h]; rfl)

/-- The variables that a test compares stand beside the gap. -/
theorem comparedSides_fill {gap : Gap} (h : gap ≠ .here) :
    (gap.fill x.assigned).comparedSides.findSome? Expr.variable? =
      (gap.fill x.compared).comparedSides.findSome? Expr.variable? := by
  cases gap with
  | here => exact absurd rfl h
  | left p op gap r =>
    cases hop : op.isRelational <;>
      simp [fill, comparedSides, hop, no_variable_assigned, no_variable_compared]
  | right p op l gap =>
    cases hop : op.isRelational <;>
      simp [fill, comparedSides, hop, List.findSome?_cons, no_variable_assigned,
        no_variable_compared]
  | item listing before gap behind => cases listing <;> rfl
  | _ => rfl

/-- The spot of a gap in the test of a loop whose header gives the bound of the variable `name`. -/
def boundSpot (style : Style) (e : Expr) (name : String) : Gap → Spot
  | .left _ op gap r =>
    if op.isRelational && op != .eq && r.isNamed name then gap.spot style e .enclosed
    else .unwritten
  | .right _ op _ gap =>
    if op.isRelational && op != .eq then gap.spot style e .enclosed else .unwritten
  | _ => .unwritten

end Expr.Gap

namespace Setting

variable {s : Setting} {x : Sign}

/-- What is no variable, on the left of a comparison. -/
theorem loopBound?_left (p : Pos) (op : BinaryOp) {e : Expr} (r : Expr)
    (he : Expr.variable? e = none) (name : String) : loopBound? (some (.binary p op e r)) name =
      if op.isRelational then some (if r.isNamed name then (op.swapped, e) else (op, r))
      else none := by
  cases hop : op.isRelational <;> cases hr : r.isNamed name <;>
    simp [loopBound?, hop, hr, Expr.isNamed_eq_false he]

/-- What is no variable, on the right of a comparison. -/
theorem loopBound?_right {p : Pos} {op : BinaryOp} {l e : Expr} (he : Expr.variable? e = none)
    (name : String) : loopBound? (some (.binary p op l e)) name =
      if op.isRelational then some (op, e) else none := by
  cases hop : op.isRelational <;> simp [loopBound?, hop, Expr.isNamed_eq_false he]

/-- Two tests with the gap in their bounds, if they are written. -/
theorem loopEnd_of_gap (hs : s.style ∈ Style.catalogue) {gap : Expr.Gap}
    (h : (gap.fill x.assigned).WellFormed .lexical) {op : BinaryOp} {test test' : Option Expr}
    {name : String} {step : Expr} (hstep : step.WellFormed .lexical) (direction : Direction)
    (htest : loopBound? test name =
      if op.isRelational then some (op, gap.fill x.assigned) else none)
    (htest' : loopBound? test' name =
      if op.isRelational then some (op, gap.fill x.compared) else none) :
    ∀ same ∈ (if op.isRelational && op != .eq then gap.spot s.style x.assigned .enclosed
        else .unwritten : Spot).alike? s.style x,
      Both (fun l l' => l.2 = l'.2 ∧ (l.1 = l'.1 ↔ same = true))
        (s.loopEnd test name step direction) (s.loopEnd test' name step direction) := by
  intro same hsame
  by_cases hwritten : (op.isRelational && op != .eq) = true
  · rw [if_pos hwritten] at hsame
    obtain ⟨hop, heq⟩ := Bool.and_eq_true_iff.mp hwritten
    rw [if_pos hop] at htest htest'
    exact loopEnd_of_bounds hs (by simpa using heq) htest htest' h
      (Expr.Gap.fill_compared_wellFormed h) gap.numericValue_assigned gap.numericValue_compared
      hstep direction (render_fill hs gap .enclosed rfl h rfl rfl same hsame)
  · rw [if_neg hwritten] at hsame
    obtain rfl := Option.some.inj hsame
    have hnone : ∀ {test : Option Expr} {bound : Expr}, loopBound? test name =
        (if op.isRelational then some (op, bound) else none) →
          ∀ b ∈ loopBound? test name, b.1 = .eq := by
      intro test bound htest b hb
      rw [htest] at hb
      cases hop : op.isRelational with
      | false => simp [hop] at hb
      | true =>
        obtain rfl : (op, bound) = b := by simpa [hop] using hb
        simpa [hop] using hwritten
    rw [loopEnd_of_no_bound (hnone htest), loopEnd_of_no_bound (hnone htest')]
    exact .ok ⟨rfl, by simp⟩

/-- A gap in a test that is not the whole test. -/
theorem loopEnd_fill (hs : s.style ∈ Style.catalogue) {gap : Expr.Gap} (hgap : gap ≠ .here)
    (h : (gap.fill x.assigned).WellFormed .lexical) {step : Expr}
    (hstep : step.WellFormed .lexical) (name : String) (direction : Direction) :
    ∀ same ∈ (gap.boundSpot s.style x.assigned name).alike? s.style x,
      Both (fun l l' => l.2 = l'.2 ∧ (l.1 = l'.1 ↔ same = true))
        (s.loopEnd (some (gap.fill x.assigned)) name step direction)
        (s.loopEnd (some (gap.fill x.compared)) name step direction) := by
  have hequal : ∀ {test test' : Option Expr}, (∀ e ∈ test, e.WellFormed .lexical) →
      loopBound? test name = loopBound? test' name → ∀ same ∈ Spot.unwritten.alike? s.style x,
        Both (fun l l' => l.2 = l'.2 ∧ (l.1 = l'.1 ↔ same = true))
          (s.loopEnd test name step direction) (s.loopEnd test' name step direction) := by
    intro test test' hwell htest same hsame
    obtain rfl := Option.some.inj hsame
    obtain ⟨last, hlast⟩ := loopEnd_yields (Style.isSound_of_mem hs) hwell hstep name direction
    have hlast' : s.loopEnd test' name step direction = .ok last := by
      unfold loopEnd at hlast ⊢
      rwa [← htest]
    exact ⟨last, last, hlast, hlast', rfl, by simp⟩
  have hwell : ∀ e ∈ some (gap.fill x.assigned), e.WellFormed .lexical := by
    intro e he
    obtain rfl := Option.some.inj he
    exact h
  cases gap with
  | here => exact absurd rfl hgap
  | left p op gap r =>
    have htest := loopBound?_left p op r (gap.no_variable_assigned (x := x)) name
    have htest' := loopBound?_left p op r (gap.no_variable_compared (x := x)) name
    unfold Expr.Gap.boundSpot
    dsimp only
    cases hr : r.isNamed name with
    | true =>
      simp only [hr, if_true, Bool.and_true] at htest htest' ⊢
      have hswapped : op.isRelational = op.swapped.isRelational := by cases op <;> rfl
      have heq : (op != .eq) = (op.swapped != .eq) := by cases op <;> rfl
      rw [hswapped] at htest htest'
      rw [hswapped, heq]
      exact loopEnd_of_gap hs h.2.1 hstep direction htest htest'
    | false =>
      rw [hr] at htest htest'
      simp only [Bool.and_false, Bool.false_eq_true, if_false] at htest htest' ⊢
      exact hequal hwell (htest.trans htest'.symm)
  | right p op l gap =>
    exact loopEnd_of_gap hs h.2.2 hstep direction
      (loopBound?_right gap.no_variable_assigned name)
      (loopBound?_right gap.no_variable_compared name)
  | item listing before gap behind => cases listing <;> exact hequal hwell rfl
  | _ => exact hequal hwell rfl

end Setting

/-! ## Gaps in the update -/

namespace Expr.Gap

variable {x : Sign}

/-- The spot of a gap in the update of a loop whose header gives the step of the variable
`name`. -/
def stepSpot (style : Style) (e : Expr) (name : String) : Gap → Spot
  | .value _ _ .add gap | .value _ _ .sub gap => gap.spot style e .enclosed
  | .value _ t .set (.right _ op l gap) =>
    if (op == .add || op == .sub) && (t.isNamed name && l.isNamed name) then
      gap.spot style e .enclosed
    else .unwritten
  | _ => .unwritten

/-- The variable that an update changes stands beside the gap. -/
theorem target?_fill {gap : Gap} (h : gap ≠ .here) :
    (ForUpdate.expression (gap.fill x.assigned)).target?.bind Expr.variable? =
      (ForUpdate.expression (gap.fill x.compared)).target?.bind Expr.variable? := by
  cases gap with
  | here => exact absurd rfl h
  | changed p op gap =>
    simp [fill, ForUpdate.target?, no_variable_assigned, no_variable_compared]
  | target p gap op v =>
    simp [fill, ForUpdate.target?, no_variable_assigned, no_variable_compared]
  | item listing before gap behind => cases listing <;> rfl
  | _ => rfl

/-- The step is the same for both, or it has the gap in it. -/
theorem loopStep_fill {gap : Gap} (h : gap ≠ .here) (style : Style) (p : Pos) (name : String) :
    gap.stepSpot style x.assigned name = .unwritten ∧
        loopStep p (some (.expression (gap.fill x.assigned))) name =
          loopStep p (some (.expression (gap.fill x.compared))) name ∨
      ∃ (gap' : Gap) (direction : Direction),
        gap.stepSpot style x.assigned name = gap'.spot style x.assigned .enclosed ∧
        loopStep p (some (.expression (gap.fill x.assigned))) name =
          (gap'.fill x.assigned, direction) ∧
        loopStep p (some (.expression (gap.fill x.compared))) name =
          (gap'.fill x.compared, direction) ∧
        ((gap.fill x.assigned).WellFormed .lexical →
          (gap'.fill x.assigned).WellFormed .lexical) := by
  cases gap with
  | here => exact absurd rfl h
  | target q gap op v =>
    refine .inl ⟨rfl, ?_⟩
    have hnamed := isNamed_eq_false (gap.no_variable_assigned (x := x)) name
    have hnamed' := isNamed_eq_false (gap.no_variable_compared (x := x)) name
    cases op with
    | set =>
      cases v with
      | binary q op l r => simp [fill, loopStep, hnamed, hnamed']
      | _ => rfl
    | _ => rfl
  | value q t op gap =>
    cases op with
    | add => exact .inr ⟨gap, .up, rfl, rfl, rfl, fun h => h.2.2.2⟩
    | sub => exact .inr ⟨gap, .down, rfl, rfl, rfl, fun h => h.2.2.2⟩
    | set =>
      cases gap with
      | here =>
        obtain ⟨op, l, r, hcompared, hop⟩ := x.compared_eq
        refine .inl ⟨rfl, ?_⟩
        simp only [fill, hcompared]
        show (Expr.literal p "1", Direction.up) = _
        unfold loopStep
        cases op <;> simp_all [BinaryOp.precedence]
      | left q op gap r =>
        refine .inl ⟨rfl, ?_⟩
        simp [fill, loopStep, isNamed_eq_false, no_variable_assigned, no_variable_compared]
      | right q op l gap =>
        by_cases hnamed : (t.isNamed name && l.isNamed name) = true
        · cases op with
          | add =>
            exact .inr ⟨gap, .up, if_pos (by simpa using hnamed), if_pos hnamed, if_pos hnamed,
              fun h => h.2.2.2.2.2⟩
          | sub =>
            exact .inr ⟨gap, .down, if_pos (by simpa using hnamed), if_pos hnamed, if_pos hnamed,
              fun h => h.2.2.2.2.2⟩
          | _ => exact .inl ⟨rfl, (if_pos hnamed).trans (if_pos hnamed).symm⟩
        · refine .inl ⟨if_neg ?_, (if_neg hnamed).trans (if_neg hnamed).symm⟩
          simp_all
      | item listing before gap behind => cases listing <;> exact .inl ⟨rfl, rfl⟩
      | _ => exact .inl ⟨rfl, rfl⟩
    | _ => exact .inl ⟨rfl, rfl⟩
  | item listing before gap behind => cases listing <;> exact .inl ⟨rfl, rfl⟩
  | _ => exact .inl ⟨rfl, rfl⟩

end Expr.Gap

/-- The assignment and the comparison have brackets round them, and everything else has the same
brackets whatever is in the gap. -/
theorem Expr.Gap.wraps_prefixed_fill {x : Sign} (style : Style) (gap : Gap) :
    style.wraps .prefixed (gap.fill x.compared) = style.wraps .prefixed (gap.fill x.assigned) := by
  cases gap with
  | here =>
    obtain ⟨op, l, r, h, -⟩ := x.compared_eq
    rw [fill, fill, h]
    rfl
  | item listing before gap behind => cases listing <;> rfl
  | _ => rfl

namespace Setting

variable {s : Setting} {x : Sign} {test : Option Expr}

/-- Two steps with the gap in them. -/
theorem course_of_gap (hs : s.style ∈ Style.catalogue) (htest : ∀ e ∈ test, e.WellFormed .lexical)
    {gap : Expr.Gap} (h : (gap.fill x.assigned).WellFormed .lexical) (name : String)
    (direction : Direction) :
    ∀ same ∈ (gap.spot s.style x.assigned .enclosed).alike? s.style x,
      Both (fun c c' => c = c' ↔ same = true)
        (s.course test name (gap.fill x.assigned, direction))
        (s.course test name (gap.fill x.compared, direction)) := by
  intro same hsame
  obtain ⟨a, b, ha, hb, hab⟩ := render_fill hs gap .enclosed rfl h rfl rfl same hsame
  obtain ⟨front, strict, direction', hlast⟩ := loopEnd_of_no_number hs htest name direction
  have hplaced : ∀ {e : Expr} {text : String}, s.render .whole e = .ok text →
      s.render .prefixed e = .ok (s.style.place .prefixed e text) := by
    intro e text htext
    rw [render_eq_place s rfl, htext]
    rfl
  have hnumber := gap.numericValue_assigned (x := x)
  have hnumber' := gap.numericValue_compared (x := x)
  have hinj := place_step_inj (gap.wraps_prefixed_fill (x := x) s.style) a b
  have hwell' := Expr.Gap.fill_compared_wellFormed h
  rw [course_of_ne_one (hlast h hnumber (hplaced ha)) hnumber (by simp) ha,
    course_of_ne_one (hlast hwell' hnumber' (hplaced hb)) hnumber' (by simp) hb]
  refine .ok ?_
  cases strict with
  | false => simpa using hab
  | true =>
    simp only [if_true, String.append_assoc, Prod.mk.injEq, true_and, String.append_right_inj]
    rw [← String.append_assoc, ← String.append_assoc, hinj, hab]

end Setting

/-! ## The sign as the whole test -/

/-- A test for inequality. -/
def Expr.isUnequal : Expr → Bool
  | .binary _ .ne _ _ => true
  | _ => false

namespace Setting

variable {s : Setting} {x : Sign} {test : Option Expr} {name : String}

/-- Of the tests that take the place of an assignment only one for inequality has a bound. -/
theorem loopEnd_sign (hs : s.style ∈ Style.catalogue) (hx : x.assigned.WellFormed .lexical)
    {step : Expr} (hstep : step.WellFormed .lexical) (name : String) (direction : Direction) :
    Both (fun l l' => l.2 = l'.2 ∧ (l.1 = l'.1 ↔ (!x.compared.isUnequal) = true))
      (s.loopEnd (some x.assigned) name step direction)
      (s.loopEnd (some x.compared) name step direction) := by
  have hwell := Sign.compared_wellFormed hx
  obtain ⟨op, l, r, hcompared, hop⟩ := x.compared_eq
  rw [loopEnd_of_no_bound (by simp [loopBound?, Sign.assigned]), hcompared]
  rw [hcompared] at hwell
  cases op with
  | ne =>
    obtain ⟨bound, hbound⟩ : ∃ bound,
        loopBound? (some (.binary x.target.pos .ne l r)) name = some (.ne, bound) := by
      unfold loopBound?
      dsimp only
      split
      · rename_i hrelational
        cases hrelational
      · split
        · exact ⟨l, rfl⟩
        · exact ⟨r, rfl⟩
    have hwell' : bound.WellFormed .lexical :=
      loopBound?_wellFormed (by simpa using hwell) hbound
    obtain ⟨last, hlast⟩ := lastValue_yields hs hwell' hstep .ne direction
    obtain ⟨c, hc, -⟩ := lastValue_closes hs hwell' hstep .ne direction last hlast
    have hne : "" ≠ last := by
      rintro rfl
      cases hc
    rw [loopEnd_of_bound hbound (by decide), hlast]
    exact .ok ⟨rfl, by simpa [Expr.isUnequal] using hne⟩
  | eq =>
    have hbound : ∀ b ∈ loopBound? (some (.binary x.target.pos .eq l r)) name, b.1 = .eq := by
      unfold loopBound?
      dsimp only
      split
      · simp
      · split <;> simp [BinaryOp.swapped]
    rw [loopEnd_of_no_bound hbound]
    exact .ok ⟨rfl, by simp [Expr.isUnequal]⟩
  | and | or | other =>
    rw [loopEnd_of_no_bound (by simp [loopBound?, BinaryOp.isRelational])]
    exact .ok ⟨rfl, by simp [Expr.isUnequal]⟩
  | _ => exact absurd hop (by decide)

end Setting

/-! ## The sign as the whole update -/

theorem Sign.loopStep_compared (x : Sign) (p : Pos) (name : String) :
    loopStep p (some (.expression x.compared)) name = (.literal p "1", .up) := by
  obtain ⟨op, l, r, hcompared, -⟩ := x.compared_eq
  rw [hcompared]
  rfl

/-- A loop whose update is a comparison counts up by one. -/
theorem Setting.course_sign {s : Setting} {x : Sign} {test : Option Expr}
    (hs : s.style ∈ Style.catalogue) (htest : ∀ e ∈ test, e.WellFormed .lexical)
    (hx : x.assigned.WellFormed .lexical) (p : Pos) (name : String) :
    Both (fun c c' => c = c' ↔
        countsAlike test name (loopStep p (some (.expression x.assigned)) name) = true)
      (s.course test name (loopStep p (some (.expression x.assigned)) name))
      (s.course test name (loopStep p (some (.expression x.compared)) name)) := by
  have hupdate : ∀ u ∈ some (ForUpdate.expression x.assigned), u.WellFormed .lexical := by
    intro u hu
    obtain rfl := Option.some.inj hu
    exact hx
  rw [x.loopStep_compared]
  exact course_one hs htest (loopStep_wellFormed hupdate p name) name p

/-! ## Counting headers with a gap -/

/-- The gap is all there is. -/
def Expr.Gap.isHere : Gap → Bool
  | .here => true
  | _ => false

theorem Expr.Gap.eq_here {gap : Gap} (h : gap.isHere = true) : gap = .here := by
  cases gap with
  | here => rfl
  | _ => cases h

theorem Expr.Gap.ne_here {gap : Gap} (h : gap.isHere = false) : gap ≠ .here := by
  rintro rfl
  cases h

theorem Header.Gap.fill_compared_wellFormed {V : Vocabulary} {x : Sign} {gap : Header.Gap}
    (h : (gap.fill x.assigned).WellFormed V) : (gap.fill x.compared).WellFormed V := by
  cases gap with
  | init gap c step =>
    refine ⟨?_, h.test, h.update⟩
    intro i hi
    obtain rfl := Option.some.inj hi
    exact ForInit.Gap.fill_compared_wellFormed (h.init _ rfl)
  | test start gap step =>
    refine ⟨h.init, ?_, h.update⟩
    intro e he
    obtain rfl := Option.some.inj he
    exact Expr.Gap.fill_compared_wellFormed (h.test _ rfl)
  | update start c gap =>
    refine ⟨h.init, h.test, ?_⟩
    intro u hu
    obtain rfl := Option.some.inj hu
    exact ForUpdate.Gap.fill_compared_wellFormed (h.update _ rfl)

/-- The spot of a gap in the header of a loop at `p` that counts. -/
def Header.Gap.countedSpot (style : Style) (x : Sign) (p : Pos) (gap : Header.Gap) : Spot :=
  let name := (gap.fill x.assigned).counter
  let sameName := name == (gap.fill x.compared).counter
  match gap with
  | .init gap _ _ => gap.startSpot style x.assigned
  | .test _ gap _ =>
    if gap.isHere then .counted (sameName && !x.compared.isUnequal)
    else gap.boundSpot style x.assigned name
  | .update _ _ (.update _ _) => .unwritten
  | .update _ c (.expression gap) =>
    if gap.isHere then
      .counted (sameName && countsAlike c name (loopStep p (some (.expression x.assigned)) name))
    else gap.stepSpot style x.assigned name

namespace Setting

variable {s : Setting} {x : Sign} {p : Pos}

section Parts

variable {init : Option ForInit} {test : Option Expr} {update : Option ForUpdate}

theorem countingHeader_test_fill (hs : s.style ∈ Style.catalogue) (p : Pos) (gap : Expr.Gap)
    (h : (Header.Gap.fill x.assigned (.test init gap update)).WellFormed .lexical) :
    ∀ same ∈ (Header.Gap.countedSpot s.style x p (.test init gap update)).alike? s.style x,
      TellsApart (same = true) (s.countingHeader p init (some (gap.fill x.assigned)) update)
        (s.countingHeader p init (some (gap.fill x.compared)) update) := by
  intro same hsame
  have h' := Header.Gap.fill_compared_wellFormed h
  have htest := h.test _ rfl
  have hstep := loopStep_wellFormed h.update p
  cases hhere : gap.isHere with
  | true =>
    obtain rfl := gap.eq_here hhere
    obtain rfl := Option.some.inj hsame
    refine countingHeader_of_counters hs h h' rfl fun _ => ?_
    exact course_of_loopEnd hs (hstep _) (loopEnd_sign hs htest (hstep _) _ _)
  | false =>
    have hne := gap.ne_here hhere
    have hvariable : loopVariable (some (gap.fill x.assigned)) update =
        loopVariable (some (gap.fill x.compared)) update := by
      simp only [loopVariable, Option.elim_some, Expr.Gap.comparedSides_fill hne]
    simp only [Header.Gap.countedSpot, hhere, Bool.false_eq_true, if_false] at hsame
    refine countingHeader_of_course hs h h' rfl (counter_eq_of_loopVariable hvariable) ?_
    exact course_of_loopEnd hs (hstep _) (loopEnd_fill hs hne htest (hstep _) _ _ same hsame)

theorem countingHeader_update_fill (hs : s.style ∈ Style.catalogue) (p : Pos) (gap : ForUpdate.Gap)
    (h : (Header.Gap.fill x.assigned (.update init test gap)).WellFormed .lexical) :
    ∀ same ∈ (Header.Gap.countedSpot s.style x p (.update init test gap)).alike? s.style x,
      TellsApart (same = true) (s.countingHeader p init test (some (gap.fill x.assigned)))
        (s.countingHeader p init test (some (gap.fill x.compared))) := by
  intro same hsame
  have h' := Header.Gap.fill_compared_wellFormed h
  cases gap with
  | update u gap =>
    obtain rfl := Option.some.inj hsame
    have hvariable : loopVariable test (some (.update { u with target := gap.fill x.assigned })) =
        loopVariable test (some (.update { u with target := gap.fill x.compared })) := by
      simp [loopVariable, ForUpdate.target?, Expr.Gap.no_variable_assigned,
        Expr.Gap.no_variable_compared]
    refine countingHeader_of_course hs h h' rfl (counter_eq_of_loopVariable hvariable) ?_
    exact course_of_loopStep hs h.test h.update rfl
  | expression gap =>
    cases hhere : gap.isHere with
    | true =>
      obtain rfl := gap.eq_here hhere
      obtain rfl := Option.some.inj hsame
      refine countingHeader_of_counters hs h h' rfl fun _ => ?_
      exact course_sign hs h.test (h.update _ rfl) p _
    | false =>
      have hne := gap.ne_here hhere
      have hvariable : loopVariable test (some (.expression (gap.fill x.assigned))) =
          loopVariable test (some (.expression (gap.fill x.compared))) := by
        simp only [loopVariable, Option.bind_some, Expr.Gap.target?_fill hne]
      simp only [Header.Gap.countedSpot, hhere, Bool.false_eq_true, if_false] at hsame
      refine countingHeader_of_course hs h h' rfl (counter_eq_of_loopVariable hvariable) ?_
      generalize (Header.Gap.fill x.assigned (.update init test (.expression gap))).counter = name
        at hsame ⊢
      rcases Expr.Gap.loopStep_fill hne s.style p name with
        ⟨hspot, hstep⟩ | ⟨gap', direction, hspot, hstep, hstep', hwell⟩
      · rw [hspot] at hsame
        obtain rfl := Option.some.inj hsame
        exact course_of_loopStep hs h.test h.update hstep
      · rw [hspot] at hsame
        have hcourse := course_of_gap hs h.test (hwell (h.update _ rfl)) name direction same hsame
        rw [← hstep, ← hstep'] at hcourse
        exact hcourse

end Parts

/-- What the spot says of the sign is so in the header. -/
theorem countingHeader_fill (hs : s.style ∈ Style.catalogue) (p : Pos) (gap : Header.Gap)
    (h : (gap.fill x.assigned).WellFormed .lexical) :
    ∀ same ∈ (gap.countedSpot s.style x p).alike? s.style x,
      TellsApart (same = true)
        (s.countingHeader p (gap.fill x.assigned).init (gap.fill x.assigned).test
          (gap.fill x.assigned).update)
        (s.countingHeader p (gap.fill x.compared).init (gap.fill x.compared).test
          (gap.fill x.compared).update) := by
  cases gap with
  | init gap test update =>
    intro same hsame
    have hcounter : (Header.counter ⟨some (gap.fill x.assigned), test, update⟩) =
        Header.counter ⟨some (gap.fill x.compared), test, update⟩ := by
      cases gap with
      | declaration d gap => rfl
      | target a gap =>
        simp [ForInit.Gap.fill, Header.counter, Expr.Gap.no_variable_assigned,
          Expr.Gap.no_variable_compared]
      | value a gap => rfl
    exact countingHeader_of_start hs h (Header.Gap.fill_compared_wellFormed h) hcounter
      (loopStart_fill hs gap (h.init _ rfl) same hsame)
  | test init gap update => exact countingHeader_test_fill hs p gap h
  | update init test gap => exact countingHeader_update_fill hs p gap h

end Setting

end Pseudocode
