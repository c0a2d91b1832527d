import Pseudocode.Proofs.Loop.CountingSpots
set_option autoImplicit false

/-!
# Where a sign in a loop header is told apart

A structured header repeats the three parts of a loop, each as the statement or the test that it
is.
-/

namespace Pseudocode

/-- The spot of a gap in the first part of a structured header. -/
def ForInit.Gap.spot (style : Style) (e : Expr) : ForInit.Gap → Spot
  | .declaration _ gap => gap.spot style e (.written .value)
  | .target a gap => (Expr.Gap.target a.pos gap a.op a.value).spot style e (.written .whole)
  | .value a gap => (Expr.Gap.value a.pos a.target a.op gap).spot style e (.written .whole)

/-- The spot of a gap in the last part of a structured header. -/
def ForUpdate.Gap.spot (style : Style) (e : Expr) : ForUpdate.Gap → Spot
  | .update _ gap => gap.spot style e .enclosed
  | .expression gap => gap.statementSpot style e

namespace Setting

variable {s : Setting} {V : Vocabulary} {x : Sign}

theorem initText_fill (hs : s.style ∈ Style.catalogue) (gap : ForInit.Gap)
    (h : (gap.fill x.assigned).WellFormed V) :
    ∀ same ∈ (gap.spot s.style x.assigned).alike? s.style x,
      TellsApart (same = true) (s.initText (some (gap.fill x.assigned)))
        (s.initText (some (gap.fill x.compared))) := by
  intro same hsame
  cases gap with
  | declaration d gap =>
    have hvalue := render_fill hs gap (.written .value) rfl (h.1.2.2 _ rfl) rfl rfl same hsame
    exact hvalue.around fun a b => by simp
  | target a gap =>
    exact render_fill hs (.target a.pos gap a.op a.value) (.written .whole) rfl h rfl rfl same hsame
  | value a gap =>
    exact render_fill hs (.value a.pos a.target a.op gap) (.written .whole) rfl h rfl rfl same hsame

theorem renderUpdate_fill (hs : s.style ∈ Style.catalogue) {u : Update} {gap : Expr.Gap}
    (h : (gap.fill x.assigned).WellFormed V) :
    ∀ same ∈ (gap.spot s.style x.assigned .enclosed).alike? s.style x,
      TellsApart (same = true) (s.renderUpdate { u with target := gap.fill x.assigned })
        (s.renderUpdate { u with target := gap.fill x.compared }) := by
  intro same hsame
  have htarget := render_fill hs gap .enclosed rfl h rfl rfl same hsame
  exact htarget.around fun a b => updateText_inj a b u.op

theorem stepText_fill (hs : s.style ∈ Style.catalogue) (gap : ForUpdate.Gap)
    (h : (gap.fill x.assigned).WellFormed V) :
    ∀ same ∈ (gap.spot s.style x.assigned).alike? s.style x,
      TellsApart (same = true) (s.stepText (some (gap.fill x.assigned)))
        (s.stepText (some (gap.fill x.compared))) := by
  cases gap with
  | update u gap => exact renderUpdate_fill hs h.2.1
  | expression gap => exact renderStatement_fill hs gap h

/-! ## The structured header -/

section Structured

variable {same : Prop} {init : Option ForInit} {test : Option Expr} {update : Option ForUpdate}

theorem structuredHeader_init (hs : s.style ∈ Style.catalogue) {init' : Option ForInit}
    (htest : ∀ e ∈ test, e.WellFormed V) (hupdate : ∀ u ∈ update, u.WellFormed V)
    (h : TellsApart same (s.initText init) (s.initText init')) :
    TellsApart same (s.structuredHeader init test update)
      (s.structuredHeader init' test update) := by
  have hsound := Style.isSound_of_mem hs
  refine h.bind fun a b hab => ?_
  refine .same (elim_yields hsound "" htest .whole) fun middle => ?_
  refine .same (stepText_yields hsound hupdate) fun last => .ok ?_
  simp [hab]

theorem structuredHeader_test (hs : s.style ∈ Style.catalogue) {e e' : Expr}
    (hinit : ∀ i ∈ init, i.WellFormed V) (hupdate : ∀ u ∈ update, u.WellFormed V)
    (h : TellsApart same (s.render .whole e) (s.render .whole e')) :
    TellsApart same (s.structuredHeader init (some e) update)
      (s.structuredHeader init (some e') update) := by
  have hsound := Style.isSound_of_mem hs
  refine .same (initText_yields hsound hinit) fun first => ?_
  refine h.bind fun a b hab => ?_
  refine .same (stepText_yields hsound hupdate) fun last => .ok ?_
  simp [hab]

theorem structuredHeader_update (hs : s.style ∈ Style.catalogue) {update' : Option ForUpdate}
    (hinit : ∀ i ∈ init, i.WellFormed V) (htest : ∀ e ∈ test, e.WellFormed V)
    (h : TellsApart same (s.stepText update) (s.stepText update')) :
    TellsApart same (s.structuredHeader init test update)
      (s.structuredHeader init test update') := by
  have hsound := Style.isSound_of_mem hs
  refine .same (initText_yields hsound hinit) fun first => ?_
  refine .same (elim_yields hsound "" htest .whole) fun middle => ?_
  exact h.around fun a b => by simp

end Structured

end Setting

/-- The spot of a gap in the header of a loop at `p`. -/
def Header.Gap.spot (style : Style) (x : Sign) (p : Pos) (gap : Header.Gap) : Spot :=
  if style.keywords.loopFamily then gap.countedSpot style x p
  else
    match gap with
    | .init gap _ _ => gap.spot style x.assigned
    | .test _ gap _ => gap.spot style x.assigned (.written .whole)
    | .update _ _ gap => gap.spot style x.assigned

namespace Setting

variable {s : Setting} {x : Sign}

/-- A header with a gap. -/
theorem forHead_fill (hs : s.style ∈ Style.catalogue) (p : Pos) (gap : Header.Gap)
    (h : (gap.fill x.assigned).WellFormed .lexical) :
    ∀ same ∈ (gap.spot s.style x p).alike? s.style x,
      TellsApart (same = true)
        (s.forHead p (gap.fill x.assigned).init (gap.fill x.assigned).test
          (gap.fill x.assigned).update)
        (s.forHead p (gap.fill x.compared).init (gap.fill x.compared).test
          (gap.fill x.compared).update) := by
  intro same hsame
  unfold Header.Gap.spot at hsame
  unfold forHead
  cases hfamily : s.style.keywords.loopFamily with
  | true =>
    rw [hfamily] at hsame
    exact (countingHeader_fill hs p gap h same hsame).around fun a b => by simp
  | false =>
    rw [hfamily] at hsame
    have hheader : TellsApart (same = true)
        (s.structuredHeader (gap.fill x.assigned).init (gap.fill x.assigned).test
          (gap.fill x.assigned).update)
        (s.structuredHeader (gap.fill x.compared).init (gap.fill x.compared).test
          (gap.fill x.compared).update) := by
      cases gap with
      | init gap test update =>
        exact structuredHeader_init hs h.test h.update
          (initText_fill hs gap (h.init _ rfl) same hsame)
      | test init gap update =>
        exact structuredHeader_test hs h.init h.update
          (render_fill hs gap (.written .whole) rfl (h.test _ rfl) rfl rfl same hsame)
      | update init test gap =>
        exact structuredHeader_update hs h.init h.test
          (stepText_fill hs gap (h.update _ rfl) same hsame)
    exact hheader.around fun a b => by simp

end Setting

end Pseudocode
