import Pseudocode.Proofs.Loop.Counting
set_option autoImplicit false

/-!
# Loops with a larger step

A loop between integers that counts by two or more has a header with a step, and the last
value in it is one step short of the bound of the test.  That is the last value of the loop
if the way from the first value to the bound is a whole number of steps.  Otherwise the
loop goes on for one more round, which the header leaves out.
-/

namespace Pseudocode

/-! ## Counting by steps -/

namespace Direction

/-- The value that lies a way off in a direction. -/
def offset : Direction → Int → Int → Int
  | .up, x, way => x + way
  | .down, x, way => x - way

/-- The way from a value to another one in a direction, negative if it leads back. -/
def way : Direction → Int → Int → Int
  | .up, x, y => y - x
  | .down, x, y => x - y

/-- The first `n` values of a count by steps. -/
def stride (d : Direction) (first step : Int) (n : Nat) : List Int :=
  (List.range n).map fun k : Nat => d.offset first (k * step)

/-- The values of a count by steps that are not beyond the last one. -/
def strideTo (d : Direction) (first last step : Int) : List Int :=
  d.stride first step (d.way first last / step + 1).toNat

end Direction

/-- The header counts the variable `v` through the values: it names a first and a last one and
a step, all as texts of the style, and a direction.  The last value is included if the count
meets it. -/
def Style.Strides (style : Style) (calls : Functions) (ρ : Env) (v : String) (header : String)
    (values : List Int) : Prop :=
  ∃ (direction : Direction) (start stop stepText : String) (first last step : Int),
    header = v ++ " from " ++ start ++ " " ++ direction.word ++ " " ++ stop ++ " step " ++
      stepText ∧
    style.valueOf? calls ρ start = some first ∧ style.valueOf? calls ρ stop = some last ∧
    style.valueOf? calls ρ stepText = some step ∧ 0 < step ∧
    values = direction.strideTo first last step

/-- The update takes the variable `v` on by the number `step`. -/
inductive StridesBy (v : String) (d : Direction) (step : String) : ForUpdate → Prop
  | compound (p q r : Pos) :
      StridesBy v d step (.expression (.assign p (.name q v) d.assignOp (.literal r step)))
  | sum (p q r t u : Pos) : StridesBy v d step (.expression
      (.assign p (.name q v) .set (.binary r d.binaryOp (.name t v) (.literal u step))))

/-- A loop that counts a variable up or down from an integer, by a step of two or more, as long
as it is short of another integer.  Floating-point numbers tell each of the three from its
neighbours. -/
structure StrideLoop where
  name : String
  start : Expr
  first : Int
  bound : Expr
  limit : Int
  step : String
  direction : Direction
  init : Option ForInit
  test : Expr
  update : ForUpdate
  isName : Token.isLexeme .identifier name = true
  starts : StartsAt name init start
  compares : Compares name direction.strictOp bound test
  strides : StridesBy name direction step update
  start_integer : start.integer? = some first
  bound_integer : bound.integer? = some limit
  step_integer : Numeral.IsInteger step
  two_le_step : 2 ≤ Numeral.integer step
  first_lt : first.natAbs < 2 ^ 53
  limit_lt : limit.natAbs < 2 ^ 53
  step_lt : Numeral.integer step < 2 ^ 53

/-! ## Lengths of counts -/

namespace Direction

variable {d : Direction} {x first last step limit : Int} {n : Nat}

theorem stride_succ (d : Direction) (x step : Int) (n : Nat) :
    d.stride x step (n + 1) = x :: d.stride (d.offset x step) step n := by
  rw [stride, List.range_succ_eq_map, List.map_cons, List.map_map, stride]
  refine congrArg₂ List.cons ?_ (List.map_congr_left fun k _ => ?_)
  · cases d <;> simp [offset]
  · cases d <;> simp only [offset, Function.comp_apply, Nat.succ_eq_add_one, Nat.cast_add,
      Nat.cast_one, Int.add_mul, Int.one_mul] <;> omega

theorem stride_concat (d : Direction) (x step : Int) (n : Nat) :
    d.stride x step (n + 1) = d.stride x step n ++ [d.offset x (n * step)] := by
  rw [stride, List.range_succ, List.map_append, List.map_singleton, stride]

/-- The number of steps that bring a value to a limit or beyond it. -/
def stepsTo (d : Direction) (x limit step : Int) : Nat :=
  ((d.way x limit + step - 1) / step).toNat

theorem stepsTo_of_nonpos (hstep : 0 < step) (h : d.way x limit ≤ 0) :
    d.stepsTo x limit step = 0 := by
  have hlt : (d.way x limit + step - 1) / step < 1 := Int.ediv_lt_of_lt_mul hstep (by omega)
  rw [stepsTo]
  omega

/-- Short of the limit, one more step is left than after the next one. -/
theorem stepsTo_of_pos (hstep : 0 < step) (h : 0 < d.way x limit) :
    d.stepsTo x limit step = d.stepsTo (d.offset x step) limit step + 1 := by
  have hway : d.way (d.offset x step) limit = d.way x limit - step := by
    cases d <;> simp only [way, offset] <;> omega
  have hsplit : (d.way x limit + step - 1) / step = (d.way x limit - 1) / step + 1 := by
    rw [show d.way x limit + step - 1 = d.way x limit - 1 + 1 * step by omega,
      Int.add_mul_ediv_right _ _ (Int.ne_of_gt hstep)]
  have hnonneg : 0 ≤ (d.way x limit - 1) / step := Int.ediv_nonneg (by omega) (Int.le_of_lt hstep)
  rw [stepsTo, stepsTo, hway, hsplit, show d.way x limit - step + step - 1 = d.way x limit - 1 by
    omega]
  omega

/-- The limit is met by as many steps as fit into the way to it, or it takes one more. -/
theorem stepsTo_eq (d : Direction) (x limit : Int) (hstep : 0 < step) :
    (d.way x limit ≤ 0 ∨ step ∣ d.way x limit →
      d.stepsTo x limit step = (d.way x limit / step).toNat) ∧
    (¬ (d.way x limit ≤ 0 ∨ step ∣ d.way x limit) →
      d.stepsTo x limit step = (d.way x limit / step).toNat + 1) := by
  have hdiv := Int.mul_ediv_add_emod (d.way x limit) step
  have hmod := Int.emod_lt_of_pos (d.way x limit) hstep
  have hmod' := Int.emod_nonneg (d.way x limit) (Int.ne_of_gt hstep)
  constructor
  · rintro (hback | hdvd)
    · have hle : d.way x limit / step ≤ 0 := by
        have hlt : d.way x limit / step < 1 := Int.ediv_lt_of_lt_mul hstep (by omega)
        omega
      rw [stepsTo_of_nonpos hstep hback]
      omega
    · obtain ⟨q, hq⟩ := hdvd
      have hround : (step * q + step - 1) / step = q := by
        rw [show step * q + step - 1 = step - 1 + step * q by omega,
          Int.add_mul_ediv_left _ _ (Int.ne_of_gt hstep),
          Int.ediv_eq_zero_of_lt (by omega) (by omega), Int.zero_add]
      rw [stepsTo, hq, hround, Int.mul_ediv_cancel_left _ (Int.ne_of_gt hstep)]
  · intro hrest
    rw [not_or, Int.not_le] at hrest
    obtain ⟨hpos, hdvd⟩ := hrest
    have hne : d.way x limit % step ≠ 0 := fun h => hdvd (Int.dvd_of_emod_eq_zero h)
    have hround : (d.way x limit + step - 1) / step = d.way x limit / step + 1 := by
      rw [show d.way x limit + step - 1 =
          d.way x limit % step - 1 + step * (d.way x limit / step + 1) by
        rw [Int.mul_add, Int.mul_one]; omega,
        Int.add_mul_ediv_left _ _ (Int.ne_of_gt hstep),
        Int.ediv_eq_zero_of_lt (by omega) (by omega), Int.zero_add]
    have hnonneg : 0 ≤ d.way x limit / step := Int.ediv_nonneg (by omega) (Int.le_of_lt hstep)
    rw [stepsTo, hround]
    omega

end Direction

/-! ## The rounds of a loop -/

theorem StridesBy.run?_eq {calls : Functions} {ρ : Env} {v step : String} {d : Direction}
    {update : ForUpdate} (h : StridesBy v d step update) (hstep : Numeral.IsInteger step) :
    update.run? calls ρ = some (ρ.set v (d.offset (ρ v) (Numeral.integer step))) := by
  have hvalue : ∀ p, (Expr.literal p step).value? calls ρ = some (Numeral.integer step : Int) :=
    fun p => Expr.value?_literal hstep p
  cases h with
  | compound p q r => cases d <;> simp only [ForUpdate.run?, hvalue] <;> rfl
  | sum p q r t u => cases d <;> simp only [ForUpdate.run?, Expr.value?_binary, hvalue] <;> rfl

namespace StrideLoop

variable (loop : StrideLoop) {calls : Functions} {ρ σ : Env} {body : Env → Env}

/-- The step as an integer. -/
def stepValue : Int :=
  Numeral.integer loop.step

theorem two_le_stepValue : 2 ≤ loop.stepValue :=
  Int.ofNat_le.mpr loop.two_le_step

theorem stepValue_pos : 0 < loop.stepValue :=
  Int.lt_of_lt_of_le (by decide) loop.two_le_stepValue

/-- The way from the first value to the bound. -/
def way : Int :=
  loop.direction.way loop.first loop.limit

theorem holds?_test :
    loop.test.holds? calls σ =
      some (decide (0 < loop.direction.way (σ loop.name) loop.limit)) := by
  have hvalue : loop.bound.value? calls σ = some loop.limit :=
    Expr.value?_of_integer? loop.bound_integer
  rw [loop.compares.holds?_eq hvalue]
  cases loop.direction with
  | up =>
    refine congrArg some (decide_eq_decide.mpr ?_)
    show σ loop.name < loop.limit ↔ 0 < loop.limit - σ loop.name
    omega
  | down =>
    refine congrArg some (decide_eq_decide.mpr ?_)
    show σ loop.name > loop.limit ↔ 0 < σ loop.name - loop.limit
    omega

/-- A loop whose body leaves the variable alone takes the steps that bring it to the bound. -/
theorem rounds_iff (hbody : ∀ σ, body σ loop.name = σ loop.name) {values : List Int} :
    Rounds calls loop.name loop.test loop.update body σ values ↔
      values = loop.direction.stride (σ loop.name) loop.stepValue
        (loop.direction.stepsTo (σ loop.name) loop.limit loop.stepValue) := by
  -- The induction is on the steps that are left.
  generalize hn : loop.direction.stepsTo (σ loop.name) loop.limit loop.stepValue = n
  induction n generalizing σ values with
  | zero =>
    have hreached : ¬ 0 < loop.direction.way (σ loop.name) loop.limit := by
      intro hpos
      rw [Direction.stepsTo_of_pos loop.stepValue_pos hpos] at hn
      cases hn
    have htest : loop.test.holds? calls σ = some false := by
      rw [loop.holds?_test, decide_eq_false hreached]
    exact Rounds.iff_nil htest
  | succ n ih =>
    have hshort : 0 < loop.direction.way (σ loop.name) loop.limit := by
      by_contra hreached
      rw [Direction.stepsTo_of_nonpos loop.stepValue_pos (Int.not_lt.mp hreached)] at hn
      cases hn
    have htest : loop.test.holds? calls σ = some true := by
      rw [loop.holds?_test, decide_eq_true hshort]
    have hstep : loop.update.run? calls (body σ) = some ((body σ).set loop.name
        (loop.direction.offset (σ loop.name) loop.stepValue)) := by
      rw [loop.strides.run?_eq loop.step_integer, hbody σ]
      rfl
    generalize hτ : (body σ).set loop.name
      (loop.direction.offset (σ loop.name) loop.stepValue) = τ at hstep
    have hname : τ loop.name = loop.direction.offset (σ loop.name) loop.stepValue := by
      rw [← hτ, Env.set_self]
    rw [Direction.stepsTo_of_pos loop.stepValue_pos hshort, ← hname] at hn
    rw [Rounds.iff_cons htest hstep, Direction.stride_succ, ← hname]
    simp only [ih (Nat.succ.inj hn), exists_eq_right]

end StrideLoop

/-! ## The header of a loop -/

namespace Expr

variable {e : Expr} {k : Int}

theorem arithmetic_of_integer? (h : e.integer? = some k) : e.Arithmetic := by
  induction e generalizing k with
  | literal p raw =>
    unfold integer? at h
    split at h
    · rename_i hraw
      exact hraw
    · cases h
  | unary p op operand ih =>
    cases op with
    | neg =>
      obtain ⟨x, hx, -⟩ := Option.map_eq_some_iff.mp h
      exact ⟨rfl, ih hx⟩
    | _ => cases h
  | _ => cases h

/-- No variable occurs in an integer. -/
theorem names_of_integer? (h : e.integer? = some k) : e.names = [] := by
  induction e generalizing k with
  | literal p raw => rfl
  | unary p op operand ih =>
    cases op with
    | neg =>
      obtain ⟨x, hx, -⟩ := Option.map_eq_some_iff.mp h
      exact ih hx
    | _ => cases h
  | _ => cases h

/-- An integer that is small enough is worked out as it is. -/
theorem exists_numericValue (h : e.integer? = some k) (hk : k.natAbs < 2 ^ 53) :
    ∃ x, e.numericValue = .ok (some x) ∧ x.toInt? = some k := by
  rcases (arithmetic_of_integer? h).numericValue_eq with ⟨hnone, -⟩ | ⟨i, x, hi, hvalue, hx⟩
  · cases hnone.symm.trans h
  · obtain rfl := Option.some.inj (hi.symm.trans h)
    exact ⟨x, hvalue, hx (Nat.le_of_lt hk)⟩

end Expr

section Parts

variable {v step : String} {d : Direction} {update : ForUpdate}

theorem StridesBy.loopStep_eq (h : StridesBy v d step update) (hv : v ≠ "") (p : Pos) :
    ∃ q, loopStep p (some update) v = (.literal q step, d) := by
  cases h with
  | compound q r t => exact ⟨t, by cases d <;> rfl⟩
  | sum q r t u w =>
    refine ⟨w, ?_⟩
    cases d <;> simp [loopStep, Direction.binaryOp, Expr.isNamed_name hv]

theorem StridesBy.loopVariable_eq (h : StridesBy v d step update) (test : Option Expr) :
    loopVariable test (some update) = v := by
  cases h <;> rfl

end Parts

/-- The bound less one step.  If that is rounded, it is far behind the first value, and then
there is no room for a step between the first value and the bound. -/
theorem Direction.exists_endValue {d : Direction} {x y : Binary64} {first limit step : Int}
    (hx : x.toInt? = some limit) (hy : y.toInt? = some step) (hfirst : first.natAbs < 2 ^ 53)
    (hlimit : limit.natAbs < 2 ^ 53) (hpos : 0 < step) (hstep : step < 2 ^ 53) :
    ∃ last, (if d.strictOp = .lt then x.sub y else x.add y).toInt? = some last ∧
      (last = d.offset limit (-step) ∨ d.way first last < 0 ∧ d.way first limit < step) := by
  cases d with
  | up =>
    have hneg := Binary64.toInt?_neg hy
    by_cases hsmall : (limit + -step).natAbs ≤ 2 ^ 53
    · exact ⟨_, Binary64.toInt?_add hx hneg hsmall, .inl rfl⟩
    · obtain ⟨last, hlast, hbelow, -⟩ :=
        Binary64.toInt?_add_large hx hneg (by omega) (by omega)
      have hlow := hbelow (by omega)
      refine ⟨last, hlast, .inr ?_⟩
      simp only [way]
      omega
  | down =>
    by_cases hsmall : (limit + step).natAbs ≤ 2 ^ 53
    · refine ⟨_, Binary64.toInt?_add hx hy hsmall, .inl ?_⟩
      simp only [offset]
      omega
    · obtain ⟨last, hlast, -, habove⟩ := Binary64.toInt?_add_large hx hy (by omega) (by omega)
      have hhigh := habove (by omega)
      refine ⟨last, hlast, .inr ?_⟩
      simp only [way]
      omega

/-- Up to that value there are as many steps as fit into the way to the bound. -/
theorem Direction.count_eq {d : Direction} {first last limit step : Int} (hpos : 0 < step)
    (h : last = d.offset limit (-step) ∨ d.way first last < 0 ∧ d.way first limit < step) :
    (d.way first last / step + 1).toNat = (d.way first limit / step).toNat := by
  rcases h with rfl | ⟨hback, hroom⟩
  · have hway : d.way first (d.offset limit (-step)) = d.way first limit + -1 * step := by
      cases d <;> simp only [way, offset] <;> omega
    rw [hway, Int.add_mul_ediv_right _ _ (Int.ne_of_gt hpos)]
    congr 1
    omega
  · have hnone : d.way first last / step < 0 := Int.ediv_neg_of_neg_of_pos hback hpos
    have hfew : d.way first limit / step < 1 := Int.ediv_lt_of_lt_mul hpos (by omega)
    omega

namespace StrideLoop

variable (loop : StrideLoop) {s : Setting}

theorem integer?_step (q : Pos) : (Expr.literal q loop.step).integer? = some loop.stepValue :=
  if_pos loop.step_integer

/-- The step is worked out as it is. -/
theorem exists_stepNumber (q : Pos) :
    ∃ y, (Expr.literal q loop.step).numericValue = .ok (some y) ∧
      y.toInt? = some loop.stepValue :=
  Expr.exists_numericValue (loop.integer?_step q) loop.step_lt

/-- The last value in the header, and how far the count goes. -/
theorem exists_loopEnd (hv : loop.name ≠ "") (q : Pos) :
    ∃ text last, s.loopEnd (some loop.test) loop.name (.literal q loop.step) loop.direction =
        .ok (text, loop.direction) ∧
      (∀ calls ρ, s.Tells calls ρ text last) ∧
      loop.direction.strideTo loop.first last loop.stepValue =
        loop.direction.stride loop.first loop.stepValue (loop.way / loop.stepValue).toNat := by
  obtain ⟨x, hbound, hx⟩ := Expr.exists_numericValue loop.bound_integer loop.limit_lt
  obtain ⟨y, hstep, hy⟩ := loop.exists_stepNumber q
  have hpos := loop.stepValue_pos
  have hsmall : loop.stepValue < 2 ^ 53 := Int.ofNat_lt.mpr loop.step_lt
  obtain ⟨last, hlast, hend⟩ := Direction.exists_endValue (d := loop.direction) hx hy
    loop.first_lt loop.limit_lt hpos hsmall
  have hbefore : s.endBefore loop.direction.strictOp loop.bound (.literal q loop.step) =
      .ok (toString last) := by
    simp only [Setting.endBefore, hbound, hstep, Binary64.isPositive_of_toInt? hy hpos, bind,
      Except.bind, if_true]
    exact congrArg Except.ok (by rw [Binary64.plainText, hlast])
  have hrelational : loop.direction.strictOp.isRelational = true := by
    cases loop.direction <;> rfl
  have hfresh : loop.name ∉ loop.bound.names := by
    rw [Expr.names_of_integer? loop.bound_integer]
    exact List.not_mem_nil
  refine ⟨toString last, last, ?_, fun _ _ => Setting.tells_toString last, ?_⟩
  · rw [Setting.loopEnd, loop.compares.loopBound?_eq hrelational hv hfresh]
    generalize loop.direction = d at hbefore ⊢
    cases d with
    | up => exact congrArg (· >>= fun text => .ok (text, Direction.up)) hbefore
    | down => exact congrArg (· >>= fun text => .ok (text, Direction.down)) hbefore
  · rw [Direction.strideTo, Direction.count_eq hpos hend, way]

/-- The header of a loop: texts for its first and its last value, and its step. -/
theorem exists_countingHeader (hmodulo : Token.isLexeme .identifier s.style.modulo = true)
    (p : Pos) :
    ∃ header, s.countingHeader p loop.init (some loop.test) (some loop.update) = .ok header ∧
      ∀ calls ρ, s.style.Strides calls ρ loop.name header
        (loop.direction.stride loop.first loop.stepValue (loop.way / loop.stepValue).toNat) := by
  have hv := Setting.ne_empty_of_isLexeme loop.isName
  have harithmetic := Expr.arithmetic_of_integer? loop.start_integer
  obtain ⟨start, hstart⟩ := Setting.exists_written (s := s) hmodulo harithmetic .whole
  have hfirst : ∀ calls ρ, s.Tells calls ρ start loop.first := fun _ _ =>
    hstart.tells harithmetic (Expr.value?_of_integer? loop.start_integer)
  obtain ⟨q, hstep⟩ := loop.strides.loopStep_eq hv p
  obtain ⟨stop, last, hstop, hlast, hvalues⟩ := loop.exists_loopEnd (s := s) hv q
  have hwritten : s.Written .whole (.literal q loop.step) loop.step :=
    Setting.written_literal loop.step_integer
  have hsteps : ∀ calls ρ, s.Tells calls ρ loop.step loop.stepValue := fun _ _ =>
    hwritten.tells loop.step_integer (Expr.value?_of_integer? (loop.integer?_step q))
  obtain ⟨y, hnumber, hy⟩ := loop.exists_stepNumber q
  have hone : y ≠ .ofNat 1 := by
    rintro rfl
    have htwo := loop.two_le_stepValue
    rw [← Option.some.inj hy] at htwo
    exact absurd htwo (by decide)
  generalize hheader : loop.name ++ " from " ++ start ++ " " ++ loop.direction.word ++ " " ++
    stop ++ " step " ++ loop.step = header
  have htrim : Text.trim header = header := by
    rw [← hheader]
    exact Text.trim_of_isName loop.isName (by simp) (hwritten.visible.append _)
  refine ⟨header, ?_, ?_⟩
  · rw [Setting.countingHeader,
      loop.starts.loopStart_eq hv (loop.strides.loopVariable_eq _) hstart.render]
    simp only [bind, Except.bind, hstep, hstop, hnumber, hone, hwritten.render, Option.some.injEq,
      if_false, hheader]
    exact congrArg Except.ok htrim
  · intro calls ρ
    exact ⟨loop.direction, start, stop, loop.step, loop.first, last, loop.stepValue,
      hheader.symm, (hfirst calls ρ).value, (hlast calls ρ).value, (hsteps calls ρ).value,
      loop.stepValue_pos, hvalues.symm⟩

/-- **Larger steps.**  In the styles that write a loop as a count, every loop between integers
that counts by two or more has a header with its step.  If the loop has no round, or if the
step divides the way from the first value to the bound, then the values that the header counts
through are those that the variable has in the rounds of the loop.  In all other loops the
header leaves out the last round, and only that. -/
theorem header_strides_rounds {style : Style} (hstyle : style ∈ Style.catalogue)
    (hfamily : style.keywords.loopFamily = true) (types : TypeTable) (p : Pos)
    (calls : Functions) (ρ : Env) {body : Env → Env}
    (hbody : ∀ σ, body σ loop.name = σ loop.name) :
    ∃ header values rounds,
      Setting.countingHeader ⟨style, types⟩ p loop.init (some loop.test) (some loop.update) =
        .ok header ∧
      style.Strides calls ρ loop.name header values ∧
      (∃ σ, ForInit.run? calls ρ loop.init = some σ ∧
        ∀ taken, Rounds calls loop.name loop.test loop.update body σ taken ↔ taken = rounds) ∧
      (loop.way ≤ 0 ∨ loop.stepValue ∣ loop.way → rounds = values) ∧
      (¬ (loop.way ≤ 0 ∨ loop.stepValue ∣ loop.way) → ∃ x, rounds = values ++ [x]) := by
  have hmodulo := Style.isLexeme_modulo hstyle hfamily
  obtain ⟨header, hheader, hstrides⟩ :=
    loop.exists_countingHeader (s := ⟨style, types⟩) hmodulo p
  have hstart : loop.start.value? calls ρ = some loop.first :=
    Expr.value?_of_integer? loop.start_integer
  obtain ⟨σ, hinit, hfirst, -⟩ := loop.starts.run?_eq hstart
  have hrounds : ∀ taken, Rounds calls loop.name loop.test loop.update body σ taken ↔
      taken = loop.direction.stride loop.first loop.stepValue
        (loop.direction.stepsTo loop.first loop.limit loop.stepValue) := by
    intro taken
    rw [loop.rounds_iff hbody, hfirst]
  obtain ⟨hexact, hmore⟩ :=
    loop.direction.stepsTo_eq loop.first loop.limit loop.stepValue_pos
  refine ⟨header, _, _, hheader, hstrides calls ρ, ⟨σ, hinit, hrounds⟩, ?_, ?_⟩
  · intro h
    rw [hexact h, way]
  · intro h
    rw [hmore h, Direction.stride_concat, way]
    exact ⟨_, rfl⟩

/-- The loop `for (int k = 0; k < 5; k += 2)`. -/
def fiveLoop : StrideLoop where
  name := "k"
  start := .literal .start "0"
  first := 0
  bound := .literal .start "5"
  limit := 5
  step := "2"
  direction := .up
  init := some (.declaration ⟨.start, "k", "int", 0, some (.literal .start "0")⟩)
  test := .binary .start .lt (.name .start "k") (.literal .start "5")
  update := .expression (.assign .start (.name .start "k") .add (.literal .start "2"))
  isName := by decide
  starts := .declared .start _
  compares := .direct .start .start
  strides := .compound .start .start .start
  start_integer := by decide
  bound_integer := by decide
  step_integer := by decide
  two_le_step := by decide
  first_lt := by decide
  limit_lt := by decide
  step_lt := by decide

/-- The header says `k from 0 to 3 step 2`, which is 0 and 2.  The variable also has the
value 4. -/
theorem header_strides_rounds_fiveLoop :
    Setting.countingHeader ⟨.looping "sc-03" false Style.removal, .empty⟩ .start fiveLoop.init
      (some fiveLoop.test) (some fiveLoop.update) = .ok "k from 0 to 3 step 2" ∧
    (Style.looping "sc-03" false Style.removal).Strides (fun _ _ => none) (fun _ => 0) "k"
      "k from 0 to 3 step 2" [0, 2] ∧
    ∃ σ, ForInit.run? (fun _ _ => none) (fun _ => 0) fiveLoop.init = some σ ∧
      ∀ taken, Rounds (fun _ _ => none) "k" fiveLoop.test fiveLoop.update id σ taken ↔
        taken = [0, 2, 4] := by
  have htext : Setting.countingHeader ⟨.looping "sc-03" false Style.removal, .empty⟩ .start
      fiveLoop.init (some fiveLoop.test) (some fiveLoop.update) = .ok "k from 0 to 3 step 2" := by
    decide
  have hstyle : Style.looping "sc-03" false Style.removal ∈ Style.catalogue := by decide
  have hbody : ∀ σ : Env, id σ fiveLoop.name = σ fiveLoop.name := fun _ => rfl
  obtain ⟨header, values, rounds, hheader, hstrides, ⟨σ, hinit, hrounds⟩, -, hmissing⟩ :=
    fiveLoop.header_strides_rounds hstyle (by decide) .empty .start (fun _ _ => none) (fun _ => 0)
      hbody
  obtain rfl := Except.ok.inj (hheader.symm.trans htext)
  have hthree : Rounds (fun _ _ => none) "k" fiveLoop.test fiveLoop.update id σ [0, 2, 4] := by
    obtain rfl := Option.some.inj hinit
    exact .next rfl rfl (.next rfl rfl (.next rfl rfl (.stop rfl)))
  obtain rfl := (hrounds [0, 2, 4]).mp hthree
  obtain ⟨x, hx⟩ := hmissing (by decide)
  have hvalues : [0, 2] ++ [4] = values ++ [x] := hx
  obtain ⟨rfl, -⟩ := List.append_inj' hvalues rfl
  exact ⟨htext, hstrides, σ, hinit, hrounds⟩

end StrideLoop

end Pseudocode
