import Pseudocode.Proofs.Loop.Arithmetic
import Pseudocode.Proofs.Number.Exact
import Pseudocode.Render.Loop
import Pseudocode.Style.Catalogue
set_option autoImplicit false

/-!
# Counting loops

A loop that counts by one is run on integers, round by round, and its header is taken at
its word: it counts from the value of its first text to the value of its last one.  The
two give the variable the same values, also where the last text is not the bound of the
test but one short of it, and where there is no round at all.
-/

namespace Pseudocode

/-! ## Running a loop -/

/-- The outcome of a comparison of integers. -/
def BinaryOp.compare? : BinaryOp → Int → Int → Option Bool
  | .eq, x, y => some (decide (x = y))
  | .ne, x, y => some (decide (x ≠ y))
  | .lt, x, y => some (decide (x < y))
  | .gt, x, y => some (decide (x > y))
  | .le, x, y => some (decide (x ≤ y))
  | .ge, x, y => some (decide (x ≥ y))
  | _, _, _ => none

/-- Whether a comparison of arithmetic expressions holds. -/
def Expr.holds? (calls : Functions) (ρ : Env) : Expr → Option Bool
  | .binary _ op l r => (l.value? calls ρ).bind fun x => (r.value? calls ρ).bind (op.compare? x)
  | _ => none

/-- The values of variables after an assignment. -/
def Env.set (ρ : Env) (n : String) (x : Int) : Env :=
  fun m => if m = n then x else ρ m

@[simp] theorem Env.set_self (ρ : Env) (n : String) (x : Int) : ρ.set n x n = x :=
  if_pos rfl

theorem Env.set_of_ne (ρ : Env) {m n : String} (x : Int) (h : m ≠ n) : ρ.set n x m = ρ m :=
  if_neg h

/-- Assigns to a variable, with the operator of a compound assignment applied first. -/
def AssignOp.run? (op : AssignOp) (ρ : Env) (n : String) (x : Int) : Option Env :=
  if op = .set then some (ρ.set n x)
  else (op.applied?.bind fun applied => applied.result? (ρ n) x).map (ρ.set n)

/-- Changes a variable by one. -/
def UpdateOp.run? (ρ : Env) (n : String) : UpdateOp → Option Env
  | .increment => some (ρ.set n (ρ n + 1))
  | .decrement => some (ρ.set n (ρ n - 1))
  | .other _ => none

/-- What a loop does first: it sets a variable, or nothing. -/
def ForInit.run? (calls : Functions) (ρ : Env) : Option ForInit → Option Env
  | none => some ρ
  | some (.declaration d) => d.value.bind fun e => (e.value? calls ρ).map (ρ.set d.name)
  | some (.assignment ⟨_, .name _ n, op, e⟩) => (e.value? calls ρ).bind (op.run? ρ n)
  | _ => none

/-- What a loop does after each round. -/
def ForUpdate.run? (calls : Functions) (ρ : Env) : ForUpdate → Option Env
  | .update ⟨_, .name _ n, op⟩ => op.run? ρ n
  | .expression (.update _ op (.name _ n)) => op.run? ρ n
  | .expression (.assign _ (.name _ n) op e) => (e.value? calls ρ).bind (op.run? ρ n)
  | _ => none

/-- The rounds of a loop that ends: the values of the variable `v` at the start of each. -/
inductive Rounds (calls : Functions) (v : String) (test : Expr) (update : ForUpdate)
    (body : Env → Env) : Env → List Int → Prop
  | stop {ρ : Env} (htest : test.holds? calls ρ = some false) : Rounds calls v test update body ρ []
  | next {ρ σ : Env} {values : List Int} (htest : test.holds? calls ρ = some true)
      (hupdate : update.run? calls (body ρ) = some σ)
      (hrest : Rounds calls v test update body σ values) :
      Rounds calls v test update body ρ (ρ v :: values)

namespace Rounds

variable {calls : Functions} {v : String} {test : Expr} {update : ForUpdate} {body : Env → Env}
  {ρ σ : Env} {values : List Int}

theorem iff_nil (htest : test.holds? calls ρ = some false) :
    Rounds calls v test update body ρ values ↔ values = [] := by
  constructor
  · intro h
    cases h with
    | stop => rfl
    | next htrue => simp [htest] at htrue
  · rintro rfl
    exact stop htest

theorem iff_cons (htest : test.holds? calls ρ = some true)
    (hupdate : update.run? calls (body ρ) = some σ) :
    Rounds calls v test update body ρ values ↔
      ∃ rest, values = ρ v :: rest ∧ Rounds calls v test update body σ rest := by
  constructor
  · intro h
    cases h with
    | stop hfalse => simp [htest] at hfalse
    | next _ hupdate' hrest =>
      obtain rfl := Option.some.inj (hupdate.symm.trans hupdate')
      exact ⟨_, rfl, hrest⟩
  · rintro ⟨rest, rfl, hrest⟩
    exact next htest hupdate hrest

end Rounds

/-! ## Headers at their word -/

namespace Direction

/-- The next value in a direction. -/
def next : Direction → Int → Int
  | .up, x => x + 1
  | .down, x => x - 1

/-- A value not beyond the last one. -/
def Within : Direction → Int → Int → Prop
  | .up, x, last => x ≤ last
  | .down, x, last => last ≤ x

instance (d : Direction) (x last : Int) : Decidable (d.Within x last) :=
  match d with
  | .up => inferInstanceAs (Decidable (x ≤ last))
  | .down => inferInstanceAs (Decidable (last ≤ x))

/-- The values from the first to the last one, both of them included. -/
def span : Direction → Int → Int → List Int
  | .up, first, last => (List.range (last + 1 - first).toNat).map fun k : Nat => first + k
  | .down, first, last => (List.range (first + 1 - last).toNat).map fun k : Nat => first - k

end Direction

/-- The header counts the variable `v` through the values: it names a first and a last one,
both as texts of the style, and a direction, and says nothing about a step. -/
def Style.Counts (style : Style) (calls : Functions) (ρ : Env) (v : String) (header : String)
    (values : List Int) : Prop :=
  ∃ (direction : Direction) (start stop : String) (first last : Int),
    header = v ++ " from " ++ start ++ " " ++ direction.word ++ " " ++ stop ∧
    style.valueOf? calls ρ start = some first ∧ style.valueOf? calls ρ stop = some last ∧
    values = direction.span first last

/-! ## Loops that count by one -/

/-- The loop starts with the variable `v` at the value of an expression.  Without a first
step that is the value it has. -/
inductive StartsAt (v : String) : Option ForInit → Expr → Prop
  | declared (p : Pos) (start : Expr) :
      StartsAt v (some (.declaration ⟨p, v, "int", 0, some start⟩)) start
  | assigned (p q : Pos) (start : Expr) :
      StartsAt v (some (.assignment ⟨p, .name q v, .set, start⟩)) start
  | absent (p : Pos) : StartsAt v none (.name p v)

/-- The test compares the variable `v` with a bound, which may stand on either side. -/
inductive Compares (v : String) (op : BinaryOp) (bound : Expr) : Expr → Prop
  | direct (p q : Pos) : Compares v op bound (.binary p op (.name q v) bound)
  | mirrored (p q : Pos) : Compares v op bound (.binary p op.swapped bound (.name q v))

namespace Direction

/-- The operator that changes a variable by one in a direction. -/
def updateOp : Direction → UpdateOp
  | .up => .increment
  | .down => .decrement

/-- The assignment that changes a variable in a direction. -/
def assignOp : Direction → AssignOp
  | .up => .add
  | .down => .sub

/-- The operator between a value and the way to the next one. -/
def binaryOp : Direction → BinaryOp
  | .up => .add
  | .down => .sub

/-- Whether counting in the direction makes a comparison fail in the end. -/
def suits : Direction → BinaryOp → Bool
  | .up, .lt | .up, .le | .up, .ne => true
  | .down, .gt | .down, .ge | .down, .ne => true
  | _, _ => false

/-- The operator that keeps a loop short of its bound. -/
def strictOp : Direction → BinaryOp
  | .up => .lt
  | .down => .gt

/-- The value before another one. -/
def prior (d : Direction) (x : Int) : Int :=
  match d with
  | .up => x - 1
  | .down => x + 1

/-- The last value for which a comparison with a bound holds. -/
def last (d : Direction) (op : BinaryOp) (bound : Int) : Int :=
  match op with
  | .le | .ge => bound
  | _ => d.prior bound

end Direction

/-- The update takes the variable `v` to its next value. -/
inductive StepsBy (v : String) (d : Direction) : ForUpdate → Prop
  | update (p q : Pos) : StepsBy v d (.update ⟨p, .name q v, d.updateOp⟩)
  | expression (p q : Pos) : StepsBy v d (.expression (.update p d.updateOp (.name q v)))
  | compound (p q r : Pos) :
      StepsBy v d (.expression (.assign p (.name q v) d.assignOp (.literal r "1")))
  | sum (p q r t u : Pos) : StepsBy v d (.expression
      (.assign p (.name q v) .set (.binary r d.binaryOp (.name t v) (.literal u "1"))))

/-- The integer that a run of digits stands for, with any number of minus signs. -/
def Expr.integer? : Expr → Option Int
  | .literal _ raw => if Numeral.IsInteger raw then some (Numeral.integer raw) else none
  | .unary _ .neg operand => operand.integer?.map fun x => -x
  | _ => none

/-- A loop that counts a variable by one up or down to an arithmetic bound, which does not
mention it.  A bound that is an integer is one that floating-point numbers tell from its
neighbours. -/
structure UnitLoop where
  name : String
  start : Expr
  op : BinaryOp
  bound : Expr
  direction : Direction
  init : Option ForInit
  test : Expr
  update : ForUpdate
  isName : Token.isLexeme .identifier name = true
  starts : StartsAt name init start
  compares : Compares name op bound test
  steps : StepsBy name direction update
  suits : direction.suits op = true
  start_arithmetic : start.Arithmetic
  bound_arithmetic : bound.Arithmetic
  fresh : name ∉ bound.names
  representable : ∀ k, bound.integer? = some k → k.natAbs < 2 ^ 53

/-! ## The values of a run -/

namespace Direction

variable {d : Direction} {op : BinaryOp} {x last k : Int}

theorem span_of_within (h : d.Within x last) : d.span x last = x :: d.span (d.next x) last := by
  cases d with
  | up =>
    have hle : x ≤ last := h
    have hlen : (last + 1 - x).toNat = (last + 1 - (x + 1)).toNat + 1 := by omega
    rw [span, hlen, List.range_succ_eq_map, List.map_cons, List.map_map, Nat.cast_zero,
      Int.add_zero]
    refine congrArg (x :: ·) (List.map_congr_left fun k _ => ?_)
    simp only [Function.comp_apply, Nat.succ_eq_add_one, next]
    omega
  | down =>
    have hle : last ≤ x := h
    have hlen : (x + 1 - last).toNat = (x - 1 + 1 - last).toNat + 1 := by omega
    rw [span, hlen, List.range_succ_eq_map, List.map_cons, List.map_map, Nat.cast_zero,
      Int.sub_zero]
    refine congrArg (x :: ·) (List.map_congr_left fun k _ => ?_)
    simp only [Function.comp_apply, Nat.succ_eq_add_one, next]
    omega

theorem span_of_not_within (h : ¬ d.Within x last) : d.span x last = [] := by
  cases d with
  | up =>
    have hlt : ¬ x ≤ last := h
    have hlen : (last + 1 - x).toNat = 0 := by omega
    rw [span, hlen]
    rfl
  | down =>
    have hlt : ¬ last ≤ x := h
    have hlen : (x + 1 - last).toNat = 0 := by omega
    rw [span, hlen]
    rfl

/-- A comparison with a bound holds up to the last value.  One for inequality does so only
on the near side of the bound. -/
theorem compare?_eq (h : d.suits op = true) (hne : op = .ne → d.Within x k) :
    op.compare? x k = some (decide (d.Within x (d.last op k))) := by
  match d, op, h with
  | .up, .lt, _ => exact congrArg some (decide_eq_decide.mpr (show x < k ↔ x ≤ k - 1 by omega))
  | .up, .le, _ => exact congrArg some (decide_eq_decide.mpr Iff.rfl)
  | .up, .ne, _ =>
    have hle : x ≤ k := hne rfl
    exact congrArg some (decide_eq_decide.mpr (show x ≠ k ↔ x ≤ k - 1 by omega))
  | .down, .gt, _ => exact congrArg some (decide_eq_decide.mpr (show x > k ↔ k + 1 ≤ x by omega))
  | .down, .ge, _ => exact congrArg some (decide_eq_decide.mpr Iff.rfl)
  | .down, .ne, _ =>
    have hle : k ≤ x := hne rfl
    exact congrArg some (decide_eq_decide.mpr (show x ≠ k ↔ k + 1 ≤ x by omega))

theorem isRelational_of_suits (h : d.suits op = true) : op.isRelational = true := by
  cases op <;> first | rfl | (cases d <;> exact absurd h Bool.false_ne_true)

/-- Up to the last value, the next one is not beyond the bound. -/
theorem within_next (h : d.Within x (d.last .ne k)) : d.Within (d.next x) k := by
  cases d <;> simp only [Within, last, prior, next] at h ⊢ <;> omega

end Direction

theorem BinaryOp.compare?_swapped (op : BinaryOp) (x y : Int) :
    op.swapped.compare? y x = op.compare? x y := by
  cases op <;> simp [swapped, compare?, eq_comm]

section Steps

variable {calls : Functions} {ρ : Env} {v : String}

/-- The first step takes the variable to the start and leaves the others alone. -/
theorem StartsAt.run?_eq {init : Option ForInit} {start : Expr} {first : Int}
    (h : StartsAt v init start) (hfirst : start.value? calls ρ = some first) :
    ∃ σ, ForInit.run? calls ρ init = some σ ∧ σ v = first ∧ ∀ n, n ≠ v → σ n = ρ n := by
  have hset : ∀ n, n ≠ v → ρ.set v first n = ρ n := fun n hn => ρ.set_of_ne first hn
  cases h with
  | declared p =>
    refine ⟨ρ.set v first, ?_, ρ.set_self v first, hset⟩
    simp [ForInit.run?, hfirst]
  | assigned p q =>
    refine ⟨ρ.set v first, ?_, ρ.set_self v first, hset⟩
    simp [ForInit.run?, AssignOp.run?, hfirst]
  | absent p => exact ⟨ρ, rfl, Option.some.inj hfirst, fun _ _ => rfl⟩

/-- The test compares the value of the variable with that of the bound. -/
theorem Compares.holds?_eq {op : BinaryOp} {bound test : Expr} {k : Int}
    (h : Compares v op bound test) (hbound : bound.value? calls ρ = some k) :
    test.holds? calls ρ = op.compare? (ρ v) k := by
  cases h with
  | direct p q => simp [Expr.holds?, Expr.value?, hbound]
  | mirrored p q => simp [Expr.holds?, Expr.value?, hbound, BinaryOp.compare?_swapped]

/-- The update takes the variable to the next value. -/
theorem StepsBy.run?_eq {d : Direction} {update : ForUpdate} (h : StepsBy v d update) :
    update.run? calls ρ = some (ρ.set v (d.next (ρ v))) := by
  have hone : ∀ p, (Expr.literal p "1").value? calls ρ = some 1 :=
    fun p => Expr.value?_literal (by decide) p
  cases h with
  | update p q => cases d <;> rfl
  | expression p q => cases d <;> rfl
  | compound p q r => cases d <;> simp only [ForUpdate.run?, hone] <;> rfl
  | sum p q r t u => cases d <;> simp only [ForUpdate.run?, Expr.value?_binary, hone] <;> rfl

end Steps

namespace UnitLoop

variable (loop : UnitLoop) {calls : Functions} {ρ σ : Env} {body : Env → Env} {k : Int}

/-- The test holds up to the last value, in any state that agrees with the first one about
the bound. -/
theorem holds?_test (hbound : loop.bound.value? calls ρ = some k)
    (hσ : ∀ n ∈ loop.bound.names, σ n = ρ n)
    (hne : loop.op = .ne → loop.direction.Within (σ loop.name) k) :
    loop.test.holds? calls σ = some
      (decide (loop.direction.Within (σ loop.name) (loop.direction.last loop.op k))) := by
  have hvalue : loop.bound.value? calls σ = some k := by rw [Expr.value?_congr hσ, hbound]
  rw [loop.compares.holds?_eq hvalue, Direction.compare?_eq loop.suits hne]

/-- A loop whose body leaves the variable and the bound alone goes through all values up to
the last one. -/
theorem rounds_iff (hbody : ∀ σ n, n = loop.name ∨ n ∈ loop.bound.names → body σ n = σ n)
    (hbound : loop.bound.value? calls ρ = some k) (hσ : ∀ n ∈ loop.bound.names, σ n = ρ n)
    (hne : loop.op = .ne → loop.direction.Within (σ loop.name) k) {values : List Int} :
    Rounds calls loop.name loop.test loop.update body σ values ↔
      values = loop.direction.span (σ loop.name) (loop.direction.last loop.op k) := by
  have htest := loop.holds?_test hbound hσ hne
  -- The induction is on the values that are left.
  generalize hspan : loop.direction.span (σ loop.name) (loop.direction.last loop.op k) = span
  induction span generalizing σ values with
  | nil =>
    have hbeyond : ¬ loop.direction.Within (σ loop.name) (loop.direction.last loop.op k) := by
      intro hwithin
      rw [Direction.span_of_within hwithin] at hspan
      cases hspan
    rw [decide_eq_false hbeyond] at htest
    exact Rounds.iff_nil htest
  | cons x xs ih =>
    have hwithin : loop.direction.Within (σ loop.name) (loop.direction.last loop.op k) := by
      by_contra hbeyond
      rw [Direction.span_of_not_within hbeyond] at hspan
      cases hspan
    rw [Direction.span_of_within hwithin] at hspan
    obtain ⟨rfl, hxs⟩ := List.cons.inj hspan
    rw [decide_eq_true hwithin] at htest
    have hstep : loop.update.run? calls (body σ) =
        some ((body σ).set loop.name (loop.direction.next (σ loop.name))) := by
      rw [loop.steps.run?_eq, hbody σ loop.name (.inl rfl)]
    generalize hτ : (body σ).set loop.name (loop.direction.next (σ loop.name)) = τ at hstep
    have hname : τ loop.name = loop.direction.next (σ loop.name) := by
      rw [← hτ, Env.set_self]
    have hnames : ∀ n ∈ loop.bound.names, τ n = ρ n := by
      intro n hn
      have hother : n ≠ loop.name := fun h => loop.fresh (h ▸ hn)
      rw [← hτ, Env.set_of_ne _ _ hother, hbody σ n (.inr hn), hσ n hn]
    have hnear : loop.op = .ne → loop.direction.Within (τ loop.name) k := by
      intro hop
      rw [hop] at hwithin
      rw [hname]
      exact Direction.within_next hwithin
    rw [← hname] at hxs
    rw [Rounds.iff_cons htest hstep]
    simp only [ih hnames hnear (loop.holds?_test hbound hnames hnear) hxs, exists_eq_right]

end UnitLoop

/-! ## The parts of a header -/

/-- A text that neither starts nor ends with a blank is not trimmed. -/
theorem Text.trim_eq {text : String} (hfirst : ∃ c ∈ text.toList.head?, isBlank c = false)
    (hlast : EndsVisibly text) : trim text = text := by
  have hkeep : ∀ cs : List Char, (∃ c ∈ cs.head?, isBlank c = false) → dropBlanks cs = cs := by
    rintro (_ | ⟨d, cs⟩) ⟨c, hc, hblank⟩
    · cases hc
    · obtain rfl : d = c := Option.some.inj hc
      rw [dropBlanks, List.dropWhile_cons_of_neg (by simp [hblank])]
  have hback : ∃ c ∈ text.toList.reverse.head?, isBlank c = false := by
    rw [List.head?_reverse]
    exact hlast
  rw [trim, hkeep _ hfirst, hkeep _ hback, List.reverse_reverse, String.ofList_toList]

/-- A text that starts with a name and ends with no blank is not trimmed. -/
theorem Text.trim_of_isName {name text : String} (hname : Token.isLexeme .identifier name = true)
    (hfirst : name.toList <+: text.toList) (hlast : EndsVisibly text) : trim text = text := by
  refine trim_eq ?_ hlast
  obtain ⟨rest, hrest⟩ := hfirst
  cases hchars : name.toList with
  | nil => exact absurd hchars (Setting.ne_nil_of_isLexeme hname)
  | cons c cs =>
    refine ⟨c, by simp [← hrest, hchars], Token.isBlank_of_isWordPart ?_⟩
    exact Token.isWordPart_of_mem hname c (by simp [hchars])

theorem Setting.ne_empty_of_isLexeme {kind : Kind} {text : String}
    (h : Token.isLexeme kind text = true) : text ≠ "" := by
  rintro rfl
  exact ne_nil_of_isLexeme h rfl

section Parts

variable {v : String} {update : ForUpdate} {d : Direction}

theorem Expr.isNamed_name (hv : v ≠ "") (p : Pos) : (Expr.name p v).isNamed v = true := by
  simp [isNamed, hv]

theorem Expr.not_isNamed_of_fresh {e : Expr} (h : v ∉ e.names) : e.isNamed v = false := by
  cases e with
  | name p n =>
    have hne : n ≠ v := by
      rintro rfl
      exact h List.mem_cons_self
    simp [isNamed, hne]
  | _ => rfl

/-- The update is a step of one. -/
theorem StepsBy.loopStep_eq (h : StepsBy v d update) (hv : v ≠ "") (p : Pos) :
    ∃ q, loopStep p (some update) v = (.literal q "1", d) := by
  cases h with
  | update q r => exact ⟨p, by cases d <;> rfl⟩
  | expression q r => exact ⟨p, by cases d <;> rfl⟩
  | compound q r t => exact ⟨t, by cases d <;> rfl⟩
  | sum q r t u w =>
    refine ⟨w, ?_⟩
    cases d <;> simp [loopStep, Direction.binaryOp, Expr.isNamed_name hv]

theorem StepsBy.loopVariable_eq (h : StepsBy v d update) (test : Option Expr) :
    loopVariable test (some update) = v := by
  cases h <;> rfl

/-- The test gives the bound. -/
theorem Compares.loopBound?_eq {op : BinaryOp} {bound test : Expr} (h : Compares v op bound test)
    (hop : op.isRelational = true) (hv : v ≠ "") (hfresh : v ∉ bound.names) :
    loopBound? (some test) v = some (op, bound) := by
  have hbound := Expr.not_isNamed_of_fresh hfresh
  have hswapped : op.swapped.isRelational = true ∧ op.swapped.swapped = op := by
    cases op <;> first | exact ⟨rfl, rfl⟩ | exact absurd hop Bool.false_ne_true
  cases h with
  | direct p q => simp [loopBound?, hop, hbound]
  | mirrored p q => simp [loopBound?, hswapped, hbound, Expr.isNamed_name hv]

/-- The text of the first value is that of the start. -/
theorem StartsAt.loopStart_eq {s : Setting} {init : Option ForInit} {start : Expr} {text : String}
    {test : Option Expr} (h : StartsAt v init start) (hv : v ≠ "")
    (hname : loopVariable test (some update) = v) (htext : s.render .whole start = .ok text) :
    s.loopStart init test (some update) = .ok (v, text) := by
  cases h with
  | declared p | assigned p q =>
    show (do let value ← s.render .whole start; return (v, value)) = _
    rw [htext]
    rfl
  | absent p =>
    obtain rfl : v = text := Except.ok.inj htext
    show Except.ok (_, if loopVariable test (some update) = "" then "0" else _) = _
    rw [hname, if_neg hv]

end Parts

namespace Expr

variable {calls : Functions} {ρ : Env} {e : Expr}

theorem value?_of_integer? {k : Int} (h : e.integer? = some k) : e.value? calls ρ = some k := by
  induction e generalizing k with
  | literal p raw => exact h
  | unary p op operand ih =>
    cases op with
    | neg =>
      obtain ⟨x, hx, rfl⟩ := Option.map_eq_some_iff.mp h
      rw [value?_neg, ih hx]
      rfl
    | _ => cases h
  | _ => cases h

/-- An arithmetic expression counts as a number if it is an integer, and then it is that
integer as long as that is small enough. -/
theorem Arithmetic.numericValue_eq (he : e.Arithmetic) :
    (e.integer? = none ∧ e.numericValue = .ok none) ∨
      ∃ k x, e.integer? = some k ∧ e.numericValue = .ok (some x) ∧
        (k.natAbs ≤ 2 ^ 53 → x.toInt? = some k) := by
  induction e with
  | literal p raw =>
    have hraw : Numeral.IsInteger raw := he
    refine .inr ⟨_, _, if_pos hraw, ?_, fun hk => Binary64.toInt?_ofDecimal hk⟩
    rw [numericValue, if_pos hraw.isIntended, hraw.value?]
  | unary p op operand ih =>
    obtain ⟨rfl, hoperand⟩ := he
    rcases ih hoperand with ⟨hnone, hvalue⟩ | ⟨k, x, hk, hvalue, hx⟩
    · refine .inl ⟨by rw [integer?, hnone]; rfl, ?_⟩
      rw [numericValue, hvalue]
      rfl
    · refine .inr ⟨-k, x.neg, by rw [integer?, hk]; rfl, ?_, ?_⟩
      · rw [numericValue, hvalue]
        rfl
      · intro hsmall
        rw [Int.natAbs_neg] at hsmall
        exact Binary64.toInt?_neg (hx hsmall)
  | name | call | binary => exact .inl ⟨rfl, rfl⟩
  | _ => exact he.elim

end Expr

namespace Setting

variable {s : Setting} {calls : Functions} {ρ : Env}

/-- A text for a value. -/
structure Tells (s : Setting) (calls : Functions) (ρ : Env) (text : String) (k : Int) : Prop where
  value : s.style.valueOf? calls ρ text = some k
  visible : Text.EndsVisibly text

/-- The text of an expression tells its value. -/
theorem Written.tells {e : Expr} {text : String} {k : Int} (h : s.Written .whole e text)
    (he : e.Arithmetic) (hk : e.value? calls ρ = some k) : s.Tells calls ρ text k :=
  ⟨by rw [Style.valueOf?_written he h, hk], h.visible⟩

/-- An integer in decimal tells itself. -/
theorem tells_toString (i : Int) : s.Tells calls ρ (toString i) i := by
  cases i with
  | ofNat n =>
    obtain ⟨hdigits, hvalue⟩ := Numeral.isInteger_repr n
    have hwritten : s.Written .whole (.literal .start (Nat.repr n)) (Nat.repr n) :=
      written_literal hdigits
    refine hwritten.tells hdigits ?_
    rw [Expr.value?_literal hdigits, hvalue]
    rfl
  | negSucc n =>
    obtain ⟨hdigits, hvalue⟩ := Numeral.isInteger_repr (n + 1)
    have hwritten : s.Written .whole (.unary .start .neg (.literal .start (Nat.repr (n + 1))))
        ("-" ++ Nat.repr (n + 1)) := written_neg (written_literal hdigits)
    refine hwritten.tells ⟨rfl, hdigits⟩ ?_
    rw [Expr.value?_neg, Expr.value?_literal hdigits, hvalue]
    rfl

theorem numericValue_one (p : Pos) :
    (Expr.literal p "1").numericValue = .ok (some (.ofNat 1)) := by
  have hone : Numeral.IsInteger "1" := by decide
  have hvalue : Binary64.ofDecimal (Numeral.integer "1") 0 = .ofNat 1 := by decide
  rw [Expr.numericValue, if_pos hone.isIntended, hone.value?, hvalue]

/-- The bound less one step, where it is no number: one more summand. -/
theorem exists_writtenEnd (hmodulo : Token.isLexeme .identifier s.style.modulo = true)
    {bound : Expr} {k : Int} (hbound : bound.Arithmetic) (hk : bound.value? calls ρ = some k)
    (d : Direction) (p : Pos) :
    ∃ text, s.writtenEnd d.strictOp bound (.literal p "1") = .ok text ∧
      s.Tells calls ρ text (d.prior k) := by
  obtain ⟨text, htext⟩ := exists_written hmodulo hbound .whole
  have hone : Numeral.IsInteger "1" := by decide
  have hstep : s.Written .prefixed (.literal p "1") "1" := written_literal hone
  obtain ⟨op, hop, hsign, hvalue⟩ : ∃ op : BinaryOp, (op = .add ∨ op = .sub) ∧
      (if d.strictOp = .lt then " - " else " + ") = " " ++ s.style.operator op ++ " " ∧
      op.result? k 1 = some (d.prior k) := by
    cases d with
    | up => exact ⟨.sub, .inr rfl, show " - " = " " ++ "-" ++ " " by decide, rfl⟩
    | down => exact ⟨.add, .inl rfl, show " + " = " " ++ "+" ++ " " by decide, rfl⟩
  refine ⟨text ++ " " ++ s.style.operator op ++ " " ++ "1", ?_, ?_, hstep.visible.append _⟩
  · rw [writtenEnd, htext.render, hstep.render, hsign]
    show Except.ok (text ++ (" " ++ s.style.operator op ++ " ") ++ "1") = _
    rw [← String.append_assoc, ← String.append_assoc]
  · rw [Style.valueOf?_summand hmodulo hop hone hbound htext, hk]
    exact hvalue

/-- The bound less one step, worked out or not. -/
theorem exists_endBefore (hmodulo : Token.isLexeme .identifier s.style.modulo = true)
    {bound : Expr} {k : Int} (hbound : bound.Arithmetic)
    (hsmall : ∀ i, bound.integer? = some i → i.natAbs < 2 ^ 53)
    (hk : bound.value? calls ρ = some k) (d : Direction) (p : Pos) :
    ∃ text, s.endBefore d.strictOp bound (.literal p "1") = .ok text ∧
      s.Tells calls ρ text (d.prior k) := by
  rcases hbound.numericValue_eq with ⟨-, hnumber⟩ | ⟨i, x, hi, hnumber, hx⟩
  · obtain ⟨text, htext, htells⟩ := exists_writtenEnd hmodulo hbound hk d p
    refine ⟨text, ?_, htells⟩
    rw [endBefore, hnumber, numericValue_one]
    exact htext
  · obtain rfl : i = k := Option.some.inj ((Expr.value?_of_integer? hi).symm.trans hk)
    have hi := hsmall i hi
    have hx := hx (Nat.le_of_lt hi)
    have hone : (Binary64.ofNat 1).toInt? = some 1 := by decide
    have hprior : (if d.strictOp = .lt then x.sub (.ofNat 1) else x.add (.ofNat 1)).toInt? =
        some (d.prior i) := by
      cases d with
      | up => exact Binary64.toInt?_add hx (Binary64.toInt?_neg hone) (by omega)
      | down => exact Binary64.toInt?_add hx hone (by omega)
    refine ⟨toString (d.prior i), ?_, tells_toString _⟩
    rw [endBefore, hnumber, numericValue_one]
    show Except.ok (Binary64.plainText _) = _
    rw [Binary64.plainText, hprior]

/-- The last value of a loop, and its direction. -/
theorem exists_loopEnd (hmodulo : Token.isLexeme .identifier s.style.modulo = true)
    (loop : UnitLoop) (hv : loop.name ≠ "") {k : Int} (hk : loop.bound.value? calls ρ = some k)
    (p : Pos) :
    ∃ text, s.loopEnd (some loop.test) loop.name (.literal p "1") loop.direction =
        .ok (text, loop.direction) ∧
      s.Tells calls ρ text (loop.direction.last loop.op k) := by
  have hsuits := loop.suits
  have hrelational : loop.op.isRelational = true := Direction.isRelational_of_suits hsuits
  obtain ⟨whole, hwhole⟩ := exists_written (s := s) hmodulo loop.bound_arithmetic .whole
  have hwholeTells := hwhole.tells loop.bound_arithmetic hk
  obtain ⟨short, hshort, hshortTells⟩ :=
    exists_endBefore hmodulo loop.bound_arithmetic loop.representable hk loop.direction p
  have hpair : ∀ {text : String} {d : Direction} {r : Except RenderError String}, r = .ok text →
      (do return (← r, d)) = (.ok (text, d) : Except RenderError (String × Direction)) := by
    rintro text d r rfl
    rfl
  rw [loopEnd, loop.compares.loopBound?_eq hrelational hv loop.fresh]
  generalize loop.direction = d at hsuits hshort hshortTells ⊢
  generalize loop.op = op at hsuits ⊢
  match d, op, hsuits with
  | .up, .le, _ | .down, .ge, _ => exact ⟨whole, hpair hwhole.render, hwholeTells⟩
  | .up, .lt, _ | .up, .ne, _ | .down, .gt, _ | .down, .ne, _ =>
    exact ⟨short, hpair hshort, hshortTells⟩

end Setting

/-! ## Header and run -/

/-- In the styles with this header the remainder is a word. -/
theorem Style.isLexeme_modulo {style : Style} (h : style ∈ catalogue)
    (hfamily : style.keywords.loopFamily = true) :
    Token.isLexeme .identifier style.modulo = true := by
  have hall : ∀ style ∈ catalogue, style.keywords.loopFamily = true →
      Token.isLexeme .identifier style.modulo = true := by decide
  exact hall style h hfamily

namespace UnitLoop

variable (loop : UnitLoop) {s : Setting} {calls : Functions} {ρ : Env}

/-- The header of a loop: texts for its first and its last value, and no step. -/
theorem exists_countingHeader (hmodulo : Token.isLexeme .identifier s.style.modulo = true)
    (p : Pos) {first k : Int} (hfirst : loop.start.value? calls ρ = some first)
    (hk : loop.bound.value? calls ρ = some k) :
    ∃ header, s.countingHeader p loop.init (some loop.test) (some loop.update) = .ok header ∧
      s.style.Counts calls ρ loop.name header
        (loop.direction.span first (loop.direction.last loop.op k)) := by
  have hv := Setting.ne_empty_of_isLexeme loop.isName
  obtain ⟨start, hstart⟩ := Setting.exists_written (s := s) hmodulo loop.start_arithmetic .whole
  obtain ⟨q, hstep⟩ := loop.steps.loopStep_eq hv p
  obtain ⟨stop, hstop, htells⟩ := Setting.exists_loopEnd hmodulo loop hv hk q
  have htrim : Text.trim
      (loop.name ++ " from " ++ start ++ " " ++ loop.direction.word ++ " " ++ stop) =
        loop.name ++ " from " ++ start ++ " " ++ loop.direction.word ++ " " ++ stop :=
    Text.trim_of_isName loop.isName (by simp) (htells.visible.append _)
  refine ⟨_, ?_, loop.direction, start, stop, first, _, rfl,
    (hstart.tells loop.start_arithmetic hfirst).value, htells.value, rfl⟩
  rw [Setting.countingHeader,
    loop.starts.loopStart_eq hv (loop.steps.loopVariable_eq _) hstart.render]
  simp only [bind, Except.bind, hstep, hstop, Setting.numericValue_one, if_true]
  exact congrArg Except.ok htrim

/-- **Unit steps.**  In the styles that write a loop as a count, every loop that counts by one
has a header without a step, and the values that the header counts through are those that the
variable has in the rounds of the loop, and no others.  The body may do anything but change the
variable or what the bound depends on; a loop that runs until it meets its bound starts on the
near side of it. -/
theorem header_counts_rounds {style : Style} (hstyle : style ∈ Style.catalogue)
    (hfamily : style.keywords.loopFamily = true) (types : TypeTable) (p : Pos)
    {body : Env → Env}
    (hbody : ∀ σ n, n = loop.name ∨ n ∈ loop.bound.names → body σ n = σ n) {first k : Int}
    (hfirst : loop.start.value? calls ρ = some first) (hk : loop.bound.value? calls ρ = some k)
    (hne : loop.op = .ne → loop.direction.Within first k) :
    ∃ header values,
      Setting.countingHeader ⟨style, types⟩ p loop.init (some loop.test) (some loop.update) =
        .ok header ∧
      style.Counts calls ρ loop.name header values ∧
      ∃ σ, ForInit.run? calls ρ loop.init = some σ ∧
        ∀ taken, Rounds calls loop.name loop.test loop.update body σ taken ↔ taken = values := by
  have hmodulo := Style.isLexeme_modulo hstyle hfamily
  obtain ⟨header, hheader, hcounts⟩ :=
    loop.exists_countingHeader (s := ⟨style, types⟩) hmodulo p hfirst hk
  obtain ⟨σ, hinit, rfl, hothers⟩ := loop.starts.run?_eq hfirst
  have hσ : ∀ n ∈ loop.bound.names, σ n = ρ n :=
    fun n hn => hothers n fun h => loop.fresh (h ▸ hn)
  exact ⟨header, _, hheader, hcounts, σ, hinit, fun taken => loop.rounds_iff hbody hk hσ hne⟩

/-- The expression `-(-m) % k - f(x, 2)`. -/
def meetingBound : Expr :=
  .binary .start .sub
    (.binary .start .rem (.unary .start .neg (.unary .start .neg (.name .start "m")))
      (.name .start "k"))
    (.call .start "f" [.name .start "x", .literal .start "2"])

/-- The loop `for (i = n * 2; -(-m) % k - f(x, 2) != i; i -= 1)`. -/
def meetingLoop : UnitLoop where
  name := "i"
  start := .binary .start .mul (.name .start "n") (.literal .start "2")
  op := .ne
  bound := meetingBound
  direction := .down
  init := some (.assignment ⟨.start, .name .start "i", .set,
    .binary .start .mul (.name .start "n") (.literal .start "2")⟩)
  test := .binary .start .ne meetingBound (.name .start "i")
  update := .expression (.assign .start (.name .start "i") .sub (.literal .start "1"))
  isName := by decide
  starts := .assigned .start .start _
  compares := .mirrored .start .start
  steps := .compound .start .start .start
  suits := rfl
  start_arithmetic := by
    simp only [Expr.Arithmetic]
    decide
  bound_arithmetic := by
    simp only [meetingBound, Expr.Arithmetic, Expr.AllArithmetic]
    decide
  fresh := by decide
  representable := nofun

/-- A call gives the sum of its arguments. -/
def summing : Functions :=
  fun _ args => some args.sum

/-- All variables are one at first, but for `m`. -/
def meetingEnv : Env :=
  fun n => if n = "m" then -7 else if n = "k" then 4 else 1

/-- The body adds the variable to a total. -/
def totalling (σ : Env) : Env :=
  σ.set "total" (σ "total" + σ "i")

/-- The loop starts at two and goes down to meet its bound at minus six. -/
theorem header_counts_rounds_meetingLoop :
    meetingLoop.start.value? summing meetingEnv = some 2 ∧
    meetingLoop.bound.value? summing meetingEnv = some (-6) ∧
    ∃ header values,
      Setting.countingHeader ⟨.looping "sc-08" true Style.removal, .empty⟩ .start
        meetingLoop.init (some meetingLoop.test) (some meetingLoop.update) = .ok header ∧
      (Style.looping "sc-08" true Style.removal).Counts summing meetingEnv "i" header values ∧
      ∃ σ, ForInit.run? summing meetingEnv meetingLoop.init = some σ ∧
        ∀ taken, Rounds summing "i" meetingLoop.test meetingLoop.update totalling σ taken ↔
          taken = values := by
  have hfirst : meetingLoop.start.value? summing meetingEnv = some 2 := by decide
  have hbound : meetingLoop.bound.value? summing meetingEnv = some (-6) := by decide
  have hbody : ∀ (σ : Env) (n : String), n = meetingLoop.name ∨ n ∈ meetingLoop.bound.names →
      totalling σ n = σ n := by
    intro σ n hn
    refine σ.set_of_ne _ ?_
    rintro rfl
    exact absurd hn (by decide)
  exact ⟨hfirst, hbound, meetingLoop.header_counts_rounds (by decide) (by decide) .empty .start
    hbody hfirst hbound fun _ => by decide⟩

end UnitLoop

end Pseudocode
