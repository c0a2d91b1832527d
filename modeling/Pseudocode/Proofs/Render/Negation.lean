import Pseudocode.Proofs.Loop.Counting
import Pseudocode.Proofs.Render.Total
set_option autoImplicit false

/-!
# Tests negated

A loop that tests at its end is written with the condition on which it stops.  That condition
is the test with its comparison turned round, or without its `!`, or with one before it, in
brackets where it needs them.  Read again, it is worth the contrary of the test, whatever the
variables are.
-/

namespace Pseudocode

/-! ## Values of conditions -/

/-- A value of a condition or of a part of one. -/
inductive Scalar where
  | int (x : Int)
  | bool (b : Bool)
  deriving DecidableEq, Repr, Inhabited

/-- How numbers are read and reckoned with.  Nothing is assumed about it: results may be
rounded, wrap around or be missing. -/
structure Reckoning where
  numeral : String → Option Int
  negate : Int → Option Int
  apply : BinaryOp → Int → Int → Option Int

/-- Integers of any size; quotients are cut off towards zero. -/
def Reckoning.exact : Reckoning where
  numeral raw := if Numeral.IsInteger raw then some (Numeral.integer raw) else none
  negate x := some (-x)
  apply := BinaryOp.result?

namespace BinaryOp

/-- The outcome of an operator that looks at both operands. -/
def outcome? (A : Reckoning) (op : BinaryOp) : Scalar → Scalar → Option Scalar
  | .int x, .int y =>
    if op.isRelational then (op.compare? x y).map .bool else (A.apply op x y).map .int
  | .bool a, .bool b =>
    match op with
    | .eq => some (.bool (a == b))
    | .ne => some (.bool (a != b))
    | _ => none
  | _, _ => none

/-- The truth value of the left operand that decides a chain of `op`. -/
def decisive (op : BinaryOp) : Bool :=
  op == .or

/-- The outcome of a chain of conditions, whose right operand counts only if the left one
does not decide. -/
def shortCircuit (op : BinaryOp) : Option Scalar → Option Scalar → Option Scalar
  | some (.bool a), right =>
    if a = op.decisive then some (.bool a)
    else
      match right with
      | some (.bool b) => some (.bool b)
      | _ => none
  | _, _ => none

theorem shortCircuit_assoc (op : BinaryOp) (u v w : Option Scalar) :
    op.shortCircuit (op.shortCircuit u v) w = op.shortCircuit u (op.shortCircuit v w) := by
  rcases u with _ | x | a
  · rfl
  · rfl
  by_cases ha : a = op.decisive
  · simp [shortCircuit, ha]
  rcases v with _ | y | b
  · simp [shortCircuit, ha]
  · simp [shortCircuit, ha]
  by_cases hb : b = op.decisive
  · simp [shortCircuit, ha, hb]
  · rcases w with _ | z | c <;> simp [shortCircuit, ha, hb]

/-- Comparisons that are inverse to each other have contrary outcomes. -/
theorem compare?_inverse {op inverse : BinaryOp} (h : op.inverse? = some inverse) (x y : Int) :
    inverse.compare? x y = (op.compare? x y).map (!·) := by
  cases op <;> cases h <;>
    simp only [compare?, Option.map_some, ← decide_not, gt_iff_lt, ge_iff_le, not_lt, not_le,
      ne_eq, not_not]

theorem outcome?_inverse {op inverse : BinaryOp} (h : op.inverse? = some inverse) {A : Reckoning}
    {v w : Scalar} {b : Bool} (hb : op.outcome? A v w = some (.bool b)) :
    inverse.outcome? A v w = some (.bool !b) := by
  have hop : op.isRelational = true := by cases op <;> cases h <;> rfl
  have hinverse : inverse.isRelational = true := by cases op <;> cases h <;> rfl
  cases v with
  | int x =>
    cases w with
    | int y =>
      rw [outcome?, if_pos hop] at hb
      obtain ⟨c, hc, hcb⟩ := Option.map_eq_some_iff.mp hb
      obtain rfl := Scalar.bool.inj hcb
      rw [outcome?, if_pos hinverse, compare?_inverse h, hc]
      rfl
    | bool => cases hb
  | bool a =>
    cases w with
    | int => cases hb
    | bool c => cases op <;> cases h <;> cases hb <;> simp [outcome?, bne]

end BinaryOp

namespace Expr

/-- The value of a condition for given values of its variables. -/
def scalar? (A : Reckoning) (ρ : String → Option Scalar) : Expr → Option Scalar
  | .name _ n => ρ n
  | .literal _ raw =>
    if raw = "true" then some (.bool true)
    else if raw = "false" then some (.bool false)
    else (A.numeral raw).map .int
  | .unary _ .not operand =>
    match operand.scalar? A ρ with
    | some (.bool b) => some (.bool !b)
    | _ => none
  | .unary _ .neg operand =>
    match operand.scalar? A ρ with
    | some (.int x) => (A.negate x).map .int
    | _ => none
  | .binary _ op l r =>
    if op.isLogical then op.shortCircuit (l.scalar? A ρ) (r.scalar? A ρ)
    else (l.scalar? A ρ).bind fun v => (r.scalar? A ρ).bind (op.outcome? A v)
  | _ => none

variable {A : Reckoning} {ρ : String → Option Scalar}

/-- The value does not depend on positions. -/
theorem scalar?_move (φ : Pos → Pos) (e : Expr) :
    (Pseudocode.move φ e).scalar? A ρ = e.scalar? A ρ := by
  induction e with
  | unary p op operand ih =>
    cases op with
    | other => rfl
    | not | neg => rw [move_unary, scalar?, scalar?, ih]
  | binary p op l r ihl ihr => rw [move_binary, scalar?, scalar?, ihl, ihr]
  | index | call | methodCall | newArray | arrayLiteral | newObject => simp [scalar?]
  | _ => rfl

/-- A chain is worth the same if it is grouped to the left. -/
theorem scalar?_attach {op : BinaryOp} (hop : op.isLogical = true) (l r : Expr) :
    (attach op l r).scalar? A ρ = op.shortCircuit (l.scalar? A ρ) (r.scalar? A ρ) := by
  fun_induction attach op l r with
  | case1 p a b ih =>
    rw [scalar?, if_pos hop, ih, scalar?, if_pos hop, BinaryOp.shortCircuit_assoc]
  | case2 => rw [scalar?, if_pos hop]
  | case3 => rw [scalar?, if_pos hop]

theorem scalar?_regroup (e : Expr) : e.regroup.scalar? A ρ = e.scalar? A ρ := by
  induction e with
  | unary p op operand ih =>
    cases op with
    | other => rfl
    | not | neg => rw [regroup, scalar?, scalar?, ih]
  | binary p op l r ihl ihr =>
    rw [regroup]
    by_cases hop : op.isLogical = true
    · rw [if_pos hop, scalar?_attach hop, scalar?, if_pos hop, ihl, ihr]
    · rw [if_neg hop, scalar?, scalar?, ihl, ihr]
  | _ => rfl

/-- The inverted condition is worth the contrary. -/
theorem scalar?_inverted {e : Expr} {b : Bool} (h : e.scalar? A ρ = some (.bool b)) :
    e.inverted.scalar? A ρ = some (.bool !b) := by
  have hnot : ∀ p, (Expr.unary p .not e).scalar? A ρ = some (.bool !b) := by
    intro p
    rw [scalar?, h]
  unfold inverted
  split
  · rename_i operand
    rw [scalar?] at h
    split at h
    · rename_i c hc
      cases h
      rw [hc, Bool.not_not]
    · cases h
  · rename_i p op l r
    split
    · rename_i inverse hinverse
      have hop : op.isLogical = false := by cases op <;> cases hinverse <;> rfl
      have hop' : inverse.isLogical = false := by cases op <;> cases hinverse <;> rfl
      rw [scalar?, hop, if_neg Bool.false_ne_true] at h
      obtain ⟨v, hv, h⟩ := Option.bind_eq_some_iff.mp h
      obtain ⟨w, hw, h⟩ := Option.bind_eq_some_iff.mp h
      rw [scalar?, hop', if_neg Bool.false_ne_true, hv, Option.bind_some, hw, Option.bind_some]
      exact BinaryOp.outcome?_inverse hinverse h
    · exact hnot p
  · exact hnot _

theorem inverted_readable {e : Expr} (he : e.Readable false) : e.inverted.Readable false := by
  unfold inverted
  split
  · exact he.2.1
  · rename_i p op l r
    obtain ⟨hop, hl, hr⟩ := he
    split
    · rename_i inverse hinverse
      refine ⟨?_, hl, hr⟩
      cases op <;> cases hinverse <;> decide
    · exact ⟨.inl rfl, ⟨hop, hl, hr⟩, by simp⟩
  · exact ⟨.inl rfl, he, by simp⟩

end Expr

/-! ## The line that ends a loop -/

theorem Style.PlainSpelling.isSound {style : Style} (hs : style.PlainSpelling) :
    style.isSound = true := by
  rw [Style.isSound, hs.methods]
  rfl

namespace Stmt

/-- **Negated tests.**  In a style that spells operators as the source does, a loop with its
test at the end is written so that its last line is the word for `until` and a text.  The text
is read as a condition, to its very end and with `=` for `==`; and for all values of the
variables for which the test has a truth value, that condition has the contrary one. -/
theorem until_negates_test {style : Style} (hs : style.PlainSpelling) {body : Stmt}
    (hbody : body.WellFormed .lexical) {test : Expr} (htest : test.Readable false) (p : Pos)
    (page : Page) :
    ∃ (page' : Page) (text : String) (tokens : List Token) (condition : Expr) (q : Pos),
      emit style (.doWhileLoop p body test) page =
        .ok (page'.write (style.keywords.untilWord ++ " " ++ text)) ∧
      tokenize text = .ok tokens ∧
      Reading.expression (tokens.map Token.asEquality) = .ok (condition, [.eof q]) ∧
      ∀ (A : Reckoning) (ρ : String → Option Scalar) (b : Bool),
        test.scalar? A ρ = some (.bool b) → condition.scalar? A ρ = some (.bool !b) := by
  obtain ⟨page₁, hpage₁⟩ :=
    (emit_yields hs.isSound hbody).1 (page.write style.repeatHead).deeper
  have hinverted := Expr.inverted_readable htest
  obtain ⟨text, htext⟩ :=
    Setting.exists_rendered (s := page₁.shallower.setting style) hs _ hinverted .whole
  obtain ⟨tokens, condition, q, htokens, hread, hcondition⟩ := htext.reread hs hinverted
  refine ⟨page₁.shallower, text, tokens, condition, q, ?_, htokens, hread, ?_⟩
  · have hline : ((page₁.shallower.setting style).render .whole test.inverted >>= fun text =>
        .ok (page₁.shallower.write (style.keywords.untilWord ++ " " ++ text))) =
        .ok (page₁.shallower.write (style.keywords.untilWord ++ " " ++ text)) := by
      rw [htext.render]
      rfl
    rw [emit, hpage₁]
    exact hline
  · intro A ρ b hb
    calc condition.scalar? A ρ = (unplaced condition).scalar? A ρ :=
          (Expr.scalar?_move _ condition).symm
      _ = (unplaced test.inverted.regroup).scalar? A ρ := by rw [hcondition]
      _ = test.inverted.scalar? A ρ := by rw [Expr.scalar?_move, Expr.scalar?_regroup]
      _ = some (.bool !b) := Expr.scalar?_inverted hb

/-- The test `n != 0 && (x > 3 && n / x < 4)`.  Its chain comes back grouped to the left, and
it guards a quotient. -/
def guardedTest : Expr :=
  let p : Pos := ⟨1, 1⟩
  .binary p .and (.binary p .ne (.name p "n") (.literal p "0"))
    (.binary p .and (.binary p .gt (.name p "x") (.literal p "3"))
      (.binary p .lt (.binary p .div (.name p "n") (.name p "x")) (.literal p "4")))

/-- Where all variables are zero, the test fails although the quotient has no value, and the
condition on which the loop stops holds. -/
theorem until_negates_guardedTest :
    Style.sourceLike.PlainSpelling ∧ (Stmt.block ⟨1, 1⟩ []).WellFormed .lexical ∧
      guardedTest.Readable false ∧
      guardedTest.scalar? .exact (fun _ => some (.int 0)) = some (.bool false) ∧
      ∃ (page' : Page) (text : String) (tokens : List Token) (condition : Expr) (q : Pos),
        emit .sourceLike (.doWhileLoop ⟨1, 1⟩ (.block ⟨1, 1⟩ []) guardedTest) (.blank .sourceLike) =
          .ok (page'.write (Style.sourceLike.keywords.untilWord ++ " " ++ text)) ∧
        tokenize text = .ok tokens ∧
        Reading.expression (tokens.map Token.asEquality) = .ok (condition, [.eof q]) ∧
        condition.scalar? .exact (fun _ => some (.int 0)) = some (.bool true) := by
  have hs : Style.sourceLike.PlainSpelling := ⟨rfl, rfl, rfl, rfl, rfl, rfl, rfl, rfl⟩
  have htest : guardedTest.Readable false := by
    have hname : ∀ n ∈ ["n", "x"], Token.isLexeme .identifier n = true := by decide
    have hraw : ∀ raw ∈ ["0", "3", "4"], Vocabulary.lexical.IsLiteral raw := by
      intro raw hmem
      unfold Vocabulary.IsLiteral Vocabulary.lexical
      revert raw
      decide
    have hop : ∀ op ∈ [BinaryOp.and, .ne, .gt, .lt, .div], op ∈ BinaryOp.all := by decide
    simp [guardedTest, Expr.Readable, hname, hraw, hop]
  have hfails : guardedTest.scalar? .exact (fun _ => some (.int 0)) = some (.bool false) := rfl
  have hbody : (Stmt.block ⟨1, 1⟩ []).WellFormed .lexical := trivial
  obtain ⟨page', text, tokens, condition, q, hemit, htokens, hread, hnegates⟩ :=
    until_negates_test hs hbody htest ⟨1, 1⟩ (.blank .sourceLike)
  exact ⟨hs, hbody, htest, hfails, page', text, tokens, condition, q, hemit, htokens, hread,
    hnegates .exact _ false hfails⟩

end Stmt

end Pseudocode
