import Pseudocode.Proofs.Reader.Derivation
import Pseudocode.Proofs.Reader.Statement
import Pseudocode.Proofs.Token.Scanning
set_option autoImplicit false

/-!
# The grammar of statements and programs

The tokens of a program are those of its statements, with the head of a class or of a
method before them.  Statements are derived rule by rule, as expressions are.  Of the head
only the parameters of the method are free; they are passed over, whatever they are.
-/

namespace Pseudocode

/-! ## Derivations -/

/-- The value of a declaration, with the sign before it. -/
inductive DerivesValue : Option Expr → List Token → Prop where
  | none : DerivesValue none []
  | elements {t : Token} {e : Expr} {w : List Token} (ht : (Pattern.operator "=").fits t = true)
      (he : Derives (.initializer e) w) : DerivesValue (some e) (t :: w)
  | plain {t : Token} {e : Expr} {w : List Token} (ht : (Pattern.operator "=").fits t = true)
      (he : Derives (.whole e) w) : DerivesValue (some e) (t :: w)

/-- A declaration, behind the token `t` of its type, with which it starts. -/
inductive DerivesDeclaration (t : Token) : Declaration → List Token → Prop where
  | intro {m k : Nat} {n s : Token} {value : Option Expr} {u v w : List Token}
      (hu : Derives (.brackets (List.replicate m none)) u) (hn : n.kind = .identifier)
      (hv : Derives (.brackets (List.replicate k none)) v) (hw : DerivesValue value w)
      (hs : Pattern.semicolon.fits s = true) :
      DerivesDeclaration t ⟨t.pos, n.text, t.text, m + k, value⟩ (u ++ n :: v ++ w ++ [s])

/-- An assignment with its semicolon. -/
inductive DerivesAssignment : Assignment → List Token → Prop where
  | intro {p : Pos} {goal value : Expr} {t s : Token} {op : AssignOp} {u w : List Token}
      (hgoal : Derives (.base goal) u) (htarget : goal.isTarget = true)
      (ht : t.assignOp? = some op) (hvalue : Derives (.whole value) w)
      (hs : Pattern.semicolon.fits s = true) :
      DerivesAssignment ⟨p, goal, op, value⟩ (u ++ t :: w ++ [s])

/-- A change by one, without a semicolon. -/
inductive DerivesUpdate : Update → List Token → Prop where
  | behind {p : Pos} {goal : Expr} {t : Token} {op : UpdateOp} {u : List Token}
      (hgoal : Derives (.base goal) u) (htarget : goal.isTarget = true)
      (ht : t.updateOp? = some op) : DerivesUpdate ⟨p, goal, op⟩ (u ++ [t])
  | front {p : Pos} {goal : Expr} {t : Token} {op : UpdateOp} {u : List Token}
      (ht : t.updateOp? = some op) (hgoal : Derives (.base goal) u)
      (htarget : goal.isTarget = true) : DerivesUpdate ⟨p, goal, op⟩ (t :: u)

/-- A condition in its brackets. -/
inductive DerivesCondition : Expr → List Token → Prop where
  | intro {a b : Token} {e : Expr} {w : List Token} (ha : Pattern.openParen.fits a = true)
      (he : Derives (.whole e) w) (hb : Pattern.closeParen.fits b = true) :
      DerivesCondition e (a :: w ++ [b])

/-- What a counting loop does first, with its semicolon. -/
inductive DerivesInit : Option ForInit → List Token → Prop where
  | none {s : Token} (hs : Pattern.semicolon.fits s = true) : DerivesInit none [s]
  | declaration {t : Token} {d : Declaration} {w : List Token} (ht : t.isType = true)
      (hd : DerivesDeclaration t d w) : DerivesInit (some (.declaration d)) (t :: w)
  | assignment {a : Assignment} {w : List Token} (ha : DerivesAssignment a w) :
      DerivesInit (some (.assignment a)) w

/-- The test of a counting loop, with its semicolon. -/
inductive DerivesTest : Option Expr → List Token → Prop where
  | none {s : Token} (hs : Pattern.semicolon.fits s = true) : DerivesTest none [s]
  | some {e : Expr} {s : Token} {w : List Token} (he : Derives (.whole e) w)
      (hs : Pattern.semicolon.fits s = true) : DerivesTest (some e) (w ++ [s])

/-- What a counting loop does after each round, with the closing bracket. -/
inductive DerivesStep : Option ForUpdate → List Token → Prop where
  | none {b : Token} (hb : Pattern.closeParen.fits b = true) : DerivesStep none [b]
  | update {u : Update} {b : Token} {w : List Token} (hu : DerivesUpdate u w)
      (hb : Pattern.closeParen.fits b = true) : DerivesStep (some (.update u)) (w ++ [b])
  | expression {e : Expr} {b : Token} {w : List Token} (he : Derives (.whole e) w)
      (hb : Pattern.closeParen.fits b = true) : DerivesStep (some (.expression e)) (w ++ [b])

/-- One statement or several. -/
inductive Clause where
  | one (s : Stmt)
  | many (ss : List Stmt)

/-- The tokens form the statements.  The positions of statements other than declarations are
left open. -/
inductive Sentence : Clause → List Token → Prop where
  | block {p : Pos} {a b : Token} {ss : List Stmt} {w : List Token}
      (ha : Pattern.openBrace.fits a = true) (hss : Sentence (.many ss) w)
      (hb : Pattern.closeBrace.fits b = true) :
      Sentence (.one (.block p ss)) (a :: w ++ [b])
  | declaration {t : Token} {d : Declaration} {w : List Token}
      (ht : t.isType = true ∨ t.kind = .identifier) (hd : DerivesDeclaration t d w) :
      Sentence (.one (.declaration d)) (t :: w)
  | finalDeclaration {f t : Token} {d : Declaration} {w : List Token} (hf : f.kind = .identifier)
      (hfinal : f.text = "final") (hd : DerivesDeclaration t d w) :
      Sentence (.one (.declaration d)) (f :: t :: w)
  | assignment {a : Assignment} {w : List Token} (ha : DerivesAssignment a w) :
      Sentence (.one (.assignment a)) w
  | update {u : Update} {s : Token} {w : List Token} (hu : DerivesUpdate u w)
      (hs : Pattern.semicolon.fits s = true) : Sentence (.one (.update u)) (w ++ [s])
  | expression {p : Pos} {e : Expr} {s : Token} {w : List Token} (he : Derives (.whole e) w)
      (hs : Pattern.semicolon.fits s = true) : Sentence (.one (.expression p e)) (w ++ [s])
  | call {p : Pos} {e : Expr} {s : Token} {w : List Token} (he : Derives (.level 0 e) w)
      (hs : Pattern.semicolon.fits s = true) : Sentence (.one (.call p e)) (w ++ [s])
  | ifOnly {p : Pos} {k : Token} {e : Expr} {s : Stmt} {u v : List Token}
      (hk : (Pattern.keyword "if").fits k = true) (he : DerivesCondition e u)
      (hs : Sentence (.one s) v) : Sentence (.one (.ifElse p e s none)) (k :: u ++ v)
  | ifElse {p : Pos} {k k' : Token} {e : Expr} {s s' : Stmt} {u v w : List Token}
      (hk : (Pattern.keyword "if").fits k = true) (he : DerivesCondition e u)
      (hs : Sentence (.one s) v) (hk' : (Pattern.keyword "else").fits k' = true)
      (hs' : Sentence (.one s') w) :
      Sentence (.one (.ifElse p e s (some s'))) (k :: u ++ v ++ k' :: w)
  | whileLoop {p : Pos} {k : Token} {e : Expr} {s : Stmt} {u v : List Token}
      (hk : (Pattern.keyword "while").fits k = true) (he : DerivesCondition e u)
      (hs : Sentence (.one s) v) : Sentence (.one (.whileLoop p e s)) (k :: u ++ v)
  | doWhileLoop {p : Pos} {k k' c : Token} {e : Expr} {s : Stmt} {u v : List Token}
      (hk : (Pattern.keyword "do").fits k = true) (hs : Sentence (.one s) u)
      (hk' : (Pattern.keyword "while").fits k' = true) (he : DerivesCondition e v)
      (hc : Pattern.semicolon.fits c = true) :
      Sentence (.one (.doWhileLoop p s e)) (k :: u ++ k' :: v ++ [c])
  | forLoop {p : Pos} {k a : Token} {init : Option ForInit} {test : Option Expr}
      {step : Option ForUpdate} {s : Stmt} {u v w x : List Token}
      (hk : (Pattern.keyword "for").fits k = true) (ha : Pattern.openParen.fits a = true)
      (hinit : DerivesInit init u) (htest : DerivesTest test v) (hstep : DerivesStep step w)
      (hs : Sentence (.one s) x) :
      Sentence (.one (.forLoop p init test step s)) (k :: a :: u ++ v ++ w ++ x)
  | nil : Sentence (.many []) []
  | cons {s : Stmt} {ss : List Stmt} {u w : List Token} (hs : Sentence (.one s) u)
      (hss : Sentence (.many ss) w) : Sentence (.many (s :: ss)) (u ++ w)

/-! ## Simple statements -/

namespace Reading

variable {ts : List Token}

theorem Takes.dimensions :
    Takes (fun n w => Derives (.brackets (List.replicate n none)) w) dimensions ts := by
  refine Takes.bind (P := fun pairs w => Derives (.brackets (List.replicate pairs.length none)) w)
    ?_ ?_
  · refine Takes.many (P := fun _ w => ∃ a b, w = [a, b] ∧ Pattern.openBracket.fits a = true ∧
      Pattern.closeBracket.fits b = true) .noBrackets ?_ ?_
    · rintro _ _ pairs v ⟨a, b, rfl, ha, hb⟩ hpairs
      exact .empty ha hb hpairs
    · intro a us ha
      refine Takes.advance (ne_eof_of_fits ha (by decide)) ?_
      intro _ b rest h
      obtain ⟨-, rfl, hb, -⟩ := (Tracks.expect (φ := id) _ (by decide)).of_ok h
      exact ⟨[b], rfl, a, b, rfl, ha, hb⟩
  · intro pairs w rest _ hpairs
    refine .pure ?_
    rwa [List.append_nil]

theorem Takes.initialValue : Takes DerivesValue initialValue ts := by
  refine Takes.acceptThen (by simp [Pattern.operator]) ?_ fun _ _ _ _ => .pure .none
  intro t us _ ht
  refine Takes.isAt ?_
  intro b us' _
  refine Takes.ite (fun _ => ?_) fun _ => ?_
  · refine Takes.bind Takes.initializer ?_
    intro e w rest _ he
    refine .pure ?_
    simpa using DerivesValue.elements ht he
  · refine Takes.bind Takes.expression ?_
    intro e w rest _ he
    refine .pure ?_
    simpa using DerivesValue.plain ht he

theorem Takes.declaration {t : Token} {us : List Token} (ht : t.kind ≠ .eof) :
    Takes (fun d w => ∃ v, w = t :: v ∧ DerivesDeclaration t d v) declaration (t :: us) := by
  refine Takes.here ?_
  intro t' us' heq
  obtain ⟨rfl, rfl⟩ := List.cons.inj heq
  refine Takes.advance ht ?_
  refine Takes.bind Takes.dimensions ?_
  intro m u rest _ hu
  refine Takes.expect (by decide) ?_
  intro n rest₁ _ hn
  refine Takes.bind Takes.dimensions ?_
  intro k v rest₂ _ hv
  refine Takes.bind Takes.initialValue ?_
  intro value w rest₃ _ hw
  refine Takes.expect (by decide) ?_
  intro s rest₄ _ hs
  refine .pure ⟨u ++ n :: v ++ w ++ [s], by simp, ?_⟩
  exact .intro hu (kind_of_fits hn) hv hw hs

theorem Takes.target : Takes (fun e w => e.isTarget = true ∧ Derives (.base e) w) target ts := by
  refine Takes.here ?_
  intro t us _
  refine Takes.expect (by decide) ?_
  intro n us' heq hn
  obtain ⟨rfl, rfl⟩ := List.cons.inj heq
  have hname : Derives (.base (.name t.pos t.text)) [t] := .name (kind_of_fits hn)
  refine Takes.isAt ?_
  intro a us'' _
  refine Takes.ite (fun ha => ?_) fun _ => .pure ⟨rfl, hname⟩
  have hindices : Takes (fun es w => es ≠ [] ∧ Derives (.brackets (es.map some)) w)
      subscripts (a :: us'') := by
    intro hts es rest hes
    obtain ⟨w, hw, hderives⟩ := Takes.subscriptsWith (derived_nestedWithin _) hts es rest hes
    exact ⟨w, hw, many_ne_nil ha hes, hderives⟩
  refine Takes.bind hindices ?_
  rintro es w rest - ⟨hne, hes⟩
  refine .pure ⟨rfl, ?_⟩
  rw [List.append_nil]
  exact .index hname hes hne

theorem Takes.assignment : Takes DerivesAssignment assignment ts := by
  refine Takes.here ?_
  intro _ _ _
  refine Takes.bind Takes.target ?_
  rintro goal u rest - ⟨htarget, hgoal⟩
  refine Takes.current ?_
  intro o us _
  cases hop : o.assignOp? with
  | none => exact Takes.refuse _
  | some op =>
    refine Takes.advance (by simp [(Token.assignOp?_eq_some hop).1]) ?_
    refine Takes.bind Takes.expression ?_
    intro value w rest' _ hvalue
    refine Takes.expect (by decide) ?_
    intro s us' _ hs
    refine .pure ?_
    simpa using DerivesAssignment.intro hgoal htarget hop hvalue hs

/-- The end of a change by one: a semicolon, if it is asked for. -/
def EndsUpdate (closed : Bool) (w : List Token) : Prop :=
  if closed = true then ∃ s, w = [s] ∧ Pattern.semicolon.fits s = true else w = []

theorem Takes.updateEnd (closed : Bool) :
    Takes (fun _ w => EndsUpdate closed w) (updateEnd closed) ts := by
  unfold EndsUpdate
  refine Takes.ite (fun hclosed => ?_) fun hclosed => ?_
  · refine Takes.expect (by decide) ?_
    intro s us _ hs
    refine .pure ?_
    rw [if_pos hclosed]
    exact ⟨s, rfl, hs⟩
  · refine .pure ?_
    rw [if_neg hclosed]

theorem Takes.update (closed : Bool) :
    Takes (fun x w => ∃ u v, w = u ++ v ∧ DerivesUpdate x u ∧ EndsUpdate closed v)
      (update closed) ts := by
  refine Takes.here ?_
  intro _ _ _
  refine Takes.bind Takes.target ?_
  rintro goal u rest - ⟨htarget, hgoal⟩
  refine Takes.current ?_
  intro t us _
  cases hop : t.updateOp? with
  | none => exact Takes.refuse _
  | some op =>
    refine Takes.advance (by simp [(Token.updateOp?_eq_some hop).1]) ?_
    refine Takes.bind (Takes.updateEnd closed) ?_
    intro _ v rest' _ hv
    exact .pure ⟨u ++ [t], v, by simp, .behind hgoal htarget hop, hv⟩

theorem Takes.leadingUpdate (closed : Bool) {t : Token} {us : List Token} {op : UpdateOp}
    (hop : t.updateOp? = some op) :
    Takes (fun x w => ∃ u v, w = u ++ v ∧ DerivesUpdate x u ∧ EndsUpdate closed v)
      (leadingUpdate closed) (t :: us) := by
  refine Takes.here ?_
  intro t' us' heq
  obtain ⟨rfl, rfl⟩ := List.cons.inj heq
  obtain ⟨hkind, hsymbol⟩ := Token.operator?_eq_some hop
  refine Takes.advance (by simp [hkind]) ?_
  refine Takes.bind Takes.target ?_
  rintro goal u rest - ⟨htarget, hgoal⟩
  refine Takes.bind (Takes.updateEnd closed) ?_
  intro _ v rest' _ hv
  refine .pure ⟨t :: u, v, by simp, ?_, hv⟩
  have hofSymbol : UpdateOp.ofSymbol t.text = op := by rw [UpdateOp.ofSymbol, hsymbol, Option.getD]
  rw [hofSymbol]
  exact .front hop hgoal htarget

theorem Takes.callStatement : Takes (fun s w => Sentence (.one s) w) callStatement ts := by
  refine Takes.here ?_
  intro t us _
  refine Takes.expect (by decide) ?_
  intro n us' heq hn
  obtain ⟨rfl, rfl⟩ := List.cons.inj heq
  refine Takes.bind (Takes.suffixes (.name (kind_of_fits hn))) ?_
  intro e w rest _ he
  refine Takes.expect (by decide) ?_
  intro s us'' _ hs
  refine .pure ?_
  simpa using Sentence.call he hs

theorem Takes.expressionStatement :
    Takes (fun s w => Sentence (.one s) w) expressionStatement ts := by
  refine Takes.here ?_
  intro _ _ _
  refine Takes.bind Takes.expression ?_
  intro e w rest _ he
  refine Takes.expect (by decide) ?_
  intro s us _ hs
  refine .pure ?_
  simpa using Sentence.expression he hs

/-! ## Statements with parts -/

theorem Takes.condition (word : String) : Takes DerivesCondition (condition word) ts := by
  refine Takes.expect (by decide) ?_
  intro a us _ ha
  refine Takes.bind Takes.expression ?_
  intro e w rest _ he
  refine Takes.expect (by decide) ?_
  intro b us' _ hb
  refine .pure ?_
  simpa using DerivesCondition.intro ha he hb

variable {inner : Reading Stmt}

/-- Statements are taken one behind the other. -/
theorem Takes.statements (hin : ∀ ts, Takes (fun s w => Sentence (.one s) w) inner ts)
    (wanted : Token → Bool) :
    Takes (fun ss w => Sentence (.many ss) w) (Reading.many wanted inner) ts :=
  Takes.many .nil (fun _ _ _ _ hs hss => .cons hs hss) fun _ _ _ => hin _

theorem Takes.blockWith (hin : ∀ ts, Takes (fun s w => Sentence (.one s) w) inner ts) :
    Takes (fun b w => ∃ o v c, w = o :: v ++ [c] ∧ Pattern.openBrace.fits o = true ∧
      Sentence (.many b.2) v ∧ Pattern.closeBrace.fits c = true) (blockWith inner) ts := by
  refine Takes.here ?_
  intro _ _ _
  refine Takes.expect (by decide) ?_
  intro o us _ ho
  refine Takes.bind (Takes.statements hin _) ?_
  intro ss v rest _ hss
  refine Takes.expect (by decide) ?_
  intro c us' _ hc
  exact .pure ⟨o, v, c, by simp, ho, hss, hc⟩

theorem Takes.ifElseWith (hin : ∀ ts, Takes (fun s w => Sentence (.one s) w) inner ts) :
    Takes (fun s w => Sentence (.one s) w) (ifElseWith inner) ts := by
  refine Takes.here ?_
  intro _ _ _
  refine Takes.expect (by simp [Pattern.keyword]) ?_
  intro k us _ hk
  refine Takes.bind (Takes.condition "if") ?_
  intro e u rest _ he
  refine Takes.bind (hin _) ?_
  intro s v rest' _ hs
  refine Takes.acceptThen (by simp [Pattern.keyword]) ?_ ?_
  · intro k' us' _ hk'
    refine Takes.bind (hin _) ?_
    intro s' w rest'' _ hs'
    refine .pure ?_
    simpa using Sentence.ifElse hk he hs hk' hs'
  · intro _ _ _ _
    refine .pure ?_
    simpa using Sentence.ifOnly hk he hs

theorem Takes.whileLoopWith (hin : ∀ ts, Takes (fun s w => Sentence (.one s) w) inner ts) :
    Takes (fun s w => Sentence (.one s) w) (whileLoopWith inner) ts := by
  refine Takes.here ?_
  intro _ _ _
  refine Takes.expect (by simp [Pattern.keyword]) ?_
  intro k us _ hk
  refine Takes.bind (Takes.condition "while") ?_
  intro e u rest _ he
  refine Takes.bind (hin _) ?_
  intro s v rest' _ hs
  refine .pure ?_
  simpa using Sentence.whileLoop hk he hs

theorem Takes.doWhileLoopWith (hin : ∀ ts, Takes (fun s w => Sentence (.one s) w) inner ts) :
    Takes (fun s w => Sentence (.one s) w) (doWhileLoopWith inner) ts := by
  refine Takes.here ?_
  intro _ _ _
  refine Takes.expect (by simp [Pattern.keyword]) ?_
  intro k us _ hk
  refine Takes.bind (hin _) ?_
  intro s u rest _ hs
  refine Takes.expect (by simp [Pattern.keyword]) ?_
  intro k' us' _ hk'
  refine Takes.bind (Takes.condition "while") ?_
  intro e v rest' _ he
  refine Takes.expect (by decide) ?_
  intro c us'' _ hc
  refine .pure ?_
  simpa using Sentence.doWhileLoop hk hs hk' he hc

theorem kind_of_isType {t : Token} (h : t.isType = true) : t.kind = .keyword := by
  simp only [Token.isType, Bool.and_eq_true, beq_iff_eq] at h
  exact h.1

theorem Takes.forInit : Takes DerivesInit forInit ts := by
  refine Takes.acceptThen (by decide) (fun s us _ hs => .pure (.none hs)) ?_
  intro t us _ _
  refine Takes.look (fun b rest h => ((Tracks.atType (φ := id)).of_ok h).2.1) ?_
  intro b hb
  have htype := ((Tracks.atType (φ := id)).of_ok hb).2.2 t us rfl
  refine Takes.ite (fun h => ?_) fun _ => ?_
  · have ht : t.isType = true := htype ▸ h
    refine Takes.bind (Takes.declaration (by simp [kind_of_isType ht])) ?_
    rintro d _ rest - ⟨w, rfl, hd⟩
    refine .pure ?_
    rw [List.append_nil]
    exact .declaration ht hd
  · refine Takes.bind Takes.assignment ?_
    intro a w rest _ ha
    refine .pure ?_
    rw [List.append_nil]
    exact .assignment ha

theorem Takes.forTest : Takes DerivesTest forTest ts := by
  refine Takes.acceptThen (by decide) (fun s us _ hs => .pure (.none hs)) ?_
  intro _ _ _ _
  refine Takes.bind Takes.expression ?_
  intro e w rest _ he
  refine Takes.expect (by decide) ?_
  intro s us _ hs
  exact .pure (.some he hs)

/-- What a counting loop does after each round, before the closing bracket. -/
theorem Takes.forUpdate :
    Takes (fun x w => ∀ b : Token, Pattern.closeParen.fits b = true →
      DerivesStep (some x) (w ++ [b])) forUpdate ts := by
  have hexpression : ∀ {us : List Token}, Takes (fun x w => ∀ b : Token,
      Pattern.closeParen.fits b = true → DerivesStep (some x) (w ++ [b]))
      (Reading.expression >>= fun e => Pure.pure (ForUpdate.expression e)) us := by
    intro us
    refine Takes.bind Takes.expression ?_
    intro e w rest _ he
    refine .pure fun b hb => ?_
    rw [List.append_nil]
    exact .expression he hb
  refine Takes.current ?_
  intro t us _
  refine Takes.ite (fun ht => ?_) fun _ => Takes.ite (fun ht => ?_) fun _ => hexpression
  · obtain ⟨op, hop⟩ := Option.isSome_iff_exists.mp ht
    refine Takes.bind (Takes.leadingUpdate false hop) ?_
    rintro x _ rest - ⟨u, v, rfl, hx, hv⟩
    obtain rfl : v = [] := hv
    refine .pure fun b hb => ?_
    simpa using DerivesStep.update hx hb
  · refine Takes.look (fun b rest h => ((Tracks.updateAhead (φ := id) (by simp [ht])).of_ok h).2) ?_
    intro ahead _
    refine Takes.ite (fun _ => ?_) fun _ => hexpression
    refine Takes.bind (Takes.update false) ?_
    rintro x _ rest - ⟨u, v, rfl, hx, hv⟩
    obtain rfl : v = [] := hv
    refine .pure fun b hb => ?_
    simpa using DerivesStep.update hx hb

theorem Takes.forStep : Takes DerivesStep forStep ts := by
  refine Takes.acceptThen (by decide) (fun b us _ hb => .pure (.none hb)) ?_
  intro _ _ _ _
  refine Takes.bind Takes.forUpdate ?_
  intro x w rest _ hx
  refine Takes.expect (by decide) ?_
  intro b us _ hb
  exact .pure (hx b hb)

theorem Takes.forLoopWith (hin : ∀ ts, Takes (fun s w => Sentence (.one s) w) inner ts) :
    Takes (fun s w => Sentence (.one s) w) (forLoopWith inner) ts := by
  refine Takes.here ?_
  intro _ _ _
  refine Takes.expect (by simp [Pattern.keyword]) ?_
  intro k us _ hk
  refine Takes.expect (by decide) ?_
  intro a us' _ ha
  refine Takes.bind Takes.forInit ?_
  intro init u rest _ hinit
  refine Takes.bind Takes.forTest ?_
  intro test v rest₁ _ htest
  refine Takes.bind Takes.forStep ?_
  intro step w rest₂ _ hstep
  refine Takes.bind (hin _) ?_
  intro s x rest₃ _ hs
  refine .pure ?_
  simpa using Sentence.forLoop hk ha hinit htest hstep hs

/-! ## Any statement -/

theorem Takes.keywordStatementWith (hin : ∀ ts, Takes (fun s w => Sentence (.one s) w) inner ts)
    {t : Token} {us : List Token} (ht : t.kind = .keyword) :
    Takes (fun s w => Sentence (.one s) w) (keywordStatementWith inner t.text) (t :: us) := by
  refine Takes.ite (fun _ => Takes.ifElseWith hin) fun _ =>
    Takes.ite (fun _ => Takes.whileLoopWith hin) fun _ =>
    Takes.ite (fun _ => Takes.forLoopWith hin) fun _ =>
    Takes.ite (fun _ => Takes.doWhileLoopWith hin) fun _ =>
    Takes.ite (fun htype => ?_) fun _ => Takes.refuse _
  refine Takes.bind (Takes.declaration (by simp [ht])) ?_
  rintro d _ rest - ⟨w, rfl, hd⟩
  refine .pure ?_
  rw [List.append_nil]
  refine .declaration (.inl ?_) hd
  rw [Token.isType, ht, htype]
  rfl

/-- Behind the name `final` any token is taken for a type, but not `eof`. -/
theorem Takes.finalDeclaration {us : List Token} :
    Takes (fun d w => ∃ t v, w = t :: v ∧ DerivesDeclaration t d v)
      Reading.declaration us := by
  cases us with
  | nil =>
    intro _ d rest h
    cases h
  | cons t us =>
    by_cases heof : t.kind = .eof
    · intro hts d rest h
      obtain ⟨_, _, hhere, h⟩ := bind_eq_ok_iff.mp h
      cases hhere
      rw [bind_apply, Reading.advance, if_pos heof] at h
      obtain ⟨m, mid, hm, h⟩ := bind_eq_ok_iff.mp h
      obtain ⟨n, mid', hn, -⟩ := bind_eq_ok_iff.mp h
      obtain ⟨u, hu, hpairs⟩ := Takes.dimensions hts m mid hm
      obtain ⟨-, rfl, hname, -⟩ := (Tracks.expect (φ := id) _ (by decide)).of_ok hn
      obtain ⟨-, rfl⟩ | ⟨a, vs, rfl, ha⟩ := hpairs.first
      · obtain ⟨rfl, -⟩ := List.cons.inj hu
        exact absurd heof (ne_eof_of_fits hname (by decide))
      · obtain ⟨rfl, -⟩ := List.cons.inj hu
        exact absurd heof (ne_eof_of_fits ha (by decide))
    · refine (Takes.declaration heof).mono ?_
      rintro d w ⟨v, hw, hd⟩
      exact ⟨t, v, hw, hd⟩

theorem Takes.nameStatement {t : Token} {us : List Token} (ht : t.kind = .identifier) :
    Takes (fun s w => Sentence (.one s) w) (nameStatement t.text) (t :: us) := by
  have hne : t.kind ≠ .eof := by simp [ht]
  refine Takes.look (fun b rest h => ((Tracks.finalAhead (φ := id) _).of_ok h).2) ?_
  intro final hfinal
  refine Takes.ite (fun hahead => ?_) fun _ => ?_
  · have htext : t.text = "final" := by
      obtain ⟨_, _, -, h⟩ := bind_eq_ok_iff.mp hfinal
      obtain ⟨_, _, -, h⟩ := bind_eq_ok_iff.mp h
      cases h
      simp only [Bool.and_eq_true, beq_iff_eq] at hahead
      exact hahead.1
    refine Takes.advance hne ?_
    refine Takes.bind Takes.finalDeclaration ?_
    rintro d _ rest - ⟨t', w, rfl, hd⟩
    refine .pure ?_
    rw [List.append_nil]
    exact .finalDeclaration ht htext hd
  refine Takes.look (fun b rest h => ((Tracks.classDeclarationAhead (φ := id)).of_ok h).2) ?_
  intro _ _
  refine Takes.ite (fun _ => ?_) fun _ => ?_
  · refine Takes.bind (Takes.declaration hne) ?_
    rintro d _ rest - ⟨w, rfl, hd⟩
    refine .pure ?_
    rw [List.append_nil]
    exact .declaration (.inr ht) hd
  refine Takes.look (fun b rest h => ((Tracks.updateAhead (φ := id) hne).of_ok h).2) ?_
  intro _ _
  refine Takes.ite (fun _ => ?_) fun _ => ?_
  · refine Takes.bind (Takes.update true) ?_
    rintro x _ rest - ⟨u, v, rfl, hx, s, rfl, hs⟩
    refine .pure ?_
    rw [List.append_nil]
    exact .update hx hs
  refine Takes.look (fun b rest h => ((Tracks.callAhead (φ := id)).of_ok h).2) ?_
  intro _ _
  refine Takes.ite (fun _ => Takes.callStatement) fun _ => ?_
  refine Takes.look (fun b rest h => ((Tracks.assignmentAhead (φ := id) hne).of_ok h).2) ?_
  intro _ _
  refine Takes.ite (fun _ => ?_) fun _ => Takes.expressionStatement
  refine Takes.bind Takes.assignment ?_
  intro a w rest _ ha
  refine .pure ?_
  rw [List.append_nil]
  exact .assignment ha

theorem Takes.statementWith (hin : ∀ ts, Takes (fun s w => Sentence (.one s) w) inner ts) :
    Takes (fun s w => Sentence (.one s) w) (statementWith inner) ts := by
  refine Takes.current ?_
  intro t us _
  refine Takes.ite (fun ht => Takes.keywordStatementWith hin ht) fun _ =>
    Takes.ite (fun _ => ?_) fun _ => Takes.ite (fun ht => ?_) fun _ =>
    Takes.ite (fun ht => Takes.nameStatement ht) fun _ => Takes.refuse _
  · refine Takes.bind (Takes.blockWith hin) ?_
    rintro ⟨p, body⟩ _ rest - ⟨o, v, c, rfl, ho, hbody, hc⟩
    refine .pure ?_
    rw [List.append_nil]
    exact .block ho hbody hc
  · obtain ⟨op, hop⟩ := Option.isSome_iff_exists.mp ht
    refine Takes.bind (Takes.leadingUpdate true hop) ?_
    rintro x _ rest - ⟨u, v, rfl, hx, s, rfl, hs⟩
    refine .pure ?_
    rw [List.append_nil]
    exact .update hx hs

/-- What is read as a statement is a sentence. -/
theorem Takes.statement : Takes (fun s w => Sentence (.one s) w) statement ts := by
  have hclock : ∀ clock us, Takes (fun s w => Sentence (.one s) w) (statementWithin clock) us := by
    intro clock
    induction clock with
    | nil => exact fun _ => Takes.exhausted
    | cons c clock ih => exact fun _ => Takes.statementWith ih
  exact hclock ts ts

end Reading

/-! ## Programs -/

/-- The tokens in front of the bracket that closes; `depth` brackets are open among them. -/
def Token.insideParens : (depth : Nat) → List Token → List Token
  | _, [] => []
  | depth, t :: ts =>
    if Pattern.openParen.fits t then t :: insideParens (depth + 1) ts
    else if Pattern.closeParen.fits t then
      if depth = 0 then [] else t :: insideParens (depth - 1) ts
    else t :: insideParens depth ts

/-- The parameters of the method at hand, if there is one. -/
def Token.methodParameters (ts : List Token) : List Token :=
  match Reading.atMethod ts with
  | .ok (true, _) => insideParens 0 (ts.drop 3)
  | _ => []

/-- The parameters of the method of a program, which reading passes over. -/
def Program.parameters (tokens : List Token) : List Token :=
  let ts := tokens.dropWhile Token.isModifier
  if ts.head?.any (Pattern.keyword "class").fits then
    Token.methodParameters ((ts.drop 3).dropWhile Token.isModifier)
  else Token.methodParameters ts

/-- The tokens `front` and `back` around the statements of a program: those of a method, of a
class or of both. -/
inductive Frame : (params front back : List Token) → Prop where
  | bare : Frame [] [] []
  | method {t n a b o c : Token} {params : List Token}
      (ht : t.kind = .keyword ∨ t.kind = .identifier) (hn : n.kind = .identifier)
      (ha : Pattern.openParen.fits a = true) (hb : Pattern.closeParen.fits b = true)
      (ho : Pattern.openBrace.fits o = true) (hc : Pattern.closeBrace.fits c = true) :
      Frame params (t :: n :: a :: params ++ [b, o]) [c]
  | inClass {k n o c : Token} {mods params front back : List Token}
      (hk : (Pattern.keyword "class").fits k = true) (hn : n.kind = .identifier)
      (ho : Pattern.openBrace.fits o = true) (hmods : ∀ t ∈ mods, t.isModifier = true)
      (hframe : Frame params front back) (hc : Pattern.closeBrace.fits c = true) :
      Frame params (k :: n :: o :: mods ++ front) (back ++ [c])

namespace Reading

variable {ts rest : List Token} {body : List Stmt}

theorem insideParens_of_skipParameters {depth : Nat}
    (h : skipParameters (depth + 1) ts = .ok ((), rest)) :
    ∃ b, ts = Token.insideParens depth ts ++ b :: rest ∧ Pattern.closeParen.fits b = true := by
  induction ts generalizing depth with
  | nil => cases h
  | cons t ts ih =>
    rw [skipParameters] at h
    rw [Token.insideParens]
    split at h
    · cases h
    split at h
    · rename_i hopen
      obtain ⟨b, hts, hb⟩ := ih h
      rw [if_pos hopen]
      exact ⟨b, congrArg (t :: ·) hts, hb⟩
    rename_i hopen
    rw [if_neg hopen]
    split at h
    · rename_i hclose
      rw [if_pos hclose]
      cases depth with
      | zero =>
        rw [skipParameters] at h
        cases h
        exact ⟨t, rfl, hclose⟩
      | succ depth =>
        obtain ⟨b, hts, hb⟩ := ih h
        rw [if_neg (Nat.succ_ne_zero depth), Nat.add_sub_cancel]
        exact ⟨b, congrArg (t :: ·) hts, hb⟩
    · rename_i hclose
      obtain ⟨b, hts, hb⟩ := ih h
      rw [if_neg hclose]
      exact ⟨b, congrArg (t :: ·) hts, hb⟩

/-- Behind the modifiers at hand. -/
theorem dropWhile_of_skipModifiers (h : skipModifiers ts = .ok ((), rest)) :
    rest = ts.dropWhile Token.isModifier := by
  have hcollect : ∀ {us mid : List Token} {found : List Unit},
      collect (fun t => if t.isModifier then some () else none) us = .ok (found, mid) →
        mid = us.dropWhile Token.isModifier := by
    intro us
    induction us with
    | nil =>
      intro mid found h
      cases h
    | cons t us ih =>
      intro mid found h
      rw [collect] at h
      cases ht : t.isModifier with
      | false =>
        simp only [ht] at h
        cases h
        rw [List.dropWhile_cons_of_neg (by simp [ht])]
      | true =>
        simp only [ht, if_true] at h
        rw [List.dropWhile_cons_of_pos ht]
        cases hmore : collect (fun t => if t.isModifier then some () else none) us with
        | error e => simp [hmore] at h
        | ok r =>
          simp only [hmore] at h
          cases h
          exact ih hmore
  obtain ⟨found, mid, hfound, hrest⟩ := bind_eq_ok_iff.mp h
  cases hrest
  exact hcollect hfound

/-- A method starts with a word. -/
theorem kind_of_atMethod {t : Token} {us : List Token}
    (h : atMethod (t :: us) = .ok (true, rest)) : t.kind = .keyword ∨ t.kind = .identifier := by
  obtain ⟨_, _, hcurrent, h⟩ := bind_eq_ok_iff.mp h
  cases hcurrent
  split at h
  · rename_i hvoid
    exact .inl (kind_of_fits hvoid)
  split at h
  · rename_i hword
    simp only [Token.isType, Bool.or_eq_true, Bool.and_eq_true, beq_iff_eq] at hword
    exact hword.imp_left And.left
  · cases h

/-- The tokens of a method. -/
theorem frame_of_method (hts : Token.Faithful ts) (hmethod : atMethod ts = .ok (true, ts))
    (h : method ts = .ok (body, rest)) :
    ∃ front w back, ts = front ++ w ++ back ++ rest ∧
      Frame (Token.methodParameters ts) front back ∧ Sentence (.many body) w := by
  have hparams : Token.methodParameters ts = Token.insideParens 0 (ts.drop 3) := by
    rw [Token.methodParameters, hmethod]
  cases ts with
  | nil => cases h
  | cons t us =>
    have ht := kind_of_atMethod hmethod
    obtain ⟨_, _, hadvance, h₁⟩ := bind_eq_ok_iff.mp h
    rw [advance, if_neg (by rcases ht with ht | ht <;> simp [ht])] at hadvance
    cases hadvance
    obtain ⟨n, us₁, hname, h₂⟩ := bind_eq_ok_iff.mp h₁
    obtain ⟨-, rfl, hn, -⟩ := (Tracks.expect (φ := id) _ (by decide)).of_ok hname
    obtain ⟨a, us₂, hopen, h₃⟩ := bind_eq_ok_iff.mp h₂
    obtain ⟨-, rfl, ha, -⟩ := (Tracks.expect (φ := id) _ (by decide)).of_ok hopen
    obtain ⟨_, us₃, hskip, h₄⟩ := bind_eq_ok_iff.mp h₃
    obtain ⟨b, hus, hb⟩ := insideParens_of_skipParameters hskip
    have hbehind : Token.Faithful us₃ := by
      have hparamsBehind := hts.tail.tail.tail
      rw [hus] at hparamsBehind
      exact hparamsBehind.of_append.tail
    obtain ⟨⟨p, body'⟩, us₄, hblock, h₅⟩ := bind_eq_ok_iff.mp h₄
    cases h₅
    obtain ⟨_, hus', o, w, c, rfl, ho, hw, hc⟩ :=
      Takes.blockWith (fun _ => Takes.statement) hbehind _ _ hblock
    rw [hparams]
    rw [hus'] at hus
    refine ⟨_, w, [c], ?_, .method ht (kind_of_fits hn) ha hb ho hc, hw⟩
    simpa using hus

/-- The tokens of a method, or else of statements. -/
theorem frame_of_member {isMethod : Bool} {wanted : Token → Bool} (hts : Token.Faithful ts)
    (hmethod : atMethod ts = .ok (isMethod, ts))
    (h : (if isMethod = true then method else many wanted statement) ts = .ok (body, rest)) :
    ∃ front w back, ts = front ++ w ++ back ++ rest ∧
      Frame (Token.methodParameters ts) front back ∧ Sentence (.many body) w := by
  cases isMethod with
  | true => exact frame_of_method hts hmethod h
  | false =>
    obtain ⟨w, hcut, hw⟩ := Takes.statements (fun _ => Takes.statement) wanted hts _ _ h
    have hparams : Token.methodParameters ts = [] := by
      rw [Token.methodParameters, hmethod]
    rw [hparams]
    exact ⟨[], w, [], by simpa using hcut, .bare, hw⟩

/-- The tokens of a class. -/
theorem frame_of_classBody (hts : Token.Faithful ts) (h : classBody ts = .ok (body, rest)) :
    ∃ front w back, ts = front ++ w ++ back ++ rest ∧
      Frame (Token.methodParameters ((ts.drop 3).dropWhile Token.isModifier)) front back ∧
      Sentence (.many body) w := by
  obtain ⟨k, us₁, hclass, h₁⟩ := bind_eq_ok_iff.mp h
  obtain ⟨-, rfl, hk, -⟩ := (Tracks.expect (φ := id) _ (by simp [Pattern.keyword])).of_ok hclass
  obtain ⟨n, us₂, hname, h₂⟩ := bind_eq_ok_iff.mp h₁
  obtain ⟨-, rfl, hn, -⟩ := (Tracks.expect (φ := id) _ (by decide)).of_ok hname
  obtain ⟨o, us₃, hopen, h₃⟩ := bind_eq_ok_iff.mp h₂
  obtain ⟨-, rfl, ho, -⟩ := (Tracks.expect (φ := id) _ (by decide)).of_ok hopen
  obtain ⟨_, us₄, hmods, h₄⟩ := bind_eq_ok_iff.mp h₃
  obtain rfl := dropWhile_of_skipModifiers hmods
  obtain ⟨isMethod, us₅, hmethod, h₅⟩ := bind_eq_ok_iff.mp h₄
  obtain rfl := ((Tracks.atMethod (φ := id)).of_ok hmethod).2
  obtain ⟨us₆, hbody, c, hc, rfl⟩ : ∃ us₆, (if isMethod = true then method else
      statementsWith statement) (us₃.dropWhile Token.isModifier) = .ok (body, us₆) ∧
      ∃ c, Pattern.closeBrace.fits c = true ∧ us₆ = c :: rest := by
    cases isMethod with
    | true | false =>
      obtain ⟨body', us₆, hbody, h₆⟩ := bind_eq_ok_iff.mp h₅
      obtain ⟨c, us₇, hclose, h₇⟩ := bind_eq_ok_iff.mp h₆
      obtain ⟨-, rfl, hc, -⟩ := (Tracks.expect (φ := id) _ (by decide)).of_ok hclose
      cases h₇
      exact ⟨_, hbody, c, hc, rfl⟩
  have hcut := List.takeWhile_append_dropWhile (p := Token.isModifier) (l := us₃)
  have hbehind : Token.Faithful (us₃.dropWhile Token.isModifier) := by
    have hmodsBehind := hts.tail.tail.tail
    rw [← hcut] at hmodsBehind
    exact hmodsBehind.of_append
  obtain ⟨front, w, back, hus, hframe, hw⟩ := frame_of_member hbehind hmethod hbody
  have hall : ∀ t ∈ us₃.takeWhile Token.isModifier, t.isModifier = true :=
    List.all_eq_true.mp List.all_takeWhile
  refine ⟨_, w, back ++ [c], ?_, .inClass hk (kind_of_fits hn) ho hall hframe hc, hw⟩
  rw [hus] at hcut
  simpa using hcut.symm

/-- The tokens of a program around its statements. -/
theorem frame_of_programBody (hts : Token.Faithful ts) (h : programBody ts = .ok (body, rest)) :
    ∃ front w back, ts = front ++ w ++ back ++ rest ∧
      Frame (if ts.head?.any (Pattern.keyword "class").fits = true then
        Token.methodParameters ((ts.drop 3).dropWhile Token.isModifier)
        else Token.methodParameters ts) front back ∧
      Sentence (.many body) w := by
  obtain ⟨isClass, mid, hclass, hbody⟩ := bind_eq_ok_iff.mp h
  obtain ⟨-, rfl, t, us, rfl, rfl⟩ := (Tracks.isAt (φ := id) _).of_ok hclass
  rw [List.head?_cons, Option.any_some]
  split at hbody
  · rename_i hword
    rw [if_pos hword]
    exact frame_of_classBody hts hbody
  · rename_i hword
    rw [if_neg hword]
    obtain ⟨isMethod, mid, hmethod, hmember⟩ := bind_eq_ok_iff.mp hbody
    obtain rfl := ((Tracks.atMethod (φ := id)).of_ok hmethod).2
    exact frame_of_member hts hmethod hmember

end Reading

/-- The tokens of a program: modifiers, the head of a class or of a method, the statements
and the closing braces, up to `eof`. -/
theorem Program.exists_frame {tokens : List Token} {program : Program}
    (htokens : Token.Faithful tokens) (h : ofTokens tokens = .ok program) :
    ∃ mods front w back e rest, tokens = mods ++ front ++ w ++ back ++ e :: rest ∧
      (∀ t ∈ mods, t.isModifier = true) ∧ Frame (parameters tokens) front back ∧
      Sentence (.many program.body) w ∧ e.kind = .eof := by
  obtain ⟨⟨program', rest⟩, hread, rfl⟩ : ∃ r, Reading.program tokens = .ok r ∧ r.1 = program := by
    unfold ofTokens at h
    cases hread : Reading.program tokens with
    | error stop => simp [hread, Except.map] at h
    | ok r =>
      rw [hread] at h
      exact ⟨r, rfl, Except.ok.inj h⟩
  obtain ⟨p, us₁, hhere, h₁⟩ := Reading.bind_eq_ok_iff.mp hread
  obtain rfl := ((Reading.Tracks.here (φ := id)).of_ok hhere).2
  obtain ⟨_, us₂, hmods, h₂⟩ := Reading.bind_eq_ok_iff.mp h₁
  obtain rfl := Reading.dropWhile_of_skipModifiers hmods
  obtain ⟨body, us₃, hbody, h₃⟩ := Reading.bind_eq_ok_iff.mp h₂
  obtain ⟨atEnd, us₄, hend, h₄⟩ := Reading.bind_eq_ok_iff.mp h₃
  obtain ⟨-, rfl, e, us, rfl, rfl⟩ := (Reading.Tracks.isAt (φ := id) _).of_ok hend
  split at h₄
  · rename_i heof
    cases h₄
    have hcut := List.takeWhile_append_dropWhile (p := Token.isModifier) (l := us₁)
    have hbehind : Token.Faithful (us₁.dropWhile Token.isModifier) := by
      rw [← hcut] at htokens
      exact htokens.of_append
    obtain ⟨front, w, back, hus, hframe, hw⟩ := Reading.frame_of_programBody hbehind hbody
    refine ⟨us₁.takeWhile Token.isModifier, front, w, back, e, us, ?_,
      List.all_eq_true.mp List.all_takeWhile, hframe, hw, Reading.kind_of_fits heof⟩
    rw [hus] at hcut
    simpa using hcut.symm
  · cases h₄

theorem Token.faithful_of_tokenize {text : String} {tokens : List Token}
    (h : tokenize text = .ok tokens) : Token.Faithful tokens := by
  intro t ht htext
  have hparen : ∀ kind, isLexeme kind "(" = true → kind = .paren := by
    intro kind
    cases kind <;> decide
  rcases scan_admits h t ht with ⟨-, hempty⟩ | hlexeme
  · simp [htext] at hempty
  · rw [htext] at hlexeme
    simp [Pattern.fits, Pattern.openParen, htext, hparen _ hlexeme]

end Pseudocode
