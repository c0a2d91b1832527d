import Pseudocode.Proofs.Program.Move
import Pseudocode.Proofs.Program.Parts
import Pseudocode.Render.Loop
set_option autoImplicit false

/-!
# Removals with their form settled

A call `r.remove(k)` on a variable is written in one of two forms, which depends on the
declarations of the variable before the call.  Here every such call of a program is replaced by
an expression that is written in the form that a function `keyed` says, and that depends on
nothing else.  Whatever rendering finds out about the shape of an expression stays the same.

What a program says of variables, its mentions, is a list in the order of the source.  Along this
list `SaysLatest` ties `keyed` to the latest declarations.
-/

namespace Pseudocode

/-- Which removals are by key, by the place and the name of the variable. -/
abbrev Keys : Type := Pos → String → Bool

/-! ## Expressions -/

namespace Expr

/-- A removal in its form: `remove r[k]` by key, and `r.removeItemAt(k)` otherwise. -/
def removal (byKey : Bool) (p q : Pos) (r : String) (k : Expr) : Expr :=
  if byKey then .index p (.name q ("remove " ++ r)) [k]
  else .methodCall p (.name q r) "removeItemAt" [k]

/-- A call of a method with settled parts, which is settled itself if it removes something from a
variable. -/
def settledCall (keyed : Keys) (p : Pos) (receiver settled : Expr) (n : String)
    (args : List Expr) : Expr :=
  match receiver, args with
  | .name q r, [k] =>
    if n = "remove" then removal (keyed q r) p q r k else .methodCall p settled n [k]
  | _, args => .methodCall p settled n args

mutual

/-- The expression with all its removals settled. -/
def settle (keyed : Keys) : Expr → Expr
  | .name p n => .name p n
  | .literal p raw => .literal p raw
  | .index p base indices => .index p (base.settle keyed) (settleAll keyed indices)
  | .call p n args => .call p n (settleAll keyed args)
  | .methodCall p receiver n args =>
    settledCall keyed p receiver (receiver.settle keyed) n (settleAll keyed args)
  | .property p receiver n => .property p (receiver.settle keyed) n
  | .length p operand => .length p (operand.settle keyed)
  | .newArray p elementType dims => .newArray p elementType (settleAll keyed dims)
  | .arrayLiteral p elements => .arrayLiteral p (settleAll keyed elements)
  | .newObject p typeName args => .newObject p typeName (settleAll keyed args)
  | .unary p op operand => .unary p op (operand.settle keyed)
  | .update p op operand => .update p op (operand.settle keyed)
  | .binary p op l r => .binary p op (l.settle keyed) (r.settle keyed)
  | .assign p target op value => .assign p (target.settle keyed) op (value.settle keyed)
  | .unsupported p kind => .unsupported p kind

/-- Expressions with all their removals settled. -/
def settleAll (keyed : Keys) : List Expr → List Expr
  | [] => []
  | e :: es => e.settle keyed :: settleAll keyed es

end

theorem settleAll_eq (keyed : Keys) (es : List Expr) :
    settleAll keyed es = es.map (settle keyed) := by
  induction es with
  | nil => rfl
  | cons e es ih => rw [settleAll, ih, List.map_cons]

variable (keyed : Keys)

/-- A call of a method removes something from a variable, or it stays a call of that method. -/
theorem settle_methodCall (p : Pos) (receiver : Expr) (n : String) (args : List Expr) :
    (∃ q r k, receiver = .name q r ∧ n = "remove" ∧ args = [k] ∧
        (Expr.methodCall p receiver n args).settle keyed =
          removal (keyed q r) p q r (k.settle keyed)) ∨
      (Expr.methodCall p receiver n args).settle keyed =
        .methodCall p (receiver.settle keyed) n (args.map (settle keyed)) := by
  rw [settle, settleAll_eq]
  cases receiver with
  | name q r =>
    rcases args with _ | ⟨k, _ | ⟨k', ks⟩⟩
    · exact .inr rfl
    · by_cases hn : n = "remove"
      · exact .inl ⟨q, r, k, rfl, hn, rfl, if_pos hn⟩
      · exact .inr (if_neg hn)
    · exact .inr rfl
  | _ => exact .inr rfl

/-- Settled or not, it is a call of a method or an array with a subscript. -/
theorem settle_methodCall_cases (p : Pos) (receiver : Expr) (n : String) (args : List Expr) :
    (∃ base indices, (Expr.methodCall p receiver n args).settle keyed = .index p base indices) ∨
      ∃ receiver' n' args', (Expr.methodCall p receiver n args).settle keyed =
        .methodCall p receiver' n' args' := by
  rcases settle_methodCall keyed p receiver n args with ⟨q, r, k, -, -, -, h⟩ | h
  · rw [h, removal]
    split
    · exact .inl ⟨_, _, rfl⟩
    · exact .inr ⟨_, _, _, rfl⟩
  · exact .inr ⟨_, _, _, h⟩

/-! ## Shapes -/

/-- What a function says of all calls of methods and of all arrays with subscripts, it says of a
call that is settled. -/
theorem settle_shape {α : Type} {f : Expr → α} {a : α}
    (hcall : ∀ p receiver n args, f (.methodCall p receiver n args) = a)
    (hindex : ∀ p base indices, f (.index p base indices) = a) (p : Pos) (receiver : Expr)
    (n : String) (args : List Expr) : f ((Expr.methodCall p receiver n args).settle keyed) = a := by
  rcases settle_methodCall_cases keyed p receiver n args with ⟨_, _, h⟩ | ⟨_, _, _, h⟩
  · rw [h, hindex]
  · rw [h, hcall]

@[simp] theorem isStringLiteral_settle (e : Expr) :
    (e.settle keyed).isStringLiteral = e.isStringLiteral := by
  cases e with
  | methodCall => exact settle_shape keyed (fun _ _ _ _ => rfl) (fun _ _ _ => rfl) ..
  | _ => rfl

@[simp] theorem isNamed_settle (n : String) (e : Expr) :
    (e.settle keyed).isNamed n = e.isNamed n := by
  cases e with
  | methodCall => exact settle_shape keyed (fun _ _ _ _ => rfl) (fun _ _ _ => rfl) ..
  | _ => rfl

@[simp] theorem variable?_settle (e : Expr) :
    Expr.variable? (e.settle keyed) = Expr.variable? e := by
  cases e with
  | methodCall => exact settle_shape keyed (fun _ _ _ _ => rfl) (fun _ _ _ => rfl) ..
  | _ => rfl

@[simp] theorem propertyChain_settle (e : Expr) :
    (e.settle keyed).propertyChain = e.propertyChain := by
  induction e with
  | methodCall => exact settle_shape keyed (fun _ _ _ _ => rfl) (fun _ _ _ => rfl) ..
  | property p receiver n ih => rw [settle, propertyChain, propertyChain, ih]
  | _ => rfl

@[simp] theorem chainLength_settle (op : BinaryOp) (e : Expr) :
    (e.settle keyed).chainLength op = e.chainLength op := by
  induction e with
  | methodCall => exact settle_shape keyed (fun _ _ _ _ => rfl) (fun _ _ _ => rfl) ..
  | binary p op' l r ihl ihr => rw [settle, chainLength, chainLength, ihl, ihr]
  | _ => rfl

@[simp] theorem numericValue_settle (e : Expr) :
    (e.settle keyed).numericValue = e.numericValue := by
  induction e with
  | methodCall => exact settle_shape keyed (fun _ _ _ _ => rfl) (fun _ _ _ => rfl) ..
  | unary p op operand ih => cases op <;> simp only [settle, numericValue, ih]
  | _ => rfl

/-- A removal reads no input, and settling leaves the receivers of other calls what they are. -/
@[simp] theorem isInputCall_settle (e : Expr) : (e.settle keyed).isInputCall = e.isInputCall := by
  induction e with
  | methodCall p receiver n args ih _ =>
    rcases settle_methodCall keyed p receiver n args with ⟨q, r, k, rfl, rfl, rfl, h⟩ | h
    · rw [h, removal]
      split <;> rfl
    · rw [h]
      cases receiver with
      | methodCall p' receiver' n' args' =>
        rcases settle_methodCall_cases keyed p' receiver' n' args' with
          ⟨_, _, h'⟩ | ⟨_, _, _, h'⟩ <;>
        · rw [h'] at ih ⊢
          exact congrArg (fun b => inputMethods.contains n && false || n == "charAt" && b) ih
      | _ => rfl
  | _ => rfl

/-- The parts of a sum are settled with it. -/
theorem concatParts_settle (e : Expr) :
    (e.settle keyed).concatParts = (e.concatParts.1.map (settle keyed), e.concatParts.2) := by
  induction e with
  | methodCall p receiver n args =>
    rcases settle_methodCall_cases keyed p receiver n args with ⟨_, _, h⟩ | ⟨_, _, _, h⟩ <;>
      simp [concatParts, isStringLiteral, h]
  | binary p op l r ihl ihr =>
    cases op with
    | add =>
      simp only [settle, concatParts, ihl, isStringLiteral_settle]
      rcases l.concatParts with ⟨parts, isString⟩
      cases isString <;> cases r.isStringLiteral <;> simp [settle]
    | _ => rfl
  | _ => rfl

theorem inverted_settle (e : Expr) : (e.settle keyed).inverted = e.inverted.settle keyed := by
  cases e with
  | methodCall p receiver n args =>
    show _ = Expr.unary p .not ((Expr.methodCall p receiver n args).settle keyed)
    rcases settle_methodCall_cases keyed p receiver n args with ⟨_, _, h⟩ | ⟨_, _, _, h⟩ <;>
    · rw [h]
      rfl
  | unary p op operand => cases op <;> rfl
  | binary p op l r => cases op <;> rfl
  | _ => rfl

theorem printed?_settle (e : Expr) :
    (e.settle keyed).printed? = e.printed?.map (List.map (settle keyed)) := by
  cases e with
  | methodCall p receiver n args =>
    rcases settle_methodCall keyed p receiver n args with ⟨q, r, k, rfl, rfl, rfl, h⟩ | h
    · rw [h, removal]
      split <;> rfl
    · rw [h, printed?, printed?, propertyChain_settle]
      split <;> rfl
  | _ => rfl

theorem printedItems_settle (args : List Expr) :
    printedItems (args.map (settle keyed)) = (printedItems args).map (settle keyed) := by
  rcases args with _ | ⟨e, _ | ⟨e', es⟩⟩
  · rfl
  · simp only [List.map_cons, List.map_nil, printedItems, concatParts_settle, List.length_map]
    split <;> rfl
  · rfl

end Expr

/-! ## Statements and programs -/

def Declaration.settle (keyed : Keys) (d : Declaration) : Declaration :=
  { d with value := d.value.map (Expr.settle keyed) }

def Assignment.settle (keyed : Keys) (a : Assignment) : Assignment :=
  { a with target := a.target.settle keyed, value := a.value.settle keyed }

def Update.settle (keyed : Keys) (u : Update) : Update :=
  { u with target := u.target.settle keyed }

def ForInit.settle (keyed : Keys) : ForInit → ForInit
  | .declaration d => .declaration (d.settle keyed)
  | .assignment a => .assignment (a.settle keyed)
  | .unsupported kind => .unsupported kind

def ForUpdate.settle (keyed : Keys) : ForUpdate → ForUpdate
  | .update u => .update (u.settle keyed)
  | .expression e => .expression (e.settle keyed)
  | .unsupported kind => .unsupported kind

namespace Stmt

mutual

/-- The statement with all its removals settled. -/
def settle (keyed : Keys) : Stmt → Stmt
  | .block p body => .block p (settleAll keyed body)
  | .declaration d => .declaration (d.settle keyed)
  | .assignment a => .assignment (a.settle keyed)
  | .update u => .update (u.settle keyed)
  | .expression p e => .expression p (e.settle keyed)
  | .call p e => .call p (e.settle keyed)
  | .ifElse p test consequent alternate =>
    .ifElse p (test.settle keyed) (consequent.settle keyed) (settleElse keyed alternate)
  | .whileLoop p test body => .whileLoop p (test.settle keyed) (body.settle keyed)
  | .doWhileLoop p body test => .doWhileLoop p (body.settle keyed) (test.settle keyed)
  | .forLoop p init test step body =>
    .forLoop p (init.map (ForInit.settle keyed)) (test.map (Expr.settle keyed))
      (step.map (ForUpdate.settle keyed)) (body.settle keyed)
  | .unsupported kind => .unsupported kind

/-- Statements with all their removals settled. -/
def settleAll (keyed : Keys) : List Stmt → List Stmt
  | [] => []
  | stmt :: stmts => stmt.settle keyed :: settleAll keyed stmts

/-- What stands behind `else`, with all its removals settled. -/
def settleElse (keyed : Keys) : Option Stmt → Option Stmt
  | none => none
  | some stmt => some (stmt.settle keyed)

end

@[simp] theorem isBranch_settle (keyed : Keys) (stmt : Stmt) :
    (stmt.settle keyed).isBranch = stmt.isBranch := by
  cases stmt <;> rfl

end Stmt

/-- The program with all its removals settled. -/
def Program.settle (keyed : Keys) (program : Program) : Program :=
  { program with body := Stmt.settleAll keyed program.body }

/-! ## Loops -/

section Loops

variable (keyed : Keys)

/-- The step of a loop is settled with its update. -/
theorem loopStep_settle (p : Pos) (step : Option ForUpdate) (n : String) :
    loopStep p (step.map (ForUpdate.settle keyed)) n =
      ((loopStep p step n).1.settle keyed, (loopStep p step n).2) := by
  rcases step with _ | _ | e | _
  · rfl
  · rfl
  · cases e with
    | methodCall =>
      exact Expr.settle_shape keyed (f := fun e => loopStep p (some (.expression e)) n)
        (fun _ _ _ _ => rfl) (fun _ _ _ => rfl) ..
    | assign q target op value =>
      cases op with
      | set =>
        cases value with
        | methodCall =>
          exact Expr.settle_shape keyed (f := fun e => loopStep p
            (some (.expression (.assign q (target.settle keyed) .set e))) n)
            (fun _ _ _ _ => rfl) (fun _ _ _ => rfl) ..
        | binary r op left right =>
          simp only [Option.map_some, ForUpdate.settle, Expr.settle, loopStep, Expr.isNamed_settle]
          split
          · cases op <;> rfl
          · rfl
        | _ => rfl
      | _ => rfl
    | _ => rfl
  · rfl

theorem loopVariable_settle (test : Option Expr) (step : Option ForUpdate) :
    loopVariable (test.map (Expr.settle keyed)) (step.map (ForUpdate.settle keyed)) =
      loopVariable test step := by
  have hchanged : ((step.map (ForUpdate.settle keyed)).bind ForUpdate.target?).bind
      Expr.variable? = (step.bind ForUpdate.target?).bind Expr.variable? := by
    rcases step with _ | u | e | _
    · rfl
    · exact Expr.variable?_settle keyed u.target
    · cases e with
      | methodCall =>
        exact Expr.settle_shape keyed
          (f := fun e => (ForUpdate.target? (.expression e)).bind Expr.variable?)
          (fun _ _ _ _ => rfl) (fun _ _ _ => rfl) ..
      | assign p target op value => exact Expr.variable?_settle keyed target
      | update p op operand => exact Expr.variable?_settle keyed operand
      | _ => rfl
    · rfl
  have htested : ((test.map (Expr.settle keyed)).elim [] Expr.comparedSides).findSome?
      Expr.variable? = (test.elim [] Expr.comparedSides).findSome? Expr.variable? := by
    cases test with
    | none => rfl
    | some e =>
      cases e with
      | methodCall =>
        exact Expr.settle_shape keyed (f := fun e => e.comparedSides.findSome? Expr.variable?)
          (fun _ _ _ _ => rfl) (fun _ _ _ => rfl) ..
      | binary p op l r =>
        simp only [Option.map_some, Option.elim_some, Expr.settle, Expr.comparedSides]
        split <;> simp [List.findSome?_cons]
      | _ => rfl
  simp only [loopVariable, hchanged, htested]

theorem loopBound?_settle (test : Option Expr) (n : String) :
    loopBound? (test.map (Expr.settle keyed)) n =
      (loopBound? test n).map fun bound => (bound.1, bound.2.settle keyed) := by
  cases test with
  | none => rfl
  | some e =>
    cases e with
    | methodCall =>
      exact Expr.settle_shape keyed (f := fun e => loopBound? (some e) n)
        (fun _ _ _ _ => rfl) (fun _ _ _ => rfl) ..
    | binary p op l r =>
      simp only [Option.map_some, Expr.settle, loopBound?, Expr.isNamed_settle]
      split
      · rfl
      · split <;> rfl
    | _ => rfl

end Loops

/-! ## The course of a program -/

/-- What a program says of variables, one thing after the other: it declares one, or it uses one in
an expression. -/
inductive Mention where
  | declares (d : Declaration)
  | uses (pos : Pos) (name : String)

namespace Mention

/-- Where it stands. -/
def pos : Mention → Pos
  | .declares d => d.pos
  | .uses q _ => q

def declared? : Mention → Option Declaration
  | .declares d => some d
  | .uses .. => none

/-- The declarations among the mentions. -/
def declarations (mentions : List Mention) : List Declaration :=
  mentions.filterMap declared?

theorem declarations_append (mentions more : List Mention) :
    declarations (mentions ++ more) = declarations mentions ++ declarations more :=
  List.filterMap_append

end Mention

namespace Expr

def mention? : Expr → Option Mention
  | .name q n => some (.uses q n)
  | _ => none

/-- The variables in an expression. -/
def mentions (e : Expr) : List Mention :=
  e.parts.filterMap mention?

theorem mentions_eq (e : Expr) : e.mentions = e.mention?.toList ++ e.children.flatMap mentions := by
  rw [mentions, parts_eq, List.filterMap_cons, List.filterMap_flatMap]
  cases e.mention? <;> rfl

/-- There are no declarations in expressions. -/
theorem declarations_filterMap (es : List Expr) :
    Mention.declarations (es.filterMap mention?) = [] := by
  rw [Mention.declarations, List.filterMap_filterMap, List.filterMap_eq_nil_iff]
  intro e _
  cases e <;> rfl

theorem declarations_mentions (e : Expr) : Mention.declarations e.mentions = [] :=
  declarations_filterMap e.parts

theorem declarations_optionMentions (e : Option Expr) :
    Mention.declarations (e.toList.flatMap mentions) = [] := by
  cases e with
  | none => rfl
  | some e => rw [Option.toList_some, List.flatMap_singleton, declarations_mentions]

theorem mem_mentions_of_children {e c : Expr} (hc : c ∈ e.children) {mention : Mention}
    (h : mention ∈ c.mentions) : mention ∈ e.mentions := by
  rw [mentions_eq]
  exact List.mem_append_right _ (List.mem_flatMap.mpr ⟨c, hc, h⟩)

/-- How an expression is settled depends on its variables only. -/
theorem settle_congr {keyed keyed' : Keys} {e : Expr}
    (h : ∀ q n, .uses q n ∈ e.mentions → keyed q n = keyed' q n) :
    e.settle keyed = e.settle keyed' := by
  induction e with
  | name | literal | unsupported => rfl
  | index p base indices ihbase ih =>
    have hbase := ihbase fun q n hmem => h q n (mem_mentions_of_children (by simp [children]) hmem)
    have hindices : indices.map (settle keyed) = indices.map (settle keyed') :=
      List.map_congr_left fun e he => ih e he fun q n hmem =>
        h q n (mem_mentions_of_children (by simp [children, he]) hmem)
    rw [settle, settle, settleAll_eq, settleAll_eq, hbase, hindices]
  | call p n args ih | newArray p n args ih | arrayLiteral p args ih | newObject p n args ih =>
    have hargs : args.map (settle keyed) = args.map (settle keyed') :=
      List.map_congr_left fun e he => ih e he fun q n hmem =>
        h q n (mem_mentions_of_children (by simp [children, he]) hmem)
    rw [settle, settle, settleAll_eq, settleAll_eq, hargs]
  | methodCall p receiver n args ihreceiver ih =>
    have hvariable : ∀ q n, .uses q n ∈ receiver.mentions → keyed q n = keyed' q n :=
      fun q n hmem => h q n (mem_mentions_of_children (by simp [children]) hmem)
    have hargs : args.map (settle keyed) = args.map (settle keyed') :=
      List.map_congr_left fun e he => ih e he fun q n hmem =>
        h q n (mem_mentions_of_children (by simp [children, he]) hmem)
    rw [settle, settle, settleAll_eq, settleAll_eq, ihreceiver hvariable, hargs]
    unfold settledCall
    split
    · rename_i q r k _
      rw [hvariable q r List.mem_cons_self]
    · rfl
  | property p e n ih | length p e ih | unary p op e ih | update p op e ih =>
    rw [settle, settle,
      ih fun q n hmem => h q n (mem_mentions_of_children (by simp [children]) hmem)]
  | binary p op l r ihl ihr | assign p l op r ihl ihr =>
    rw [settle, settle,
      ihl fun q n hmem => h q n (mem_mentions_of_children (by simp [children]) hmem),
      ihr fun q n hmem => h q n (mem_mentions_of_children (by simp [children]) hmem)]

end Expr

/-! The mentions of statements come in the order of the source: those of a declaration behind it,
and those of a test where the test stands. -/

def Declaration.mentions (d : Declaration) : List Mention :=
  .declares d :: d.value.toList.flatMap Expr.mentions

def Assignment.mentions (a : Assignment) : List Mention :=
  a.target.mentions ++ a.value.mentions

theorem Declaration.declarations_mentions (d : Declaration) :
    Mention.declarations d.mentions = [d] :=
  congrArg (d :: ·) (Expr.declarations_optionMentions d.value)

theorem Assignment.declarations_mentions (a : Assignment) :
    Mention.declarations a.mentions = [] := by
  rw [mentions, Mention.declarations_append, Expr.declarations_mentions, Expr.declarations_mentions]
  rfl

def ForInit.mentions : ForInit → List Mention
  | .declaration d => d.mentions
  | .assignment a => a.mentions
  | .unsupported _ => []

def ForUpdate.mentions : ForUpdate → List Mention
  | .update u => u.target.mentions
  | .expression e => e.mentions
  | .unsupported _ => []

theorem ForUpdate.declarations_optionMentions (step : Option ForUpdate) :
    Mention.declarations (step.toList.flatMap mentions) = [] := by
  rcases step with _ | u | e | _
  · rfl
  · rw [Option.toList_some, List.flatMap_singleton, mentions, u.target.declarations_mentions]
  · rw [Option.toList_some, List.flatMap_singleton, mentions, e.declarations_mentions]
  · rfl

namespace Stmt

mutual

/-- The mentions of a statement. -/
def mentions : Stmt → List Mention
  | .block _ body => allMentions body
  | .declaration d => d.mentions
  | .assignment a => a.mentions
  | .update u => u.target.mentions
  | .expression _ e | .call _ e => e.mentions
  | .ifElse _ test consequent alternate =>
    test.mentions ++ (consequent.mentions ++ elseMentions alternate)
  | .whileLoop _ test body => test.mentions ++ body.mentions
  | .doWhileLoop _ body test => body.mentions ++ test.mentions
  | .forLoop _ init test step body =>
    init.toList.flatMap ForInit.mentions ++ (test.toList.flatMap Expr.mentions ++
      (step.toList.flatMap ForUpdate.mentions ++ body.mentions))
  | .unsupported _ => []

/-- The mentions of statements one after the other. -/
def allMentions : List Stmt → List Mention
  | [] => []
  | stmt :: stmts => stmt.mentions ++ allMentions stmts

/-- The mentions behind `else`. -/
def elseMentions : Option Stmt → List Mention
  | none => []
  | some stmt => stmt.mentions

end

theorem allMentions_eq (stmts : List Stmt) : allMentions stmts = stmts.flatMap mentions := by
  induction stmts with
  | nil => rfl
  | cons stmt stmts ih => rw [allMentions, ih, List.flatMap_cons]

theorem mem_mentions_of_children {s c : Stmt} (hc : c ∈ s.children) {mention : Mention}
    (h : mention ∈ c.mentions) : mention ∈ s.mentions := by
  cases s with
  | block p body =>
    rw [mentions, allMentions_eq]
    exact List.mem_flatMap.mpr ⟨c, hc, h⟩
  | ifElse p test consequent alternate =>
    cases alternate <;> grind [children, mentions, elseMentions]
  | _ => grind [children, mentions]

/-- What a part of a statement declares, the statement mentions. -/
theorem declares_mem_mentions {s part : Stmt} {d : Declaration} (hpart : part ∈ s.parts)
    (hd : part.declared = some d) : .declares d ∈ s.mentions := by
  have hstep : ∀ s : Stmt, (∀ c ∈ s.children, part ∈ c.parts → .declares d ∈ c.mentions) →
      part ∈ s.parts → .declares d ∈ s.mentions := by
    intro s ih hpart
    rw [parts_eq] at hpart
    rcases List.mem_cons.mp hpart with rfl | hpart
    · unfold declared at hd
      split at hd <;> cases hd <;> simp [mentions, ForInit.mentions, Declaration.mentions]
    · obtain ⟨c, hc, hpart⟩ := List.mem_flatMap.mp hpart
      exact mem_mentions_of_children hc (ih c hc hpart)
  induction s with
  | block p body ih => exact hstep _ (fun c hc => ih c hc) hpart
  | ifElse p test consequent alternate ih ih' =>
    exact hstep _ (by simp +contextual [children, ih, ih']) hpart
  | whileLoop p test body ih | doWhileLoop p body test ih | forLoop p init test step body ih =>
    exact hstep _ (by simpa [children] using ih) hpart
  | _ => exact hstep _ (by simp [children]) hpart

end Stmt

/-- The declarations of a program, those in the heads of loops included, in the order of the
source. -/
def Program.declarations (program : Program) : List Declaration :=
  Mention.declarations (Stmt.allMentions program.body)

/-! ## The latest declaration -/

/-- The last one of the declarations of a variable. -/
def latest? (ds : List Declaration) (n : String) : Option Declaration :=
  (ds.filter (·.name == n)).getLast?

/-- Whether a removal from a variable is by key behind the declarations: the type of the latest
declaration of the variable says so or, if there is none, the name of the variable. -/
def keyedBehind (ds : List Declaration) (n : String) : Bool :=
  match latest? ds n with
  | some d => Text.contains "Map" d.typeName
  | none => Text.containsFolded "map" n

/-- By the latest of the declarations, whatever the place. -/
def keysBehind (ds : List Declaration) : Keys :=
  fun _ n => keyedBehind ds n

/-- At every variable of the course, `keyed` says what the declarations before it say; those in
`ds` come before all mentions. -/
def SaysLatest (keyed : Keys) (ds : List Declaration) (mentions : List Mention) : Prop :=
  ∀ before q n after, mentions = before ++ .uses q n :: after →
    keyed q n = keyedBehind (ds ++ Mention.declarations before) n

namespace SaysLatest

variable {keyed : Keys} {ds : List Declaration} {mentions more : List Mention}

theorem left (h : SaysLatest keyed ds (mentions ++ more)) : SaysLatest keyed ds mentions := by
  rintro before q n after rfl
  exact h before q n (after ++ more) (by simp)

theorem right (h : SaysLatest keyed ds (mentions ++ more)) :
    SaysLatest keyed (ds ++ Mention.declarations mentions) more := by
  rintro before q n after rfl
  rw [List.append_assoc, ← Mention.declarations_append]
  exact h (mentions ++ before) q n after (by simp)

/-- Behind mentions without a declaration. -/
theorem skip (hnone : Mention.declarations mentions = [])
    (h : SaysLatest keyed ds (mentions ++ more)) : SaysLatest keyed ds more := by
  have hmore := h.right
  rwa [hnone, List.append_nil] at hmore

/-- Inside an expression all variables are behind the same declarations. -/
theorem settle_eq {e : Expr} (h : SaysLatest keyed ds e.mentions) :
    e.settle keyed = e.settle (keysBehind ds) := by
  refine Expr.settle_congr fun q n hmem => ?_
  obtain ⟨before, after, hcut⟩ := List.append_of_mem hmem
  have hnone : Mention.declarations before = [] := by
    have hall := e.declarations_mentions
    rw [hcut, Mention.declarations_append] at hall
    exact (List.append_eq_nil_iff.mp hall).1
  rw [h before q n after hcut, hnone, List.append_nil, keysBehind]

theorem settle_option_eq {e : Option Expr}
    (h : SaysLatest keyed ds (e.toList.flatMap Expr.mentions)) :
    e.map (Expr.settle keyed) = e.map (Expr.settle (keysBehind ds)) := by
  cases e with
  | none => rfl
  | some e =>
    rw [Option.toList_some, List.flatMap_singleton] at h
    rw [Option.map_some, Option.map_some, h.settle_eq]

/-- The value of a declaration is behind the declaration itself. -/
theorem settle_declaration_eq {d : Declaration} (h : SaysLatest keyed ds d.mentions) :
    d.settle keyed = d.settle (keysBehind (ds ++ [d])) := by
  rw [Declaration.mentions, ← List.singleton_append] at h
  have hvalue : SaysLatest keyed (ds ++ [d]) (d.value.toList.flatMap Expr.mentions) := h.right
  rw [Declaration.settle, Declaration.settle, hvalue.settle_option_eq]

theorem settle_assignment_eq {a : Assignment} (h : SaysLatest keyed ds a.mentions) :
    a.settle keyed = a.settle (keysBehind ds) := by
  have hvalue : SaysLatest keyed ds a.value.mentions := h.skip a.target.declarations_mentions
  rw [Assignment.settle, Assignment.settle, h.left.settle_eq, hvalue.settle_eq]

theorem settle_init_eq {init : Option ForInit}
    (h : SaysLatest keyed ds (init.toList.flatMap ForInit.mentions)) :
    init.map (ForInit.settle keyed) = init.map (ForInit.settle
      (keysBehind (ds ++ Mention.declarations (init.toList.flatMap ForInit.mentions)))) := by
  rcases init with _ | d | a | _
  · rfl
  · rw [Option.toList_some, List.flatMap_singleton, ForInit.mentions] at h ⊢
    rw [d.declarations_mentions, Option.map_some, Option.map_some, ForInit.settle, ForInit.settle,
      h.settle_declaration_eq]
  · rw [Option.toList_some, List.flatMap_singleton, ForInit.mentions] at h ⊢
    rw [a.declarations_mentions, List.append_nil, Option.map_some, Option.map_some, ForInit.settle,
      ForInit.settle, h.settle_assignment_eq]
  · rfl

theorem settle_step_eq {step : Option ForUpdate}
    (h : SaysLatest keyed ds (step.toList.flatMap ForUpdate.mentions)) :
    step.map (ForUpdate.settle keyed) = step.map (ForUpdate.settle (keysBehind ds)) := by
  rcases step with _ | u | e | _
  · rfl
  · rw [Option.toList_some, List.flatMap_singleton, ForUpdate.mentions] at h
    simp only [Option.map_some, ForUpdate.settle, Update.settle, h.settle_eq]
  · rw [Option.toList_some, List.flatMap_singleton, ForUpdate.mentions] at h
    simp only [Option.map_some, ForUpdate.settle, h.settle_eq]
  · rfl

end SaysLatest

end Pseudocode
