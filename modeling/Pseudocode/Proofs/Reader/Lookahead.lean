import Pseudocode.Proofs.Reader.Append
import Pseudocode.Proofs.Token.Coverage
set_option autoImplicit false

/-!
# Looking ahead and reading on

What a statement is that starts with a name, is decided by looking ahead over subscripts of which
only the square brackets are counted.  Reading on never contradicts the decision: where a name with
subscripts is read, it ends where the look over it ended.  So a token that was seen ahead is at
hand when its turn comes, and it is not refused there.
-/

namespace Pseudocode

/-! ## The messages of what is refused -/

/-- The messages that looking ahead rules out. -/
def Refusal.foreseen : List String :=
  ["Expected ++ or --", "Expected assignment operator", "Expected identifier in declaration"]

/-- Those of them about the token behind a target. -/
def Refusal.targeted : List String :=
  ["Expected ++ or --", "Expected assignment operator"]

namespace Reading

variable {α β : Type} {ts : List Token}

/-- Where `x` refuses a token of `ts`, it does so with none of the messages. -/
def Avoids (messages : List String) (x : Reading α) (ts : List Token) : Prop :=
  ∀ reason here ahead, x ts = .error (.refused reason here ahead) → reason.message ∉ messages

namespace Avoids

variable {messages : List String} {x : Reading α} {y z : Reading β}

theorem mono {others : List String} (h : Avoids messages x ts) (hsub : others ⊆ messages) :
    Avoids others x ts :=
  fun reason here ahead hx hmem => h reason here ahead hx (hsub hmem)

theorem of_ok {r : α × List Token} (h : x ts = .ok r) : Avoids messages x ts := by
  intro reason here ahead hx
  cases h.symm.trans hx

theorem pure (a : α) : Avoids messages (Pure.pure a) ts :=
  of_ok rfl

theorem exhausted : Avoids messages (exhausted : Reading α) ts := by
  intro reason here ahead hx
  cases hx

theorem refuse {reason : Refusal} (h : reason.message ∉ messages) :
    Avoids messages (refuse reason : Reading α) ts := by
  intro reason' here ahead hx
  cases ts with
  | nil => cases hx
  | cons t us =>
    cases hx
    exact h

theorem bind {f : α → Reading β} (hx : Avoids messages x ts)
    (hf : ∀ a rest, x ts = .ok (a, rest) → Avoids messages (f a) rest) :
    Avoids messages (x >>= f) ts := by
  intro reason here ahead h
  obtain h | ⟨a, rest, ha, h⟩ := bind_eq_error_iff.mp h
  · exact hx reason here ahead h
  · exact hf a rest ha reason here ahead h

theorem ite {c : Prop} [Decidable c] (hy : c → Avoids messages y ts)
    (hz : ¬ c → Avoids messages z ts) : Avoids messages (if c then y else z) ts := by
  split
  · exact hy ‹_›
  · exact hz ‹_›

theorem current : Avoids messages current ts := by
  intro reason here ahead hx
  cases ts <;> cases hx

theorem here : Avoids messages here ts :=
  bind current fun _ _ _ => pure _

theorem isAt (p : Pattern) : Avoids messages (isAt p) ts :=
  bind current fun _ _ _ => pure _

theorem peek (n : Nat) : Avoids messages (peek n) ts := by
  intro reason here ahead hx
  unfold Reading.peek at hx
  split at hx
  · cases hx
  · split at hx <;> cases hx

theorem advance : Avoids messages advance ts := by
  intro reason here ahead hx
  cases ts <;> cases hx

theorem accept (p : Pattern) : Avoids messages (accept p) ts :=
  bind current fun _ _ _ => ite (fun _ => bind advance fun _ _ _ => pure _) fun _ => pure _

theorem expect {p : Pattern} {reason : Refusal} (h : reason.message ∉ messages) :
    Avoids messages (expect p reason) ts := by
  refine bind (accept p) ?_
  intro r rest _
  cases r with
  | none => exact refuse h
  | some t => exact pure t

/-- A token that was seen ahead is not refused. -/
theorem expect_of_fits {p : Pattern} {reason : Refusal} {t : Token} {us : List Token}
    (ht : p.fits t = true) : Avoids messages (Reading.expect p reason) (t :: us) := by
  refine of_ok (r := (t, if t.kind = .eof then t :: us else us)) ?_
  simp [Reading.expect, Reading.accept, Reading.advance, bind_apply, Reading.current, ht]

theorem collect (read : Token → Option α) : Avoids messages (collect read) ts := by
  induction ts with
  | nil =>
    intro reason here ahead hx
    cases hx
  | cons t ts ih =>
    intro reason here ahead hx
    rw [Reading.collect] at hx
    cases hread : read t with
    | none => simp [hread] at hx
    | some a =>
      simp only [hread] at hx
      cases hmore : Reading.collect read ts with
      | error e =>
        simp only [hmore, Except.error.injEq] at hx
        exact ih reason here ahead (hx ▸ hmore)
      | ok r => simp [hmore] at hx

theorem many {wanted : Token → Bool} (hx : ∀ ts, Avoids messages x ts) :
    Avoids messages (many wanted x) ts := by
  have hclock : ∀ clock us, Avoids messages (manyWithin wanted x clock) us := by
    intro clock
    induction clock with
    | nil => exact fun _ => exhausted
    | cons c clock ih =>
      intro us
      refine bind current fun t rest _ => ite (fun _ => ?_) fun _ => pure _
      exact bind (hx rest) fun _ rest' _ => bind (ih rest') fun _ _ _ => pure _
  exact hclock ts ts

theorem iterate {step : α → Reading (Option α)} (hstep : ∀ a ts, Avoids messages (step a) ts)
    (a : α) : Avoids messages (iterate step a) ts := by
  have hclock : ∀ clock us a, Avoids messages (iterateWithin step clock a) us := by
    intro clock
    induction clock with
    | nil => exact fun _ _ => exhausted
    | cons c clock ih =>
      intro us a
      refine bind (hstep a us) ?_
      intro r rest _
      cases r with
      | none => exact pure a
      | some b => exact ih rest b
  exact hclock ts ts a

end Avoids

/-! ## Expressions -/

/-- Neither of the nested readings refuses a token with a message that is foreseen. -/
structure Nested.AvoidsForeseen (inner : Nested) : Prop where
  expression : ∀ ts, Avoids Refusal.foreseen inner.expression ts
  initializer : ∀ ts, Avoids Refusal.foreseen inner.initializer ts

section Expressions

open Refusal (foreseen)

variable {inner : Nested}

theorem not_mem_foreseen_of_head {m : String} (h : m.toList.head? = some 'U') : m ∉ foreseen := by
  intro hmem
  have hhead : ∀ m ∈ foreseen, m.toList.head? ≠ some 'U' := by decide
  exact hhead m hmem h

/-- What is out of place is worded differently. -/
theorem unexpected_not_mem_foreseen (found : String) :
    (Refusal.unexpected found).message ∉ foreseen := by
  have hword : "Unexpected token '".toList = 'U' :: "nexpected token '".toList := by decide
  refine not_mem_foreseen_of_head ?_
  unfold Refusal.message
  rw [String.toList_append, String.toList_append, hword]
  rfl

theorem unsupportedKeyword_not_mem_foreseen (word : String) :
    (Refusal.unsupportedKeyword word).message ∉ foreseen := by
  have hword : "Unsupported keyword '".toList = 'U' :: "nsupported keyword '".toList := by decide
  refine not_mem_foreseen_of_head ?_
  unfold Refusal.message
  rw [String.toList_append, String.toList_append, hword]
  rfl

theorem Avoids.separated {item : Reading Expr} (hitem : ∀ ts, Avoids foreseen item ts) :
    Avoids foreseen (Reading.many Pattern.comma.fits do
      let _ ← Reading.advance
      item) ts :=
  .many fun _ => .bind .advance fun _ rest _ => hitem rest

section Parts

variable (hin : inner.AvoidsForeseen)
include hin

theorem Avoids.argumentsWith :
    Avoids foreseen (argumentsWith inner) ts := by
  refine .bind (.accept _) fun _ rest _ => .ite (fun _ => .pure _) fun _ => ?_
  refine .bind (hin.expression rest) fun _ _ _ => ?_
  refine .bind (.separated hin.expression) fun _ _ _ => ?_
  exact .bind (.expect (by decide)) fun _ _ _ => .pure _

theorem Avoids.subscriptsWith :
    Avoids foreseen (subscriptsWith inner) ts := by
  refine .many fun us => .bind .advance fun _ rest _ => ?_
  refine .bind (hin.expression rest) fun _ _ _ => ?_
  exact .bind (.expect (by decide)) fun _ _ _ => .pure _

theorem Avoids.extendWith (node : Expr) :
    Avoids foreseen (extendWith inner node) ts := by
  refine .bind .current fun t _ _ => .ite (fun _ => ?_) fun _ => .ite (fun _ => ?_) fun _ => ?_
  · split
    · exact .bind .advance fun _ _ _ => .bind (.argumentsWith hin) fun _ _ _ => .pure _
    · exact .refuse (by decide)
  · refine .bind .advance fun _ _ _ => .bind (.expect (by decide)) fun _ _ _ => ?_
    refine .bind (.accept _) fun _ _ _ => .ite (fun _ => ?_) fun _ => ?_
    · exact .bind (.argumentsWith hin) fun _ _ _ => .pure _
    · exact .ite (fun _ => .pure _) fun _ => .pure _
  · refine .ite (fun _ => ?_) fun _ => .pure _
    exact .bind (.subscriptsWith hin) fun _ _ _ => .pure _

theorem Avoids.suffixesWith (base : Expr) :
    Avoids foreseen (suffixesWith inner base) ts := by
  refine .bind (.iterate (fun node _ => .extendWith hin node) base) fun _ _ _ => ?_
  refine .bind .current fun t _ _ => ?_
  cases t.updateOp? with
  | none => exact .pure _
  | some op => exact .bind .advance fun _ _ _ => .pure _

theorem Avoids.dimensionWith :
    Avoids foreseen (dimensionWith inner) ts := by
  refine .bind .advance fun _ _ _ => .bind (.accept _) fun _ rest _ => ?_
  refine .ite (fun _ => .pure _) fun _ => .bind (hin.expression rest) fun _ _ _ => ?_
  exact .bind (.expect (by decide)) fun _ _ _ => .pure _

theorem Avoids.freshWith (p : Pos) :
    Avoids foreseen (freshWith inner p) ts := by
  refine .bind .current fun t _ _ => .bind (.peek 1) fun _ _ _ => .ite (fun _ => ?_) fun _ => ?_
  · refine .bind .advance fun _ _ _ => .bind .advance fun _ _ _ => ?_
    exact .bind (.argumentsWith hin) fun _ _ _ => .pure _
  · refine .ite (fun _ => ?_) fun _ => .refuse (by decide)
    refine .bind .advance fun _ _ _ => .bind (.many fun _ => .dimensionWith hin) fun dims _ _ => ?_
    cases dims.getLast? with
    | none => exact .refuse (by decide)
    | some last =>
      refine .bind (.isAt _) fun _ rest _ => .ite (fun _ => hin.initializer rest) fun _ => ?_
      cases dims.mapM id with
      | none => exact .refuse (by decide)
      | some sizes => exact .pure _

theorem Avoids.primaryWith :
    Avoids foreseen (primaryWith inner) ts := by
  refine .bind .current fun t _ _ => .ite (fun _ => ?_) fun _ => .ite (fun _ => ?_) fun _ =>
    .ite (fun _ => ?_) fun _ => .ite (fun _ => ?_) fun _ => ?_
  · exact .bind .advance fun _ _ _ => .freshWith hin _
  · exact .bind .advance fun _ _ _ => .pure _
  · exact .bind .advance fun _ _ _ => .suffixesWith hin _
  · refine .bind .advance fun _ rest _ => .bind (hin.expression rest) fun _ _ _ => ?_
    exact .bind (.expect (by decide)) fun _ _ _ => .suffixesWith hin _
  · exact .refuse (unexpected_not_mem_foreseen _)

theorem Avoids.levelWith (n : Nat) :
    Avoids foreseen (levelWith inner n) ts := by
  induction n generalizing ts with
  | zero =>
    exact .bind (.collect _) fun _ _ _ => .bind (.primaryWith hin) fun _ _ _ => .pure _
  | succ n ih =>
    refine .bind ih fun first _ _ => .iterate (fun left _ => ?_) first
    refine .bind .current fun t _ _ => ?_
    split
    · exact .pure _
    · exact .bind .advance fun _ _ _ => .bind ih fun _ _ _ => .pure _

theorem Avoids.assigningWith :
    Avoids foreseen (assigningWith inner) ts := by
  refine .bind (.levelWith hin loosest) fun left _ _ => .bind .current fun t _ _ => ?_
  cases t.assignOp? with
  | none => exact .pure _
  | some op =>
    refine .ite (fun _ => ?_) fun _ => .refuse (by decide)
    exact .bind .advance fun _ rest _ => .bind (hin.expression rest) fun _ _ _ => .pure _

theorem Avoids.elementWith :
    Avoids foreseen (elementWith inner) ts :=
  .bind (.isAt _) fun _ rest _ =>
    .ite (fun _ => hin.initializer rest) fun _ => hin.expression rest

theorem Avoids.elementsWith :
    Avoids foreseen (elementsWith inner) ts := by
  refine .bind .here fun _ _ _ => .bind (.expect (by decide)) fun _ _ _ => ?_
  refine .bind (.accept _) fun _ _ _ => .ite (fun _ => .pure _) fun _ => ?_
  refine .bind (.elementWith hin) fun _ _ _ => .bind (.separated fun _ => .elementWith hin) ?_
  exact fun _ _ _ => .bind (.expect (by decide)) fun _ _ _ => .pure _

end Parts

theorem avoidsForeseen_nestedWithin (clock : List Token) :
    (nestedWithin clock).AvoidsForeseen := by
  induction clock with
  | nil => exact ⟨fun _ => .exhausted, fun _ => .exhausted⟩
  | cons c clock ih => exact ⟨fun _ => .assigningWith ih, fun _ => .elementsWith ih⟩

theorem Avoids.expression : Avoids foreseen expression ts :=
  (avoidsForeseen_nestedWithin ts).expression ts

theorem Avoids.initializer : Avoids foreseen initializer ts :=
  (avoidsForeseen_nestedWithin ts).initializer ts

theorem Avoids.subscripts : Avoids foreseen subscripts ts :=
  .subscriptsWith (avoidsForeseen_nestedWithin ts)

theorem Avoids.suffixes (base : Expr) : Avoids foreseen (suffixes base) ts :=
  .suffixesWith (avoidsForeseen_nestedWithin ts) base

end Expressions

/-! ## Targets -/

section Targets

variable {t u : Token} {us rest : List Token}

/-- Behind a token that opens no subscripts, none are skipped. -/
theorem skipSubscripts_zero (h : Pattern.openBracket.fits t = false) :
    Token.skipSubscripts 0 (t :: us) = t :: us := by
  rw [Token.skipSubscripts, h]
  rfl

/-- The look passes by what stands in a pair of square brackets. -/
theorem skipSubscripts_bracket {a b : Token} {w : List Token}
    (ha : Pattern.openBracket.fits a = true) (hw : Token.Enclosed w)
    (hb : Pattern.closeBracket.fits b = true) :
    Token.skipSubscripts 0 (a :: (w ++ b :: rest)) = Token.skipSubscripts 0 rest := by
  have hopen : Pattern.openBracket.fits b = false := by
    simp [Pattern.fits, Pattern.openBracket, text_of_fits hb rfl]
  rw [Token.skipSubscripts, if_pos ha, hw.balanced 0, Token.skipSubscripts,
    if_neg (ne_eof_of_fits hb (by decide)), hopen, hb]
  rfl

/-- Tokens that the look over subscripts passes by. -/
def PassedBy (w : List Token) : Prop :=
  ∀ rest, Token.skipSubscripts 0 (w ++ rest) = Token.skipSubscripts 0 rest

/-- The look over subscripts ends where reading them does. -/
theorem eq_skipSubscripts_of_subscripts {es : List Expr} (h : subscripts us = .ok (es, rest)) :
    rest = Token.skipSubscripts 0 us := by
  rw [subscripts_eq] at h
  have hitem : ∀ a vs, Pattern.openBracket.fits a = true →
      Carries (fun _ w => w ≠ [] ∧ PassedBy w) Token.SameHead
        (do
          let _ ← advance
          let index ← nested.expression
          let _ ← expect .closeBracket (.expected "']' in array access")
          return index)
        (do
          let _ ← advance
          let index ← nested.expression
          let _ ← expect .closeBracket (.expected "']' in array access")
          return index) (a :: vs) := by
    intro a vs ha
    refine Carries.advance (ne_eof_of_fits ha (by decide)) ?_
    refine Carries.bind (nested_carriesOver.expression _) ?_
    intro e w rest _ hw
    refine Carries.expect (by decide) ?_
    intro b us' _ hb
    refine .pure ⟨by simp, fun rest => ?_⟩
    simpa using skipSubscripts_bracket ha hw.2 hb
  obtain ⟨w, rfl, hpassed, ⟨t, vs, rfl, ht⟩, -⟩ :=
    Carries.manyWithin (S := Token.SameHead) (L := fun _ w => PassedBy w) (fun _ => rfl)
      (fun _ w _ v hw hv rest => by rw [List.append_assoc, hw.2, hv]) (fun _ _ hw => hw.1)
      (fun _ _ h => h) (fun a vs _ ha => hitem a vs ha) us us (List.suffix_refl us) h
  rw [hpassed, skipSubscripts_zero ht]

/-- A name with its subscripts is read as far as the look over it goes. -/
theorem eq_skipSubscripts_of_target {goal : Expr} (h : target (t :: us) = .ok (goal, rest)) :
    rest = Token.skipSubscripts 0 us := by
  unfold target at h
  rw [bind_of_ok here_cons] at h
  obtain ⟨n, mid, hname, h⟩ := bind_eq_ok_iff.mp h
  obtain ⟨-, hcons, -⟩ := (Tracks.expect (φ := id) _ (by decide)).of_ok hname
  obtain ⟨rfl, rfl⟩ := List.cons.inj hcons
  obtain _ | ⟨u, vs⟩ := us
  · cases h
  rw [bind_of_ok (isAt_cons _)] at h
  split at h
  · obtain ⟨es, mid, hes, h⟩ := bind_eq_ok_iff.mp h
    cases h
    exact eq_skipSubscripts_of_subscripts hes
  · rename_i hu
    cases h
    rw [skipSubscripts_zero (by simpa using hu)]

theorem behindTarget_of_ok (h : behindTarget (t :: us) = .ok (u, rest)) :
    rest = t :: us ∧ ∃ vs, Token.skipSubscripts 0 us = u :: vs := by
  cases hskip : Token.skipSubscripts 0 us with
  | nil =>
    have hstop : behindTarget (t :: us) = .error .exhausted := by
      unfold behindTarget
      rw [bind_apply]
      simp [unread, hskip, exhausted]
    cases hstop.symm.trans h
  | cons v vs =>
    cases (behindTarget_cons hskip).symm.trans h
    exact ⟨rfl, vs, rfl⟩

/-- The operator behind a target, if one was seen there. -/
theorem seenAhead {γ : Type} {op? : Token → Option γ}
    (h : (behindTarget >>= fun u => Pure.pure (op? u).isSome) (t :: us) = .ok (true, rest)) :
    ∃ u vs op, Token.skipSubscripts 0 us = u :: vs ∧ op? u = some op := by
  obtain ⟨u, mid, hbehind, hsome⟩ := bind_eq_ok_iff.mp h
  obtain ⟨-, vs, hskip⟩ := behindTarget_of_ok hbehind
  rw [pure_apply, Except.ok.injEq, Prod.mk.injEq] at hsome
  obtain ⟨op, hop⟩ := Option.isSome_iff_exists.mp hsome.1
  exact ⟨u, vs, op, hskip, hop⟩

end Targets

/-! ## Statements -/

section Statements

open Refusal (foreseen targeted)

variable {t u : Token} {us vs rest : List Token} {inner : Reading Stmt}

theorem Avoids.target : Avoids foreseen target ts := by
  refine .bind .here fun _ _ _ => .bind (.expect (by decide)) fun _ _ _ => ?_
  refine .bind (.isAt _) fun _ _ _ => .ite (fun _ => ?_) fun _ => .pure _
  exact .bind .subscripts fun _ _ _ => .pure _

/-- Behind a target, the token that was seen ahead is at hand. -/
theorem Avoids.targetThen {f : Expr → Token → Reading β}
    (hskip : Token.skipSubscripts 0 us = u :: vs)
    (hf : ∀ goal, Avoids foreseen (f goal u) (u :: vs)) :
    Avoids foreseen (do
      let goal ← Reading.target
      let v ← Reading.current
      f goal v) (t :: us) := by
  refine .bind .target fun goal mid hgoal => ?_
  rw [eq_skipSubscripts_of_target hgoal, hskip]
  intro reason here ahead h
  rw [bind_of_ok current_cons] at h
  exact hf goal reason here ahead h

theorem Avoids.updateEnd (closed : Bool) : Avoids foreseen (updateEnd closed) ts :=
  .ite (fun _ => .bind (.expect (by decide)) fun _ _ _ => .pure _) fun _ => .pure _

/-- Where a change by one was seen ahead, its operator is found. -/
theorem Avoids.update {closed : Bool} (h : updateAhead (t :: us) = .ok (true, rest)) :
    Avoids foreseen (update closed) (t :: us) := by
  obtain ⟨u, vs, op, hskip, hop⟩ := seenAhead h
  unfold Reading.update
  intro reason here ahead hx
  rw [bind_of_ok here_cons] at hx
  refine Avoids.targetThen hskip ?_ reason here ahead hx
  intro goal
  rw [hop]
  exact .bind .advance fun _ _ _ => .bind (.updateEnd closed) fun _ _ _ => .pure _

theorem Avoids.leadingUpdate (closed : Bool) : Avoids foreseen (leadingUpdate closed) ts := by
  refine .bind .here fun _ _ _ => .bind .advance fun _ _ _ => .bind .target fun _ _ _ => ?_
  exact .bind (.updateEnd closed) fun _ _ _ => .pure _

/-- Behind the operator of an assignment. -/
theorem Avoids.assigned (p : Pos) (goal : Expr) (op : AssignOp) :
    Avoids foreseen (do
      let _ ← Reading.advance
      let value ← Reading.expression
      let _ ← Reading.expect .semicolon (.expected "';' after assignment")
      return (⟨p, goal, op, value⟩ : Assignment)) ts :=
  .bind .advance fun _ _ _ => .bind .expression fun _ _ _ =>
    .bind (.expect (by decide)) fun _ _ _ => .pure _

/-- Where an assignment was seen ahead, its operator is found. -/
theorem Avoids.assignment (h : assignmentAhead (t :: us) = .ok (true, rest)) :
    Avoids foreseen assignment (t :: us) := by
  obtain ⟨u, vs, op, hskip, hop⟩ := seenAhead h
  unfold Reading.assignment
  intro reason here ahead hx
  rw [bind_of_ok here_cons] at hx
  refine Avoids.targetThen hskip ?_ reason here ahead hx
  intro goal
  rw [hop]
  exact .assigned _ goal op

/-- Without a look ahead, the operator of an assignment may be missing. -/
theorem Avoids.assignmentUnseen : Avoids ["Expected ++ or --"] Reading.assignment ts := by
  refine .bind .here fun p _ _ => .bind (.mono .target (by decide)) fun goal _ _ => ?_
  refine .bind .current fun v _ _ => ?_
  cases v.assignOp? with
  | none => exact .refuse (by decide)
  | some op => exact .mono (.assigned p goal op) (by decide)

theorem Avoids.dimensions : Avoids foreseen dimensions ts := by
  refine .bind (.many fun _ => ?_) fun _ _ _ => .pure _
  exact .bind .advance fun _ _ _ => .expect (by decide)

theorem Avoids.initialValue : Avoids foreseen initialValue ts := by
  refine .bind (.accept _) fun _ _ _ => .ite (fun _ => ?_) fun _ => .pure _
  refine .bind (.isAt _) fun _ _ _ => .ite (fun _ => ?_) fun _ => ?_
  · exact .bind .initializer fun _ _ _ => .pure _
  · exact .bind .expression fun _ _ _ => .pure _

/-- A declaration refuses with a message that is foreseen for lack of a name only. -/
theorem Avoids.declarationOf {messages : List String} (hsub : messages ⊆ foreseen)
    (hname : ∀ type mid n rest, Reading.advance ts = .ok (type, mid) →
      Reading.dimensions mid = .ok (n, rest) →
      Avoids messages (Reading.expect .name (.expected "identifier in declaration")) rest) :
    Avoids messages declaration ts := by
  refine .bind .here fun p mid hp => ?_
  obtain rfl : mid = ts := by
    obtain _ | ⟨t, us⟩ := ts <;> cases hp
    rfl
  refine .bind .advance fun type mid hmid => .bind (.mono .dimensions hsub) fun n rest hrest => ?_
  refine .bind (hname type mid n rest hmid hrest) fun _ _ _ => ?_
  refine .bind (.mono .dimensions hsub) fun _ _ _ => .bind (.mono .initialValue hsub) ?_
  exact fun _ _ _ => .bind (.mono (.expect (by decide)) hsub) fun _ _ _ => .pure _

theorem Avoids.declaration : Avoids targeted declaration ts :=
  .declarationOf (by decide) fun _ _ _ _ _ _ => .expect (by decide)

theorem Avoids.callStatement : Avoids foreseen callStatement ts := by
  refine .bind .here fun _ _ _ => .bind (.expect (by decide)) fun _ _ _ => ?_
  exact .bind (.suffixes _) fun _ _ _ => .bind (.expect (by decide)) fun _ _ _ => .pure _

theorem Avoids.expressionStatement : Avoids foreseen expressionStatement ts :=
  .bind .here fun _ _ _ => .bind .expression fun _ _ _ =>
    .bind (.expect (by decide)) fun _ _ _ => .pure _

theorem Avoids.unread {messages : List String} : Avoids messages unread ts :=
  .of_ok rfl

theorem Avoids.behindTarget {messages : List String} : Avoids messages behindTarget ts := by
  refine .bind .unread fun _ _ _ => ?_
  split
  · exact .exhausted
  · exact .pure _

theorem Avoids.classDeclarationAhead {messages : List String} :
    Avoids messages classDeclarationAhead ts :=
  .bind (.peek 1) fun _ _ _ => .ite (fun _ => .pure _) fun _ =>
    .bind .unread fun _ _ _ => .pure _

/-- A statement that starts with a name: whichever way the look ahead sends the reading, the token
behind the target is the one that was seen. -/
theorem Avoids.nameStatement (ht : t.kind ≠ .eof) (word : String) :
    Avoids targeted (nameStatement word) (t :: us) := by
  have hsub : targeted ⊆ foreseen := by decide
  refine .bind (.bind (.peek 1) fun _ _ _ => .bind (.peek 2) fun _ _ _ => .pure _) ?_
  intro isFinal mid hmid
  obtain rfl := ((Tracks.finalAhead (φ := id) word).of_ok hmid).2
  refine .ite (fun _ => ?_) fun _ => ?_
  · exact .bind .advance fun _ _ _ => .bind .declaration fun _ _ _ => .pure _
  refine .bind .classDeclarationAhead fun declares mid hmid => ?_
  obtain rfl := ((Tracks.classDeclarationAhead (φ := id)).of_ok hmid).2
  refine .ite (fun _ => .bind .declaration fun _ _ _ => .pure _) fun _ => ?_
  refine .bind (.bind .behindTarget fun _ _ _ => .pure _) fun updates mid hupdates => ?_
  obtain rfl := ((Tracks.updateAhead (φ := id) ht).of_ok hupdates).2
  refine .ite (fun h => ?_) fun _ => ?_
  · subst h
    exact .bind (.mono (.update hupdates) hsub) fun _ _ _ => .pure _
  refine .bind (.bind (.peek 1) fun _ _ _ => .pure _) fun calls mid hmid => ?_
  obtain rfl := ((Tracks.callAhead (φ := id)).of_ok hmid).2
  refine .ite (fun _ => .mono .callStatement hsub) fun _ => ?_
  refine .bind (.bind .behindTarget fun _ _ _ => .pure _) fun assigns mid hassigns => ?_
  obtain rfl := ((Tracks.assignmentAhead (φ := id) ht).of_ok hassigns).2
  refine .ite (fun h => ?_) fun _ => .mono .expressionStatement hsub
  subst h
  exact .bind (.mono (.assignment hassigns) hsub) fun _ _ _ => .pure _

theorem Avoids.forUpdate : Avoids foreseen forUpdate ts := by
  refine .bind .current fun t mid hmid => ?_
  obtain _ | ⟨t', us⟩ := ts
  · cases hmid
  cases hmid
  refine .ite (fun _ => .bind (.leadingUpdate false) fun _ _ _ => .pure _) fun _ => ?_
  refine .ite (fun ht => ?_) fun _ => .bind .expression fun _ _ _ => .pure _
  refine .bind (.bind .behindTarget fun _ _ _ => .pure _) fun updates mid hupdates => ?_
  obtain rfl := ((Tracks.updateAhead (φ := id) (by simp [ht])).of_ok hupdates).2
  refine .ite (fun h => ?_) fun _ => .bind .expression fun _ _ _ => .pure _
  subst h
  exact .bind (.update hupdates) fun _ _ _ => .pure _

theorem Avoids.condition (word : String) (hword : word ∈ ["if", "while"]) :
    Avoids foreseen (condition word) ts := by
  have hparen : (Refusal.expected ("'(' after " ++ word)).message ∉ foreseen := by
    simp only [List.mem_cons, List.not_mem_nil, or_false] at hword
    rcases hword with rfl | rfl <;> decide
  refine .bind (.expect hparen) fun _ _ _ => .bind .expression fun _ _ _ => ?_
  exact .bind (.expect (by decide)) fun _ _ _ => .pure _

theorem Avoids.forInit : Avoids ["Expected ++ or --"] forInit ts := by
  refine .bind (.accept _) fun _ _ _ => .ite (fun _ => .pure _) fun _ => ?_
  refine .bind (.bind .current fun _ _ _ => .pure _) fun _ _ _ => .ite (fun _ => ?_) fun _ => ?_
  · exact .bind (.mono .declaration (by decide)) fun _ _ _ => .pure _
  · exact .bind .assignmentUnseen fun _ _ _ => .pure _

theorem Avoids.forTest : Avoids foreseen forTest ts := by
  refine .bind (.accept _) fun _ _ _ => .ite (fun _ => .pure _) fun _ => ?_
  exact .bind .expression fun _ _ _ => .bind (.expect (by decide)) fun _ _ _ => .pure _

theorem Avoids.forStep : Avoids foreseen forStep ts := by
  refine .bind (.accept _) fun _ _ _ => .ite (fun _ => .pure _) fun _ => ?_
  exact .bind .forUpdate fun _ _ _ => .bind (.expect (by decide)) fun _ _ _ => .pure _

section Inner

variable (hin : ∀ ts, Avoids ["Expected ++ or --"] inner ts)

include hin

theorem Avoids.blockWith : Avoids ["Expected ++ or --"] (blockWith inner) ts := by
  refine .bind .here fun _ _ _ => .bind (.expect (by decide)) fun _ _ _ => ?_
  exact .bind (.many hin) fun _ _ _ => .bind (.expect (by decide)) fun _ _ _ => .pure _

theorem Avoids.keywordStatementWith (word : String) :
    Avoids ["Expected ++ or --"] (keywordStatementWith inner word) ts := by
  refine .ite (fun _ => ?_) fun _ => .ite (fun _ => ?_) fun _ => .ite (fun _ => ?_) fun _ =>
    .ite (fun _ => ?_) fun _ => .ite (fun _ => ?_) fun _ => ?_
  · refine .bind .here fun _ _ _ => .bind (.expect (by decide)) fun _ _ _ => ?_
    refine .bind (.mono (.condition _ (by decide)) (by decide)) fun _ rest _ => ?_
    refine .bind (hin rest) fun _ _ _ => .bind (.accept _) fun _ rest _ => ?_
    exact .ite (fun _ => .bind (hin rest) fun _ _ _ => .pure _) fun _ => .pure _
  · refine .bind .here fun _ _ _ => .bind (.expect (by decide)) fun _ _ _ => ?_
    refine .bind (.mono (.condition _ (by decide)) (by decide)) fun _ rest _ => ?_
    exact .bind (hin rest) fun _ _ _ => .pure _
  · refine .bind .here fun _ _ _ => .bind (.expect (by decide)) fun _ _ _ => ?_
    refine .bind (.expect (by decide)) fun _ _ _ => .bind .forInit fun _ _ _ => ?_
    refine .bind (.mono .forTest (by decide)) fun _ _ _ => ?_
    refine .bind (.mono .forStep (by decide)) fun _ rest _ => ?_
    exact .bind (hin rest) fun _ _ _ => .pure _
  · refine .bind .here fun _ _ _ => .bind (.expect (by decide)) fun _ rest _ => ?_
    refine .bind (hin rest) fun _ _ _ => .bind (.expect (by decide)) fun _ _ _ => ?_
    refine .bind (.mono (.condition _ (by decide)) (by decide)) fun _ _ _ => ?_
    exact .bind (.expect (by decide)) fun _ _ _ => .pure _
  · exact .bind (.mono .declaration (by decide)) fun _ _ _ => .pure _
  · exact .mono (.refuse (unsupportedKeyword_not_mem_foreseen word)) (by decide)

theorem Avoids.statementWith : Avoids ["Expected ++ or --"] (statementWith inner) ts := by
  refine .bind .current fun t mid hmid => ?_
  obtain _ | ⟨t', us⟩ := ts
  · cases hmid
  cases hmid
  refine .ite (fun _ => .keywordStatementWith hin _) fun _ => .ite (fun _ => ?_) fun _ =>
    .ite (fun _ => ?_) fun _ => .ite (fun ht => ?_) fun _ => ?_
  · exact .bind (.blockWith hin) fun _ _ _ => .pure _
  · exact .bind (.mono (.leadingUpdate true) (by decide)) fun _ _ _ => .pure _
  · exact .mono (.nameStatement (by simp [ht]) _) (by decide)
  · exact .mono (.refuse (unexpected_not_mem_foreseen _)) (by decide)

end Inner

theorem Avoids.statement : Avoids ["Expected ++ or --"] statement ts := by
  have hclock : ∀ clock us, Avoids ["Expected ++ or --"] (statementWithin clock) us := by
    intro clock
    induction clock with
    | nil => exact fun _ => .exhausted
    | cons c clock ih => exact fun us => .statementWith ih
  exact hclock ts ts

end Statements

/-! ## Declarations -/

/-- A token that is spelled like a square bracket is one. -/
def BracketsFit (ts : List Token) : Prop :=
  ∀ t ∈ ts, (t.text = "[" → Pattern.openBracket.fits t = true) ∧
    (t.text = "]" → Pattern.closeBracket.fits t = true)

/-- The empty pairs of brackets that the look ahead passes by are those that are read. -/
theorem dimensions_of_skipEmptyPairs {us rest : List Token} {n : Token} (hus : BracketsFit us)
    (hskip : Token.skipEmptyPairs us = n :: rest) (hn : n.kind = .identifier) :
    ∃ count, dimensions us = .ok (count, n :: rest) := by
  have hmany : ∃ pairs, many Pattern.openBracket.fits
      (advance >>= fun _ => expect .closeBracket (.expected "']' after '[' in array declaration"))
      us = .ok (pairs, n :: rest) := by
    fun_induction Token.skipEmptyPairs us with
    | case1 a b us hpair ih =>
      obtain ⟨pairs, hpairs⟩ := ih (fun t ht => hus t (by simp [ht])) hskip
      have ha := (hus a (by simp)).1 hpair.1
      have hb := (hus b (by simp)).2 hpair.2
      refine ⟨b :: pairs, many_of_wanted ?_ ha ?_ hpairs⟩
      · intro u us hu
        refine Tracks.bind (Tracks.take (ne_eof_of_fits hu (by decide))) ?_
        intro _ vs _ h
        obtain ⟨-, rfl⟩ := h
        refine (Tracks.expect _ (by decide)).mono ?_
        intro _ rest hrest _
        exact hrest.length_le
      · rw [bind_of_ok (advance_cons (ne_eof_of_fits ha (by decide)))]
        exact expect_of_fits _ hb (by decide)
    | case2 | case3 =>
      rw [hskip]
      exact ⟨[], many_of_not_wanted (by simp [Pattern.fits, Pattern.openBracket, hn])⟩
  obtain ⟨pairs, hpairs⟩ := hmany
  exact ⟨pairs.length, bind_of_ok hpairs⟩

/-- Behind a name that was taken for a type, the brackets are read, and another name follows. -/
theorem dimensions_of_classDeclarationAhead {t : Token} {us rest : List Token} (hne : us ≠ [])
    (hus : BracketsFit us) (h : classDeclarationAhead (t :: us) = .ok (true, rest)) :
    ∃ count n behind, dimensions us = .ok (count, n :: behind) ∧ n.kind = .identifier := by
  rw [classDeclarationAhead_cons hne, Except.ok.injEq, Prod.mk.injEq] at h
  simp only [Token.declares, Bool.or_eq_true, Bool.and_eq_true, Option.any_eq_true, beq_iff_eq]
    at h
  obtain ⟨n, hhead, hn⟩ | ⟨-, n, hhead, hn⟩ := h.1
  · obtain ⟨behind, rfl⟩ := List.head?_eq_some_iff.mp hhead
    have hopen : Pattern.openBracket.fits n = false := by
      simp [Pattern.fits, Pattern.openBracket, hn]
    exact ⟨0, n, behind, dimensions_cons hopen behind, hn⟩
  · obtain ⟨behind, hskip⟩ := List.head?_eq_some_iff.mp hhead
    obtain ⟨count, hcount⟩ := dimensions_of_skipEmptyPairs hus hskip hn
    exact ⟨count, n, behind, hcount, hn⟩

theorem bracketsFit_of_tokenize {text : String} {tokens : List Token}
    (h : tokenize text = .ok tokens) : BracketsFit tokens := by
  intro t ht
  have hbracket : ∀ kind, Token.isLexeme kind "[" = true ∨ Token.isLexeme kind "]" = true →
      kind = .bracket := by
    intro kind
    cases kind <;> decide
  rcases Token.scan_admits h t ht with ⟨-, hempty⟩ | hlexeme
  · simp [hempty]
  · refine ⟨fun htext => ?_, fun htext => ?_⟩
    · have hkind := hbracket _ (.inl (htext ▸ hlexeme))
      simp [Pattern.fits, Pattern.openBracket, htext, hkind]
    · have hkind := hbracket _ (.inr (htext ▸ hlexeme))
      simp [Pattern.fits, Pattern.closeBracket, htext, hkind]

/-- **Looking ahead and reading on agree.**  Take the tokens of a text, from any of them on.
Neither a statement nor the step of a loop is refused for lack of a change by one.  From a name
on, a target that can be read ends where the look over its subscripts ends, and a statement is not
refused for lack of an assignment operator.  If the name was taken for a type, the empty pairs of
brackets behind it are read, another name follows, and the declaration is not refused for lack of
it. -/
theorem reads_as_foreseen {text : String} {tokens ts : List Token}
    (htokens : tokenize text = .ok tokens) (hts : ts <:+ tokens) :
    Avoids ["Expected ++ or --"] statement ts ∧ Avoids ["Expected ++ or --"] forUpdate ts ∧
    ∀ t us, ts = t :: us → t.kind = .identifier →
      (∀ goal rest, target ts = .ok (goal, rest) → rest = Token.skipSubscripts 0 us) ∧
      Avoids ["Expected assignment operator"] statement ts ∧
      (classDeclarationAhead ts = .ok (true, ts) →
        (∃ count n behind, dimensions us = .ok (count, n :: behind) ∧ n.kind = .identifier) ∧
        Avoids ["Expected identifier in declaration"] declaration ts) := by
  refine ⟨.statement, .mono .forUpdate (by decide), ?_⟩
  rintro t us rfl ht
  refine ⟨fun goal rest h => eq_skipSubscripts_of_target h, ?_, ?_⟩
  · intro reason here ahead h
    rw [statement_name ht] at h
    exact Avoids.mono (.nameStatement (by simp [ht]) _) (by decide) reason here ahead h
  · intro hahead
    obtain ⟨front, rfl, hfront⟩ := Token.scan_ends htokens
    -- a name is not the last token
    have hne : us ≠ [] := by
      rintro rfl
      obtain ⟨before, hbefore⟩ := hts
      obtain ⟨-, hlast⟩ := List.append_inj' hbefore rfl
      obtain rfl := List.head_eq_of_cons_eq hlast
      simp [Token.eof] at ht
    have hus : BracketsFit us := fun u hu =>
      bracketsFit_of_tokenize htokens u (hts.subset (List.mem_cons_of_mem t hu))
    obtain ⟨count, n, behind, hcount, hn⟩ := dimensions_of_classDeclarationAhead hne hus hahead
    refine ⟨⟨count, n, behind, hcount, hn⟩, .declarationOf (by decide) ?_⟩
    intro type mid count' rest hmid hrest
    rw [advance_cons (by simp [ht])] at hmid
    cases hmid
    cases hcount.symm.trans hrest
    exact .expect_of_fits (by simp [Pattern.fits, Pattern.name, Pattern.any, hn])

/-- A declaration with a type that is a name, and a change of an element by one. -/
def arrayAndElement : String :=
  "A[] b; a[c[0]]++;"

/-- Its tokens. -/
def arrayAndElementTokens : List Token :=
  [⟨.identifier, "A", ⟨1, 1⟩⟩, ⟨.bracket, "[", ⟨1, 2⟩⟩, ⟨.bracket, "]", ⟨1, 3⟩⟩,
    ⟨.identifier, "b", ⟨1, 5⟩⟩, ⟨.semicolon, ";", ⟨1, 6⟩⟩, ⟨.identifier, "a", ⟨1, 8⟩⟩,
    ⟨.bracket, "[", ⟨1, 9⟩⟩, ⟨.identifier, "c", ⟨1, 10⟩⟩, ⟨.bracket, "[", ⟨1, 11⟩⟩,
    ⟨.number, "0", ⟨1, 12⟩⟩, ⟨.bracket, "]", ⟨1, 13⟩⟩, ⟨.bracket, "]", ⟨1, 14⟩⟩,
    ⟨.operator, "++", ⟨1, 15⟩⟩, ⟨.semicolon, ";", ⟨1, 17⟩⟩, ⟨.eof, "", ⟨1, 18⟩⟩]

theorem tokenize_arrayAndElement : tokenize arrayAndElement = .ok arrayAndElementTokens :=
  tokenize_of_toOption (by decide +kernel)

theorem reads_as_foreseen_arrayAndElement :
    (classDeclarationAhead arrayAndElementTokens = .ok (true, arrayAndElementTokens) ∧
      ∃ count n behind, dimensions (arrayAndElementTokens.drop 1) = .ok (count, n :: behind) ∧
        n.kind = .identifier) ∧
    updateAhead (arrayAndElementTokens.drop 5) = .ok (true, arrayAndElementTokens.drop 5) ∧
    ∃ goal rest, target (arrayAndElementTokens.drop 5) = .ok (goal, rest) ∧
      rest = Token.skipSubscripts 0 (arrayAndElementTokens.drop 6) := by
  have hfirst := reads_as_foreseen tokenize_arrayAndElement (List.suffix_refl _)
  have hsecond := reads_as_foreseen tokenize_arrayAndElement (List.drop_suffix 5 _)
  refine ⟨⟨rfl, ((hfirst.2.2 _ _ rfl rfl).2.2 rfl).1⟩, rfl, _, _, rfl, ?_⟩
  exact (hsecond.2.2 _ _ rfl rfl).1 _ _ rfl

end Reading

end Pseudocode
