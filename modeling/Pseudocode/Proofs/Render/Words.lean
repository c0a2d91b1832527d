import Pseudocode.Proofs.Program.Parts
import Pseudocode.Proofs.Render.Total
set_option autoImplicit false

/-!
# Words in the text of an expression

The text of an expression holds the texts of its parts, each of them apart from letters and digits
next to it.  So every variable, function and field is found in it as a word.  Not so the methods,
which some styles write in other words, and where input is read into a variable nothing is said
about the device.
-/

namespace Pseudocode

/-! ## Texts apart from each other -/

namespace Text

/-- The text does not end with a character of a word. -/
def endsApart (t : String) : Bool :=
  t.toList.getLast?.all (!Token.isWordPart ·)

/-- The text does not start with a character of a word. -/
def startsApart (t : String) : Bool :=
  t.toList.head?.all (!Token.isWordPart ·)

/-- The text sets apart what stands before it from what stands behind it. -/
def separates (t : String) : Bool :=
  !t.toList.isEmpty && startsApart t && endsApart t

/-- `part` stands somewhere in the text, with no character of a word next to it. -/
def Stands (part text : String) : Prop :=
  ∃ before after : String, text = before ++ part ++ after ∧
    endsApart before = true ∧ startsApart after = true

theorem endsApart_append {a b : String} (hb : b.toList ≠ []) (h : endsApart b = true) :
    endsApart (a ++ b) = true := by
  rw [endsApart, String.toList_append, List.getLast?_append, List.getLast?_eq_some_getLast hb]
  rwa [endsApart, List.getLast?_eq_some_getLast hb] at h

theorem startsApart_append {a b : String} (ha : a.toList ≠ []) (h : startsApart a = true) :
    startsApart (a ++ b) = true := by
  rw [startsApart, String.toList_append, List.head?_append, List.head?_eq_some_head ha]
  rwa [startsApart, List.head?_eq_some_head ha] at h

theorem endsApart_both {a b : String} (ha : endsApart a = true) (hb : endsApart b = true) :
    endsApart (a ++ b) = true := by
  by_cases hne : b.toList = []
  · rwa [endsApart, String.toList_append, hne, List.append_nil]
  · exact endsApart_append hne hb

theorem startsApart_both {a b : String} (ha : startsApart a = true) (hb : startsApart b = true) :
    startsApart (a ++ b) = true := by
  by_cases hne : a.toList = []
  · rwa [startsApart, String.toList_append, hne, List.nil_append]
  · exact startsApart_append hne ha

namespace Stands

variable {a b c : String}

theorem refl (a : String) : Stands a a :=
  ⟨"", "", by simp, rfl, rfl⟩

theorem trans (h : Stands a b) (h' : Stands b c) : Stands a c := by
  obtain ⟨before, after, rfl, hbefore, hafter⟩ := h
  obtain ⟨before', after', rfl, hbefore', hafter'⟩ := h'
  refine ⟨before' ++ before, after ++ after', by simp only [String.append_assoc],
    endsApart_both hbefore' hbefore, startsApart_both hafter hafter'⟩

theorem front (ha : startsApart b = true) : Stands a (a ++ b) :=
  ⟨"", b, by simp, rfl, ha⟩

theorem back (ha : endsApart b = true) : Stands a (b ++ a) :=
  ⟨b, "", by simp, ha, rfl⟩

theorem before {sign : String} (h : separates sign = true) : Stands a (a ++ (sign ++ b)) := by
  simp only [separates, Bool.and_eq_true, Bool.not_eq_true', List.isEmpty_eq_false_iff] at h
  exact front (startsApart_append h.1.1 h.1.2)

theorem behind {sign : String} (h : separates sign = true) : Stands a (b ++ sign ++ a) := by
  simp only [separates, Bool.and_eq_true, Bool.not_eq_true', List.isEmpty_eq_false_iff] at h
  exact back (endsApart_append h.1.1 h.2)

/-- In round brackets, whatever stands before them. -/
theorem bracketed (f a : String) : Stands a (f ++ Text.bracketed a) :=
  ⟨f ++ "(", ")", by simp only [Text.bracketed, String.append_assoc],
    endsApart_append (by decide) (by decide), by decide⟩

/-- In square brackets, whatever stands before them. -/
theorem subscript (f a : String) : Stands a (f ++ Text.subscript a) :=
  ⟨f ++ "[", "]", by simp only [Text.subscript, String.append_assoc],
    endsApart_append (by decide) (by decide), by decide⟩

/-- Texts between commas. -/
theorem join {ts : List String} (h : a ∈ ts) : Stands a (Text.join ", " ts) := by
  induction ts with
  | nil => simp at h
  | cons t ts ih =>
    obtain _ | ⟨u, ts⟩ := ts
    · obtain rfl := List.mem_singleton.mp h
      exact refl a
    · rw [join_cons_cons]
      rcases List.mem_cons.mp h with rfl | h
      · rw [String.append_assoc]
        exact before (by decide)
      · exact (ih h).trans (behind (by decide))

theorem startsApart_subscript (t : String) : startsApart (Text.subscript t) = true := by
  rw [Text.subscript, String.append_assoc]
  exact startsApart_append (by decide) (by decide)

theorem startsApart_bracketed (t : String) : startsApart (Text.bracketed t) = true := by
  rw [Text.bracketed, String.append_assoc]
  exact startsApart_append (by decide) (by decide)

theorem startsApart_subscripts (ts : List String) :
    startsApart (Text.concat (ts.map Text.subscript)) = true := by
  cases ts with
  | nil => rfl
  | cons t ts =>
    refine startsApart_append ?_ (startsApart_subscript t)
    simp [Text.subscript]

/-- In subscripts one behind the other. -/
theorem subscripts {ts : List String} (h : a ∈ ts) (f : String) :
    Stands a (f ++ Text.concat (ts.map Text.subscript)) := by
  induction ts generalizing f with
  | nil => simp at h
  | cons t ts ih =>
    rw [List.map_cons, Text.concat, ← String.append_assoc]
    rcases List.mem_cons.mp h with rfl | h
    · exact (subscript f a).trans (front (startsApart_subscripts ts))
    · exact ih h (f ++ Text.subscript t)

/-- Among arguments. -/
theorem arguments {ts : List String} (h : a ∈ ts) (f : String) :
    Stands a (f ++ Text.bracketed (Text.join ", " ts)) :=
  (join h).trans (bracketed f _)

/-- Between two operands. -/
theorem left (a op b : String) : Stands a (a ++ " " ++ op ++ " " ++ b) := by
  simp only [String.append_assoc]
  exact before (by decide)

theorem right (a op b : String) : Stands b (a ++ " " ++ op ++ " " ++ b) :=
  behind (by decide)

end Stands

end Text

open Text (Stands)

/-! ## What the text of an expression shows -/

namespace Expr

/-- The expressions that an expression is directly made of and that its text shows: all of them,
but for input that is read into a variable. -/
def shownChildren : Expr → List Expr
  | .assign _ target .set value => if value.isInputCall then [target] else [target, value]
  | e => e.children

/-- The words that the text of an expression has of its own: a variable, a function, a field, the
type of an object. -/
def shownWords : Expr → List String
  | .name _ n | .call _ n _ | .property _ _ n | .newObject _ n _ => [n]
  | _ => []

/-- The word is among those of the expression that its text shows. -/
inductive Shows (n : String) : Expr → Prop where
  | own {e : Expr} (h : n ∈ e.shownWords) : Shows n e
  | child {e c : Expr} (hc : c ∈ e.shownChildren) (h : Shows n c) : Shows n e

/-- The expressions that a well-formed one is made of are well formed. -/
theorem WellFormed.of_mem_children {V : Vocabulary} {e c : Expr} (he : e.WellFormed V)
    (hc : c ∈ e.children) : c.WellFormed V := by
  cases e <;> simp only [children, WellFormed, allWellFormed_iff, List.mem_cons,
    List.not_mem_nil, or_false] at he hc <;> grind

theorem WellFormed.of_mem_shownChildren {V : Vocabulary} {e c : Expr} (he : e.WellFormed V)
    (hc : c ∈ e.shownChildren) : c.WellFormed V := by
  refine he.of_mem_children ?_
  unfold shownChildren at hc
  split at hc
  · split at hc
    · obtain rfl := List.mem_singleton.mp hc
      exact List.mem_cons_self
    · exact hc
  · exact hc

end Expr

/-- A rule that leaves out arguments is only for calls that do not have them. -/
def MethodRule.takesAll (rule : MethodRule) (key : MethodKey) : Bool :=
  match rule.form with
  | .subscriptRead => key.arity == some 1
  | .subscriptWrite => key.arity == some 2
  | .length => key.arity == some 0
  | .other _ => false
  | _ => true

theorem Style.takesAll_of_methodRule? {style : Style} (h : style ∈ catalogue) {method : String}
    {arity : Nat} {rule : MethodRule} (hrule : style.methodRule? method arity = some rule) :
    ∃ key : MethodKey, rule.takesAll key = true ∧ ∀ n ∈ key.arity, n = arity := by
  have hall : ∀ style ∈ catalogue, style.methods.entries.all
      (fun entry => entry.2.takesAll entry.1) = true := by decide
  obtain ⟨key, hentry, harity⟩ := exists_entry_of_methodRule? hrule
  exact ⟨key, List.all_eq_true.mp (hall style h) (key, rule) hentry, harity⟩

theorem exists_of_bind {ε α β : Type} {x : Except ε α} {f : α → Except ε β} {b : β}
    (h : x >>= f = .ok b) : ∃ a, x = .ok a ∧ f a = .ok b := by
  cases x with
  | error e => cases h
  | ok a => exact ⟨a, rfl, h⟩

namespace Setting

variable {s : Setting} {slot : Slot} {V : Vocabulary} {e c : Expr} {text : String}

theorem stands_place (style : Style) (slot : Slot) (e : Expr) (text : String) :
    Stands text (style.place slot e text) := by
  unfold Style.place
  split
  · simpa using Stands.bracketed "" text
  · exact .refl text

theorem exists_of_renderAll {es : List Expr} {texts : List String}
    (h : s.renderAll es = .ok texts) (hc : c ∈ es) :
    ∃ t ∈ texts, s.render .whole c = .ok t := by
  induction es generalizing texts with
  | nil => simp at hc
  | cons e es ih =>
    rw [renderAll_cons] at h
    obtain ⟨t, ht, h⟩ := exists_of_bind h
    obtain ⟨ts, hts, h⟩ := exists_of_bind h
    cases h
    rcases List.mem_cons.mp hc with rfl | hc
    · exact ⟨t, by simp, ht⟩
    · obtain ⟨u, hu, hrender⟩ := ih hts hc
      exact ⟨u, List.mem_cons_of_mem t hu, hrender⟩

theorem stands_plainCall_receiver (receiver n : String) (args : List String) :
    Stands receiver (plainCall receiver n args) := by
  unfold plainCall
  simp only [String.append_assoc]
  exact .before (by decide)

/-- A call of a method shows its receiver and all of its arguments. -/
theorem stands_methodText (hs : s.style ∈ Style.catalogue) {receiver : Expr} {n : String}
    {args : List String} {written : String} (h : s.methodText receiver text n args = .ok written) :
    Stands text written ∧ ∀ a ∈ args, Stands a written := by
  have hplain : ∀ n : String, Stands text (plainCall text n args) ∧
      ∀ a ∈ args, Stands a (plainCall text n args) :=
    fun n => ⟨stands_plainCall_receiver text n args, fun a ha => .arguments ha _⟩
  have hsubscript : ∀ key : String, Stands text (text ++ Text.subscript key) := fun key =>
    .front (Stands.startsApart_subscript key)
  unfold methodText at h
  split at h
  · cases h
    exact hplain n
  rename_i rule hrule
  obtain ⟨key, htakes, harity⟩ := Style.takesAll_of_methodRule? hs hrule
  unfold MethodRule.takesAll at htakes
  split at h
  · cases h
    exact hplain n
  · rename_i hform
    simp only [hform, beq_iff_eq] at htakes
    obtain _ | ⟨a, _ | ⟨b, args⟩⟩ := args
    · cases h
    · cases h
      exact ⟨hsubscript a, by simpa using .subscript text a⟩
    · have hlength := harity 1 htakes
      simp at hlength
  · rename_i hform
    simp only [hform, beq_iff_eq] at htakes
    obtain _ | ⟨a, _ | ⟨b, _ | ⟨c, args⟩⟩⟩ := args
    · cases h
    · cases h
    · cases h
      have hkey : Stands (text ++ Text.subscript a) (text ++ Text.subscript a ++ " = " ++ b) := by
        rw [String.append_assoc]
        exact .before (by decide)
      have hvalue : Stands b (text ++ Text.subscript a ++ " = " ++ b) :=
        .behind (by decide)
      refine ⟨(hsubscript a).trans hkey, ?_⟩
      simpa using ⟨(Stands.subscript text a).trans hkey, hvalue⟩
    · have hlength := harity 2 htakes
      simp at hlength
  · cases h
    exact hplain rule.name
  · rename_i hform
    simp only [hform, beq_iff_eq] at htakes
    cases h
    obtain rfl : args = [] := by simpa using (harity 0 htakes).symm
    exact ⟨.bracketed _ text, by simp⟩
  · cases h
    exact ⟨.arguments (by simp) _, fun a ha => .arguments (by simp [ha]) _⟩
  · obtain _ | ⟨key, _ | ⟨b, args⟩⟩ := args
    · cases h
      exact hplain _
    · dsimp only at h
      split at h
      · cases h
        have hfront : Stands (text ++ Text.subscript key)
            ("remove " ++ text ++ Text.subscript key) := by
          rw [String.append_assoc]
          exact .back (by decide)
        refine ⟨(hsubscript key).trans hfront, ?_⟩
        simpa using (Stands.subscript text key).trans hfront
      · cases h
        exact hplain _
    · cases h
      exact hplain _
  · cases h

theorem exists_of_render_binary {p : Pos} {op : BinaryOp} {l r : Expr}
    (h : s.render slot (.binary p op l r) = .ok text) :
    ∃ slot₁ slot₂ left right, s.render slot₁ l = .ok left ∧ s.render slot₂ r = .ok right ∧
      text = s.style.place slot (.binary p op l r)
        (left ++ " " ++ s.style.operator op ++ " " ++ right) := by
  rw [render_operands] at h
  obtain ⟨left, hleft, h⟩ := exists_of_bind h
  obtain ⟨right, hright, h⟩ := exists_of_bind h
  exact ⟨_, _, left, right, hleft, hright, (Except.ok.inj h).symm⟩

/-- An assignment shows its target, and its value unless that is an input call. -/
theorem exists_stands_of_mem_set {p : Pos} {target value : Expr}
    (h : s.render slot (.assign p target .set value) = .ok text)
    (hc : c ∈ (Expr.assign p target .set value).shownChildren) :
    ∃ slot' t, s.render slot' c = .ok t ∧ Stands t text := by
  obtain ⟨goal, hgoal, h⟩ := exists_of_bind h
  rw [if_pos rfl] at h
  cases hinput : value.isInputCall with
  | true =>
    rw [hinput] at h
    cases h
    simp only [Expr.shownChildren, hinput, if_true, List.mem_singleton] at hc
    subst hc
    refine ⟨_, goal, hgoal, Stands.trans ?_ (stands_place ..)⟩
    exact .behind (by decide)
  | false =>
    rw [hinput] at h
    obtain ⟨t, ht, h⟩ := exists_of_bind h
    cases h
    simp only [Expr.shownChildren, hinput, Bool.false_eq_true, if_false, List.mem_cons,
      List.not_mem_nil, or_false] at hc
    rcases hc with rfl | rfl
    · refine ⟨_, goal, hgoal, Stands.trans ?_ (stands_place ..)⟩
      rw [String.append_assoc]
      exact .before (by decide)
    · refine ⟨_, t, ht, Stands.trans ?_ (stands_place ..)⟩
      exact .behind (by decide)

/-- A compound assignment shows its target, twice, and its value. -/
theorem exists_stands_of_mem_compound {p : Pos} {target value : Expr} {op : AssignOp}
    (applied : BinaryOp) (h : (do
      let goal ← s.render .whole target
      let left ← s.render (.left applied) target
      let right ← s.render (.right applied) value
      return s.style.place slot (.assign p target op value)
        (goal ++ " = " ++ left ++ " " ++ s.style.operator applied ++ " " ++ right)) =
          (.ok text : Except RenderError String)) (hc : c ∈ [target, value]) :
    ∃ slot' t, s.render slot' c = .ok t ∧ Stands t text := by
  obtain ⟨goal, hgoal, h⟩ := exists_of_bind h
  obtain ⟨left, hleft, h⟩ := exists_of_bind h
  obtain ⟨right, hright, h⟩ := exists_of_bind h
  cases h
  simp only [List.mem_cons, List.not_mem_nil, or_false] at hc
  rcases hc with rfl | rfl
  · refine ⟨_, goal, hgoal, Stands.trans ?_ (stands_place ..)⟩
    simp only [String.append_assoc]
    exact .before (by decide)
  · exact ⟨_, right, hright, (Stands.right ..).trans (stands_place ..)⟩

/-- The text of an expression holds the texts of the parts that it shows. -/
theorem exists_stands_of_mem_shownChildren (hs : s.style ∈ Style.catalogue) (he : e.WellFormed V)
    (h : s.render slot e = .ok text) (hc : c ∈ e.shownChildren) :
    ∃ slot' t, s.render slot' c = .ok t ∧ Stands t text := by
  cases e with
  | name p n | literal p raw | unsupported p kind => simp [Expr.shownChildren, Expr.children] at hc
  | index p base indices =>
    rw [render_index] at h
    obtain ⟨subscripts, hsubscripts, h⟩ := exists_of_bind h
    obtain ⟨t, ht, h⟩ := exists_of_bind h
    cases h
    rcases List.mem_cons.mp hc with rfl | hc
    · exact ⟨_, t, ht, .front (Stands.startsApart_subscripts _)⟩
    · obtain ⟨u, hu, hrender⟩ := exists_of_renderAll hsubscripts hc
      exact ⟨_, u, hrender, .subscripts hu t⟩
  | call p n args =>
    rw [render_call] at h
    obtain ⟨texts, htexts, h⟩ := exists_of_bind h
    cases h
    obtain ⟨u, hu, hrender⟩ := exists_of_renderAll htexts hc
    exact ⟨_, u, hrender, .arguments hu n⟩
  | methodCall p receiver n args =>
    rw [render_methodCall] at h
    obtain ⟨t, ht, h⟩ := exists_of_bind h
    obtain ⟨texts, htexts, h⟩ := exists_of_bind h
    obtain ⟨hreceiver, hargs⟩ := stands_methodText hs h
    rcases List.mem_cons.mp hc with rfl | hc
    · exact ⟨_, t, ht, hreceiver⟩
    · obtain ⟨u, hu, hrender⟩ := exists_of_renderAll htexts hc
      exact ⟨_, u, hrender, hargs u hu⟩
  | property p receiver n =>
    rw [render_property] at h
    obtain ⟨t, ht, h⟩ := exists_of_bind h
    cases h
    obtain rfl := List.mem_singleton.mp hc
    rw [String.append_assoc]
    exact ⟨_, t, ht, .before (by decide)⟩
  | length p operand =>
    obtain ⟨t, ht, h⟩ := exists_of_bind h
    cases h
    obtain rfl := List.mem_singleton.mp hc
    exact ⟨_, t, ht, .bracketed _ t⟩
  | newArray p elementType dims =>
    obtain ⟨texts, htexts, h⟩ := exists_of_bind h
    cases h
    obtain ⟨u, hu, hrender⟩ := exists_of_renderAll htexts hc
    exact ⟨_, u, hrender, .subscripts hu _⟩
  | arrayLiteral p elements =>
    obtain ⟨texts, htexts, h⟩ := exists_of_bind h
    cases h
    obtain ⟨u, hu, hrender⟩ := exists_of_renderAll htexts hc
    refine ⟨_, u, hrender, (Stands.join hu).trans ?_⟩
    simpa using Stands.subscript "" (Text.join ", " texts)
  | newObject p typeName args =>
    obtain ⟨texts, htexts, h⟩ := exists_of_bind h
    cases h
    obtain ⟨u, hu, hrender⟩ := exists_of_renderAll htexts hc
    exact ⟨_, u, hrender, .arguments hu _⟩
  | unary p op operand =>
    obtain ⟨t, ht, h⟩ := exists_of_bind h
    cases h
    obtain rfl := List.mem_singleton.mp hc
    refine ⟨_, t, ht, Stands.trans ?_ (stands_place ..)⟩
    rcases he.1 with rfl | rfl
    · exact .behind (by decide)
    · exact .back (by decide)
  | update p op operand =>
    obtain ⟨t, ht, h⟩ := exists_of_bind h
    cases h
    obtain rfl := List.mem_singleton.mp hc
    refine ⟨_, t, ht, Stands.trans ?_ (stands_place ..)⟩
    rw [String.append_assoc, String.append_assoc]
    exact .before (by decide)
  | binary p op l r =>
    obtain ⟨slot₁, slot₂, left, right, hleft, hright, rfl⟩ := exists_of_render_binary h
    simp only [Expr.shownChildren, Expr.children, List.mem_cons, List.not_mem_nil, or_false] at hc
    rcases hc with rfl | rfl
    · exact ⟨_, left, hleft, (Stands.left ..).trans (stands_place ..)⟩
    · exact ⟨_, right, hright, (Stands.right ..).trans (stands_place ..)⟩
  | assign p target op value =>
    cases op with
    | set => exact exists_stands_of_mem_set h hc
    | add => exact exists_stands_of_mem_compound .add h hc
    | sub => exact exists_stands_of_mem_compound .sub h hc
    | mul => exact exists_stands_of_mem_compound .mul h hc
    | div => exact exists_stands_of_mem_compound .div h hc
    | rem => exact exists_stands_of_mem_compound .rem h hc
    | other symbol =>
      obtain ⟨goal, hgoal, h⟩ := exists_of_bind h
      cases h

/-- Every word that the text of an expression shows stands in it. -/
theorem stands_of_shows (hs : s.style ∈ Style.catalogue) (he : e.WellFormed V) {n : String}
    (hn : e.Shows n) (h : s.render slot e = .ok text) : Stands n text := by
  induction hn generalizing slot text with
  | @own e hn =>
    cases e with
    | name p n' =>
      cases h
      obtain rfl := List.mem_singleton.mp hn
      exact .refl n
    | call p f args =>
      rw [render_call] at h
      obtain ⟨texts, -, h⟩ := exists_of_bind h
      cases h
      obtain rfl := List.mem_singleton.mp hn
      exact .front (Stands.startsApart_bracketed _)
    | property p receiver field =>
      rw [render_property] at h
      obtain ⟨t, -, h⟩ := exists_of_bind h
      cases h
      obtain rfl := List.mem_singleton.mp hn
      exact .behind (by decide)
    | newObject p typeName args =>
      obtain ⟨texts, -, h⟩ := exists_of_bind h
      cases h
      obtain rfl := List.mem_singleton.mp hn
      refine Stands.trans ?_ (.front (Stands.startsApart_bracketed _))
      exact .back (by decide)
    | _ => simp [Expr.shownWords] at hn
  | child hc _ ih =>
    obtain ⟨slot', t, ht, hstands⟩ := exists_stands_of_mem_shownChildren hs he h hc
    exact (ih (he.of_mem_shownChildren hc) ht).trans hstands

end Setting

end Pseudocode
