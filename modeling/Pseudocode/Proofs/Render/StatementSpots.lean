import Pseudocode.Proofs.Render.Concatenation
import Pseudocode.Proofs.Render.Spots
set_option autoImplicit false

/-!
# Where a sign in a statement is told apart

A statement that prints splits up what it prints, and the test of a loop that ends with it is
written the other way round.  Apart from that a sign in a statement is at the spot that it has in
an expression.
-/

namespace Pseudocode

/-! ## Signs are no strings -/

namespace Sign

variable (x : Sign)

/-- What is compared for inequality instead is a chain of comparisons. -/
theorem isInputCall_of_ne {q : Pos} {l r : Expr} (h : x.compared = .binary q .ne l r) :
    x.value.isInputCall = false := by
  obtain ⟨p, t, v, depth, ht, hloose⟩ := x
  cases depth with
  | zero => simp [compared, Expr.compared] at h
  | succ depth =>
    cases v with
    | binary => rfl
    | _ => exact hloose.elim

theorem isStringLiteral_compared : x.compared.isStringLiteral = false := by
  obtain ⟨op, l, r, h, -⟩ := x.compared_eq
  rw [h]
  rfl

theorem concatParts_assigned : x.assigned.concatParts = ([x.assigned], false) := rfl

theorem concatParts_compared : x.compared.concatParts = ([x.compared], false) := by
  obtain ⟨op, l, r, h, hop⟩ := x.compared_eq
  rw [h]
  refine Expr.concatParts_operand ?_
  rintro p l r heq
  cases heq
  simp [BinaryOp.precedence] at hop

end Sign

/-! ## Printed items -/

theorem Expr.concatParts_ne_nil (e : Expr) : e.concatParts.1 ≠ [] := by
  fun_induction concatParts e <;> simp_all

namespace Expr.Gap

/-- The sum that the gap is in makes a string. -/
def joins : Gap → Bool
  | .left _ .add gap r => gap.joins || r.isStringLiteral
  | .right _ .add l _ => l.concatParts.2
  | _ => false

/-- The gap in the part of the sum that it is in. -/
def part : Gap → Gap
  | .left p .add gap r =>
    if gap.joins then gap.part else if r.isStringLiteral then gap else .left p .add gap r
  | .right p .add l gap => if l.concatParts.2 then gap else .right p .add l gap
  | gap => gap

variable {V : Vocabulary} {e : Expr} {gap : Gap}

theorem isStringLiteral_fill (he : e.isStringLiteral = false) (gap : Gap) :
    (gap.fill e).isStringLiteral = false := by
  cases gap with
  | here => exact he
  | item listing before gap behind => cases listing <;> rfl
  | _ => rfl

/-- A gap that is not in a sum. -/
theorem concatParts_fill_operand (hleft : ∀ p gap' r, gap ≠ .left p .add gap' r)
    (hright : ∀ p l gap', gap ≠ .right p .add l gap') (he : e.concatParts = ([e], false)) :
    (gap.fill e).concatParts = ([gap.fill e], false) := by
  cases gap with
  | here => exact he
  | left p op gap r =>
    refine concatParts_operand ?_
    rintro p' l r' heq
    cases heq
    exact hleft _ _ _ rfl
  | right p op l gap =>
    refine concatParts_operand ?_
    rintro p' l' r heq
    cases heq
    exact hright _ _ _ rfl
  | item listing before gap behind => cases listing <;> rfl
  | _ => rfl

theorem isString_fill (he : e.concatParts = ([e], false)) (hstring : e.isStringLiteral = false)
    (gap : Gap) : (gap.fill e).concatParts.2 = gap.joins := by
  fun_induction joins gap with
  | case1 p gap r ih =>
    cases hgap : gap.joins with
    | true => simp [fill, concatParts_behind_string (ih.trans hgap)]
    | false =>
      cases hr : r.isStringLiteral with
      | true => simp [fill, concatParts_first_string (ih.trans hgap) hr]
      | false => simp [fill, concatParts_no_string (ih.trans hgap) hr]
  | case2 p l gap =>
    cases hl : l.concatParts.2 with
    | true => simp [fill, concatParts_behind_string hl]
    | false => simp [fill, concatParts_no_string hl (isStringLiteral_fill hstring gap)]
  | case3 gap hleft hright => rw [concatParts_fill_operand hleft hright he]

/-- What is put into the gap is in one part of the sum, whatever it is, and a sum that makes a
string has other parts. -/
theorem concatParts_fill (gap : Gap) :
    ∃ before behind, (gap.joins = true → before ++ behind ≠ []) ∧
      ∀ e, e.concatParts = ([e], false) → e.isStringLiteral = false →
        (gap.fill e).concatParts.1 = before ++ gap.part.fill e :: behind := by
  fun_induction part gap with
  | case1 p gap r hjoins ih =>
    obtain ⟨before, behind, -, ih⟩ := ih
    refine ⟨before, behind ++ [r], by simp, fun e he hstring => ?_⟩
    rw [fill, concatParts_behind_string ((isString_fill he hstring gap).trans hjoins),
      ih e he hstring]
    simp
  | case2 p gap r hjoins hr =>
    refine ⟨[], [r], by simp, fun e he hstring => ?_⟩
    have hnumber := (isString_fill he hstring gap).trans (Bool.eq_false_iff.mpr hjoins)
    rw [fill, concatParts_first_string hnumber hr]
    rfl
  | case3 p gap r hjoins hr =>
    refine ⟨[], [], by simp [joins, hjoins, hr], fun e he hstring => ?_⟩
    have hnumber := (isString_fill he hstring gap).trans (Bool.eq_false_iff.mpr hjoins)
    rw [fill, concatParts_no_string hnumber (Bool.eq_false_iff.mpr hr)]
    rfl
  | case4 p l gap hl =>
    refine ⟨l.concatParts.1, [], fun _ => ?_, fun e he hstring => ?_⟩
    · simpa using concatParts_ne_nil l
    · rw [fill, concatParts_behind_string hl]
  | case5 p l gap hl =>
    refine ⟨[], [], by simp [joins, hl], fun e he hstring => ?_⟩
    rw [fill, concatParts_no_string (Bool.eq_false_iff.mpr hl) (isStringLiteral_fill hstring gap)]
    rfl
  | case6 gap hleft hright =>
    refine ⟨[], [], fun hjoins => ?_, fun e he hstring => ?_⟩
    · rw [joins.eq_3 gap hleft hright] at hjoins
      cases hjoins
    · rw [concatParts_fill_operand hleft hright he]
      rfl

/-- The spot of a gap in an expression that stands for a statement. -/
def statementSpot (style : Style) (e : Expr) : Gap → Spot
  | .item (.methodCall _ object n) before gap behind =>
    if outputMethods.contains n && object.propertyChain == ["System", "out"] then
      (if before.isEmpty && behind.isEmpty then gap.part else gap).spot style e (.written .item)
    else gap.spot style e .enclosed
  | gap => gap.spot style e (.written .whole)

theorem propertyChain_fill (he : e.propertyChain = []) (gap : Gap) :
    (gap.fill e).propertyChain = [] := by
  induction gap with
  | here => exact he
  | field p gap n ih => simp [fill, propertyChain, ih]
  | item listing before gap behind => cases listing <;> rfl
  | _ => rfl

/-- Only a gap among the arguments of a call is in something that is printed. -/
theorem printed?_fill (he : e.printed? = none) (hchain : e.propertyChain = [])
    (hgap : ∀ p object n before gap' behind,
      gap ≠ .item (.methodCall p object n) before gap' behind) :
    (gap.fill e).printed? = none := by
  cases gap with
  | here => exact he
  | item listing before gap behind =>
    cases listing with
    | methodCall p object n => exact absurd rfl (hgap p object n before gap behind)
    | _ => rfl
  | receiver p gap n args => simp [fill, printed?, propertyChain_fill hchain gap]
  | _ => rfl

/-- What is printed has the gap in one item. -/
theorem printedItems_fill (before behind : List Expr) (gap : Gap) :
    ∃ before' behind', ∀ e, e.concatParts = ([e], false) → e.isStringLiteral = false →
      printedItems (before ++ gap.fill e :: behind) =
        before' ++ (if before.isEmpty && behind.isEmpty then gap.part else gap).fill e ::
          behind' := by
  cases halone : before.isEmpty && behind.isEmpty with
  | true =>
    obtain ⟨rfl, rfl⟩ : before = [] ∧ behind = [] := by simpa using halone
    obtain ⟨before', behind', hothers, hparts⟩ := gap.concatParts_fill
    refine ⟨before', behind', fun e he hstring => ?_⟩
    have hsplit : printedItems [gap.fill e] = (gap.fill e).concatParts.1 := by
      cases hjoins : gap.joins with
      | true =>
        have hlong : 1 < (gap.fill e).concatParts.1.length := by
          have hlength := List.length_pos_iff.mpr (hothers hjoins)
          simp only [hparts e he hstring, List.length_append, List.length_cons] at hlength ⊢
          omega
        simp [printedItems, isString_fill he hstring gap, hjoins, hlong]
      | false =>
        have hnumber := (isString_fill he hstring gap).trans hjoins
        simp [printedItems, hnumber, concatParts_of_number hnumber]
    simpa [hparts e he hstring] using hsplit
  | false =>
    refine ⟨before, behind, fun e he hstring => ?_⟩
    cases before with
    | nil =>
      cases behind with
      | nil => cases halone
      | cons d behind => rfl
    | cons d before => cases before <;> rfl

end Expr.Gap

namespace Setting

variable {s : Setting} {V : Vocabulary} {x : Sign}

theorem updateText_inj (a b : String) (op : UpdateOp) :
    updateText a op = updateText b op ↔ a = b := by
  have htwice := twice_inj a b " = " (" " ++ op.sign ++ " 1")
  simpa [updateText, String.append_assoc] using htwice

theorem renderStatement_eq {e : Expr} (h : e.printed? = none) (hupdate : e.isUpdate = false) :
    s.renderStatement e = s.render .whole e := by
  unfold renderStatement
  rw [h]
  cases e with
  | update => cases hupdate
  | _ => rfl

theorem renderStatement_printed {e : Expr} {args : List Expr} (h : e.printed? = some args)
    (hne : args ≠ []) : s.renderStatement e = (do
      let items ← (Expr.printedItems args).mapM (s.render .item)
      return s.style.keywords.output ++ " " ++ Text.join ", " items) := by
  unfold renderStatement
  rw [h]
  cases args with
  | nil => exact absurd rfl hne
  | cons => rfl

/-- A gap in an argument that is printed. -/
theorem renderStatement_item (hs : s.style ∈ Style.catalogue) {p : Pos} {object : Expr}
    {n : String} {before behind : List Expr} {gap : Expr.Gap}
    (hprints : (Expr.outputMethods.contains n && object.propertyChain == ["System", "out"]) = true)
    (hargs : ∀ e ∈ before ++ gap.fill x.assigned :: behind, e.WellFormed V) :
    ∀ same ∈ ((if before.isEmpty && behind.isEmpty then gap.part else gap).spot s.style x.assigned
        (.written .item)).alike? s.style x,
      TellsApart (same = true)
        (s.renderStatement (.methodCall p object n (before ++ gap.fill x.assigned :: behind)))
        (s.renderStatement (.methodCall p object n (before ++ gap.fill x.compared :: behind))) := by
  intro same hsame
  have hprinted : ∀ args, (Expr.methodCall p object n args).printed? = some args := fun args =>
    if_pos hprints
  rw [renderStatement_printed (hprinted _) (by simp),
    renderStatement_printed (hprinted _) (by simp)]
  obtain ⟨before', behind', hitems⟩ := gap.printedItems_fill before behind
  have hwell := Expr.printedItems_wellFormed hargs
  rw [hitems x.assigned x.concatParts_assigned rfl] at hwell ⊢
  rw [hitems x.compared x.concatParts_compared x.isStringLiteral_compared]
  have hyields : ∀ {d : Expr}, d ∈ before' ∨ d ∈ behind' → Yields (s.render .item d) := by
    intro d hd
    refine render_yields (Style.isSound_of_mem hs) (hwell d ?_) .item
    simp only [List.mem_append, List.mem_cons]
    exact hd.imp_right .inr
  have hgap := render_fill hs _ (.written .item) rfl (hwell _ (by simp)) rfl rfl same hsame
  refine (mapM_apart (fun d hd => hyields (.inl hd)) hgap fun d hd => hyields (.inr hd)).bind ?_
  rintro _ _ ⟨front, a, b, texts, rfl, rfl, hab⟩
  exact .ok (by rw [String.append_right_inj, Text.join_inj, hab])

/-- A statement with a gap. -/
theorem renderStatement_fill (hs : s.style ∈ Style.catalogue) (gap : Expr.Gap)
    (he : (gap.fill x.assigned).WellFormed V) :
    ∀ same ∈ (gap.statementSpot s.style x.assigned).alike? s.style x,
      TellsApart (same = true) (s.renderStatement (gap.fill x.assigned))
        (s.renderStatement (gap.fill x.compared)) := by
  intro same hsame
  obtain ⟨op, l, r, hcompared, -⟩ := x.compared_eq
  have hwhole : same ∈ (gap.spot s.style x.assigned (.written .whole)).alike? s.style x →
      TellsApart (same = true) (s.render .whole (gap.fill x.assigned))
        (s.render .whole (gap.fill x.compared)) :=
    render_fill hs gap (.written .whole) rfl he rfl rfl same
  have hprinted :
      (∀ p object n before gap' behind, gap ≠ .item (.methodCall p object n) before gap' behind) →
      (gap.fill x.assigned).printed? = none ∧ (gap.fill x.compared).printed? = none := by
    intro hgap
    refine ⟨Expr.Gap.printed?_fill rfl rfl hgap, Expr.Gap.printed?_fill ?_ ?_ hgap⟩
    · rw [hcompared]
      rfl
    · rw [hcompared]
      rfl
  cases gap with
  | here =>
    have hupdate : x.compared.isUpdate = false := by rw [hcompared]; rfl
    obtain ⟨hnone, hnone'⟩ := hprinted (by simp)
    rw [renderStatement_eq hnone rfl, renderStatement_eq hnone' hupdate]
    exact hwhole hsame
  | item listing before gap behind =>
    cases listing with
    | methodCall p object n =>
      rw [Expr.Gap.statementSpot] at hsame
      cases hprints :
          Expr.outputMethods.contains n && object.propertyChain == ["System", "out"] with
      | true =>
        rw [hprints, if_pos rfl] at hsame
        exact renderStatement_item hs hprints (Expr.allWellFormed_iff.mp he.2.2) same hsame
      | false =>
        have hnone : ∀ args, (Expr.methodCall p object n args).printed? = none := fun args =>
          if_neg (by rw [hprints]; decide)
        have hcall : ∀ args, s.renderStatement (.methodCall p object n args) =
            s.render .whole (.methodCall p object n args) := fun args =>
          renderStatement_eq (hnone args) rfl
        rw [hprints] at hsame
        exact (hcall _).symm ▸ (hcall _).symm ▸ hwhole hsame
    | _ => exact hwhole hsame
  | changed p op gap =>
    have htext := render_fill hs gap .enclosed rfl he.2 rfl rfl same hsame
    exact htext.around fun a b => updateText_inj a b op
  | _ =>
    obtain ⟨hnone, hnone'⟩ := hprinted (by simp)
    rw [renderStatement_eq hnone rfl, renderStatement_eq hnone' rfl]
    exact hwhole hsame

/-! ## Tests the other way round -/

/-- A character that is no bracket is in the text of an expression so many times, whatever its
slot. -/
theorem count_chars (hs : s.style ∈ Style.catalogue) {c : Char} (hopen : c ≠ '(') (hclose : c ≠ ')')
    {e : Expr} (he : e.WellFormed V) (slot : Slot) :
    (s.chars slot e).count c = (s.chars .whole e).count c := by
  have hother : ∀ e : Expr, e.WellFormed V → (∀ slot : Slot, slot.continues e = false) →
      ∀ slot, (s.chars slot e).count c = (s.chars .whole e).count c := by
    intro e he hcontinues slot
    rw [(renders_of_wellFormed hs he).chars_eq (hcontinues slot), count_enclosed hopen hclose]
  induction e generalizing slot with
  | binary p op l r ihl ihr =>
    obtain ⟨-, hl, hr⟩ := he
    have hlr := renders_of_wellFormed hs hl
    have hrr := renders_of_wellFormed hs hr
    simp only [chars_binary hlr hrr, count_enclosed hopen hclose, List.count_append, ihl hl, ihr hr]
  | _ => exact hother _ he (fun slot => by cases slot <;> rfl) slot

/-- The comparison has the characters of the target, of the value and of the sign. -/
theorem count_chars_compared (hs : s.style ∈ Style.catalogue) {c : Char} (hopen : c ≠ '(')
    (hclose : c ≠ ')') {t : Expr} (ht : t.WellFormed V) (htarget : t.isTarget = true)
    (depth : Nat) : ∀ {v : Expr}, v.WellFormed V → v.IsLoose depth → ∀ slot,
      (s.chars slot (t.compared depth v)).count c =
        (s.chars .whole t).count c + [' ', '=', ' '].count c + (s.chars .whole v).count c := by
  have htr := renders_of_wellFormed hs ht
  induction depth with
  | zero =>
    intro v hv _ slot
    rw [chars_compared_zero htr htarget (renders_of_wellFormed hs hv)]
    simp only [count_enclosed hopen hclose, List.count_append]
    omega
  | succ depth ih =>
    intro v hv hloose slot
    cases v with
    | binary p op l r =>
      obtain ⟨-, hl, hr⟩ := hv
      have hrr := renders_of_wellFormed hs hr
      have hl' := renders_of_wellFormed hs (Expr.compared_wellFormed ht hl hloose.2)
      rw [Expr.compared, chars_binary hl' hrr, chars_binary (renders_of_wellFormed hs hl) hrr]
      simp only [count_enclosed hopen hclose, List.count_append, ih hl hloose.2,
        count_chars hs hopen hclose hl, count_chars hs hopen hclose hr]
      omega
    | _ => exact hloose.elim

end Setting

/-- The sign of inequality has a character that no other part of a negated sign has. -/
theorem Style.exists_unequal {style : Style} (h : style ∈ catalogue) :
    ∃ c : Char, c ≠ '(' ∧ c ≠ ')' ∧ c ≠ '=' ∧ c ≠ ' ' ∧ (style.spaced .ne).count c = 1 ∧
      c ∉ style.notWord.toList ∧ c ∉ style.keywords.input.toList := by
  have hall : catalogue.all fun style => ['!', '<'].any fun c =>
      (style.spaced .ne).count c == 1 && !style.notWord.toList.contains c &&
        !style.keywords.input.toList.contains c := by decide
  obtain ⟨c, hmem, hc⟩ := List.any_eq_true.mp (List.all_eq_true.mp hall style h)
  have hother : ∀ c ∈ ['!', '<'], c ≠ '(' ∧ c ≠ ')' ∧ c ≠ '=' ∧ c ≠ ' ' := by simp
  obtain ⟨hopen, hclose, hsign, hblank⟩ := hother c hmem
  simp only [Bool.and_eq_true, beq_iff_eq, Bool.not_eq_true', List.contains_eq_mem,
    decide_eq_false_iff_not] at hc
  exact ⟨c, hopen, hclose, hsign, hblank, hc.1.1, hc.1.2, hc.2⟩

namespace Setting

variable {s : Setting} {V : Vocabulary} {x : Sign}

/-- A negation, with brackets round an assignment or a chain. -/
theorem tells_negation {same : Prop} {p q : Pos} {e e' : Expr}
    (h : TellsApart same (s.render .prefixed e) (s.render .prefixed e')) :
    TellsApart same (s.render .whole (.unary p .not e)) (s.render .whole (.unary q .not e')) :=
  h.around fun a b => by simp [Style.place, Style.wraps]

theorem chars_negation {p : Pos} {e : Expr} (h : s.Renders e) :
    s.chars .whole (.unary p .not e) =
      s.style.notWord.toList ++ ' ' :: s.chars .prefixed e := by
  have hrender := s.render_not .whole p e
  rw [h.render] at hrender
  rw [chars_of_render hrender, Style.toList_place]
  simp [Style.wraps]

/-- An assignment has the characters of the target and, unless it reads input, those of the
value. -/
theorem count_chars_assigned (hs : s.style ∈ Style.catalogue) (hx : x.assigned.WellFormed V)
    {c : Char} (hopen : c ≠ '(') (hclose : c ≠ ')') (hsign : c ≠ '=') (hblank : c ≠ ' ')
    (hinput : c ∉ s.style.keywords.input.toList) (slot : Slot) :
    (s.chars slot x.assigned).count c = (s.chars .whole x.target).count c +
      if x.value.isInputCall then 0 else (s.chars .whole x.value).count c := by
  obtain ⟨-, ht, -, hv⟩ := hx
  have htr := renders_of_wellFormed hs ht
  cases hread : x.value.isInputCall with
  | true =>
    rw [Sign.assigned, chars_input htr hread, count_enclosed hopen hclose]
    simp [List.count_eq_zero_of_not_mem hinput, hblank.symm]
  | false =>
    rw [Sign.assigned, chars_assign htr (renders_of_wellFormed hs hv) hread,
      count_enclosed hopen hclose]
    simp [count_chars hs hopen hclose hv .value, hsign.symm, hblank.symm]

/-- A test for equality or inequality that is turned round shows it. -/
theorem chars_inverted_ne (hs : s.style ∈ Style.catalogue) (hx : x.assigned.WellFormed V)
    {q : Pos} {op inverse : BinaryOp} {l r : Expr} (hcompared : x.compared = .binary q op l r)
    (hop : op.precedence ≤ BinaryOp.eq.precedence) (hinverse : op.inverse? = some inverse)
    (p : Pos) :
    s.chars .whole (.unary p .not x.assigned) ≠ s.chars .whole (.binary q inverse l r) := by
  intro h
  obtain ⟨c, hopen, hclose, hsign, hblank, hne, hnot, hinput⟩ := Style.exists_unequal hs
  have hx' := Sign.compared_wellFormed hx
  rw [hcompared] at hx'
  have hl := renders_of_wellFormed hs hx'.2.1
  have hr := renders_of_wellFormed hs hx'.2.2
  have hcount := congrArg (List.count c) h
  have hsum := count_chars_compared hs hopen hclose hx.2.1 x.isTarget x.depth hx.2.2.2 x.isLoose
    .whole
  rw [← Sign.compared, hcompared] at hsum
  rw [chars_negation (renders_of_wellFormed hs hx)] at hcount
  simp only [chars_binary hl hr, count_enclosed hopen hclose, List.count_append, List.count_cons,
    count_chars_assigned hs hx hopen hclose hsign hblank hinput,
    count_chars hs hopen hclose hx'.2.1,
    count_chars hs hopen hclose hx'.2.2, List.count_eq_zero_of_not_mem hnot] at hcount hsum
  have heq : (s.style.spaced .eq).count c = 0 := by
    simp [Style.spaced_eq, hsign.symm, hblank.symm]
  have hopposite : op = .eq ∧ inverse = .ne ∨ op = .ne ∧ inverse = .eq := by
    cases op <;> simp_all [BinaryOp.inverse?, BinaryOp.precedence]
  rcases hopposite with ⟨rfl, rfl⟩ | ⟨rfl, rfl⟩
  · simp only [hne, heq] at hcount hsum
    simp [hsign.symm, hblank.symm] at hcount hsum
    split at hcount <;> omega
  · have hread := x.isInputCall_of_ne hcompared
    simp only [hne, heq, hread] at hcount hsum
    simp [hsign.symm, hblank.symm] at hcount hsum
    omega

/-- A test with a gap in it, turned round. -/
theorem render_inverted_sign (hs : s.style ∈ Style.catalogue) (hx : x.assigned.WellFormed V) :
    TellsApart ((!x.compared.isRelational && x.alike s.style .prefixed) = true)
      (s.render .whole x.assigned.inverted) (s.render .whole x.compared.inverted) := by
  obtain ⟨op, l, r, hcompared, hop⟩ := x.compared_eq
  have hx' := Sign.compared_wellFormed hx
  cases hinverse : op.inverse? with
  | none =>
    have hinverted : x.compared.inverted = .unary x.target.pos .not x.compared := by
      simp [hcompared, Expr.inverted, hinverse]
    have hlogical : x.compared.isRelational = false := by
      rw [hcompared]
      cases op <;> first | rfl | cases hinverse
    rw [hinverted, hlogical]
    exact tells_negation (render_sign hs hx rfl)
  | some inverse =>
    have hinverted : x.compared.inverted = .binary x.target.pos inverse l r := by
      simp [hcompared, Expr.inverted, hinverse]
    have hrelational : x.compared.isRelational = true := by
      rw [hcompared]
      cases op <;> first | rfl | cases hinverse
    have hwell := Expr.inverted_wellFormed hx
    have hwell' := Expr.inverted_wellFormed hx'
    refine tells_of_chars (renders_of_wellFormed hs hwell) (renders_of_wellFormed hs hwell') ?_
    rw [hinverted, hrelational]
    exact iff_of_false (chars_inverted_ne hs hx hcompared hop hinverse _) (by simp)

end Setting

/-- The spot of a gap in a test that is written the other way round. -/
def Expr.Gap.invertedSpot (style : Style) (e : Expr) : Expr.Gap → Spot
  | .here => .negated
  | .operand _ .not gap => gap.spot style e (.written .whole)
  | .left p op gap r =>
    match op.inverse? with
    | some inverse => (Gap.left p inverse gap r).spot style e (.written .whole)
    | none => (Gap.left p op gap r).spot style e (.written .prefixed)
  | .right p op l gap =>
    match op.inverse? with
    | some inverse => (Gap.right p inverse l gap).spot style e (.written .whole)
    | none => (Gap.right p op l gap).spot style e (.written .prefixed)
  | gap => gap.spot style e (.written .prefixed)

namespace Setting

variable {s : Setting} {V : Vocabulary} {x : Sign}

/-- A test with a gap, written the other way round. -/
theorem render_inverted_fill (hs : s.style ∈ Style.catalogue) (gap : Expr.Gap)
    (he : (gap.fill x.assigned).WellFormed V) :
    ∀ same ∈ (gap.invertedSpot s.style x.assigned).alike? s.style x,
      TellsApart (same = true) (s.render .whole (gap.fill x.assigned).inverted)
        (s.render .whole (gap.fill x.compared).inverted) := by
  intro same hsame
  have hnegation : same ∈ (gap.spot s.style x.assigned (.written .prefixed)).alike? s.style x →
      ∀ p q, TellsApart (same = true) (s.render .whole (.unary p .not (gap.fill x.assigned)))
        (s.render .whole (.unary q .not (gap.fill x.compared))) := by
    intro hsame p q
    exact tells_negation (render_fill hs gap (.written .prefixed) rfl he rfl rfl same hsame)
  have hinverted := Expr.inverted_wellFormed he
  cases gap with
  | here =>
    obtain rfl := Option.some.inj hsame
    exact render_inverted_sign hs he
  | operand p op gap =>
    cases op with
    | not => exact render_fill hs gap (.written .whole) rfl he.2 rfl rfl same hsame
    | _ => exact hnegation hsame _ _
  | left p op gap r =>
    simp only [Expr.Gap.invertedSpot] at hsame
    simp only [Expr.Gap.fill, Expr.inverted] at hinverted ⊢
    cases hop : op.inverse? with
    | none =>
      rw [hop] at hsame
      exact hnegation hsame _ _
    | some inverse =>
      rw [hop] at hsame hinverted
      exact render_fill hs (.left p inverse gap r) (.written .whole) rfl hinverted rfl rfl same
        hsame
  | right p op l gap =>
    simp only [Expr.Gap.invertedSpot] at hsame
    simp only [Expr.Gap.fill, Expr.inverted] at hinverted ⊢
    cases hop : op.inverse? with
    | none =>
      rw [hop] at hsame
      exact hnegation hsame _ _
    | some inverse =>
      rw [hop] at hsame hinverted
      exact render_fill hs (.right p inverse l gap) (.written .whole) rfl hinverted rfl rfl same
        hsame
  | item listing before gap behind => cases listing <;> exact hnegation hsame _ _
  | _ => exact hnegation hsame _ _

end Setting

end Pseudocode
