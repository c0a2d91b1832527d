import Pseudocode.Proofs.Program.Move
import Pseudocode.Proofs.Program.WellFormed
set_option autoImplicit false

/-!
# One specification for all readings

Three facts hold of every reading of this library, and they are proved together,
since each of them leans on the others:

- it stays inside its list: what is left is an end of what there was, and on a list
  that ends with `eof` the tokens never run out;
- its value is well formed, whatever texts the tokens may have;
- positions decide nothing: on tokens whose positions are moved it does the same
  and yields the same value with its positions moved.

`Tracks` says all three of a pair of readings at one list.  The second reading of
the pair differs from the first one only in the readings that were handed in from
outside, so that the same lemmas also show that a longer clock changes nothing.
-/

namespace Pseudocode

/-! ## What is left of a list -/

/-- The last token is `eof`. -/
def Token.Closed (ts : List Token) : Prop :=
  ∃ t ∈ ts.getLast?, t.kind = .eof

/-- `rest` is an end of `ts`, and it still ends with `eof` if `ts` does. -/
structure Token.Remains (ts rest : List Token) : Prop where
  suffix : rest <:+ ts
  closed : Closed ts → Closed rest

namespace Token

@[simp] theorem not_closed_nil : ¬ Closed [] := by
  simp [Closed]

/-- Behind a token other than `eof` the list is still closed. -/
theorem Closed.tail {t : Token} {ts : List Token} (h : Closed (t :: ts)) (ht : t.kind ≠ .eof) :
    Closed ts := by
  obtain ⟨last, hlast, heof⟩ := h
  cases ts with
  | nil =>
    rw [List.getLast?_singleton, Option.mem_some_iff] at hlast
    exact absurd (hlast ▸ heof) ht
  | cons u us => exact ⟨last, by simpa [List.getLast?_cons_cons] using hlast, heof⟩

namespace Remains

theorem refl (ts : List Token) : Remains ts ts :=
  ⟨List.suffix_refl ts, fun h => h⟩

theorem trans {ts us vs : List Token} (h : Remains ts us) (h' : Remains us vs) : Remains ts vs :=
  ⟨h'.suffix.trans h.suffix, fun hc => h'.closed (h.closed hc)⟩

/-- Taking a token other than `eof`. -/
theorem tail {t : Token} {ts : List Token} (ht : t.kind ≠ .eof) : Remains (t :: ts) ts :=
  ⟨List.suffix_cons t ts, fun h => h.tail ht⟩

theorem length_le {ts rest : List Token} (h : Remains ts rest) : rest.length ≤ ts.length :=
  h.suffix.length_le

end Remains

end Token

open Token (Closed Remains)

instance : Placed Stop where
  move φ
    | .refused reason here ahead => .refused reason (move φ here) (move φ ahead)
    | .exhausted => .exhausted
  move_id e := by cases e <;> simp

/-! ## The specification -/

namespace Reading

variable {α β : Type} [Placed α] [Placed β]
variable {φ : Pos → Pos} {V : Vocabulary} {ts : List Token}

/-- On `ts`, whose tokens the vocabulary admits, `x` stays inside the list, its value
and what it leaves satisfy `Q`, and `y` does the same on the moved tokens. -/
def Tracks (φ : Pos → Pos) (V : Vocabulary) (Q : α → List Token → Prop) (x y : Reading α)
    (ts : List Token) : Prop :=
  V.Admits ts →
    match x ts with
    | .ok (a, rest) => y (move φ ts) = .ok (move φ a, move φ rest) ∧ Remains ts rest ∧ Q a rest
    | .error e => y (move φ ts) = .error (move φ e) ∧ Remains ts e.rest

theorem Tracks.mono {P Q : α → List Token → Prop} {x y : Reading α} (h : Tracks φ V P x y ts)
    (hQ : ∀ a rest, Remains ts rest → P a rest → Q a rest) : Tracks φ V Q x y ts := by
  intro hV
  have h := h hV
  cases hx : x ts with
  | error e => simpa only [hx] using h
  | ok r =>
    obtain ⟨a, rest⟩ := r
    simp only [hx] at h ⊢
    exact ⟨h.1, h.2.1, hQ a rest h.2.1 h.2.2⟩

theorem Tracks.pure {Q : α → List Token → Prop} {a b : α} (hb : b = move φ a) (h : Q a ts) :
    Tracks φ V Q (Pure.pure a) (Pure.pure b) ts := by
  subst hb
  exact fun _ => ⟨rfl, .refl ts, h⟩

/-- What holds of both parts of a sequence holds of the sequence. -/
theorem Tracks.bind {P : α → List Token → Prop} {Q : β → List Token → Prop} {x x' : Reading α}
    {f f' : α → Reading β} (hx : Tracks φ V P x x' ts)
    (hf : ∀ a rest, Remains ts rest → P a rest → Tracks φ V Q (f a) (f' (move φ a)) rest) :
    Tracks φ V Q (x >>= f) (x' >>= f') ts := by
  intro hV
  have hx := hx hV
  rw [bind_apply, bind_apply]
  cases hxt : x ts with
  | error e =>
    simp only [hxt] at hx ⊢
    rw [hx.1]
    exact ⟨rfl, hx.2⟩
  | ok r =>
    obtain ⟨a, rest⟩ := r
    simp only [hxt] at hx ⊢
    obtain ⟨hmoved, hrest, hP⟩ := hx
    have hf := hf a rest hrest hP (hV.of_suffix hrest.suffix)
    rw [hmoved]
    cases hft : f a rest with
    | error e =>
      simp only [hft] at hf ⊢
      exact ⟨hf.1, hrest.trans hf.2⟩
    | ok s =>
      obtain ⟨b, rest'⟩ := s
      simp only [hft] at hf ⊢
      exact ⟨hf.1, hrest.trans hf.2.1, hf.2.2⟩

/-- Both readings take the same branch. -/
theorem Tracks.ite {Q : α → List Token → Prop} {x x' y y' : Reading α} {c c' : Prop}
    [Decidable c] [Decidable c'] (hc : c' ↔ c) (hx : c → Tracks φ V Q x x' ts)
    (hy : ¬ c → Tracks φ V Q y y' ts) :
    Tracks φ V Q (if c then x else y) (if c' then x' else y') ts := by
  by_cases h : c
  · rw [if_pos h, if_pos (hc.mpr h)]
    exact hx h
  · rw [if_neg h, if_neg (mt hc.mp h)]
    exact hy h

/-- A list that was exhausted before is not closed. -/
theorem Tracks.exhausted {Q : α → List Token → Prop} (h : ¬ Closed ts) :
    Tracks φ V Q (exhausted : Reading α) exhausted ts :=
  fun _ => ⟨rfl, ⟨List.nil_suffix, fun hc => absurd hc h⟩⟩

theorem Tracks.refuse {Q : α → List Token → Prop} (reason : Refusal) :
    Tracks φ V Q (refuse reason : Reading α) (refuse reason) ts := by
  intro _
  cases ts with
  | nil => exact ⟨rfl, .refl []⟩
  | cons t ts => exact ⟨rfl, .refl (t :: ts)⟩

/-! ## Single tokens -/

theorem Tracks.current :
    Tracks φ V (fun t rest => rest = ts ∧ V t.kind t.text ∧ ∃ us, ts = t :: us)
      current current ts := by
  intro hV
  cases ts with
  | nil => exact ⟨rfl, .refl []⟩
  | cons t us => exact ⟨rfl, .refl _, rfl, hV t List.mem_cons_self, us, rfl⟩

theorem Tracks.unread :
    Tracks φ V (fun us rest => us = ts ∧ rest = ts) unread unread ts :=
  fun _ => ⟨rfl, .refl ts, rfl, rfl⟩

theorem Tracks.here : Tracks φ V (fun _ rest => rest = ts) here here ts := by
  refine Tracks.bind Tracks.current ?_
  intro t rest _ h
  obtain ⟨rfl, -⟩ := h
  exact Tracks.pure rfl rfl

theorem Tracks.peek (n : Nat) :
    Tracks φ V (fun t rest => rest = ts ∧ (ts[n]? = some t ∨ ts.length ≤ n)) (peek n) (peek n)
      ts := by
  intro _
  simp only [Reading.peek, getElem?_move, getLast?_move]
  cases hn : ts[n]? with
  | some t => exact ⟨rfl, .refl ts, rfl, .inl rfl⟩
  | none =>
    simp only [move_none]
    cases ts with
    | nil => exact ⟨rfl, .refl []⟩
    | cons t us =>
      rw [List.getLast?_cons]
      exact ⟨rfl, .refl _, rfl, .inr (List.getElem?_eq_none_iff.mp hn)⟩

/-- Taking a token; `eof` stays. -/
theorem Tracks.advance :
    Tracks φ V (fun t rest => V t.kind t.text ∧ ∃ us, ts = t :: us ∧ (t.kind ≠ .eof → rest = us))
      advance advance ts := by
  intro hV
  cases ts with
  | nil => exact ⟨rfl, .refl []⟩
  | cons t us =>
    have ht : V t.kind t.text := hV t List.mem_cons_self
    by_cases heof : t.kind = .eof
    · simp only [Reading.advance, heof, if_true]
      refine ⟨?_, .refl _, heof ▸ ht, us, rfl, fun h => absurd rfl h⟩
      have hmoved : (move φ t).kind = .eof := heof
      simp only [move_cons, hmoved, if_true]
    · simp only [Reading.advance, heof, if_false]
      refine ⟨?_, .tail heof, ht, us, rfl, fun _ => rfl⟩
      have hmoved : ¬ (move φ t).kind = .eof := heof
      simp only [move_cons, hmoved, if_false]

/-- Taking a token that is known. -/
theorem Tracks.take {t : Token} {us : List Token} (ht : t.kind ≠ .eof) :
    Tracks φ V (fun u rest => u = t ∧ rest = us) Reading.advance Reading.advance (t :: us) := by
  refine Tracks.advance.mono ?_
  intro u rest _ h
  obtain ⟨-, vs, heq, hrest⟩ := h
  obtain ⟨rfl, rfl⟩ := List.cons.inj heq
  exact ⟨rfl, hrest ht⟩

theorem Tracks.isAt (p : Pattern) :
    Tracks φ V (fun b rest => rest = ts ∧ ∃ t us, ts = t :: us ∧ b = p.fits t)
      (isAt p) (isAt p) ts := by
  refine Tracks.bind Tracks.current ?_
  intro t rest _ h
  obtain ⟨rfl, -, us, rfl⟩ := h
  exact Tracks.pure rfl ⟨rfl, t, us, rfl, rfl⟩

/-- The kind of a token that fits. -/
theorem kind_of_fits {p : Pattern} {t : Token} (h : p.fits t = true) : t.kind = p.kind := by
  simp only [Pattern.fits, Bool.and_eq_true, beq_iff_eq] at h
  exact h.1

/-- The text of a token that fits. -/
theorem text_of_fits {p : Pattern} {t : Token} {text : String} (h : p.fits t = true)
    (hp : p.text = some text) : t.text = text := by
  simp only [Pattern.fits, hp, Option.isNone_some, Bool.false_or, Bool.and_eq_true, beq_iff_eq,
    Option.some.injEq] at h
  exact h.2.symm

theorem ne_eof_of_fits {p : Pattern} {t : Token} (h : p.fits t = true) (hp : p.kind ≠ .eof) :
    t.kind ≠ .eof :=
  kind_of_fits h ▸ hp

theorem Tracks.accept {p : Pattern} (hp : p.kind ≠ .eof) :
    Tracks φ V (fun r rest =>
        (∃ t, r = some t ∧ ts = t :: rest ∧ p.fits t = true ∧ V p.kind t.text) ∨
          (r = none ∧ rest = ts ∧ ∃ t us, ts = t :: us ∧ p.fits t = false))
      (accept p) (accept p) ts := by
  refine Tracks.bind Tracks.current ?_
  intro t rest _ h
  obtain ⟨rfl, ht, us, rfl⟩ := h
  refine Tracks.ite Iff.rfl (fun hfits => ?_) (fun hfits => ?_)
  · refine Tracks.bind (Tracks.take (ne_eof_of_fits hfits hp)) ?_
    intro u rest _ h
    obtain ⟨rfl, rfl⟩ := h
    exact Tracks.pure rfl (.inl ⟨u, rfl, rfl, hfits, kind_of_fits hfits ▸ ht⟩)
  · exact Tracks.pure rfl (.inr ⟨rfl, rfl, t, us, rfl, by simpa using hfits⟩)

/-- Taking a token if it fits, and one way or the other to go on. -/
theorem Tracks.acceptThen {p : Pattern} {Q : α → List Token → Prop} {x x' y y' : Reading α}
    (hp : p.kind ≠ .eof)
    (hx : ∀ t us, ts = t :: us → p.fits t = true → Tracks φ V Q x x' us)
    (hy : ∀ t us, ts = t :: us → p.fits t = false → Tracks φ V Q y y' ts) :
    Tracks φ V Q (Reading.accept p >>= fun r => if r.isSome = true then x else y)
      (Reading.accept p >>= fun r => if r.isSome = true then x' else y') ts := by
  refine Tracks.bind (Tracks.accept hp) ?_
  intro r rest _ h
  obtain ⟨t, rfl, rfl, hfits, -⟩ | ⟨rfl, rfl, t, us, rfl, hfits⟩ := h
  · exact hx t rest rfl hfits
  · exact hy t us rfl hfits

theorem Tracks.expect {p : Pattern} (reason : Refusal) (hp : p.kind ≠ .eof) :
    Tracks φ V (fun t rest => ts = t :: rest ∧ p.fits t = true ∧ V p.kind t.text)
      (expect p reason) (expect p reason) ts := by
  refine Tracks.bind (Tracks.accept hp) ?_
  intro r rest _ h
  obtain ⟨t, rfl, h⟩ | ⟨rfl, -⟩ := h
  · exact Tracks.pure rfl h
  · exact Tracks.refuse reason

section Then

variable {Q : β → List Token → Prop}

/-- Looking at the place at hand. -/
theorem Tracks.hereThen {f f' : Pos → Reading β}
    (h : ∀ p, Tracks φ V Q (f p) (f' (move φ p)) ts) :
    Tracks φ V Q (Reading.here >>= f) (Reading.here >>= f') ts := by
  refine Tracks.bind Tracks.here ?_
  rintro p rest _ rfl
  exact h p

variable {f f' : Token → Reading β}

/-- Looking at the token at hand. -/
theorem Tracks.currentThen (h : ∀ t us, ts = t :: us → V t.kind t.text →
      Tracks φ V Q (f t) (f' (move φ t)) ts) :
    Tracks φ V Q (Reading.current >>= f) (Reading.current >>= f') ts := by
  refine Tracks.bind Tracks.current ?_
  rintro t rest _ ⟨rfl, ht, us, heq⟩
  exact h t us heq ht

/-- Looking at a token further on. -/
theorem Tracks.peekThen (n : Nat) (h : ∀ t, Tracks φ V Q (f t) (f' (move φ t)) ts) :
    Tracks φ V Q (Reading.peek n >>= f) (Reading.peek n >>= f') ts := by
  refine Tracks.bind (Tracks.peek n) ?_
  rintro t rest _ ⟨rfl, -⟩
  exact h t

/-- Taking a token that is known. -/
theorem Tracks.takeThen {t : Token} {us : List Token} (ht : t.kind ≠ .eof)
    (h : Tracks φ V Q (f t) (f' (move φ t)) us) :
    Tracks φ V Q (Reading.advance >>= f) (Reading.advance >>= f') (t :: us) := by
  refine Tracks.bind (Tracks.take ht) ?_
  rintro u rest _ ⟨rfl, rfl⟩
  exact h

/-- Taking a token that has to fit. -/
theorem Tracks.expectThen {p : Pattern} {reason : Refusal} (hp : p.kind ≠ .eof)
    (h : ∀ t us, ts = t :: us → p.fits t = true → V p.kind t.text →
      Tracks φ V Q (f t) (f' (move φ t)) us) :
    Tracks φ V Q (Reading.expect p reason >>= f) (Reading.expect p reason >>= f') ts := by
  refine Tracks.bind (Tracks.expect reason hp) ?_
  rintro t us _ ⟨heq, hfits, ht⟩
  exact h t us heq hfits ht

end Then

/-! ## Repetition -/

@[simp] theorem manyWithin_nil {α : Type} (wanted : Token → Bool) (item : Reading α)
    (clock : List Token) : manyWithin wanted item clock [] = .error .exhausted := by
  cases clock <;> rfl

theorem iterateWithin_nil {α : Type} (step : α → Reading (Option α))
    (hstep : ∀ a, step a [] = .error .exhausted) (clock : List Token) (a : α) :
    iterateWithin step clock a [] = .error .exhausted := by
  cases clock with
  | nil => rfl
  | cons c clock => rw [iterateWithin, bind_apply, hstep]

/-- Tokens are taken for as long as something can be made of them. -/
theorem Tracks.collect {read : Token → Option α} {P : α → Prop}
    (hmoved : ∀ t, read (move φ t) = move φ (read t))
    (heof : ∀ t, t.kind = .eof → read t = none) (hP : ∀ t a, read t = some a → P a) :
    Tracks φ V (fun as _ => ∀ a ∈ as, P a) (collect read) (collect read) ts := by
  induction ts with
  | nil => exact fun _ => ⟨rfl, .refl []⟩
  | cons t ts ih =>
    intro hV
    simp only [Reading.collect, move_cons, hmoved]
    cases hread : read t with
    | none => exact ⟨rfl, .refl _, by simp⟩
    | some a =>
      have hkind : t.kind ≠ .eof := by
        intro hk
        rw [heof t hk] at hread
        exact absurd hread (by simp)
      have ih := ih (hV.of_suffix (List.suffix_cons t ts))
      simp only [move_some]
      cases hrest : Reading.collect read ts with
      | error e =>
        simp only [hrest] at ih ⊢
        rw [ih.1]
        exact ⟨rfl, (Remains.tail hkind).trans ih.2⟩
      | ok r =>
        obtain ⟨as, rest⟩ := r
        simp only [hrest] at ih ⊢
        rw [ih.1]
        refine ⟨rfl, (Remains.tail hkind).trans ih.2.1, ?_⟩
        intro b hb
        rcases List.mem_cons.mp hb with rfl | hb
        · exact hP t b hread
        · exact ih.2.2 b hb

/-- Items are read one after the other.  Each takes at least one token, so two clocks
that are long enough lead to the same end. -/
theorem Tracks.manyWithin {wanted : Token → Bool} {item item' : Reading α} {P : α → Prop}
    (hwanted : ∀ t, wanted (move φ t) = wanted t) (clock : List Token) :
    ∀ {ts : List Token} (clock' : List Token), ts.length ≤ clock.length →
      ts.length ≤ clock'.length →
      (∀ t us, Remains ts (t :: us) → wanted t = true →
        Tracks φ V (fun a rest => rest.length ≤ us.length ∧ P a) item item' (t :: us)) →
      Tracks φ V (fun as rest => (∀ a ∈ as, P a) ∧
          ∀ t us, ts = t :: us → wanted t = true → as ≠ [] ∧ rest.length ≤ us.length)
        (manyWithin wanted item clock) (manyWithin wanted item' clock') ts := by
  induction clock with
  | nil =>
    intro ts clock' hclock _ _ _
    obtain rfl : ts = [] := List.length_eq_zero_iff.mp (Nat.le_zero.mp hclock)
    simp only [move_nil, manyWithin_nil]
    exact ⟨rfl, .refl []⟩
  | cons c clock ih =>
    intro ts clock' hclock hclock' hitem
    cases ts with
    | nil =>
      intro _
      simp only [move_nil, manyWithin_nil]
      exact ⟨rfl, .refl []⟩
    | cons t us =>
      cases clock' with
      | nil => simp at hclock'
      | cons c' clock' =>
        rw [Reading.manyWithin, Reading.manyWithin]
        refine Tracks.bind Tracks.current ?_
        intro t' rest _ h
        obtain ⟨rfl, -, us', heq⟩ := h
        obtain ⟨rfl, rfl⟩ := List.cons.inj heq
        rw [hwanted]
        cases hw : wanted t with
        | false =>
          refine Tracks.pure rfl ⟨by simp, ?_⟩
          rintro u vs heq hu
          obtain ⟨rfl, rfl⟩ := List.cons.inj heq
          exact absurd hu (by simp [hw])
        | true =>
          refine Tracks.bind (hitem t us (.refl _) hw) ?_
          intro a rest hrest h
          obtain ⟨hlen, ha⟩ := h
          simp only [List.length_cons] at hclock hclock'
          have hmore := ih clock' (Nat.le_trans hlen (Nat.le_of_succ_le_succ hclock))
            (Nat.le_trans hlen (Nat.le_of_succ_le_succ hclock'))
            fun u vs hu hwu => hitem u vs (hrest.trans hu) hwu
          refine Tracks.bind hmore ?_
          intro as rest' hrest' h
          obtain ⟨has, -⟩ := h
          refine Tracks.pure rfl ⟨?_, ?_⟩
          · simpa using ⟨ha, has⟩
          · rintro u vs heq -
            obtain ⟨rfl, rfl⟩ := List.cons.inj heq
            exact ⟨by simp, Nat.le_trans hrest'.length_le hlen⟩

theorem Tracks.many {wanted : Token → Bool} {item item' : Reading α} {P : α → Prop}
    (hwanted : ∀ t, wanted (move φ t) = wanted t)
    (hitem : ∀ t us, Remains ts (t :: us) → wanted t = true →
      Tracks φ V (fun a rest => rest.length ≤ us.length ∧ P a) item item' (t :: us)) :
    Tracks φ V (fun as rest => (∀ a ∈ as, P a) ∧
        ∀ t us, ts = t :: us → wanted t = true → as ≠ [] ∧ rest.length ≤ us.length)
      (many wanted item) (many wanted item') ts :=
  Tracks.manyWithin hwanted ts (move φ ts) (Nat.le_refl _) (by simp) hitem

/-- A value is replaced for as long as the step reads on.  Each time it takes at least
one token, so two clocks that are long enough lead to the same end. -/
theorem Tracks.iterateWithin {step step' : α → Reading (Option α)} {I : α → Prop}
    (hnil : ∀ a, step a [] = .error .exhausted) (hnil' : ∀ a, step' a [] = .error .exhausted)
    (clock : List Token) :
    ∀ {ts : List Token} (clock' : List Token) {a : α}, ts.length ≤ clock.length →
      ts.length ≤ clock'.length → I a →
      (∀ us a, Remains ts us → I a →
        Tracks φ V (fun r rest => ∀ b, r = some b → rest.length < us.length ∧ I b)
          (step a) (step' (move φ a)) us) →
      Tracks φ V (fun b _ => I b) (iterateWithin step clock a)
        (iterateWithin step' clock' (move φ a)) ts := by
  induction clock with
  | nil =>
    intro ts clock' a hclock _ _ _ _
    obtain rfl : ts = [] := List.length_eq_zero_iff.mp (Nat.le_zero.mp hclock)
    rw [move_nil, iterateWithin_nil step' hnil', iterateWithin_nil step hnil]
    exact ⟨rfl, .refl []⟩
  | cons c clock ih =>
    intro ts clock' a hclock hclock' ha hstep
    cases ts with
    | nil =>
      intro _
      rw [move_nil, iterateWithin_nil step' hnil', iterateWithin_nil step hnil]
      exact ⟨rfl, .refl []⟩
    | cons t us =>
      cases clock' with
      | nil => simp at hclock'
      | cons c' clock' =>
        rw [Reading.iterateWithin, Reading.iterateWithin]
        refine Tracks.bind (hstep (t :: us) a (.refl _) ha) ?_
        intro r rest hrest hr
        cases r with
        | none => exact Tracks.pure rfl ha
        | some b =>
          obtain ⟨hlen, hb⟩ := hr b rfl
          simp only [List.length_cons] at hclock hclock' hlen
          exact ih clock' (by omega) (by omega) hb
            fun vs a' hvs ha' => hstep vs a' (hrest.trans hvs) ha'

theorem Tracks.iterate {step step' : α → Reading (Option α)} {I : α → Prop} {a : α}
    (hnil : ∀ a, step a [] = .error .exhausted) (hnil' : ∀ a, step' a [] = .error .exhausted)
    (ha : I a)
    (hstep : ∀ us a, Remains ts us → I a →
      Tracks φ V (fun r rest => ∀ b, r = some b → rest.length < us.length ∧ I b)
        (step a) (step' (move φ a)) us) :
    Tracks φ V (fun b _ => I b) (iterate step a) (iterate step' (move φ a)) ts :=
  Tracks.iterateWithin hnil hnil' ts (move φ ts) (Nat.le_refl _) (by simp) ha hstep

/-! ## Equations without clocks -/

/-- Readings that track each other where nothing is moved are equal. -/
theorem Tracks.eq {Q : α → List Token → Prop} {x y : Reading α}
    (h : Tracks id .unrestricted Q x y ts) : y ts = x ts := by
  have h := h (Vocabulary.admits_unrestricted ts)
  rw [Placed.move_id] at h
  cases hx : x ts with
  | error e =>
    simp only [hx, Placed.move_id] at h
    exact h.1
  | ok r =>
    simp only [hx, Placed.move_id] at h
    exact h.1

/-- A reading that is tracked takes as many tokens as its specification says. -/
theorem Tracks.of_ok {Q : α → List Token → Prop} {x y : Reading α} {a : α} {rest : List Token}
    (h : Tracks φ .unrestricted Q x y ts) (hx : x ts = .ok (a, rest)) :
    Remains ts rest ∧ Q a rest := by
  have h := h (Vocabulary.admits_unrestricted ts)
  simp only [hx] at h
  exact h.2

/-- What is read from the tokens is read from the tokens at other places. -/
theorem Tracks.moved {Q : α → List Token → Prop} {x y : Reading α} {a : α} {rest : List Token}
    (h : Tracks φ .unrestricted Q x y ts) (hx : x ts = .ok (a, rest)) :
    y (move φ ts) = .ok (move φ a, move φ rest) := by
  have h := h (Vocabulary.admits_unrestricted ts)
  simp only [hx] at h
  exact h.1

/-- What is read from tokens at other places is read from the tokens themselves. -/
theorem Tracks.of_moved {Q : α → List Token → Prop} {x : Reading α} {b : α} {rest : List Token}
    (h : Tracks φ .unrestricted Q x x ts) (hx : x (move φ ts) = .ok (b, rest)) :
    ∃ a us, x ts = .ok (a, us) ∧ move φ a = b ∧ move φ us = rest := by
  have h := h (Vocabulary.admits_unrestricted ts)
  cases hts : x ts with
  | error e =>
    simp only [hts, hx] at h
    cases h.1
  | ok r =>
    obtain ⟨a, us⟩ := r
    simp only [hts, hx, Except.ok.injEq, Prod.mk.injEq] at h
    exact ⟨a, us, rfl, h.1.1.symm, h.1.2.symm⟩

section Many

variable {wanted : Token → Bool} {item : Reading α}

/-- A clock that is long enough can be left out. -/
theorem manyWithin_eq
    (hitem : ∀ t us, wanted t = true →
      Tracks id .unrestricted (fun _ rest => rest.length ≤ us.length) item item (t :: us))
    {clock : List Token} (h : ts.length ≤ clock.length) :
    manyWithin wanted item clock ts = many wanted item ts := by
  refine Tracks.eq (Tracks.manyWithin (P := fun _ => True) (fun _ => rfl) ts clock
    (Nat.le_refl _) h ?_)
  intro t us _ ht
  refine (hitem t us ht).mono ?_
  intro a rest _ hrest
  exact ⟨hrest, trivial⟩

/-- Items that each take a token are read one after the other. -/
theorem many_eq
    (hitem : ∀ t us, wanted t = true →
      Tracks id .unrestricted (fun _ rest => rest.length ≤ us.length) item item (t :: us)) :
    many wanted item = do
      if wanted (← Reading.current) then
        let a ← item
        let as ← many wanted item
        return a :: as
      else
        return [] := by
  funext ts
  cases ts with
  | nil => rfl
  | cons t us =>
    unfold many
    simp only [Reading.manyWithin, bind_apply, Reading.current]
    cases hw : wanted t with
    | false => rfl
    | true =>
      simp only [if_true, bind_apply]
      cases hi : item (t :: us) with
      | error e => rfl
      | ok r =>
        obtain ⟨a, rest⟩ := r
        have hlen : rest.length ≤ us.length := ((hitem t us hw).of_ok hi).2
        simp only [manyWithin_eq hitem hlen]
        rfl

omit [Placed α] in
/-- Nothing is read in front of a token that is not wanted. -/
theorem many_of_not_wanted {t : Token} {us : List Token} (h : wanted t = false) :
    many wanted item (t :: us) = .ok ([], t :: us) := by
  simp [many, Reading.manyWithin, bind_apply, Reading.current, h]

/-- One item, then the others. -/
theorem many_of_wanted
    (hitem : ∀ t us, wanted t = true →
      Tracks id .unrestricted (fun _ rest => rest.length ≤ us.length) item item (t :: us))
    {t : Token} {us mid rest : List Token} {a : α} {as : List α} (h : wanted t = true)
    (ha : item (t :: us) = .ok (a, mid)) (has : many wanted item mid = .ok (as, rest)) :
    many wanted item (t :: us) = .ok (a :: as, rest) := by
  rw [many_eq hitem]
  simp only [bind_apply, Reading.current, h, if_true, ha, has]
  rfl

end Many

section Iterate

variable {step : α → Reading (Option α)}

/-- A clock that is long enough can be left out. -/
theorem iterateWithin_eq (hnil : ∀ a, step a [] = .error .exhausted)
    (hstep : ∀ us a, Tracks id .unrestricted
      (fun r rest => ∀ b, r = some b → rest.length < us.length) (step a) (step a) us)
    {clock : List Token} (h : ts.length ≤ clock.length) (a : α) :
    iterateWithin step clock a ts = iterate step a ts := by
  have htracks : Tracks id .unrestricted (fun _ _ => True) (iterateWithin step ts a)
      (iterateWithin step clock (move id a)) ts := by
    refine Tracks.iterateWithin (I := fun _ => True) hnil hnil ts clock (Nat.le_refl _) h trivial ?_
    intro us b _ _
    rw [Placed.move_id]
    refine (hstep us b).mono ?_
    intro r rest _ hr c hc
    exact ⟨hr c hc, trivial⟩
  rw [Placed.move_id] at htracks
  exact Tracks.eq htracks

/-- A step that reads on is followed by the next one. -/
theorem iterate_of_some (hnil : ∀ a, step a [] = .error .exhausted)
    (hstep : ∀ us a, Tracks id .unrestricted
      (fun r rest => ∀ b, r = some b → rest.length < us.length) (step a) (step a) us)
    {a b : α} {rest : List Token} (h : step a ts = .ok (some b, rest)) :
    iterate step a ts = iterate step b rest := by
  cases ts with
  | nil => simp [hnil] at h
  | cons t us =>
    have hlen : rest.length < (t :: us).length := ((hstep _ a).of_ok h).2 b rfl
    simp only [List.length_cons] at hlen
    rw [iterate, Reading.iterateWithin, bind_apply, h]
    exact iterateWithin_eq hnil hstep (Nat.le_of_lt_succ hlen) b

omit [Placed α] in
/-- A step that reads nothing is the last one. -/
theorem iterate_of_none {a : α} {t : Token} {us rest : List Token}
    (h : step a (t :: us) = .ok (none, rest)) : iterate step a (t :: us) = .ok (a, rest) := by
  rw [iterate, Reading.iterateWithin, bind_apply, h]
  rfl

end Iterate

end Reading

end Pseudocode
