import Pseudocode.Proofs.Reader.Derivation
import Pseudocode.Proofs.Reader.Phrases
set_option autoImplicit false

/-!
# What is read does not hang on what follows

A reading that succeeds has taken some tokens from the front of its list.  `Carries` says
that the same tokens are read alike in front of any other rest that is related to the old
one: an expression looks one token beyond its end, so the rest has to start with the same
token.  What is taken has balanced square brackets, which is what the lookahead for
statements counts on.
-/

namespace Pseudocode

namespace Token

/-! ## Rests that start alike -/

/-- Both lists start with the same token. -/
def SameHead (rest rest' : List Token) : Prop :=
  ∃ t us us', rest = t :: us ∧ rest' = t :: us'

theorem SameHead.append {rest rest' : List Token} (h : SameHead rest rest') (w : List Token) :
    SameHead (w ++ rest) (w ++ rest') := by
  obtain ⟨t, us, us', rfl, rfl⟩ := h
  cases w with
  | nil => exact ⟨t, us, us', rfl, rfl⟩
  | cons u w => exact ⟨u, _, _, rfl, rfl⟩

theorem sameHead_append {w : List Token} (hw : w ≠ []) (rest rest' : List Token) :
    SameHead (w ++ rest) (w ++ rest') := by
  obtain ⟨u, w, rfl⟩ := List.exists_cons_of_ne_nil hw
  exact ⟨u, _, _, rfl, rfl⟩

/-! ## Tokens that a subscript may hold -/

/-- Tokens with balanced square brackets, none of which is the end. -/
structure Enclosed (w : List Token) : Prop where
  balanced : Balanced w
  noEof : ∀ t ∈ w, t.kind ≠ .eof

namespace Enclosed

variable {t a b : Token} {w v : List Token}

theorem nil : Enclosed [] :=
  ⟨.nil, nofun⟩

theorem append (hw : Enclosed w) (hv : Enclosed v) : Enclosed (w ++ v) :=
  ⟨hw.balanced.append hv.balanced, List.forall_mem_append.mpr ⟨hw.noEof, hv.noEof⟩⟩

/-- A token that is no square bracket stands alone. -/
theorem single (ht : t.kind ≠ .eof) (hopen : Pattern.openBracket.fits t = false)
    (hclose : Pattern.closeBracket.fits t = false) : Enclosed [t] := by
  refine ⟨?_, by simpa using ht⟩
  intro depth rest
  rw [List.singleton_append, skipSubscripts, if_neg ht, hopen, hclose]
  rfl

theorem single_of_kind (ht : t.kind ≠ .eof) (hbracket : t.kind ≠ .bracket) : Enclosed [t] :=
  single ht (by simp [Pattern.fits, Pattern.openBracket, hbracket])
    (by simp [Pattern.fits, Pattern.closeBracket, hbracket])

theorem cons (ht : t.kind ≠ .eof) (hbracket : t.kind ≠ .bracket) (hw : Enclosed w) :
    Enclosed (t :: w) :=
  (single_of_kind ht hbracket).append hw

/-- A token of a sign that is no square bracket stands alone. -/
theorem sign {p : Pattern} (h : p.fits t = true) (hp : p.kind ≠ .eof ∧ p.kind ≠ .bracket) :
    Enclosed [t] :=
  single_of_kind (Reading.kind_of_fits h ▸ hp.1) (Reading.kind_of_fits h ▸ hp.2)

/-- Brackets with what stands in them. -/
theorem bracket (ha : Pattern.openBracket.fits a = true) (hw : Enclosed w)
    (hb : Pattern.closeBracket.fits b = true) : Enclosed (a :: (w ++ [b])) := by
  have ha' := Reading.ne_eof_of_fits ha (by decide)
  have hb' := Reading.ne_eof_of_fits hb (by decide)
  have hopen : Pattern.openBracket.fits b = false := by
    simp [Pattern.fits, Pattern.openBracket, Reading.text_of_fits hb rfl]
  refine ⟨?_, ?_⟩
  · intro depth rest
    rw [List.cons_append, skipSubscripts, if_neg ha', if_pos ha, List.append_assoc, hw.balanced,
      List.singleton_append, skipSubscripts, if_neg hb', hopen, hb]
    rfl
  · intro t ht
    simp only [List.mem_cons, List.mem_append, List.not_mem_nil, or_false] at ht
    obtain rfl | ht | rfl := ht
    · exact ha'
    · exact hw.noEof t ht
    · exact hb'

end Enclosed

end Token

open Token (SameHead Enclosed)

namespace Reading

/-! ## Carrying over -/

variable {α β γ : Type} {ts : List Token}

/-- Whatever `x` reads from the front of `ts`, `y` reads from the same tokens in front of
every rest that is related to the old one.  The value and the tokens satisfy `P`. -/
def Carries (P : α → List Token → Prop) (R : List Token → List Token → Prop) (x y : Reading α)
    (ts : List Token) : Prop :=
  ∀ a rest, x ts = .ok (a, rest) →
    ∃ w, ts = w ++ rest ∧ P a w ∧ ∀ rest', R rest rest' → y (w ++ rest') = .ok (a, rest')

namespace Carries

variable {P : α → List Token → Prop} {Q : β → List Token → Prop}
  {R S : List Token → List Token → Prop} {x x' : Reading α} {y y' z z' : Reading β}

theorem mono {P' : α → List Token → Prop} (h : Carries P R x x' ts) (hP : ∀ a w, P a w → P' a w) :
    Carries P' R x x' ts := by
  intro a rest hx
  obtain ⟨w, hw, ha, hread⟩ := h a rest hx
  exact ⟨w, hw, hP a w ha, hread⟩

theorem pure {a : α} (h : P a []) : Carries P R (Pure.pure a) (Pure.pure a) ts := by
  intro b rest hx
  cases hx
  exact ⟨[], rfl, h, fun _ _ => rfl⟩

theorem refuse (reason : Refusal) : Carries P R (refuse reason) x' ts := by
  intro a rest hx
  cases ts <;> cases hx

theorem exhausted : Carries P R exhausted x' ts := by
  intro a rest hx
  cases hx

theorem ite {c : Prop} [Decidable c] (hy : c → Carries Q R y y' ts)
    (hz : ¬ c → Carries Q R z z' ts) :
    Carries Q R (if c then y else z) (if c then y' else z') ts := by
  split
  · exact hy ‹_›
  · exact hz ‹_›

/-- What is read first is carried over in front of what is read second. -/
theorem bindWith {f f' : α → Reading β} (hx : Carries P S x x' ts)
    (hf : ∀ a w rest, ts = w ++ rest → P a w →
      Carries (fun b v => (∀ rest rest', R rest rest' → S (v ++ rest) (v ++ rest')) ∧ Q b (w ++ v))
        R (f a) (f' a) rest) :
    Carries Q R (x >>= f) (x' >>= f') ts := by
  intro b rest h
  obtain ⟨a, mid, hmid, hrest⟩ := bind_eq_ok_iff.mp h
  obtain ⟨w, rfl, ha, hread⟩ := hx a mid hmid
  obtain ⟨v, rfl, ⟨hS, hb⟩, hread'⟩ := hf a w mid rfl ha b rest hrest
  refine ⟨w ++ v, (List.append_assoc w v rest).symm, hb, ?_⟩
  intro rest' hR
  rw [List.append_assoc, bind_of_ok (hread _ (hS _ _ hR)), hread' _ hR]

theorem bind {f f' : α → Reading β} (hx : Carries P SameHead x x' ts)
    (hf : ∀ a w rest, ts = w ++ rest → P a w →
      Carries (fun b v => Q b (w ++ v)) SameHead (f a) (f' a) rest) :
    Carries Q SameHead (x >>= f) (x' >>= f') ts := by
  refine bindWith hx ?_
  intro a w rest hts ha
  exact (hf a w rest hts ha).mono fun b v hb => ⟨fun _ _ h => h.append v, hb⟩

/-- If the second part takes a token, the first one does not look beyond that. -/
theorem bindClosed {f f' : α → Reading β} (hx : Carries P SameHead x x' ts)
    (hf : ∀ a w rest, ts = w ++ rest → P a w →
      Carries (fun b v => v ≠ [] ∧ Q b (w ++ v)) R (f a) (f' a) rest) :
    Carries Q R (x >>= f) (x' >>= f') ts := by
  refine bindWith hx ?_
  intro a w rest hts ha
  exact (hf a w rest hts ha).mono fun b v hb => ⟨fun _ _ _ => Token.sameHead_append hb.1 _ _, hb.2⟩

/-- Looking at the token at hand. -/
theorem lookWith {g : Token → γ} {look : Reading γ} (hnil : ∃ e, look [] = .error e)
    (hcons : ∀ t us, look (t :: us) = .ok (g t, t :: us)) {f f' : γ → Reading β}
    (hf : ∀ t us, ts = t :: us →
      Carries (fun b v => (∀ rest rest', R rest rest' → SameHead (v ++ rest) (v ++ rest')) ∧ Q b v)
        R (f (g t)) (f' (g t)) (t :: us)) :
    Carries Q R (look >>= f) (look >>= f') ts := by
  intro b rest h
  cases ts with
  | nil =>
    obtain ⟨e, he⟩ := hnil
    rw [bind_of_error he] at h
    cases h
  | cons t us =>
    rw [bind_of_ok (hcons t us)] at h
    obtain ⟨v, hv, ⟨hhead, hb⟩, hread⟩ := hf t us rfl b rest h
    refine ⟨v, hv, hb, ?_⟩
    intro rest' hR
    obtain ⟨u, vs, vs', hold, hnew⟩ := hhead _ _ hR
    cases hv.trans hold
    rw [hnew, bind_of_ok (hcons t vs'), ← hnew]
    exact hread rest' hR

theorem current {f f' : Token → Reading β}
    (hf : ∀ t us, ts = t :: us → Carries Q SameHead (f t) (f' t) (t :: us)) :
    Carries Q SameHead (current >>= f) (current >>= f') ts := by
  refine lookWith (g := id) ⟨_, rfl⟩ (fun _ _ => rfl) ?_
  intro t us hts
  exact (hf t us hts).mono fun b v hb => ⟨fun _ _ h => h.append v, hb⟩

theorem here {f f' : Pos → Reading β}
    (hf : ∀ t us, ts = t :: us → Carries Q SameHead (f t.pos) (f' t.pos) (t :: us)) :
    Carries Q SameHead (here >>= f) (here >>= f') ts := by
  refine lookWith (g := Token.pos) ⟨_, rfl⟩ (fun _ _ => rfl) ?_
  intro t us hts
  exact (hf t us hts).mono fun b v hb => ⟨fun _ _ h => h.append v, hb⟩

theorem isAt {p : Pattern} {f f' : Bool → Reading β}
    (hf : ∀ t us, ts = t :: us → Carries Q SameHead (f (p.fits t)) (f' (p.fits t)) (t :: us)) :
    Carries Q SameHead (isAt p >>= f) (isAt p >>= f') ts := by
  refine lookWith (g := p.fits) ⟨_, rfl⟩ (fun _ _ => rfl) ?_
  intro t us hts
  exact (hf t us hts).mono fun b v hb => ⟨fun _ _ h => h.append v, hb⟩

theorem hereClosed {f f' : Pos → Reading β}
    (hf : ∀ t us, ts = t :: us →
      Carries (fun b v => v ≠ [] ∧ Q b v) R (f t.pos) (f' t.pos) (t :: us)) :
    Carries Q R (Reading.here >>= f) (Reading.here >>= f') ts := by
  refine lookWith (g := Token.pos) ⟨_, rfl⟩ (fun _ _ => rfl) ?_
  intro t us hts
  exact (hf t us hts).mono fun b v hb => ⟨fun _ _ _ => Token.sameHead_append hb.1 _ _, hb.2⟩

theorem currentClosed {f f' : Token → Reading β}
    (hf : ∀ t us, ts = t :: us →
      Carries (fun b v => v ≠ [] ∧ Q b v) R (f t) (f' t) (t :: us)) :
    Carries Q R (Reading.current >>= f) (Reading.current >>= f') ts := by
  refine lookWith (g := id) ⟨_, rfl⟩ (fun _ _ => rfl) ?_
  intro t us hts
  exact (hf t us hts).mono fun b v hb => ⟨fun _ _ _ => Token.sameHead_append hb.1 _ _, hb.2⟩

/-- Taking a token hangs on nothing behind it. -/
theorem advance {f f' : Token → Reading β} {t : Token} {us : List Token} (ht : t.kind ≠ .eof)
    (hf : Carries (fun b v => Q b (t :: v)) R (f t) (f' t) us) :
    Carries Q R (advance >>= f) (advance >>= f') (t :: us) := by
  intro b rest h
  rw [bind_of_ok (advance_cons ht)] at h
  obtain ⟨v, rfl, hb, hread⟩ := hf b rest h
  refine ⟨t :: v, rfl, hb, ?_⟩
  intro rest' hR
  rw [List.cons_append, bind_of_ok (advance_cons ht)]
  exact hread rest' hR

theorem expected {p : Pattern} (reason : Refusal) (hp : p.kind ≠ .eof) :
    Carries (fun t w => w = [t] ∧ p.fits t = true) R (expect p reason) (expect p reason) ts := by
  intro t rest h
  obtain ⟨-, rfl, hfits, -⟩ := (Tracks.expect (φ := id) reason hp).of_ok h
  exact ⟨[t], rfl, ⟨rfl, hfits⟩, fun rest' _ => expect_of_fits reason hfits hp⟩

theorem expect {p : Pattern} {reason : Refusal} {f f' : Token → Reading β} (hp : p.kind ≠ .eof)
    (hf : ∀ t us, ts = t :: us → p.fits t = true →
      Carries (fun b v => Q b (t :: v)) R (f t) (f' t) us) :
    Carries Q R (expect p reason >>= f) (expect p reason >>= f') ts := by
  refine bindWith (expected (R := fun _ _ => True) reason hp) ?_
  rintro t _ rest hts ⟨rfl, ht⟩
  exact (hf t rest hts ht).mono fun b v hb => ⟨fun _ _ _ => trivial, hb⟩

theorem acceptThen {p : Pattern} (hp : p.kind ≠ .eof)
    (hy : ∀ t us, ts = t :: us → p.fits t = true →
      Carries (fun b v => Q b (t :: v)) SameHead y y' us)
    (hz : ∀ t us, ts = t :: us → p.fits t = false → Carries Q SameHead z z' (t :: us)) :
    Carries Q SameHead (accept p >>= fun r => if r.isSome = true then y else z)
      (accept p >>= fun r => if r.isSome = true then y' else z') ts := by
  intro b rest h
  obtain ⟨r, mid, haccept, hnext⟩ := bind_eq_ok_iff.mp h
  obtain ⟨-, ⟨t, rfl, rfl, hfits, -⟩ | ⟨rfl, rfl, t, us, rfl, hfits⟩⟩ :=
    (Tracks.accept (φ := id) hp).of_ok haccept
  · obtain ⟨v, rfl, hb, hread⟩ := hy t mid rfl hfits b rest hnext
    refine ⟨t :: v, rfl, hb, ?_⟩
    intro rest' hR
    rw [List.cons_append, bind_of_ok (accept_of_fits hfits hp)]
    exact hread rest' hR
  · obtain ⟨v, hv, hb, hread⟩ := hz t us rfl hfits b rest hnext
    refine ⟨v, hv, hb, ?_⟩
    intro rest' hR
    obtain ⟨u, vs, vs', hold, hnew⟩ := hR.append v
    cases hv.trans hold
    rw [hnew, bind_of_ok (accept_of_not_fits hfits), ← hnew]
    exact hread rest' hR

/-! ## Repetition -/

/-- Tokens of which something can be made. -/
theorem collect (read : Token → Option α) :
    Carries (fun as w => w.map read = as.map some) SameHead (collect read) (collect read) ts := by
  induction ts with
  | nil =>
    intro as rest h
    cases h
  | cons t ts ih =>
    intro as rest h
    rw [Reading.collect] at h
    cases hread : read t with
    | none =>
      simp only [hread] at h
      cases h
      refine ⟨[], rfl, rfl, ?_⟩
      rintro _ ⟨u, us, us', hold, rfl⟩
      cases hold
      rw [List.nil_append, Reading.collect, hread]
    | some a =>
      simp only [hread] at h
      cases hmore : Reading.collect read ts with
      | error e => simp [hmore] at h
      | ok r =>
        obtain ⟨as', rest'⟩ := r
        simp only [hmore] at h
        cases h
        obtain ⟨w, rfl, hw, hagain⟩ := ih as' rest hmore
        refine ⟨t :: w, rfl, by simp [hread, hw], ?_⟩
        intro rest' hR
        rw [List.cons_append, Reading.collect, hread]
        dsimp only
        rw [hagain rest' hR]

/-- Items are read one after the other, and reading goes on behind the last of them.  The
clock runs no faster than the tokens, as every item takes one of them at least. -/
theorem manyWithin {wanted : Token → Bool} {L : List α → List Token → Prop} (hnil : L [] [])
    (hcons : ∀ a w as v, P a w → L as v → L (a :: as) (w ++ v))
    (hne : ∀ a w, P a w → w ≠ []) (hS : ∀ rest rest', SameHead rest rest' → S rest rest')
    (hx : ∀ t us, t :: us <:+ ts → wanted t = true → Carries P S x x' (t :: us))
    (clock us : List Token) (hus : us <:+ ts) {as : List α} {rest : List Token}
    (h : manyWithin wanted x clock us = .ok (as, rest)) :
    ∃ w, us = w ++ rest ∧ L as w ∧ (∃ t vs, rest = t :: vs ∧ wanted t = false) ∧
      ∀ rest', S rest rest' → ∀ clock' : List Token, w.length ≤ clock'.length →
        ∃ clock'' : List Token, clock'.length ≤ w.length + clock''.length ∧
          manyWithin wanted x' clock' (w ++ rest') =
            (manyWithin wanted x' clock'' rest').map fun r => (as ++ r.1, r.2) := by
  induction clock generalizing us as rest with
  | nil => cases h
  | cons c clock ih =>
    rw [Reading.manyWithin] at h
    obtain ⟨t, mid, hcurrent, h⟩ := bind_eq_ok_iff.mp h
    obtain _ | ⟨t', us⟩ := us
    · cases hcurrent
    cases hcurrent
    split at h
    · rename_i ht
      obtain ⟨a, mid, hitem, h⟩ := bind_eq_ok_iff.mp h
      obtain ⟨as', mid', hitems, h⟩ := bind_eq_ok_iff.mp h
      cases h
      obtain ⟨w, hw, ha, hread⟩ := hx t us hus ht a mid hitem
      have hmid : mid <:+ ts := (hw ▸ List.suffix_append w mid).trans hus
      obtain ⟨v, rfl, has, hrest, hreads⟩ := ih mid hmid hitems
      refine ⟨w ++ v, by rw [hw, List.append_assoc], hcons a w as' v ha has, hrest, ?_⟩
      intro rest' hR clock' hclock
      obtain ⟨u, w, rfl⟩ := List.exists_cons_of_ne_nil (hne a w ha)
      cases hw
      obtain _ | ⟨c', clock'⟩ := clock'
      · simp at hclock
      simp only [List.cons_append, List.length_cons, List.length_append] at hclock
      obtain ⟨clock'', hlength, hagain⟩ := hreads rest' hR clock' (by omega)
      refine ⟨clock'', ?_, ?_⟩
      · simp only [List.cons_append, List.length_cons, List.length_append]
        omega
      have hitem' : S (v ++ rest) (v ++ rest') := by
        cases v with
        | nil => exact hR
        | cons u v => exact hS _ _ (Token.sameHead_append (List.cons_ne_nil u v) _ _)
      rw [List.append_assoc, List.cons_append, Reading.manyWithin, bind_of_ok current_cons,
        if_pos ht, ← List.cons_append, bind_of_ok (hread _ hitem'), bind_apply, hagain]
      cases Reading.manyWithin wanted x' clock'' rest' <;> rfl
    · rename_i ht
      cases h
      refine ⟨[], rfl, hnil, ⟨t, us, rfl, by simpa using ht⟩, ?_⟩
      intro rest' _ clock' _
      refine ⟨clock', by simp, ?_⟩
      rw [List.nil_append]
      cases Reading.manyWithin wanted x' clock' rest' <;> rfl

theorem many {wanted : Token → Bool} {L : List α → List Token → Prop} (hnil : L [] [])
    (hcons : ∀ a w as v, P a w → L as v → L (a :: as) (w ++ v))
    (hne : ∀ a w, P a w → w ≠ []) (hS : ∀ rest rest', SameHead rest rest' → S rest rest')
    (hx : ∀ t us, t :: us <:+ ts → wanted t = true → Carries P S x x' (t :: us)) :
    Carries L SameHead (many wanted x) (many wanted x') ts := by
  intro as rest h
  obtain ⟨w, hw, has, ⟨t, vs, rfl, ht⟩, hreads⟩ :=
    manyWithin hnil hcons hne hS hx ts ts (List.suffix_refl ts) h
  refine ⟨w, hw, has, ?_⟩
  intro rest' hR
  obtain ⟨clock, hclock, hread⟩ := hreads rest' (hS _ _ hR) (w ++ rest') (by simp)
  obtain ⟨u, us, us', hold, rfl⟩ := hR
  cases hold
  obtain _ | ⟨c, clock⟩ := clock
  · simp only [List.length_append, List.length_cons, List.length_nil] at hclock
    omega
  unfold Reading.many
  rw [hread, Reading.manyWithin, bind_of_ok current_cons, ht]
  change Except.ok (as ++ [], t :: us') = _
  rw [List.append_nil]

/-- Each step goes on behind what was taken so far, or takes nothing and ends it. -/
theorem iterate {step step' : α → Reading (Option α)}
    (hstep : ∀ a us, Carries (fun r v => (r = none ∧ v = []) ∨ (r ≠ none ∧ v ≠ [] ∧ Enclosed v))
      SameHead (step a) (step' a) us) (a : α) :
    Carries (fun _ v => Enclosed v) SameHead (iterate step a) (iterate step' a) ts := by
  have hclock : ∀ (clock us : List Token) (a b : α) (rest : List Token),
      iterateWithin step clock a us = .ok (b, rest) → ∃ w, us = w ++ rest ∧ Enclosed w ∧
        ∀ rest', SameHead rest rest' → ∀ clock' : List Token, w.length < clock'.length →
          iterateWithin step' clock' a (w ++ rest') = .ok (b, rest') := by
    intro clock
    induction clock with
    | nil =>
      intro us a b rest h
      cases h
    | cons c clock ih =>
      intro us a b rest h
      rw [iterateWithin] at h
      obtain ⟨r, mid, hr, hnext⟩ := bind_eq_ok_iff.mp h
      obtain ⟨w, rfl, ⟨rfl, rfl⟩ | ⟨hsome, hne, hw⟩, hread⟩ := hstep a us r mid hr
      · cases hnext
        refine ⟨[], rfl, .nil, ?_⟩
        intro rest' hR clock' hclock
        obtain _ | ⟨c', clock'⟩ := clock'
        · simp at hclock
        rw [iterateWithin, bind_of_ok (hread rest' hR)]
        rfl
      · obtain ⟨a', rfl⟩ := Option.ne_none_iff_exists'.mp hsome
        obtain ⟨v, rfl, hv, hreads⟩ := ih mid a' b rest hnext
        refine ⟨w ++ v, (List.append_assoc w v rest).symm, hw.append hv, ?_⟩
        intro rest' hR clock' hclock
        have hpos := List.length_pos_iff.mpr hne
        obtain _ | ⟨c', clock'⟩ := clock'
        · simp at hclock
        rw [List.length_append, List.length_cons] at hclock
        rw [iterateWithin, List.append_assoc, bind_of_ok (hread _ (hR.append v))]
        exact hreads rest' hR clock' (by omega)
  intro b rest h
  obtain ⟨w, hw, hv, hreads⟩ := hclock ts ts a b rest h
  refine ⟨w, hw, hv, ?_⟩
  intro rest' hR
  refine hreads rest' hR (w ++ rest') ?_
  obtain ⟨u, us, us', -, rfl⟩ := hR
  simp

/-- Looking at the token behind the one at hand. -/
theorem peekNext {f f' : Token → Reading β} {t : Token} {us : List Token}
    (hnil : ∀ r, f t [t] ≠ .ok r)
    (hf : ∀ a vs, us = a :: vs →
      Carries (fun b v => 2 ≤ v.length ∧ Q b v) R (f a) (f' a) (t :: a :: vs)) :
    Carries Q R (peek 1 >>= f) (peek 1 >>= f') (t :: us) := by
  intro b rest h
  cases us with
  | nil => exact absurd h (hnil _)
  | cons a vs =>
    obtain ⟨v, hv, ⟨hlength, hb⟩, hread⟩ := hf a vs rfl b rest h
    obtain ⟨u, u', v, rfl⟩ : ∃ u u' v', v = u :: u' :: v' := by
      obtain _ | ⟨u, _ | ⟨u', v⟩⟩ := v
      · simp at hlength
      · simp at hlength
      · exact ⟨u, u', v, rfl⟩
    cases hv
    exact ⟨t :: a :: v, rfl, hb, hread⟩

end Carries

/-! ## The readings of expressions -/

/-- What is taken is an expression or some other part that may stand in a subscript. -/
def Part (_ : α) (w : List Token) : Prop :=
  w ≠ [] ∧ Enclosed w

theorem Part.append {a : α} {b : β} {w v : List Token} (hw : Part a w) (hv : Enclosed v) :
    Part b (w ++ v) :=
  ⟨by simp [hw.1], hw.2.append hv⟩

/-- What the nested readings read, those of another nesting read alike. -/
structure Nested.CarriesOver (inner inner' : Nested) : Prop where
  expression : ∀ ts, Carries Part SameHead inner.expression inner'.expression ts
  initializer : ∀ ts, Carries Part SameHead inner.initializer inner'.initializer ts

variable {inner inner' : Nested}

/-- Items that each follow a comma. -/
theorem Carries.separated {item item' : Reading Expr}
    (hitem : ∀ ts, Carries Part SameHead item item' ts) :
    Carries (fun _ w => Enclosed w) SameHead
      (Reading.many Pattern.comma.fits (Reading.advance >>= fun _ => item))
      (Reading.many Pattern.comma.fits (Reading.advance >>= fun _ => item')) ts := by
  refine Carries.many (P := Part) .nil (fun _ _ _ _ hw hv => hw.2.append hv) (fun _ _ hw => hw.1)
    (fun _ _ h => h) ?_
  intro t us _ ht
  refine Carries.advance (ne_eof_of_fits ht (by decide)) ?_
  refine (hitem us).mono ?_
  intro e w hw
  exact ⟨List.cons_ne_nil t w, (Enclosed.sign ht (by decide)).append hw.2⟩

section Parts

variable (hin : inner.CarriesOver inner')
include hin

theorem Carries.argumentsWith :
    Carries Part SameHead (argumentsWith inner) (argumentsWith inner') ts := by
  refine Carries.acceptThen (by decide) ?_ ?_
  · intro b us _ hb
    exact .pure ⟨List.cons_ne_nil b [], .sign hb (by decide)⟩
  · intro t us _ _
    refine Carries.bind (hin.expression _) ?_
    intro first w rest _ hw
    refine Carries.bind (Carries.separated hin.expression) ?_
    intro others v rest' _ hv
    refine Carries.expect (by decide) ?_
    intro b us' _ hb
    exact .pure (hw.append (hv.append (.sign hb (by decide))))

/-- One pair of brackets after the other. -/
theorem Carries.subscriptsWith :
    Carries (fun es w => Enclosed w ∧ (es ≠ [] → w ≠ [])) SameHead (subscriptsWith inner)
      (subscriptsWith inner') ts := by
  refine Carries.many (P := Part) ⟨.nil, fun h => absurd rfl h⟩ ?_ (fun _ _ hw => hw.1)
    (fun _ _ h => h) ?_
  · intro e w es v hw hv
    exact ⟨hw.2.append hv.1, fun _ => (hw.append hv.1 : Part e _).1⟩
  · intro a us _ ha
    refine Carries.advance (ne_eof_of_fits ha (by decide)) ?_
    refine Carries.bind (hin.expression _) ?_
    intro e w rest _ hw
    refine Carries.expect (by decide) ?_
    intro b us' _ hb
    exact .pure ⟨List.cons_ne_nil a _, .bracket ha hw.2 hb⟩

/-- One step behind a base takes a token, or there is no such step. -/
theorem Carries.extendWith (node : Expr) :
    Carries (fun r v => (r = none ∧ v = []) ∨ (r ≠ none ∧ v ≠ [] ∧ Enclosed v)) SameHead
      (extendWith inner node) (extendWith inner' node) ts := by
  refine Carries.current ?_
  intro t us _
  refine Carries.ite (fun ht => ?_) fun _ => Carries.ite (fun ht => ?_) fun _ =>
    Carries.ite (fun ht => ?_) fun _ => .pure (.inl ⟨rfl, rfl⟩)
  · cases node with
    | name p f =>
      refine Carries.advance (ne_eof_of_fits ht (by decide)) ?_
      refine Carries.bind (Carries.argumentsWith hin) ?_
      intro es w rest _ hw
      refine .pure (.inr ⟨nofun, List.cons_ne_nil t _, ?_⟩)
      exact (Enclosed.sign ht (by decide)).append (hw.2.append .nil)
    | _ => exact Carries.refuse _
  · refine Carries.advance (ne_eof_of_fits ht (by decide)) ?_
    refine Carries.expect (by decide) ?_
    intro field us' _ hfield
    have hdot : Enclosed [t, field] :=
      (Enclosed.sign ht (by decide)).append (Enclosed.sign hfield (by decide))
    refine Carries.acceptThen (by decide) ?_ ?_
    · intro a us'' _ ha
      refine Carries.bind (Carries.argumentsWith hin) ?_
      intro es w rest _ hw
      refine .pure (.inr ⟨nofun, List.cons_ne_nil t _, ?_⟩)
      exact hdot.append ((Enclosed.sign ha (by decide)).append (hw.2.append .nil))
    · intro _ _ _ _
      refine Carries.ite (fun _ => .pure ?_) fun _ => .pure ?_
      · exact .inr ⟨nofun, List.cons_ne_nil t _, hdot⟩
      · exact .inr ⟨nofun, List.cons_ne_nil t _, hdot⟩
  · have hindices : Carries (fun es w => w ≠ [] ∧ Enclosed w) SameHead
        (Reading.subscriptsWith inner) (Reading.subscriptsWith inner') (t :: us) := by
      intro es rest hes
      obtain ⟨w, hw, ⟨henclosed, hne⟩, hread⟩ := Carries.subscriptsWith hin es rest hes
      exact ⟨w, hw, ⟨hne (many_ne_nil ht hes), henclosed⟩, hread⟩
    refine Carries.bind hindices ?_
    intro es w rest _ hw
    refine .pure (.inr ⟨nofun, ?_⟩)
    rw [List.append_nil]
    exact hw

/-- A base with all that stands behind it. -/
theorem Carries.suffixesWith (base : Expr) :
    Carries (fun _ v => Enclosed v) SameHead (suffixesWith inner base) (suffixesWith inner' base)
      ts := by
  refine Carries.bind (Carries.iterate (fun node _ => Carries.extendWith hin node) base) ?_
  intro node w rest _ hw
  refine Carries.current ?_
  intro t us _
  cases hop : t.updateOp? with
  | none => exact .pure (hw.append .nil)
  | some op =>
    have hkind := (Token.updateOp?_eq_some hop).1
    refine Carries.advance (by simp [hkind]) (.pure ?_)
    exact hw.append (.single_of_kind (by simp [hkind]) (by simp [hkind]))

/-- Pairs of brackets, filled or empty. -/
theorem Carries.dimensionsWith :
    Carries (fun ds w => Enclosed w ∧ (ds ≠ [] → w ≠ [])) SameHead
      (Reading.many Pattern.openBracket.fits (dimensionWith inner))
      (Reading.many Pattern.openBracket.fits (dimensionWith inner')) ts := by
  refine Carries.many (P := Part) ⟨.nil, fun h => absurd rfl h⟩ ?_ (fun _ _ hw => hw.1)
    (fun _ _ h => h) ?_
  · intro d w ds v hw hv
    exact ⟨hw.2.append hv.1, fun _ => (hw.append hv.1 : Part d _).1⟩
  · intro a us _ ha
    refine Carries.advance (ne_eof_of_fits ha (by decide)) ?_
    refine Carries.acceptThen (by decide) ?_ ?_
    · intro b us' _ hb
      exact .pure ⟨List.cons_ne_nil a _, .bracket ha .nil hb⟩
    · intro _ _ _ _
      refine Carries.bind (hin.expression _) ?_
      intro e w rest _ hw
      refine Carries.expect (by decide) ?_
      intro b us' _ hb
      exact .pure ⟨List.cons_ne_nil a _, .bracket ha hw.2 hb⟩

/-- The arguments of a fresh object, behind a token that is spelled like an opening
bracket. -/
theorem Carries.freshArguments {a : Token} (ha : a.text = "(")
    {us : List Token} (build : List Expr → Expr) :
    Carries Part SameHead
      (Reading.advance >>= fun _ => Reading.argumentsWith inner >>= fun es => Pure.pure (build es))
      (Reading.advance >>= fun _ => Reading.argumentsWith inner' >>= fun es => Pure.pure (build es))
      (a :: us) := by
  by_cases heof : a.kind = .eof
  · -- the end is not taken, and no arguments start with it
    intro e rest h
    rw [bind_apply, Reading.advance, if_pos heof] at h
    obtain ⟨es, mid, hes, -⟩ := bind_eq_ok_iff.mp h
    obtain ⟨w, hw, ⟨hne, henclosed⟩, -⟩ := Carries.argumentsWith hin es mid hes
    obtain ⟨u, w, rfl⟩ := List.exists_cons_of_ne_nil hne
    obtain ⟨rfl, -⟩ := List.cons.inj hw
    exact absurd heof (henclosed.noEof a (by simp))
  · refine Carries.advance heof ?_
    refine Carries.bind (Carries.argumentsWith hin) ?_
    intro es w rest _ hw
    have hsingle : Enclosed [a] :=
      .single heof (by simp [Pattern.fits, Pattern.openBracket, ha])
        (by simp [Pattern.fits, Pattern.closeBracket, ha])
    exact .pure ⟨List.cons_ne_nil a _, hsingle.append (hw.2.append .nil)⟩

/-- A fresh object or array behind the word `new`. -/
theorem Carries.freshWith (p : Pos) :
    Carries Part SameHead (freshWith inner p) (freshWith inner' p) ts := by
  refine Carries.current ?_
  intro t us _
  refine Carries.peekNext ?_ ?_
  · -- behind the type there is at least one more token
    intro r h
    split at h
    · rename_i ht
      rw [bind_of_ok (advance_cons (by simp [ht.1]))] at h
      cases h
    · split at h
      · rename_i ht
        rw [bind_of_ok (advance_cons (by rcases ht with ht | ht <;> simp [ht]))] at h
        cases h
      · cases h
  intro a vs _
  refine Carries.ite ?_ fun _ => Carries.ite ?_ fun _ => Carries.refuse _
  · rintro ⟨ht, ha⟩
    refine Carries.advance (by simp [ht]) ?_
    refine (Carries.freshArguments hin ha _).mono ?_
    intro e w hw
    have hlength := List.length_pos_iff.mpr hw.1
    exact ⟨by simp only [List.length_cons]; omega, List.cons_ne_nil t w,
      hw.2.cons (by simp [ht]) (by simp [ht])⟩
  · intro ht
    have hkind : t.kind ≠ .eof ∧ t.kind ≠ .bracket := by rcases ht with ht | ht <;> simp [ht]
    refine Carries.advance hkind.1 ?_
    refine Carries.bind (Carries.dimensionsWith hin) ?_
    intro ds w rest _ hw
    cases hlast : ds.getLast? with
    | none => exact Carries.refuse _
    | some last =>
      have hne : w ≠ [] := by
        refine hw.2 ?_
        rintro rfl
        cases hlast
      have hlength := List.length_pos_iff.mpr hne
      have hpart : ∀ (e : Expr) v, Enclosed v →
          2 ≤ (t :: (w ++ v)).length ∧ Part e (t :: (w ++ v)) := by
        intro e v hv
        exact ⟨by simp only [List.length_cons, List.length_append]; omega, List.cons_ne_nil t _,
          (hw.1.append hv).cons hkind.1 hkind.2⟩
      refine Carries.isAt ?_
      intro b us' _
      refine Carries.ite (fun _ => ?_) fun _ => ?_
      · exact (hin.initializer _).mono fun e v hv => hpart e v hv.2
      · cases ds.mapM id with
        | none => exact Carries.refuse _
        | some sizes => exact .pure (hpart _ [] .nil)

theorem Carries.primaryWith :
    Carries Part SameHead (primaryWith inner) (primaryWith inner') ts := by
  refine Carries.current ?_
  intro t us _
  refine Carries.ite (fun hnew => ?_) fun _ => Carries.ite (fun hliteral => ?_) fun _ =>
    Carries.ite (fun hname => ?_) fun _ => Carries.ite (fun hopen => ?_) fun _ => Carries.refuse _
  · refine Carries.advance (ne_eof_of_fits hnew (by decide)) ?_
    refine (Carries.freshWith hin t.pos).mono ?_
    intro e w hw
    exact ⟨List.cons_ne_nil t w, (Enclosed.sign hnew (by decide)).append hw.2⟩
  · have hkind : t.kind ≠ .eof ∧ t.kind ≠ .bracket := by
      rcases hliteral with h | h | h | h
      · simp [h]
      · simp [h]
      · simp [kind_of_fits h, Pattern.keyword]
      · simp [kind_of_fits h, Pattern.keyword]
    refine Carries.advance hkind.1 (.pure ?_)
    exact ⟨List.cons_ne_nil t [], .single_of_kind hkind.1 hkind.2⟩
  · refine Carries.advance (by simp [hname]) ?_
    refine (Carries.suffixesWith hin _).mono ?_
    intro e w hw
    exact ⟨List.cons_ne_nil t w, hw.cons (by simp [hname]) (by simp [hname])⟩
  · refine Carries.advance (ne_eof_of_fits hopen (by decide)) ?_
    refine Carries.bind (hin.expression _) ?_
    intro e w rest _ hw
    refine Carries.expect (by decide) ?_
    intro b us' _ hb
    refine (Carries.suffixesWith hin e).mono ?_
    intro e' v hv
    refine ⟨List.cons_ne_nil t _, (Enclosed.sign hopen (by decide)).append ?_⟩
    exact hw.2.append ((Enclosed.sign hb (by decide)).append hv)

theorem Carries.unaryWith :
    Carries Part SameHead (unaryWith inner) (unaryWith inner') ts := by
  refine Carries.bind (Carries.collect _) ?_
  rintro signs w rest - hsigns
  have henclosed : Enclosed w := by
    induction w generalizing signs with
    | nil => exact .nil
    | cons t w ih =>
      obtain _ | ⟨sign, signs⟩ := signs
      · cases hsigns
      obtain ⟨hsign, hmore⟩ := List.cons.inj hsigns
      obtain ⟨op, hop, -⟩ := Option.map_eq_some_iff.mp hsign
      have hkind := (Token.unaryOp?_eq_some hop).1
      exact (ih signs hmore).cons (by simp [hkind]) (by simp [hkind])
  refine Carries.bind (Carries.primaryWith hin) ?_
  intro operand v rest' _ hv
  refine .pure ⟨?_, henclosed.append (hv.2.append .nil)⟩
  simp [hv.1]

theorem Carries.levelWith (n : Nat) :
    Carries Part SameHead (levelWith inner n) (levelWith inner' n) ts := by
  induction n generalizing ts with
  | zero => exact Carries.unaryWith hin
  | succ n ih =>
    rw [levelWith_succ, levelWith_succ, leftAssoc_eq, leftAssoc_eq]
    refine Carries.bind ih ?_
    intro first w rest _ hw
    refine (Carries.iterate ?_ first).mono fun e v hv => hw.append hv
    intro left us
    refine Carries.current ?_
    intro t vs _
    cases hop : levelOp? n t with
    | none => exact .pure (.inl ⟨rfl, rfl⟩)
    | some op =>
      have hkind := (levelOp?_eq_some hop).1
      refine Carries.advance (by simp [hkind]) ?_
      refine Carries.bind ih ?_
      intro right v rest' _ hv
      refine .pure (.inr ⟨nofun, List.cons_ne_nil t _, ?_⟩)
      exact (hv.2.append .nil).cons (by simp [hkind]) (by simp [hkind])

theorem Carries.assigningWith :
    Carries Part SameHead (assigningWith inner) (assigningWith inner') ts := by
  refine Carries.bind (Carries.levelWith hin loosest) ?_
  intro left w rest _ hw
  refine Carries.current ?_
  intro t us _
  cases hop : t.assignOp? with
  | none => exact .pure (hw.append .nil)
  | some op =>
    have hkind := (Token.assignOp?_eq_some hop).1
    refine Carries.ite (fun _ => ?_) fun _ => Carries.refuse _
    refine Carries.advance (by simp [hkind]) ?_
    refine Carries.bind (hin.expression _) ?_
    intro value v rest' _ hv
    exact .pure (hw.append ((hv.2.append .nil).cons (by simp [hkind]) (by simp [hkind])))

theorem Carries.elementWith :
    Carries Part SameHead (elementWith inner) (elementWith inner') ts := by
  refine Carries.isAt ?_
  intro t us _
  exact Carries.ite (fun _ => hin.initializer _) fun _ => hin.expression _

theorem Carries.elementsWith :
    Carries Part SameHead (elementsWith inner) (elementsWith inner') ts := by
  refine Carries.here ?_
  intro t us _
  refine Carries.expect (by decide) ?_
  intro a us' _ ha
  refine Carries.acceptThen (by decide) ?_ ?_
  · intro b us'' _ hb
    exact .pure ⟨List.cons_ne_nil a _,
      (Enclosed.sign ha (by decide)).append (.sign hb (by decide))⟩
  · intro _ _ _ _
    refine Carries.bind (Carries.elementWith hin) ?_
    intro first w rest _ hw
    refine Carries.bind (Carries.separated fun _ => Carries.elementWith hin) ?_
    intro others v rest' _ hv
    refine Carries.expect (by decide) ?_
    intro b us'' _ hb
    refine .pure ⟨List.cons_ne_nil a _, (Enclosed.sign ha (by decide)).append ?_⟩
    exact hw.2.append (hv.append (.sign hb (by decide)))

end Parts

/-- However short the clock is, what is read within it is read without it as well. -/
theorem nestedWithin_carriesOver (clock : List Token) :
    (nestedWithin clock).CarriesOver nested := by
  induction clock with
  | nil => exact ⟨fun _ => Carries.exhausted, fun _ => Carries.exhausted⟩
  | cons c clock ih =>
    refine ⟨fun ts => ?_, fun ts => ?_⟩
    · rw [nested_expression, expression_eq]
      exact Carries.assigningWith ih
    · rw [nested_initializer, initializer_eq]
      exact Carries.elementsWith ih

theorem nested_carriesOver : nested.CarriesOver nested :=
  ⟨fun ts => (nestedWithin_carriesOver ts).expression ts,
    fun ts => (nestedWithin_carriesOver ts).initializer ts⟩

theorem Carries.expression : Carries Part SameHead expression expression ts :=
  nested_carriesOver.expression ts

theorem Carries.initializer : Carries Part SameHead initializer initializer ts :=
  nested_carriesOver.initializer ts

theorem Carries.subscripts :
    Carries (fun es w => Enclosed w ∧ (es ≠ [] → w ≠ [])) SameHead subscripts subscripts ts := by
  rw [subscripts_eq]
  exact Carries.subscriptsWith nested_carriesOver

theorem Carries.suffixes (base : Expr) :
    Carries (fun _ w => Enclosed w) SameHead (suffixes base) (suffixes base) ts := by
  rw [suffixes_eq]
  exact Carries.suffixesWith nested_carriesOver base

end Reading

end Pseudocode
