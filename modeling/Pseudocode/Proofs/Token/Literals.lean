import Pseudocode.Proofs.Number.Numeral
import Pseudocode.Proofs.Source.Blanking
import Pseudocode.Proofs.Token.Places
set_option autoImplicit false

/-!
# Literals

A text is walked along three times: once to find its comments, once to mask its literals,
and once to cut it into tokens.  Each walk decides for itself where a literal begins and
where it ends.  If the last one succeeds on a text in normal form, all three decide alike,
and whatever looks like a comment in that text stands in a literal.

The walks leave a literal at the same quote (`exists_closed`), and they go on with the code
behind it.  So a text is put together of pieces, each of which the walks agree on
(`Traced.append`).
-/

namespace Pseudocode

namespace Source

/-- In a literal that is closed on its line the three walks come to the same closing quote. -/
theorem exists_closed {q : Char} {cs : List Char} {n : Nat}
    (h : Token.literalLength? q cs = some n) :
    ∃ body rest, cs = body ++ q :: rest ∧ n = body.length + 1 ∧
      regions (.literal q) cs =
        List.replicate (body.length + 1) (.literal q) ++ regions .code rest ∧
      maskChars (some q) cs = List.replicate body.length ' ' ++ q :: maskChars none rest := by
  fun_induction Token.literalLength? q cs generalizing n with
  | case1 => cases h
  | case2 => cases h
  | case3 c cs hc ih =>
    obtain ⟨m, hm, rfl⟩ := Option.map_eq_some_iff.mp h
    obtain ⟨body, rest, rfl, rfl, hregions, hmask⟩ := ih hm
    refine ⟨'\\' :: c :: body, rest, rfl, rfl, ?_, ?_⟩
    · rw [regions, hregions]
      rfl
    · rw [maskChars, if_neg hc, hmask]
      rfl
  | case4 => cases h
  | case5 cs hescape hc =>
    obtain rfl := Option.some.inj h
    refine ⟨[], cs, rfl, rfl, ?_, ?_⟩
    · rw [regions_literal_cons fun hq => absurd (.inr hq) hc, if_pos (.inl rfl)]
      rfl
    · rw [maskChars, if_pos (.inr rfl)]
      · rfl
      · exact fun _ _ hq => absurd (.inr hq) hc
  | case6 c cs hescape hc hquote ih =>
    obtain ⟨m, hm, rfl⟩ := Option.map_eq_some_iff.mp h
    obtain ⟨body, rest, rfl, rfl, hregions, hmask⟩ := ih hm
    have hends : ¬ (c = q ∨ c = '\n') := by
      rintro (hq | hfeed)
      · exact hquote hq
      · exact hc (.inl hfeed)
    refine ⟨c :: body, rest, rfl, rfl, ?_, ?_⟩
    · rw [regions_literal_cons fun hb => absurd (.inr hb) hc, if_neg hends, hregions]
      rfl
    · rw [maskChars, if_neg fun h => hends h.symm, hmask]
      · rfl
      · exact fun _ _ hb => absurd (.inr hb) hc

theorem Region.settled_eq_literal {r : Region} {q : Char} :
    r.settled = .literal q ↔ r = .literal q := by
  cases r <;> simp [settled]

/-- No character of the text belongs to a comment. -/
def Uncommented (cs : List Char) : Prop :=
  ∀ r ∈ regions .code cs, r.isComment = false

theorem regions_normalChars (cs : List Char) :
    regions .code (normalChars cs) =
      (regions .code (expandTabs (unifyLineEnds cs))).map Region.settled :=
  regions_settled .code _

theorem uncommented_normalChars (cs : List Char) : Uncommented (normalChars cs) := by
  intro r hr
  rw [regions_normalChars] at hr
  obtain ⟨r', -, rfl⟩ := List.mem_map.mp hr
  cases r' <;> rfl

/-- A text without comments goes on behind a character of the code, and the character opens
no comment. -/
theorem Uncommented.regions_eq {c : Char} {cs : List Char} (h : Uncommented (c :: cs)) :
    regions .code (c :: cs) = .code :: regions (if isQuote c then .literal c else .code) cs := by
  apply regions_code_cons
  rintro rfl d hd
  obtain ⟨ds, rfl⟩ := List.head?_eq_some_iff.mp hd
  constructor
  · rintro rfl
    exact absurd (h .lineComment (by simp [regions])) (by decide)
  · rintro rfl
    exact absurd (h .blockComment (by simp [regions])) (by decide)

/-- A run of characters without quotes is code. -/
theorem Uncommented.regions_append {cs ds : List Char} (h : Uncommented (cs ++ ds))
    (hcs : ∀ c ∈ cs, isQuote c = false) :
    regions .code (cs ++ ds) = List.replicate cs.length .code ++ regions .code ds := by
  induction cs with
  | nil => rfl
  | cons c cs ih =>
    have hhead : regions .code (c :: cs ++ ds) = .code :: regions .code (cs ++ ds) := by
      simpa [hcs c List.mem_cons_self] using h.regions_eq
    have htail : Uncommented (cs ++ ds) := by
      intro r hr
      apply h r
      rw [hhead]
      exact List.mem_cons_of_mem _ hr
    rw [hhead, ih htail fun d hd => hcs d (List.mem_cons_of_mem _ hd)]
    rfl

theorem maskChars_append {cs : List Char} (hcs : ∀ c ∈ cs, isQuote c = false) (ds : List Char) :
    maskChars none (cs ++ ds) = cs ++ maskChars none ds := by
  induction cs with
  | nil => rfl
  | cons c cs ih =>
    rw [List.cons_append, maskChars, hcs c List.mem_cons_self]
    simp only [Bool.false_eq_true, if_false, List.cons_append]
    rw [ih fun d hd => hcs d (List.mem_cons_of_mem _ hd)]

/-- What looks like a comment in the code is one. -/
theorem regions_ne_code {r : Region} {cs : List Char} {k : Nat} {d : Char} (hk : cs[k]? = some '/')
    (hd : cs[k + 1]? = some d) (hopens : d = '/' ∨ d = '*') :
    (regions r cs)[k]? ≠ some .code := by
  fun_induction regions r cs generalizing k with
  | case1 => simp at hk
  | case2 cs ih | case3 cs ih | case5 q c cs ih | case9 cs ih =>
    rcases k with - | - | k
    · simp
    · simp
    · exact ih hk hd
  | case4 c cs hline hblock ih =>
    rcases k with - | k
    · obtain rfl : c = '/' := Option.some.inj hk
      rw [List.getElem?_cons_succ, ← List.head?_eq_getElem?] at hd
      obtain ⟨ds, rfl⟩ := List.head?_eq_some_iff.mp hd
      rcases hopens with rfl | rfl
      · exact absurd rfl (hline ds rfl)
      · exact absurd rfl (hblock ds rfl)
    · exact ih hk hd
  | case6 q c cs hescape ih | case8 c cs hc ih | case10 c cs hclose ih =>
    rcases k with - | k
    · simp
    · exact ih hk hd
  | case7 cs ih =>
    rcases k with - | k
    · simp at hk
    · exact ih hk hd

end Source

namespace Token

open Source (Region isQuote regions maskChars)

/-! ## The characters of tokens -/

/-- The characters of operators and signs. -/
def marks : List Char :=
  signs.map Prod.fst ++ ['&', '|']

theorem mem_marks_of_pair {c d : Char} (h : (c, d) ∈ pairs) : c ∈ marks ∧ d ∈ marks := by
  have hall : pairs.all (fun pair => marks.contains pair.1 && marks.contains pair.2) = true := by
    decide
  simpa using List.all_eq_true.mp hall (c, d) h

theorem mem_marks_of_sign {c : Char} {kind : Kind} (h : signs.lookup c = some kind) :
    c ∈ marks := by
  obtain ⟨before, after, heq, -⟩ := List.lookup_eq_some_iff.mp h
  unfold marks
  rw [heq]
  simp

/-- A token that is no literal has parts of words, points and marks only. -/
theorem mem_of_isLexeme {kind : Kind} {text : String} (h : isLexeme kind text = true)
    (hkind : kind ≠ .string) {d : Char} (hd : d ∈ text.toList) :
    isWordPart d = true ∨ d ∈ marks := by
  obtain ⟨c, cs, rfl, hlexeme⟩ := isLexeme_iff.mp h
  rw [String.toList_ofList] at hd
  unfold lexeme at hlexeme
  split at hlexeme
  · rename_i hword
    have hlength := congrArg Prod.snd (Except.ok.inj hlexeme)
    have hall : cs.takeWhile isWordPart = cs :=
      (List.takeWhile_prefix isWordPart).eq_of_length hlength
    rcases List.mem_cons.mp hd with rfl | hd
    · exact .inl (by simp [isWordPart, hword])
    · rw [← hall] at hd
      exact .inl (List.all_eq_true.mp List.all_takeWhile d hd)
  split at hlexeme
  · obtain rfl := congrArg Prod.fst (Except.ok.inj hlexeme)
    obtain ⟨digits, tail, htext, -, hdigits, htail⟩ := number_shape h
    rw [String.toList_ofList] at htext
    rw [htext] at hd
    rcases List.mem_append.mp hd with hd | hd
    · exact .inl (by simp [isWordPart, hdigits d hd])
    · rcases htail with rfl | ⟨more, rfl, hmore⟩
      · cases hd
      · rcases List.mem_cons.mp hd with rfl | hd
        · exact .inr (by decide)
        · exact .inl (by simp [isWordPart, hmore d hd])
  split at hlexeme
  · cases hlength : literalLength? c cs with
    | none => simp [hlength] at hlexeme
    | some n =>
      rw [hlength] at hlexeme
      exact absurd (congrArg Prod.fst (Except.ok.inj hlexeme)).symm hkind
  split at hlexeme
  · rename_i hpair
    have hlength := congrArg Prod.snd (Except.ok.inj hlexeme)
    obtain ⟨e, rfl⟩ := List.length_eq_one_iff.mp hlength.symm
    have hmarks := mem_marks_of_pair (by simpa using hpair)
    rcases List.mem_pair.mp hd with rfl | rfl
    · exact .inr hmarks.1
    · exact .inr hmarks.2
  · cases hsign : signs.lookup c with
    | none => simp [hsign] at hlexeme
    | some kind' =>
      rw [hsign] at hlexeme
      have hlength := congrArg Prod.snd (Except.ok.inj hlexeme)
      obtain rfl := List.length_eq_zero_iff.mp hlength.symm
      obtain rfl := List.mem_singleton.mp hd
      exact .inr (mem_marks_of_sign hsign)

theorem isQuote_of_isSpace {c : Char} (h : isSpace c = true) : isQuote c = false := by
  cases hquote : isQuote c with
  | false => rfl
  | true => rcases eq_of_isQuote hquote with rfl | rfl <;> cases h

/-- A token that is no literal has neither quotes nor white space. -/
theorem plain_of_isLexeme {kind : Kind} {text : String} (h : isLexeme kind text = true)
    (hkind : kind ≠ .string) {d : Char} (hd : d ∈ text.toList) :
    isQuote d = false ∧ isSpace d = false := by
  have hmarks : marks.all (fun c => !isQuote c && !isSpace c) = true := by decide
  rcases mem_of_isLexeme h hkind hd with hword | hmark
  · constructor
    · cases hquote : isQuote d with
      | false => rfl
      | true =>
        rcases eq_of_isQuote hquote with rfl | rfl <;> simp [isWordPart, isWordStart] at hword
    · cases hspace : isSpace d with
      | false => rfl
      | true =>
        rcases eq_of_isSpace hspace with rfl | rfl | rfl | rfl | rfl <;>
          simp [isWordPart, isWordStart] at hword
  · simpa using List.all_eq_true.mp hmarks d hmark

/-! ## Literals by their place -/

/-- The token is the literal that the text has from index `i` to index `j`. -/
structure IsLiteral (p : Pos) (cs : List Char) (t : Token) (q : Char) (i j : Nat) : Prop where
  kind : t.kind = .string
  quote : isQuote q = true
  lt : i < j
  opening : cs[i]? = some q
  closing : cs[j]? = some q
  text : t.text = String.ofList ((cs.drop i).take (j + 1 - i))
  pos : t.pos = p.after (cs.take i)

namespace IsLiteral

variable {p : Pos} {cs ds : List Char} {t : Token} {q q' : Char} {i i' j j' : Nat}

theorem lt_length (h : IsLiteral p cs t q i j) : j < cs.length :=
  (List.getElem?_eq_some_iff.mp h.closing).1

/-- A literal is found at one place only. -/
theorem unique (h : IsLiteral p cs t q i j) (h' : IsLiteral p cs t q' i' j') : i = i' ∧ j = j' := by
  have hj := h.lt_length
  have hj' := h'.lt_length
  have hlt := h.lt
  have hlt' := h'.lt
  have hstart : i = i' :=
    Pos.eq_of_after_take (by omega) (by omega) (h.pos.symm.trans h'.pos)
  have hlength := congrArg String.length (h.text.symm.trans h'.text)
  simp only [String.length_ofList, List.length_take, List.length_drop] at hlength
  omega

theorem append_right (h : IsLiteral p cs t q i j) (ds : List Char) :
    IsLiteral p (cs ++ ds) t q i j := by
  have hj := h.lt_length
  have hlt := h.lt
  refine ⟨h.kind, h.quote, h.lt, ?_, ?_, ?_, ?_⟩
  · rw [List.getElem?_append_left (by omega), h.opening]
  · rw [List.getElem?_append_left hj, h.closing]
  · rw [h.text, List.drop_append_of_le_length (by omega), List.take_append_of_le_length]
    rw [List.length_drop]
    omega
  · rw [h.pos, List.take_append_of_le_length (by omega)]

theorem append_left (h : IsLiteral (p.after ds) cs t q i j) :
    IsLiteral p (ds ++ cs) t q (ds.length + i) (ds.length + j) := by
  refine ⟨h.kind, h.quote, Nat.add_lt_add_left h.lt _, ?_, ?_, ?_, ?_⟩
  · rw [List.getElem?_append_right (Nat.le_add_right _ _), Nat.add_sub_cancel_left, h.opening]
  · rw [List.getElem?_append_right (Nat.le_add_right _ _), Nat.add_sub_cancel_left, h.closing]
  · have hlength : ds.length + j + 1 - (ds.length + i) = j + 1 - i := by omega
    rw [h.text, List.drop_length_add_append, hlength]
  · rw [h.pos, List.take_length_add_append, Pos.after_append]

end IsLiteral

/-- The index lies strictly between the quotes of one of the tokens. -/
def Quoted (p : Pos) (cs : List Char) (ts : List Token) (k : Nat) : Prop :=
  ∃ t ∈ ts, ∃ q i j, IsLiteral p cs t q i j ∧ i < k ∧ k < j

/-- The text, the regions of its characters, the text masked and the tokens cut from it: they
agree on where the literals of the text begin and end. -/
structure Traced (p : Pos) (cs : List Char) (rs : List Region) (ms : List Char)
    (ts : List Token) : Prop where
  length_regions : rs.length = cs.length
  length_mask : ms.length = cs.length
  /-- A token is a literal in the other two readings. -/
  token : ∀ t ∈ ts, t.kind = .string → ∃ q i j, IsLiteral p cs t q i j ∧
    (∀ k, i < k → k ≤ j → rs[k]? = some (.literal q)) ∧ ∀ k, i < k → k < j → ms[k]? = some ' '
  /-- What belongs to a literal belongs to a token. -/
  region : ∀ k q, rs[k]? = some (.literal q) →
    ∃ t ∈ ts, ∃ i j, IsLiteral p cs t q i j ∧ i < k ∧ k ≤ j
  /-- What is masked stands between the quotes of a token. -/
  mask : ∀ k, ms[k]? = cs[k]? ∨ Quoted p cs ts k

namespace Traced

variable {p : Pos} {cs ds : List Char} {rs rs' : List Region} {ms ms' : List Char}
  {ts us : List Token}

theorem region_of_isLiteral (h : Traced p cs rs ms ts) {t : Token} (ht : t ∈ ts) {q : Char}
    {i j k : Nat} (hliteral : IsLiteral p cs t q i j) (hik : i < k) (hkj : k ≤ j) :
    rs[k]? = some (.literal q) := by
  obtain ⟨q', i', j', hliteral', hregion, -⟩ := h.token t ht hliteral.kind
  obtain ⟨rfl, rfl⟩ := hliteral.unique hliteral'
  obtain rfl : q = q' := Option.some.inj (hliteral.opening.symm.trans hliteral'.opening)
  exact hregion k hik hkj

theorem mask_of_quoted (h : Traced p cs rs ms ts) {k : Nat} (hk : Quoted p cs ts k) :
    ms[k]? = some ' ' := by
  obtain ⟨t, ht, q, i, j, hliteral, hik, hkj⟩ := hk
  obtain ⟨q', i', j', hliteral', -, hmask⟩ := h.token t ht hliteral.kind
  obtain ⟨rfl, rfl⟩ := hliteral.unique hliteral'
  exact hmask k hik hkj

/-- Two pieces of text, one behind the other. -/
theorem append (h : Traced p cs rs ms ts) (h' : Traced (p.after cs) ds rs' ms' us) :
    Traced p (cs ++ ds) (rs ++ rs') (ms ++ ms') (ts ++ us) where
  length_regions := by
    rw [List.length_append, List.length_append, h.length_regions, h'.length_regions]
  length_mask := by
    rw [List.length_append, List.length_append, h.length_mask, h'.length_mask]
  token t ht hkind := by
    rcases List.mem_append.mp ht with ht | ht
    · obtain ⟨q, i, j, hliteral, hregion, hmask⟩ := h.token t ht hkind
      have hj := hliteral.lt_length
      refine ⟨q, i, j, hliteral.append_right ds, ?_, ?_⟩
      · intro k hik hkj
        rw [List.getElem?_append_left (by rw [h.length_regions]; omega), hregion k hik hkj]
      · intro k hik hkj
        rw [List.getElem?_append_left (by rw [h.length_mask]; omega), hmask k hik hkj]
    · obtain ⟨q, i, j, hliteral, hregion, hmask⟩ := h'.token t ht hkind
      refine ⟨q, cs.length + i, cs.length + j, hliteral.append_left, ?_, ?_⟩
      · intro k hik hkj
        rw [List.getElem?_append_right (by rw [h.length_regions]; omega), h.length_regions]
        exact hregion _ (by omega) (by omega)
      · intro k hik hkj
        rw [List.getElem?_append_right (by rw [h.length_mask]; omega), h.length_mask]
        exact hmask _ (by omega) (by omega)
  region k q hk := by
    by_cases hlt : k < cs.length
    · rw [List.getElem?_append_left (by rwa [h.length_regions])] at hk
      obtain ⟨t, ht, i, j, hliteral, hik, hkj⟩ := h.region k q hk
      exact ⟨t, List.mem_append_left us ht, i, j, hliteral.append_right ds, hik, hkj⟩
    · rw [List.getElem?_append_right (by rw [h.length_regions]; omega), h.length_regions] at hk
      obtain ⟨t, ht, i, j, hliteral, hik, hkj⟩ := h'.region _ q hk
      exact ⟨t, List.mem_append_right ts ht, _, _, hliteral.append_left, by omega, by omega⟩
  mask k := by
    by_cases hlt : k < cs.length
    · rw [List.getElem?_append_left (by rwa [h.length_mask]), List.getElem?_append_left hlt]
      refine (h.mask k).imp_right ?_
      rintro ⟨t, ht, q, i, j, hliteral, hik, hkj⟩
      exact ⟨t, List.mem_append_left us ht, q, i, j, hliteral.append_right ds, hik, hkj⟩
    · rw [List.getElem?_append_right (by rw [h.length_mask]; omega), h.length_mask,
        List.getElem?_append_right (by omega)]
      refine (h'.mask (k - cs.length)).imp_right ?_
      rintro ⟨t, ht, q, i, j, hliteral, hik, hkj⟩
      exact ⟨t, List.mem_append_right ts ht, q, _, _, hliteral.append_left, by omega, by omega⟩

/-- A piece of code, of which no token is a literal. -/
theorem code (p : Pos) (cs : List Char) (h : ∀ t ∈ ts, t.kind ≠ .string) :
    Traced p cs (List.replicate cs.length .code) cs ts where
  length_regions := List.length_replicate
  length_mask := rfl
  token t ht hkind := absurd hkind (h t ht)
  region k q hk := by
    have hmem := List.mem_of_getElem? hk
    cases List.eq_of_mem_replicate hmem
  mask _ := .inl rfl

/-- One literal. -/
theorem literal (p : Pos) {q : Char} (hq : isQuote q = true) (body : List Char) :
    Traced p (q :: body ++ [q])
      (.code :: List.replicate (body.length + 1) (.literal q))
      (q :: List.replicate body.length ' ' ++ [q])
      [⟨.string, String.ofList (q :: body ++ [q]), p⟩] := by
  have hliteral : IsLiteral p (q :: body ++ [q]) ⟨.string, String.ofList (q :: body ++ [q]), p⟩ q 0
      (body.length + 1) := by
    refine ⟨rfl, hq, Nat.succ_pos _, rfl, ?_, ?_, rfl⟩
    · simp
    · rw [List.drop_zero, List.take_of_length_le (by simp)]
  have hmasked : ∀ k < body.length, (List.replicate body.length ' ' ++ [q])[k]? = some ' ' := by
    intro k hk
    rw [List.getElem?_append_left (by rwa [List.length_replicate]),
      List.getElem?_replicate_of_lt hk]
  constructor
  · simp
  · simp
  · intro t ht _
    obtain rfl := List.mem_singleton.mp ht
    refine ⟨q, 0, body.length + 1, hliteral, ?_, ?_⟩
    · rintro (- | k) hk hle
      · cases hk
      · exact List.getElem?_replicate_of_lt (by omega)
    · rintro (- | k) hk hlt
      · cases hk
      · exact hmasked k (by omega)
  · rintro (- | k) q' hk
    · cases hk
    · obtain ⟨hlt, hq'⟩ := List.getElem?_eq_some_iff.mp hk
      rw [List.length_cons, List.length_replicate] at hlt
      obtain rfl : q = q' := by simpa using hq'
      exact ⟨_, List.mem_singleton_self _, 0, body.length + 1, hliteral, by omega, by omega⟩
  · rintro (- | k)
    · exact .inl rfl
    · by_cases hk : k < body.length
      · exact .inr ⟨_, List.mem_singleton_self _, q, 0, body.length + 1, hliteral, by omega,
          by omega⟩
      · left
        rw [List.cons_append, List.cons_append, List.getElem?_cons_succ, List.getElem?_cons_succ,
          List.getElem?_append_right (by rw [List.length_replicate]; omega), List.length_replicate,
          List.getElem?_append_right (by omega)]

end Traced

/-- A token of kind string is a literal that is closed on its line. -/
theorem literalLength?_of_lexeme {c : Char} {cs : List Char} {n : Nat}
    (h : lexeme c cs = .ok (.string, n)) :
    isQuote c = true ∧ literalLength? c cs = some n := by
  have hquote : isQuote c = true := starts_of_lexeme h
  have hword : isWordStart c = false ∧ c.isDigit = false := by
    rcases eq_of_isQuote hquote with rfl | rfl <;> decide
  unfold lexeme at h
  rw [hword.1, hword.2, hquote] at h
  refine ⟨hquote, ?_⟩
  cases hlength : literalLength? c cs with
  | none => simp [hlength] at h
  | some m => simpa [hlength] using h

/-- No token but a literal has a quote in it. -/
theorem isQuote_of_lexeme {c : Char} {cs : List Char} {kind : Kind} {n : Nat}
    (h : lexeme c cs = .ok (kind, n)) (hkind : kind ≠ .string) :
    ∀ d ∈ c :: cs.take n, isQuote d = false := by
  intro d hd
  apply (plain_of_isLexeme (isLexeme_of_lexeme h) hkind _).1
  rwa [String.toList_ofList]

/-- The three walks agree on a text that has no comments. -/
def Agree (p : Pos) (cs : List Char) (ts : List Token) : Prop :=
  Source.Uncommented cs → Traced p cs (regions .code cs) (maskChars none cs) ts

/-- A piece of code in front of a text. -/
theorem Agree.code {p : Pos} {cs ds : List Char} {ts us : List Token}
    (hcs : ∀ c ∈ cs, isQuote c = false) (hts : ∀ t ∈ ts, t.kind ≠ .string)
    (h : Agree (p.after cs) ds us) : Agree p (cs ++ ds) (ts ++ us) := by
  intro huncommented
  have hregions := huncommented.regions_append hcs
  rw [hregions, Source.maskChars_append hcs]
  apply (Traced.code p cs hts).append
  apply h
  intro r hr
  apply huncommented r
  rw [hregions]
  exact List.mem_append_right _ hr

/-- A literal in front of a text. -/
theorem Agree.literal {p : Pos} {q : Char} {cs : List Char} {n : Nat} {ts : List Token}
    (hlexeme : lexeme q cs = .ok (.string, n))
    (h : Agree (p.after (q :: cs.take n)) (cs.drop n) ts) :
    Agree p (q :: cs) (⟨.string, String.ofList (q :: cs.take n), p⟩ :: ts) := by
  intro huncommented
  obtain ⟨hquote, hlength⟩ := literalLength?_of_lexeme hlexeme
  obtain ⟨body, rest, rfl, rfl, hregions, hmask⟩ := Source.exists_closed hlength
  have hcut : body ++ q :: rest = (body ++ [q]) ++ rest := by simp
  have htake : (body ++ q :: rest).take (body.length + 1) = body ++ [q] := by
    rw [hcut, List.take_left' (by simp)]
  have hdrop : (body ++ q :: rest).drop (body.length + 1) = rest := by
    rw [hcut, List.drop_left' (by simp)]
  rw [htake, hdrop] at h
  have hall : regions .code (q :: (body ++ q :: rest)) =
      .code :: List.replicate (body.length + 1) (.literal q) ++ regions .code rest := by
    rw [huncommented.regions_eq, if_pos hquote, hregions]
    rfl
  have hmasked : maskChars none (q :: (body ++ q :: rest)) =
      (q :: List.replicate body.length ' ' ++ [q]) ++ maskChars none rest := by
    rw [maskChars, if_pos hquote, hmask]
    simp
  rw [hall, hmasked, htake, hcut]
  apply (Traced.literal p hquote body).append
  apply h
  intro r hr
  apply huncommented r
  rw [hall]
  exact List.mem_append_right _ hr

/-- The three walks agree on every text that can be cut into tokens. -/
theorem scan_agree {p : Pos} {cs : List Char} {ts : List Token} (h : scan p cs = .ok ts) :
    Agree p cs ts := by
  induction h using scan_induction with
  | ends p =>
    intro _
    exact .code p [] (by simp [eof])
  | space p c cs ts hspace h ih =>
    have hplain : ∀ d ∈ [c], isQuote d = false := by
      intro d hd
      obtain rfl := List.mem_singleton.mp hd
      exact isQuote_of_isSpace hspace
    have hnone : ∀ t ∈ ([] : List Token), t.kind ≠ .string := by simp
    exact Agree.code hplain hnone ih
  | token p c cs ts kind n hlexeme h ih =>
    by_cases hkind : kind = .string
    · subst hkind
      exact Agree.literal hlexeme ih
    · have hcut : c :: cs = c :: cs.take n ++ cs.drop n := by
        rw [List.cons_append, List.take_append_drop]
      have hother : ∀ t ∈ [(⟨kind, String.ofList (c :: cs.take n), p⟩ : Token)],
          t.kind ≠ .string := by
        simpa using hkind
      rw [hcut]
      exact Agree.code (isQuote_of_lexeme hlexeme hkind) hother ih

/-- What looks like the beginning of a comment stands between the quotes of a token. -/
theorem Traced.quoted_of_opener {p : Pos} {cs ms : List Char} {ts : List Token}
    (h : Traced p cs (regions .code cs) ms ts) (huncommented : Source.Uncommented cs) {k : Nat}
    {d : Char} (hk : cs[k]? = some '/') (hd : cs[k + 1]? = some d) (hopens : d = '/' ∨ d = '*') :
    Quoted p cs ts k ∧ Quoted p cs ts (k + 1) := by
  have hlt : k < (regions .code cs).length := by
    rw [h.length_regions]
    exact (List.getElem?_eq_some_iff.mp hk).1
  have hr := List.getElem?_eq_getElem hlt
  have hcode := Source.regions_ne_code (r := .code) hk hd hopens
  have hcomment := huncommented _ (List.mem_of_getElem? hr)
  cases hregion : (regions .code cs)[k] with
  | code => exact absurd (hr.trans (congrArg some hregion)) hcode
  | lineComment | blockComment =>
    rw [hregion] at hcomment
    cases hcomment
  | literal q =>
    rw [hregion] at hr
    obtain ⟨t, ht, i, j, hliteral, hik, hkj⟩ := h.region k q hr
    have hquote := hliteral.quote
    -- Neither of the two characters is the closing quote.
    have hne : k ≠ j := by
      rintro rfl
      obtain rfl := Option.some.inj (hk.symm.trans hliteral.closing)
      cases hquote
    have hne' : k + 1 ≠ j := by
      rintro rfl
      obtain rfl := Option.some.inj (hd.symm.trans hliteral.closing)
      rcases hopens with rfl | rfl <;> cases hquote
    exact ⟨⟨t, ht, q, i, j, hliteral, hik, by omega⟩,
      ⟨t, ht, q, i, j, hliteral, by omega, by omega⟩⟩

end Token

open Source (regions expandTabs unifyLineEnds maskLiterals)

/-- The literals of a source in its normal form: the tokens have them, they are what is
masked, and they are what comments are not looked for in. -/
structure LiteralsAgree (source : String) (tokens : List Token) : Prop where
  /-- A token of kind string is a piece of the text between two quotes of one sort. -/
  token : ∀ t ∈ tokens, t.kind = .string →
    ∃ q i j, Token.IsLiteral .start (Source.normalize source).toList t q i j
  /-- Every character between the quotes is masked. -/
  masked : ∀ k, Token.Quoted .start (Source.normalize source).toList tokens k →
    (maskLiterals (Source.normalize source)).toList[k]? = some ' '
  /-- All others stay. -/
  unmasked : ∀ k, ¬ Token.Quoted .start (Source.normalize source).toList tokens k →
    (maskLiterals (Source.normalize source)).toList[k]? = (Source.normalize source).toList[k]?
  /-- What looks like the beginning of a comment stands between quotes, with both of its
  characters. -/
  comment : ∀ k d, (Source.normalize source).toList[k]? = some '/' →
    (Source.normalize source).toList[k + 1]? = some d → d = '/' ∨ d = '*' →
    Token.Quoted .start (Source.normalize source).toList tokens k ∧
      Token.Quoted .start (Source.normalize source).toList tokens (k + 1)
  /-- When comments were looked for, the literals went from behind the opening quote of a
  token to its closing quote. -/
  region : ∀ k q, (regions .code (expandTabs (unifyLineEnds source.toList)))[k]? =
      some (.literal q) ↔
    ∃ t ∈ tokens, ∃ i j, Token.IsLiteral .start (Source.normalize source).toList t q i j ∧
      i < k ∧ k ≤ j

/-- Wherever the text can be cut into tokens, the three walks agree on its literals. -/
theorem literalsAgree_of_tokenize {source : String} {tokens : List Token}
    (h : tokenize (Source.normalize source) = .ok tokens) : LiteralsAgree source tokens := by
  have hnormal : (Source.normalize source).toList = Source.normalChars source.toList :=
    String.toList_ofList
  have huncommented : Source.Uncommented (Source.normalize source).toList := by
    rw [hnormal]
    exact Source.uncommented_normalChars _
  have htraced := Token.scan_agree h huncommented
  have hmask : (maskLiterals (Source.normalize source)).toList =
      Source.maskChars none (Source.normalize source).toList := String.toList_ofList
  refine ⟨?_, ?_, ?_, ?_, ?_⟩
  · intro t ht hkind
    obtain ⟨q, i, j, hliteral, -, -⟩ := htraced.token t ht hkind
    exact ⟨q, i, j, hliteral⟩
  · intro k hk
    rw [hmask]
    exact htraced.mask_of_quoted hk
  · intro k hk
    rw [hmask]
    exact (htraced.mask k).resolve_right hk
  · intro k d
    exact htraced.quoted_of_opener huncommented
  · intro k q
    have hsame : (regions .code (Source.normalize source).toList)[k]? = some (.literal q) ↔
        (regions .code (expandTabs (unifyLineEnds source.toList)))[k]? = some (.literal q) := by
      rw [hnormal, Source.regions_normalChars, List.getElem?_map, Option.map_eq_some_iff]
      simp [Source.Region.settled_eq_literal]
    rw [← hsame]
    constructor
    · exact htraced.region k q
    · rintro ⟨t, ht, i, j, hliteral, hik, hkj⟩
      exact htraced.region_of_isLiteral ht hliteral hik hkj

/-- Literals of both sorts with the other quote, an escaped quote and comments in them,
comments with quotes in them, and a tab. -/
def quarrelingSource : String :=
  "\ts = \"a//\\\"/*'\"; // it's \"\nc = '\"'; /* ' */ d = c / 2;"

/-- The tokens of its normal form. -/
def quarrelingTokens : List Token :=
  [⟨.identifier, "s", ⟨1, 3⟩⟩, ⟨.operator, "=", ⟨1, 5⟩⟩,
    ⟨.string, "\"a//\\\"/*'\"", ⟨1, 7⟩⟩, ⟨.semicolon, ";", ⟨1, 17⟩⟩,
    ⟨.identifier, "c", ⟨2, 1⟩⟩, ⟨.operator, "=", ⟨2, 3⟩⟩, ⟨.string, "'\"'", ⟨2, 5⟩⟩,
    ⟨.semicolon, ";", ⟨2, 8⟩⟩, ⟨.identifier, "d", ⟨2, 18⟩⟩, ⟨.operator, "=", ⟨2, 20⟩⟩,
    ⟨.identifier, "c", ⟨2, 22⟩⟩, ⟨.operator, "/", ⟨2, 24⟩⟩, ⟨.number, "2", ⟨2, 26⟩⟩,
    ⟨.semicolon, ";", ⟨2, 27⟩⟩, ⟨.eof, "", ⟨2, 28⟩⟩]

theorem tokenize_quarrelingSource :
    tokenize (Source.normalize quarrelingSource) = .ok quarrelingTokens :=
  tokenize_of_toOption (by decide +kernel)

theorem literalsAgree_quarrelingSource :
    tokenize (Source.normalize quarrelingSource) = .ok quarrelingTokens ∧
      LiteralsAgree quarrelingSource quarrelingTokens :=
  ⟨tokenize_quarrelingSource, literalsAgree_of_tokenize tokenize_quarrelingSource⟩

end Pseudocode
