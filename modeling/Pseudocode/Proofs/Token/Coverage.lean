import Pseudocode.Proofs.Source.Location
import Pseudocode.Proofs.Token.Places
set_option autoImplicit false

/-!
# Cutting loses nothing

The tokens of a text and the white space between them are the text.  Every token is a slice
of it, found at the line and the column that the token names; slices come one behind the
other; and a character that belongs to none of them is white space.

A text is put together of pieces: white space, and the characters of one token.  What holds
of two pieces holds of the one behind the other (`Covered.append`), and so of the text.
-/

namespace Pseudocode

namespace Pos

/-- The position of the character with index `i`: its line is one more than the line feeds
before it, its column one more than the characters since the last of them. -/
def ofIndex (cs : List Char) (i : Nat) : Pos :=
  ⟨(cs.take i).count '\n' + 1, ((cs.take i).reverse.takeWhile (· ≠ '\n')).length + 1⟩

/-- Walking along a text leads to the position that counting gives. -/
theorem after_take_eq (cs : List Char) (i : Nat) : start.after (cs.take i) = ofIndex cs i := by
  have hafter : ∀ ds : List Char, start.after ds =
      ⟨ds.count '\n' + 1, (ds.reverse.takeWhile (· ≠ '\n')).length + 1⟩ := by
    intro ds
    induction ds using List.reverseRecOn with
    | nil => rfl
    | append_singleton ds c ih =>
      rw [after_concat, ih, List.count_append, List.reverse_append, List.reverse_singleton,
        List.singleton_append]
      by_cases hc : c = '\n'
      · subst hc
        simp [next_newline]
      · simp [next_of_ne _ hc, hc]
  exact hafter (cs.take i)

end Pos

namespace Token

/-! ## Slices -/

/-- In the text that starts at position `p`, the token is the slice from index `i` on. -/
structure Fills (p : Pos) (cs : List Char) (t : Token) (i : Nat) : Prop where
  pos : t.pos = p.after (cs.take i)
  le : i + t.text.length ≤ cs.length
  text : t.text.toList = (cs.drop i).take t.text.length

namespace Fills

variable {p : Pos} {cs ds : List Char} {t : Token} {i : Nat}

theorem append_right (h : Fills p cs t i) (ds : List Char) : Fills p (cs ++ ds) t i := by
  have hle := h.le
  refine ⟨?_, ?_, ?_⟩
  · rw [h.pos, List.take_append_of_le_length (by omega)]
  · rw [List.length_append]
    omega
  · rw [List.drop_append_of_le_length (by omega), List.take_append_of_le_length]
    · exact h.text
    · rw [List.length_drop]
      omega

theorem append_left (h : Fills (p.after ds) cs t i) : Fills p (ds ++ cs) t (ds.length + i) := by
  have hle := h.le
  refine ⟨?_, ?_, ?_⟩
  · rw [h.pos, List.take_length_add_append, Pos.after_append]
  · rw [List.length_append]
    omega
  · rw [List.drop_length_add_append]
    exact h.text

/-- A token of its own characters. -/
theorem self (p : Pos) (kind : Kind) (cs : List Char) :
    Fills p cs ⟨kind, String.ofList cs, p⟩ 0 := by
  refine ⟨rfl, ?_, ?_⟩ <;> simp

end Fills

/-! ## Pieces of a text -/

/-- The tokens are slices of the text, one behind the other, and what is left of the text is
white space. -/
structure Covered (p : Pos) (cs : List Char) (ts : List Token) : Prop where
  slice : ∀ t ∈ ts, ∃ i, Fills p cs t i
  apart : ts.Pairwise fun t u =>
    t.text ≠ "" ∧ ∃ i j, Fills p cs t i ∧ Fills p cs u j ∧ i + t.text.length ≤ j
  blank : ∀ k c, cs[k]? = some c →
    (∃ t ∈ ts, ∃ i, Fills p cs t i ∧ i ≤ k ∧ k < i + t.text.length) ∨ isSpace c = true

namespace Covered

variable {p : Pos} {cs ds : List Char} {ts us : List Token}

/-- The tokens stand in the order of the text. -/
theorem ordered (h : Covered p cs ts) : ts.Pairwise fun t u => t.pos.Before u.pos := by
  refine h.apart.imp ?_
  rintro t u ⟨ht, i, j, hi, hj, hle⟩
  have hpos : t.text.length ≠ 0 := by
    rwa [Ne, String.length_eq_zero_iff]
  have hend := hj.le
  rw [hi.pos, hj.pos]
  exact Pos.before_of_lt (by omega) (by omega)

/-- Two pieces, one behind the other. -/
theorem append (h : Covered p cs ts) (hts : ∀ t ∈ ts, t.text ≠ "")
    (h' : Covered (p.after cs) ds us) : Covered p (cs ++ ds) (ts ++ us) where
  slice t ht := by
    rcases List.mem_append.mp ht with ht | ht
    · obtain ⟨i, hi⟩ := h.slice t ht
      exact ⟨i, hi.append_right ds⟩
    · obtain ⟨i, hi⟩ := h'.slice t ht
      exact ⟨_, hi.append_left⟩
  apart := by
    refine List.pairwise_append.mpr ⟨h.apart.imp ?_, h'.apart.imp ?_, ?_⟩
    · rintro t u ⟨ht, i, j, hi, hj, hle⟩
      exact ⟨ht, i, j, hi.append_right ds, hj.append_right ds, hle⟩
    · rintro t u ⟨ht, i, j, hi, hj, hle⟩
      exact ⟨ht, _, _, hi.append_left, hj.append_left, by omega⟩
    · intro t ht u hu
      obtain ⟨i, hi⟩ := h.slice t ht
      obtain ⟨j, hj⟩ := h'.slice u hu
      have hle := hi.le
      exact ⟨hts t ht, _, _, hi.append_right ds, hj.append_left, by omega⟩
  blank k c hk := by
    by_cases hlt : k < cs.length
    · rw [List.getElem?_append_left hlt] at hk
      refine (h.blank k c hk).imp_left ?_
      rintro ⟨t, ht, i, hi, hik, hki⟩
      exact ⟨t, List.mem_append_left us ht, i, hi.append_right ds, hik, hki⟩
    · rw [List.getElem?_append_right (by omega)] at hk
      refine (h'.blank _ c hk).imp_left ?_
      rintro ⟨t, ht, i, hi, hik, hki⟩
      exact ⟨t, List.mem_append_right ts ht, _, hi.append_left, by omega, by omega⟩

/-- White space. -/
theorem space (p : Pos) {c : Char} (h : isSpace c = true) : Covered p [c] [] where
  slice t ht := by cases ht
  apart := .nil
  blank k d hk := by
    obtain rfl := List.mem_singleton.mp (List.mem_of_getElem? hk)
    exact .inr h

/-- The characters of one token. -/
theorem token (p : Pos) (kind : Kind) (cs : List Char) :
    Covered p cs [⟨kind, String.ofList cs, p⟩] where
  slice t ht := by
    obtain rfl := List.mem_singleton.mp ht
    exact ⟨0, .self p kind cs⟩
  apart := List.pairwise_singleton _ _
  blank k c hk := by
    have hlt := (List.getElem?_eq_some_iff.mp hk).1
    refine .inl ⟨_, List.mem_singleton_self _, 0, .self p kind cs, Nat.zero_le k, ?_⟩
    simpa using hlt

end Covered

/-! ## Whole texts -/

theorem scan_covered {p : Pos} {cs : List Char} {ts : List Token} (h : scan p cs = .ok ts) :
    Covered p cs ts := by
  induction h using scan_induction with
  | ends p => exact .token p .eof []
  | space p c cs ts hspace h ih => exact (Covered.space p hspace).append (by simp) ih
  | token p c cs ts kind n hlexeme h ih =>
    have hpiece := (Covered.token p kind (c :: cs.take n)).append (by simp) ih
    rwa [List.cons_append, List.take_append_drop] at hpiece

/-- There is one `eof`, behind the text, and it is the last token. -/
theorem scan_ends {p : Pos} {cs : List Char} {ts : List Token} (h : scan p cs = .ok ts) :
    ∃ front, ts = front ++ [eof (p.after cs)] ∧ ∀ t ∈ front, t.kind ≠ .eof := by
  induction h using scan_induction with
  | ends p => exact ⟨[], rfl, by simp⟩
  | space p c cs ts hspace h ih => exact ih
  | token p c cs ts kind n hlexeme h ih =>
    obtain ⟨front, rfl, hfront⟩ := ih
    refine ⟨⟨kind, String.ofList (c :: cs.take n), p⟩ :: front, ?_, ?_⟩
    · rw [← Pos.after_append, List.cons_append, List.take_append_drop, List.cons_append]
    · intro t ht
      rcases List.mem_cons.mp ht with rfl | ht
      · exact kind_ne_eof_of_lexeme hlexeme
      · exact hfront t ht

theorem text_ne_of_scan {p : Pos} {cs : List Char} {ts : List Token} (h : scan p cs = .ok ts)
    {t : Token} (ht : t ∈ ts) (hkind : t.kind ≠ .eof) : t.text ≠ "" := by
  cases scan_stands h ht with
  | atEnd heof => exact absurd heof hkind
  | inside front c body rest hcs htext =>
    rw [htext]
    simp

/-- The token is the slice of the text from index `i` on, and its position is that of the
character with this index. -/
structure Occupies (text : String) (t : Token) (i : Nat) : Prop where
  pos : t.pos = Pos.ofIndex text.toList i
  le : i + t.text.length ≤ text.length
  slice : t.text.toList = (text.toList.drop i).take t.text.length

theorem Fills.occupies {text : String} {t : Token} {i : Nat} (h : Fills .start text.toList t i) :
    Occupies text t i :=
  ⟨h.pos.trans (Pos.after_take_eq _ i), h.le, h.text⟩

/-- The tokens account for every character of the text. -/
structure Account (text : String) (tokens : List Token) : Prop where
  /-- Lines and columns increase from token to token. -/
  ordered : tokens.Pairwise fun t u => t.pos.Before u.pos
  /-- A token is a slice of the text and stands where it says. -/
  slice : ∀ t ∈ tokens, t.kind ≠ .eof → t.text ≠ "" ∧ ∃ i, Occupies text t i
  /-- Slices do not overlap. -/
  apart : tokens.Pairwise fun t u =>
    ∃ i j, Occupies text t i ∧ Occupies text u j ∧ i + t.text.length ≤ j
  /-- Whatever belongs to no slice is white space. -/
  blank : ∀ k c, text.toList[k]? = some c →
    (¬ ∃ t ∈ tokens, ∃ i, Occupies text t i ∧ i ≤ k ∧ k < i + t.text.length) →
    c ∈ ['\n', ' ', '\r', '\x0c', '\t']
  /-- The end is told once, by a token without text just past the last character. -/
  ends : ∃ front, tokens = front ++ [⟨.eof, "", Pos.ofIndex text.toList text.length⟩] ∧
    ∀ t ∈ front, t.kind ≠ .eof

end Token

/-- **Cutting loses nothing.**  The tokens of a text are its slices in their order, with
nothing but white space between them, and `eof` behind them. -/
theorem tokenize_accounts {text : String} {tokens : List Token} (h : tokenize text = .ok tokens) :
    Token.Account text tokens := by
  have hcovered := Token.scan_covered h
  refine ⟨hcovered.ordered, ?_, ?_, ?_, ?_⟩
  · intro t ht hkind
    obtain ⟨i, hi⟩ := hcovered.slice t ht
    exact ⟨Token.text_ne_of_scan h ht hkind, i, hi.occupies⟩
  · refine hcovered.apart.imp ?_
    rintro t u ⟨-, i, j, hi, hj, hle⟩
    exact ⟨i, j, hi.occupies, hj.occupies, hle⟩
  · intro k c hk hnone
    rcases hcovered.blank k c hk with ⟨t, ht, i, hi, hik, hki⟩ | hspace
    · exact absurd ⟨t, ht, i, hi.occupies, hik, hki⟩ hnone
    · rcases Token.eq_of_isSpace hspace with rfl | rfl | rfl | rfl | rfl <;> simp
  · obtain ⟨front, hfront, hkinds⟩ := Token.scan_ends h
    refine ⟨front, ?_, hkinds⟩
    rw [hfront, Token.eof, ← Pos.after_take_eq, ← String.length_toList, List.take_length]

/-- All five sorts of white space, a number that ends with its point, a word with a digit, an
escaped quote, and operators of two characters and of one. -/
def crampedText : String :=
  "a1\t+=\r1.;\n\x0c'\\''> b"

/-- The tokens of this text. -/
def crampedTokens : List Token :=
  [⟨.identifier, "a1", ⟨1, 1⟩⟩, ⟨.operator, "+=", ⟨1, 4⟩⟩, ⟨.number, "1.", ⟨1, 7⟩⟩,
    ⟨.semicolon, ";", ⟨1, 9⟩⟩, ⟨.string, "'\\''", ⟨2, 2⟩⟩, ⟨.operator, ">", ⟨2, 6⟩⟩,
    ⟨.identifier, "b", ⟨2, 8⟩⟩, ⟨.eof, "", ⟨2, 9⟩⟩]

theorem tokenize_crampedText : tokenize crampedText = .ok crampedTokens :=
  tokenize_of_toOption (by decide +kernel)

theorem tokenize_accounts_crampedText :
    tokenize crampedText = .ok crampedTokens ∧ Token.Account crampedText crampedTokens :=
  ⟨tokenize_crampedText, tokenize_accounts tokenize_crampedText⟩

end Pseudocode
