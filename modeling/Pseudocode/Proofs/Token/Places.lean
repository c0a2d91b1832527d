import Pseudocode.Proofs.Token.Scanning
set_option autoImplicit false

/-!
# Where tokens stand

Every token of a text stands where it says: its characters are found there.  The last
one, `eof`, stands behind the text.  If a text cannot be cut, everything before the
position of the failure can be cut by itself, and the failure is that of the character at
that position.
-/

namespace Pseudocode

namespace Pos

/-- The first position comes before the second one in a text. -/
def Before (p q : Pos) : Prop :=
  p.line < q.line ∨ p.line = q.line ∧ p.column < q.column

instance (p q : Pos) : Decidable (p.Before q) :=
  inferInstanceAs (Decidable (_ ∨ _))

theorem before_next (p : Pos) (c : Char) : p.Before (p.next c) := by
  unfold next
  split
  · exact .inl (Nat.lt_succ_self _)
  · exact .inr ⟨rfl, Nat.lt_succ_self _⟩

theorem Before.trans {p q r : Pos} (h : p.Before q) (h' : q.Before r) : p.Before r := by
  unfold Before at *
  omega

theorem Before.asymm {p q : Pos} (h : p.Before q) : ¬ q.Before p := by
  unfold Before at *
  omega

theorem Before.ne {p q : Pos} (h : p.Before q) : p ≠ q := by
  rintro rfl
  unfold Before at h
  omega

/-- Every character moves on. -/
theorem before_after (p : Pos) (c : Char) (cs : List Char) : p.Before (p.after (c :: cs)) := by
  induction cs generalizing p c with
  | nil => exact p.before_next c
  | cons d cs ih => exact (p.before_next c).trans (ih (p.next c) d)

/-- A position further on in a text comes later. -/
theorem before_of_lt {p : Pos} {cs : List Char} {i j : Nat} (hij : i < j) (hj : j ≤ cs.length) :
    (p.after (cs.take i)).Before (p.after (cs.take j)) := by
  have hcut : cs.take j = cs.take i ++ (cs.drop i).take (j - i) := by
    rw [← List.take_add, Nat.add_sub_cancel' (Nat.le_of_lt hij)]
  obtain ⟨c, ds, hmore⟩ : ∃ c ds, (cs.drop i).take (j - i) = c :: ds := by
    apply List.exists_cons_of_ne_nil
    intro hnil
    have hlength := congrArg List.length hnil
    rw [List.length_take, List.length_drop, List.length_nil] at hlength
    omega
  rw [hcut, hmore, after_append]
  exact before_after _ c ds

/-- A position in a text belongs to one index only. -/
theorem eq_of_after_take {p : Pos} {cs : List Char} {i j : Nat} (hi : i ≤ cs.length)
    (hj : j ≤ cs.length) (h : p.after (cs.take i) = p.after (cs.take j)) : i = j := by
  rcases Nat.lt_trichotomy i j with hij | hij | hij
  · exact absurd h (before_of_lt hij hj).ne
  · exact hij
  · exact absurd h.symm (before_of_lt hij hi).ne

end Pos

namespace Token

theorem kind_ne_eof_of_lexeme {c : Char} {cs : List Char} {kind : Kind} {n : Nat}
    (h : lexeme c cs = .ok (kind, n)) : kind ≠ .eof := by
  rintro rfl
  cases starts_of_lexeme h

/-- The token stands in the text that starts at position `p`: at the end, or where its
characters are. -/
inductive Stands (p : Pos) (cs : List Char) (t : Token) : Prop where
  | atEnd (hkind : t.kind = .eof) (hpos : t.pos = p.after cs)
  | inside (front : List Char) (c : Char) (body rest : List Char)
      (hcs : cs = front ++ c :: body ++ rest) (htext : t.text = String.ofList (c :: body))
      (hpos : t.pos = p.after front) (hspace : isSpace c = false) (hkind : t.kind ≠ .eof)

/-- A token that stands in a text stands in every text that goes on to it. -/
theorem Stands.append {p : Pos} {cs : List Char} {t : Token} (ds : List Char)
    (h : Stands (p.after ds) cs t) : Stands p (ds ++ cs) t := by
  cases h with
  | atEnd hkind hpos => exact .atEnd hkind (by rw [hpos, Pos.after_append])
  | inside front c body rest hcs htext hpos hspace hkind =>
    apply Stands.inside (ds ++ front) c body rest _ htext _ hspace hkind
    · rw [hcs]
      simp only [List.append_assoc]
    · rw [hpos, Pos.after_append]

theorem scan_stands {p : Pos} {cs : List Char} {ts : List Token} (h : scan p cs = .ok ts)
    {t : Token} (ht : t ∈ ts) : Stands p cs t := by
  induction h using scan_induction with
  | ends p =>
    obtain rfl := List.mem_singleton.mp ht
    exact .atEnd rfl rfl
  | space p c cs ts hspace h ih => exact (ih ht).append [c]
  | token p c cs ts kind n hlexeme h ih =>
    have hcut : c :: cs = c :: cs.take n ++ cs.drop n := by
      rw [List.cons_append, List.take_append_drop]
    rcases List.mem_cons.mp ht with rfl | ht
    · exact .inside [] c (cs.take n) (cs.drop n) hcut rfl rfl (isSpace_of_lexeme hlexeme)
        (kind_ne_eof_of_lexeme hlexeme)
    · rw [hcut]
      exact (ih ht).append (c :: cs.take n)

/-! ## The part of a text before a failure -/

/-- A run that ends within the first characters is the run of these characters. -/
theorem takeWhile_take {α : Type} {q : α → Bool} {xs : List α} {m : Nat}
    (h : (xs.takeWhile q).length ≤ m) : (xs.take m).takeWhile q = xs.takeWhile q := by
  rw [← List.take_takeWhile, List.take_of_length_le h]

theorem numberLength_take {cs : List Char} {m : Nat} (h : numberLength cs ≤ m) :
    numberLength (cs.take m) = numberLength cs := by
  have hdigits : digitCount cs ≤ numberLength cs := by
    unfold numberLength
    split <;> omega
  have hcount : digitCount (cs.take m) = digitCount cs := by
    rw [digitCount, takeWhile_take (Nat.le_trans hdigits h), digitCount]
  unfold numberLength at h ⊢
  rw [hcount, List.drop_take]
  cases hrest : cs.drop (digitCount cs) with
  | nil => simp
  | cons d rest =>
    by_cases hd : d = '.'
    · subst hd
      simp only [hrest] at h
      have hmore : m - digitCount cs = m - digitCount cs - 1 + 1 := by omega
      rw [hmore, List.take_succ_cons]
      simp only [Nat.add_left_cancel_iff]
      rw [digitCount, takeWhile_take, digitCount]
      unfold digitCount at h ⊢
      omega
    · cases hm : m - digitCount cs with
      | zero => simp [hd]
      | succ k => simp [hd]

/-- A token needs no more of the text than its own characters. -/
theorem lexeme_take {c : Char} {cs : List Char} {kind : Kind} {n m : Nat}
    (h : lexeme c cs = .ok (kind, n)) (hm : n ≤ m) : lexeme c (cs.take m) = .ok (kind, n) := by
  unfold lexeme at h ⊢
  split at h
  · rename_i hword
    cases h
    rw [if_pos hword, takeWhile_take hm]
  rename_i hword
  rw [if_neg hword]
  split at h
  · rename_i hdigit
    cases h
    rw [if_pos hdigit, numberLength_take hm]
  rename_i hdigit
  rw [if_neg hdigit]
  split at h
  · rename_i hquote
    cases hlen : literalLength? c cs with
    | none => simp [hlen] at h
    | some k =>
      simp only [hlen] at h
      cases h
      obtain ⟨body, rest, rfl, rfl, hliteral⟩ := exists_literal hlen
      rw [if_pos hquote, List.take_append, List.take_of_length_le hm, hliteral]
  rename_i hquote
  rw [if_neg hquote]
  split at h
  · rename_i hpair
    cases h
    have hhead : (cs.take m).head? = cs.head? := by rw [List.head?_take, if_neg (by omega)]
    rw [hhead, if_pos hpair]
  · rename_i hpair
    rw [if_neg]
    · exact h
    · rw [List.head?_take]
      split
      · simp
      · exact hpair

theorem lexeme_length_le {c : Char} {cs : List Char} {kind : Kind} {n : Nat}
    (h : lexeme c cs = .ok (kind, n)) : n ≤ cs.length := by
  obtain ⟨body, rest, rfl, rfl, -⟩ := exists_lexeme h
  rw [List.length_append]
  omega

/-- Cutting the text from position `p` on, the scan has found the tokens when it comes to
position `q`, with the characters `rest` still to be cut. -/
inductive Finds : Pos → List Char → List Token → Pos → List Char → Prop where
  | here {p : Pos} {cs : List Char} : Finds p cs [] p cs
  | space {p q : Pos} {c : Char} {cs rest : List Char} {found : List Token}
      (hspace : isSpace c = true) (hrest : Finds (p.next c) cs found q rest) :
      Finds p (c :: cs) found q rest
  | token {p q : Pos} {c : Char} {cs rest : List Char} {found : List Token} {kind : Kind} {n : Nat}
      (hlexeme : lexeme c cs = .ok (kind, n))
      (hrest : Finds (p.after (c :: cs.take n)) (cs.drop n) found q rest) :
      Finds p (c :: cs) (⟨kind, String.ofList (c :: cs.take n), p⟩ :: found) q rest

/-- The scan fails behind the tokens found so far. -/
theorem finds_of_scan_error {p : Pos} {cs : List Char} {e : LexicalError}
    (h : scan p cs = .error e) :
    ∃ found c rest, Finds p cs found e.pos (c :: rest) ∧ isSpace c = false ∧
      lexeme c rest = .error e.reason := by
  fun_induction scan p cs with
  | case1 => cases h
  | case2 p c cs hspace ih =>
    obtain ⟨found, d, rest, hfinds, hd, herror⟩ := ih h
    exact ⟨found, d, rest, .space hspace hfinds, hd, herror⟩
  | case3 p c cs hspace reason hlexeme =>
    cases h
    exact ⟨[], c, cs, .here, by simpa using hspace, hlexeme⟩
  | case4 p c cs hspace kind n hlexeme e' herror ih =>
    cases h
    obtain ⟨found, d, rest, hfinds, hd, herror'⟩ := ih herror
    exact ⟨_, d, rest, .token hlexeme hfinds, hd, herror'⟩
  | case5 => cases h

/-- The characters before a place that the scan comes to are cut into the tokens found so far. -/
theorem Finds.scan_front {p q : Pos} {cs rest : List Char} {found : List Token}
    (h : Finds p cs found q rest) :
    ∃ front, cs = front ++ rest ∧ q = p.after front ∧ scan p front = .ok (found ++ [eof q]) := by
  induction h with
  | here => exact ⟨[], rfl, rfl, by rw [scan]; rfl⟩
  | @space p q c cs rest found hspace _ ih =>
    obtain ⟨front, rfl, hq, hscan⟩ := ih
    exact ⟨c :: front, rfl, hq, by rw [scan_space hspace, hscan]⟩
  | @token p q c cs rest found kind n hlexeme _ ih =>
    obtain ⟨front, hdrop, rfl, hscan⟩ := ih
    have hlength : (cs.take n).length = n := List.length_take_of_le (lexeme_length_le hlexeme)
    have hfront : cs.take (n + front.length) = cs.take n ++ front := by
      rw [List.take_add, hdrop, List.take_left]
    have hagain := lexeme_take hlexeme (Nat.le_add_right n front.length)
    rw [hfront] at hagain
    refine ⟨c :: cs.take n ++ front, ?_, by rw [Pos.after_append], ?_⟩
    · rw [List.append_assoc, ← hdrop, List.cons_append, List.take_append_drop]
    · rw [List.cons_append, scan_lexeme hagain, List.take_left' hlength, List.drop_left' hlength,
        hscan]
      rfl

/-- A text that cannot be cut into tokens: what comes before the failure can be, and the
character at the position of the failure starts no token. -/
theorem scan_error {p : Pos} {cs : List Char} {e : LexicalError} (h : scan p cs = .error e) :
    ∃ front c rest, cs = front ++ c :: rest ∧ e.pos = p.after front ∧ isSpace c = false ∧
      lexeme c rest = .error e.reason ∧ ∃ ts, scan p front = .ok ts := by
  obtain ⟨found, c, rest, hfinds, hc, hlexeme⟩ := finds_of_scan_error h
  obtain ⟨front, hcs, hpos, hscan⟩ := hfinds.scan_front
  exact ⟨front, c, rest, hcs, hpos, hc, hlexeme, _, hscan⟩

/-- The characters that start no token: one that nothing starts with, and the quote of a
literal that is not closed on its line. -/
theorem lexeme_error {c : Char} {cs : List Char} {reason : LexicalError.Reason}
    (h : lexeme c cs = .error reason) :
    reason = .unsupportedCharacter c ∨
      reason = .unterminatedLiteral ∧ Source.isQuote c = true ∧ literalLength? c cs = none := by
  unfold lexeme at h
  split at h
  · cases h
  split at h
  · cases h
  split at h
  · rename_i hquote
    cases hlen : literalLength? c cs with
    | none =>
      simp only [hlen] at h
      cases h
      exact .inr ⟨rfl, hquote, rfl⟩
    | some n => simp [hlen] at h
  split at h
  · cases h
  · cases hkind : signs.lookup c with
    | none =>
      simp only [hkind] at h
      cases h
      exact .inl rfl
    | some kind => simp [hkind] at h

end Token

end Pseudocode
