import Pseudocode.Proofs.Layout
import Pseudocode.Proofs.Token.Coverage
set_option autoImplicit false

/-!
# Tokens with single blanks between them

A text can be written again from its tokens, with one blank between each two of them and
nothing else.  The new text has the same tokens: every token is a lexeme by itself, whatever
stood before it, and a blank goes on with none.
-/

namespace Pseudocode

namespace Token

/-- The texts of the tokens, up to the end, with single blanks between them. -/
def respaced (ts : List Token) : String :=
  Text.join " " ((ts.filter fun t => t.kind ≠ .eof).map Token.text)

/-- Tokens that are the same once their places are forgotten have the same spellings. -/
theorem spelling_eq_of_unplaced {ts us : List Token} (h : unplaced ts = unplaced us) :
    ts.map spelling = us.map spelling := by
  have hspelling : ∀ vs : List Token, vs.map spelling = (unplaced vs).map spelling := by
    intro vs
    show vs.map spelling = (vs.map unplaced).map spelling
    rw [List.map_map]
    rfl
  calc ts.map spelling = (unplaced ts).map spelling := hspelling ts
    _ = (unplaced us).map spelling := by rw [h]
    _ = us.map spelling := (hspelling us).symm

/-- Lexemes with blanks between them are cut as they stand. -/
theorem scans_joined {ts : List Token} (h : ∀ t ∈ ts, isLexeme t.kind t.text = true) :
    Scans (· == ' ') (Text.join " " (ts.map Token.text)).toList (unplaced ts) := by
  induction ts with
  | nil => exact .nil
  | cons t ts ih =>
    have hfirst : Scans (· == ' ') t.text.toList [unplaced t] :=
      .lexeme_blank (h t List.mem_cons_self)
    cases ts with
    | nil => exact hfirst
    | cons u us =>
      have hrest := ih fun v hv => h v (List.mem_cons_of_mem t hv)
      have hboth := hfirst.spaced rfl hrest
      rw [List.map_cons, List.map_cons, Text.join_cons_cons]
      simpa using hboth

/-- All tokens of a text but the last one are lexemes. -/
theorem exists_lexemes {text : String} {tokens : List Token} (h : tokenize text = .ok tokens) :
    ∃ front p, tokens = front ++ [eof p] ∧ tokens.filter (fun t => t.kind ≠ .eof) = front ∧
      ∀ t ∈ front, isLexeme t.kind t.text = true := by
  obtain ⟨front, rfl, hfront⟩ := scan_ends h
  refine ⟨front, _, rfl, ?_, ?_⟩
  · rw [List.filter_append, List.filter_eq_self.mpr fun t ht => decide_eq_true (hfront t ht)]
    exact List.append_nil front
  · intro t ht
    exact Vocabulary.isLexeme_of_lexical (scan_admits h t (List.mem_append_left _ ht)) (hfront t ht)

end Token

/-- **Blanks.**  The tokens of a text, written with single blanks between them, are a text with
tokens of the same kinds and texts in the same order. -/
theorem tokenize_respaced {text : String} {tokens : List Token} (h : tokenize text = .ok tokens) :
    ∃ tokens', tokenize (Token.respaced tokens) = .ok tokens' ∧
      tokens'.map Token.spelling = tokens.map Token.spelling := by
  obtain ⟨front, p, htokens, hfront, hlexemes⟩ := Token.exists_lexemes h
  obtain ⟨tokens', htokens', hunplaced⟩ := (Token.scans_joined hlexemes).tokenize_eq
  refine ⟨tokens', ?_, Token.spelling_eq_of_unplaced ?_⟩
  · rw [Token.respaced, hfront, htokens']
  · rw [hunplaced, htokens]
    exact (move_append _ front [Token.eof p]).symm

/-- All sorts of tokens stand side by side in the cramped text: a number that ends with its
point, an escaped quote, operators of two characters and of one. -/
theorem tokenize_respaced_crampedText :
    tokenize crampedText = .ok crampedTokens ∧
      Token.respaced crampedTokens = "a1 += 1. ; '\\'' > b" ∧
      ∃ tokens', tokenize "a1 += 1. ; '\\'' > b" = .ok tokens' ∧
        tokens'.map Token.spelling = crampedTokens.map Token.spelling := by
  have hrespaced : Token.respaced crampedTokens = "a1 += 1. ; '\\'' > b" := by decide
  refine ⟨tokenize_crampedText, hrespaced, ?_⟩
  rw [← hrespaced]
  exact tokenize_respaced tokenize_crampedText

end Pseudocode
