import Pseudocode.Proofs.Conversion
import Pseudocode.Proofs.Render.Places
set_option autoImplicit false

/-!
# Layout decides nothing

Two texts may be laid out in different ways and still be cut into tokens of the same
kinds with the same texts.  Reading then goes the same way for both: it ends with the
same tree, or it refuses the same token for the same reason.  The tokens are compared
through their unplaced forms, on which reading runs only once.
-/

namespace Pseudocode

/-- What a token is, without where it stands. -/
def Token.spelling (t : Token) : Kind × String :=
  (t.kind, t.text)

/-- Tokens with the same spellings are the same once their places are forgotten. -/
theorem Token.unplaced_eq_of_spelling {ts us : List Token}
    (h : ts.map spelling = us.map spelling) : unplaced ts = unplaced us := by
  have hunplaced : ∀ vs : List Token,
      unplaced vs = (vs.map spelling).map fun s => ⟨s.1, s.2, Pos.start⟩ := by
    intro vs
    rw [List.map_map]
    rfl
  rw [hunplaced, hunplaced, h]

namespace Reading

variable {α : Type} [Placed α] {V : Vocabulary} {Q : α → List Token → Prop} {x : Reading α}
  {ts us : List Token}

/-- On tokens that differ in their places only, a reading yields values that differ in
their places only, or it stops in the same way. -/
theorem Tracks.agree (h : ∀ vs, Tracks (fun _ => Pos.start) V Q x x vs) (hts : V.Admits ts)
    (hus : V.Admits us) (heq : unplaced ts = unplaced us) :
    (∃ a b rest rest', x ts = .ok (a, rest) ∧ x us = .ok (b, rest') ∧ unplaced a = unplaced b) ∨
      ∃ e e', x ts = .error e ∧ x us = .error e' ∧ unplaced e = unplaced e' := by
  have hread := h ts hts
  have hread' := h us hus
  have hsame : x (unplaced ts) = x (unplaced us) := congrArg x heq
  cases hx : x ts with
  | ok r =>
    simp only [hx] at hread
    cases hx' : x us with
    | ok r' =>
      simp only [hx'] at hread'
      have hboth := Except.ok.inj (hread.1.symm.trans (hsame.trans hread'.1))
      exact .inl ⟨r.1, r'.1, r.2, r'.2, rfl, rfl, (Prod.mk.inj hboth).1⟩
    | error e' =>
      simp only [hx'] at hread'
      cases hread.1.symm.trans (hsame.trans hread'.1)
  | error e =>
    simp only [hx] at hread
    cases hx' : x us with
    | ok r' =>
      simp only [hx'] at hread'
      cases hread.1.symm.trans (hsame.trans hread'.1)
    | error e' =>
      simp only [hx'] at hread'
      exact .inr ⟨e, e', rfl, rfl, Except.error.inj (hread.1.symm.trans (hsame.trans hread'.1))⟩

end Reading

namespace Program

/-- Programs that differ in their places only have the same pseudocode. -/
theorem render_eq_of_unplaced {program₁ program₂ : Program}
    (h : unplaced program₁ = unplaced program₂) (style : Style) :
    program₁.render style = program₂.render style := by
  rw [← render_move (fun _ => Pos.start) style program₁,
    ← render_move (fun _ => Pos.start) style program₂]
  exact congrArg (render style) h

/-- Reading the tokens of a text never runs out of them: a failure is a refusal. -/
theorem refused_of_error {text : String} {tokens : List Token} {stop : Stop}
    (h : tokenize text = .ok tokens) (herror : ofTokens tokens = .error stop) :
    ∃ reason t ahead, stop = .refused reason t ahead := by
  rcases ofTokens_cases h with ⟨program, hread, -⟩ | ⟨reason, t, ahead, hread⟩
  · cases hread.symm.trans herror
  · exact ⟨reason, t, ahead, Except.error.inj (herror.symm.trans hread)⟩

/-- **Layout.**  Take two texts whose tokens have the same kinds and the same texts in the
same order, wherever they stand.  Either both texts are programs, the trees differ in their
places only, and every style writes the same pseudocode for both; or both are refused for
the same reason, each at its token of the same index. -/
theorem ofTokens_of_same_spelling {text₁ text₂ : String} {tokens₁ tokens₂ : List Token}
    (h₁ : tokenize text₁ = .ok tokens₁) (h₂ : tokenize text₂ = .ok tokens₂)
    (hspelling : tokens₁.map Token.spelling = tokens₂.map Token.spelling) :
    (∃ program₁ program₂, ofTokens tokens₁ = .ok program₁ ∧ ofTokens tokens₂ = .ok program₂ ∧
      unplaced program₁ = unplaced program₂ ∧
      (∀ style, program₁.render style = program₂.render style) ∧
      ∀ style ∈ Style.catalogue, ∃ page,
        program₁.render style = .ok page ∧ program₂.render style = .ok page) ∨
    ∃ (reason : Refusal) (i : Nat) (t₁ t₂ : Token) (ahead₁ ahead₂ : List Token),
      ofTokens tokens₁ = .error (.refused reason t₁ ahead₁) ∧
      ofTokens tokens₂ = .error (.refused reason t₂ ahead₂) ∧
      tokens₁[i]? = some t₁ ∧ tokens₂[i]? = some t₂ := by
  have hunplaced := Token.unplaced_eq_of_spelling hspelling
  have hadmits₁ := Token.scan_admits h₁
  have hadmits₂ := Token.scan_admits h₂
  have htracks : ∀ vs, Reading.Tracks (fun _ => Pos.start) .lexical
      (fun program _ => program.WellFormed .lexical) Reading.program Reading.program vs :=
    fun _ => Reading.Tracks.program
  rcases Reading.Tracks.agree htracks hadmits₁ hadmits₂ hunplaced with
    ⟨program₁, program₂, rest₁, rest₂, hread₁, hread₂, hsame⟩ | ⟨e₁, e₂, hread₁, hread₂, hsame⟩
  · have hprogram₁ : ofTokens tokens₁ = .ok program₁ := by rw [ofTokens, hread₁]; rfl
    have hprogram₂ : ofTokens tokens₂ = .ok program₂ := by rw [ofTokens, hread₂]; rfl
    have hrender := render_eq_of_unplaced hsame
    refine .inl ⟨program₁, program₂, hprogram₁, hprogram₂, hsame, hrender, ?_⟩
    intro style hstyle
    obtain ⟨page, hpage⟩ := render_of_ofTokens h₁ hprogram₁ hstyle
    exact ⟨page, hpage, (hrender style).symm.trans hpage⟩
  · have herror₁ : ofTokens tokens₁ = .error e₁ := by rw [ofTokens, hread₁]; rfl
    have herror₂ : ofTokens tokens₂ = .error e₂ := by rw [ofTokens, hread₂]; rfl
    obtain ⟨reason₁, t₁, ahead₁, rfl⟩ := refused_of_error h₁ herror₁
    obtain ⟨reason₂, t₂, ahead₂, rfl⟩ := refused_of_error h₂ herror₂
    obtain ⟨rfl, -, hahead⟩ := Stop.refused.inj hsame
    obtain ⟨before₁, rfl⟩ := exists_of_refused h₁ herror₁
    obtain ⟨before₂, rfl⟩ := exists_of_refused h₂ herror₂
    have hindex : before₁.length = before₂.length := by
      have htotal := congrArg List.length hspelling
      have hleft := congrArg List.length hahead
      simp only [List.length_map, List.length_append, List.length_cons, length_move]
        at htotal hleft
      omega
    refine .inr ⟨reason₁, before₁.length, t₁, t₂, ahead₁, ahead₂, herror₁, herror₂, ?_, ?_⟩
    · simp
    · simp [hindex]

/-- The loop `fillingLoop` on three lines, with blanks in other places. -/
def spreadLoop : String :=
  "for(int i=0;i<9;\n  i+=2)\nm . put( i,1 ) ;"

/-- The tokens of the loop on three lines. -/
def spreadLoopTokens : List Token :=
  [⟨.keyword, "for", ⟨1, 1⟩⟩, ⟨.paren, "(", ⟨1, 4⟩⟩, ⟨.keyword, "int", ⟨1, 5⟩⟩,
    ⟨.identifier, "i", ⟨1, 9⟩⟩, ⟨.operator, "=", ⟨1, 10⟩⟩, ⟨.number, "0", ⟨1, 11⟩⟩,
    ⟨.semicolon, ";", ⟨1, 12⟩⟩, ⟨.identifier, "i", ⟨1, 13⟩⟩, ⟨.operator, "<", ⟨1, 14⟩⟩,
    ⟨.number, "9", ⟨1, 15⟩⟩, ⟨.semicolon, ";", ⟨1, 16⟩⟩, ⟨.identifier, "i", ⟨2, 3⟩⟩,
    ⟨.operator, "+=", ⟨2, 4⟩⟩, ⟨.number, "2", ⟨2, 6⟩⟩, ⟨.paren, ")", ⟨2, 7⟩⟩,
    ⟨.identifier, "m", ⟨3, 1⟩⟩, ⟨.dot, ".", ⟨3, 3⟩⟩, ⟨.identifier, "put", ⟨3, 5⟩⟩,
    ⟨.paren, "(", ⟨3, 8⟩⟩, ⟨.identifier, "i", ⟨3, 10⟩⟩, ⟨.comma, ",", ⟨3, 11⟩⟩,
    ⟨.number, "1", ⟨3, 12⟩⟩, ⟨.paren, ")", ⟨3, 14⟩⟩, ⟨.semicolon, ";", ⟨3, 16⟩⟩,
    ⟨.eof, "", ⟨3, 17⟩⟩]

theorem tokenize_spreadLoop : tokenize spreadLoop = .ok spreadLoopTokens :=
  tokenize_of_toOption (by decide +kernel)

/-- The loop on one line and the loop on three lines. -/
theorem ofTokens_of_same_spelling_spreadLoop :
    tokenize fillingLoop = .ok fillingLoopTokens ∧ tokenize spreadLoop = .ok spreadLoopTokens ∧
    ((∃ program₁ program₂, ofTokens fillingLoopTokens = .ok program₁ ∧
      ofTokens spreadLoopTokens = .ok program₂ ∧ unplaced program₁ = unplaced program₂ ∧
      (∀ style, program₁.render style = program₂.render style) ∧
      ∀ style ∈ Style.catalogue, ∃ page,
        program₁.render style = .ok page ∧ program₂.render style = .ok page) ∨
    ∃ (reason : Refusal) (i : Nat) (t₁ t₂ : Token) (ahead₁ ahead₂ : List Token),
      ofTokens fillingLoopTokens = .error (.refused reason t₁ ahead₁) ∧
      ofTokens spreadLoopTokens = .error (.refused reason t₂ ahead₂) ∧
      fillingLoopTokens[i]? = some t₁ ∧ spreadLoopTokens[i]? = some t₂) :=
  ⟨tokenize_fillingLoop, tokenize_spreadLoop,
    ofTokens_of_same_spelling tokenize_fillingLoop tokenize_spreadLoop (by decide)⟩

end Program

end Pseudocode
