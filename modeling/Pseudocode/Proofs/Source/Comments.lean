import Pseudocode.Proofs.Source.Blanking
set_option autoImplicit false

/-!
# What is blanked is the comments

Which characters of a text are in a comment is found out by an automaton that walks along
the text once, one character a step, and remembers no more than a mode.  It knows nothing
of what is blanked.  The normal form of a source is the source with its line ends unified
and its tabs expanded, in which the characters of comments have become blanks, line feeds
apart; all others are as they were.
-/

namespace Pseudocode.Source

/-- What is known in front of a character.

- `code`: it is outside of comments and literals.
- `slash`: so it is, but behind a slash, with which it may open a comment.
- `line`: it is in a line comment.
- `block`: it is in a block comment.
- `star`: so it is, behind a star with which it may close the comment.
- `literal`: it is in a literal with the given quote.
- `escape`: so it is, behind a backslash that takes it along. -/
inductive Mode where
  | code
  | slash
  | line
  | block
  | star
  | literal (quote : Char)
  | escape (quote : Char)
  deriving DecidableEq, Repr, Inhabited

namespace Mode

/-- The mode behind a character of the code that opens no comment. -/
def behindCode (c : Char) : Mode :=
  if c = '/' then .slash else if isQuote c then .literal c else .code

/-- One step of the automaton.  The star of an opening `/*` leads to `block`, not to
`star`, so it cannot close the comment as well. -/
def step : Mode → Char → Mode
  | .code, c => behindCode c
  | .slash, c => if c = '/' then .line else if c = '*' then .block else behindCode c
  | .line, c => if c = '\n' then .code else .line
  | .block, c => if c = '*' then .star else .block
  | .star, c => if c = '/' then .code else if c = '*' then .star else .block
  | .literal q, c =>
    if c = '\\' then .escape q else if c = q ∨ c = '\n' then .code else .literal q
  | .escape q, _ => .literal q

/-- The modes inside of a comment. -/
def isComment : Mode → Bool
  | .line | .block | .star => true
  | _ => false

/-- The mode behind the characters `cs`. -/
def run (m : Mode) (cs : List Char) : Mode :=
  cs.foldl step m

/-- The mode in front of character number `i`, if the text starts in mode `m`. -/
def before (m : Mode) (cs : List Char) (i : Nat) : Mode :=
  m.run (cs.take i)

/-- Character number `i` is the second of the two signs that open a comment. -/
def opensAt (m : Mode) (cs : List Char) (i : Nat) : Bool :=
  m.before cs i == .slash && (m.before cs (i + 1)).isComment

/-- Character number `i` is in a comment: it is inside of one, or it is one of the two
signs that open it. -/
def inComment (m : Mode) (cs : List Char) (i : Nat) : Bool :=
  (m.before cs i).isComment || m.opensAt cs i || m.opensAt cs (i + 1)

/-- What is left of a text that starts in mode `m` when its comments are blanked. -/
def blank (m : Mode) (cs : List Char) : List Char :=
  cs.mapIdx fun i c => if c ≠ '\n' ∧ m.inComment cs i = true then ' ' else c

/-! ## One step at a time -/

@[simp] theorem before_zero (m : Mode) (cs : List Char) : m.before cs 0 = m := rfl

@[simp] theorem before_succ (m : Mode) (c : Char) (cs : List Char) (i : Nat) :
    m.before (c :: cs) (i + 1) = (m.step c).before cs i := rfl

theorem inComment_succ (m : Mode) (c : Char) (cs : List Char) (i : Nat) :
    m.inComment (c :: cs) (i + 1) = (m.step c).inComment cs i := rfl

/-- The first character of a text and the text behind it. -/
theorem blank_cons (m : Mode) (c : Char) (cs : List Char) :
    m.blank (c :: cs) =
      (if c ≠ '\n' ∧ m.inComment (c :: cs) 0 = true then ' ' else c) :: (m.step c).blank cs := by
  simp only [blank, List.mapIdx_cons, inComment_succ]
  rfl

/-- A character in front of which the automaton is inside of a comment. -/
theorem blank_cons_comment {m : Mode} (h : m.isComment = true) (c : Char) (cs : List Char) :
    m.blank (c :: cs) = (if c = '\n' then '\n' else ' ') :: (m.step c).blank cs := by
  rw [blank_cons]
  by_cases hc : c = '\n' <;> simp [inComment, h, hc]

/-- A character in front of which the automaton is outside of comments and behind which it
does not expect one. -/
theorem blank_cons_plain {m : Mode} {c : Char} (h : m.isComment = false)
    (hopens : m ≠ .slash ∨ (m.step c).isComment = false) (hslash : m.step c ≠ .slash)
    (cs : List Char) : m.blank (c :: cs) = c :: (m.step c).blank cs := by
  have hfirst : m.inComment (c :: cs) 0 = false := by
    rcases hopens with hm | hcomment
    · simp [inComment, opensAt, h, hslash, hm]
    · simp [inComment, opensAt, h, hslash, hcomment]
  rw [blank_cons, hfirst]
  simp

/-- The two signs that open a comment. -/
theorem blank_opening {d : Char} (h : d = '/' ∨ d = '*') (cs : List Char) :
    code.blank ('/' :: d :: cs) = ' ' :: ' ' :: (slash.step d).blank cs := by
  have hcomment : (slash.step d).isComment = true := by rcases h with rfl | rfl <;> rfl
  have hline : d ≠ '\n' := by rcases h with rfl | rfl <;> decide
  have hstep : code.step '/' = slash := rfl
  have hfirst : code.inComment ('/' :: d :: cs) 0 = true := by
    simp [inComment, opensAt, hstep, hcomment]
  have hsecond : slash.inComment (d :: cs) 0 = true := by
    simp [inComment, opensAt, hcomment]
  rw [blank_cons, blank_cons, hstep, hfirst, hsecond]
  simp [hline]

/-- Behind a slash that opened no comment the code goes on. -/
theorem blank_slash {cs : List Char} (h : ∀ d ∈ cs.head?, d ≠ '/' ∧ d ≠ '*') :
    slash.blank cs = code.blank cs := by
  cases cs with
  | nil => rfl
  | cons d cs =>
    obtain ⟨hline, hblock⟩ := h d rfl
    have hstep : slash.step d = code.step d := by simp [step, hline, hblock]
    have hcode : code.step d ≠ .slash := by
      by_cases hquote : isQuote d = true <;> simp [step, behindCode, hline, hquote]
    have hcomment : (code.step d).isComment = false := by
      by_cases hquote : isQuote d = true <;> simp [step, behindCode, hline, hquote, isComment]
    rw [blank_cons_plain (m := slash) rfl (.inr (hstep ▸ hcomment)) (hstep ▸ hcode),
      blank_cons_plain (m := code) rfl (.inl (by simp)) hcode, hstep]

/-- Behind a star that closed no comment the comment goes on. -/
theorem blank_star {cs : List Char} (h : ∀ d ∈ cs.head?, d ≠ '/') :
    star.blank cs = block.blank cs := by
  cases cs with
  | nil => rfl
  | cons d cs =>
    have hstep : star.step d = block.step d := by simp [step, h d rfl]
    rw [blank_cons_comment rfl, blank_cons_comment rfl, hstep]

end Mode

/-! ## Blanking follows the automaton -/

/-- The mode in which a region starts. -/
def Region.mode : Region → Mode
  | .code => .code
  | .literal q => .literal q
  | .lineComment => .line
  | .blockComment => .block

theorem blankComments_eq_blank (r : Region) (cs : List Char) :
    blankComments r cs = r.mode.blank cs := by
  fun_induction blankComments r cs with
  | case1 => rfl
  | case2 cs ih => rw [ih, Region.mode, Mode.blank_opening (.inl rfl)]; rfl
  | case3 cs ih => rw [ih, Region.mode, Mode.blank_opening (.inr rfl)]; rfl
  | case4 c cs hline hblock ih =>
    rw [ih]
    by_cases hslash : c = '/'
    · -- A slash opens a comment together with the next character, but not with this one.
      have hnext : ∀ d ∈ cs.head?, d ≠ '/' ∧ d ≠ '*' := by
        intro d hd
        obtain ⟨ds, rfl⟩ := List.head?_eq_some_iff.mp hd
        exact ⟨fun h => hline ds hslash (h ▸ rfl), fun h => hblock ds hslash (h ▸ rfl)⟩
      subst hslash
      have hfirst : Mode.code.inComment ('/' :: cs) 0 = false := by
        cases cs with
        | nil => rfl
        | cons d ds =>
          obtain ⟨hd, hd'⟩ := hnext d rfl
          by_cases hquote : isQuote d = true <;>
            simp [Mode.inComment, Mode.opensAt, Mode.step, Mode.behindCode, Mode.isComment, hd,
              hd', hquote]
      simp only [Region.mode]
      rw [Mode.blank_cons, hfirst]
      simp only [isQuote, Bool.false_eq_true, and_false, if_false]
      exact congrArg _ (Mode.blank_slash hnext).symm
    · have hstep : Mode.code.step c =
          (if isQuote c = true then Region.literal c else .code).mode := by
        by_cases hquote : isQuote c = true <;>
          simp [Mode.step, Mode.behindCode, hslash, hquote, Region.mode]
      have hcode : Mode.code.step c ≠ .slash := by
        by_cases hquote : isQuote c = true <;> simp [Mode.step, Mode.behindCode, hslash, hquote]
      rw [Region.mode, Mode.blank_cons_plain (m := .code) rfl (.inl (by simp)) hcode, hstep]
  | case5 q c cs ih =>
    have hescape : (Mode.literal q).step '\\' = .escape q := rfl
    rw [ih, Region.mode,
      Mode.blank_cons_plain (m := .literal q) rfl (.inl (by simp)) (by simp [hescape]), hescape]
    exact congrArg _
      (Mode.blank_cons_plain (m := .escape q) rfl (.inl (by simp)) (by simp [Mode.step]) cs).symm
  | case6 q c cs hescape ih =>
    rw [ih]
    by_cases hback : c = '\\'
    · obtain rfl : cs = [] := by
        cases cs with
        | nil => rfl
        | cons d ds => exact (hescape d ds hback rfl).elim
      subst hback
      rfl
    · have hstep : (Mode.literal q).step c =
          (if c = q ∨ c = '\n' then Region.code else .literal q).mode := by
        by_cases hend : c = q ∨ c = '\n' <;> simp [Mode.step, hback, hend, Region.mode]
      have hslash : (Mode.literal q).step c ≠ .slash := by
        by_cases hend : c = q ∨ c = '\n' <;> simp [Mode.step, hback, hend]
      rw [Region.mode, Mode.blank_cons_plain (m := .literal q) rfl (.inl (by simp)) hslash, hstep]
  | case7 cs ih => rw [ih, Region.mode, Mode.blank_cons_comment rfl]; rfl
  | case8 c cs hc ih =>
    have hstep : Mode.line.step c = .line := by simp [Mode.step, hc]
    rw [ih, Region.mode, Mode.blank_cons_comment rfl, if_neg hc, hstep]
  | case9 cs ih =>
    rw [ih, Region.mode, Mode.blank_cons_comment rfl]
    exact congrArg _ (Mode.blank_cons_comment (m := .star) rfl '/' cs).symm
  | case10 c cs hclose ih =>
    rw [ih, Region.mode, Mode.blank_cons_comment rfl]
    by_cases hstar : c = '*'
    · subst hstar
      refine congrArg _ (Mode.blank_star ?_).symm
      rintro d hd rfl
      obtain ⟨ds, rfl⟩ := List.head?_eq_some_iff.mp hd
      exact hclose ds rfl rfl
    · have hstep : Mode.block.step c = .block := by simp [Mode.step, hstar]
      rw [hstep]

/-- A source with its line ends unified and its tabs expanded. -/
def expanded (source : String) : List Char :=
  expandTabs (unifyLineEnds source.toList)

/-- The normal form of a source is as long as the source with its line ends unified and its
tabs expanded.  Each of its characters is a blank if there it is in a comment and no line
feed, and otherwise what it is there. -/
theorem normalize_blanks_comments (source : String) :
    (normalize source).length = (expanded source).length ∧
      ∀ i : Nat, (normalize source).toList[i]? = (expanded source)[i]?.map fun c =>
        if c ≠ '\n' ∧ Mode.code.inComment (expanded source) i = true then ' ' else c := by
  have hnormal : (normalize source).toList = Mode.code.blank (expanded source) := by
    rw [normalize, String.toList_ofList, normalChars, blankComments_eq_blank]
    rfl
  refine ⟨?_, fun i => ?_⟩
  · rw [← String.length_toList, hnormal, Mode.blank, List.length_mapIdx]
  · rw [hnormal, Mode.blank, List.getElem?_mapIdx]

-- The star of `/*` does not close the comment, and a quote in a comment opens no literal.
example : Mode.code.blank "a/*/'*/b'//'//".toList = "a      b'//'  ".toList := by
  decide

end Pseudocode.Source
