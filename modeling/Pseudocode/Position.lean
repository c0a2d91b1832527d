set_option autoImplicit false

/-!
# Positions in a text (SPEC §3.1)

A position is a line and a column, both counted from one.  Lines end at a line
feed and nowhere else; every other character is one column wide.
-/

namespace Pseudocode

/-- A line and a column, both counted from one. -/
structure Pos where
  line : Nat
  column : Nat
  deriving DecidableEq, Repr, Inhabited

namespace Pos

/-- The position of the first character of a text. -/
def start : Pos := ⟨1, 1⟩

/-- The position behind the character `c`. -/
def next (p : Pos) (c : Char) : Pos :=
  if c = '\n' then ⟨p.line + 1, 1⟩ else ⟨p.line, p.column + 1⟩

/-- The position behind the characters `cs`. -/
def after (p : Pos) (cs : List Char) : Pos :=
  cs.foldl next p

@[simp] theorem after_nil (p : Pos) : p.after [] = p := rfl

@[simp] theorem after_cons (p : Pos) (c : Char) (cs : List Char) :
    p.after (c :: cs) = (p.next c).after cs := rfl

theorem after_append (p : Pos) (cs ds : List Char) :
    p.after (cs ++ ds) = (p.after cs).after ds := by
  simp [after]

/-- Characters other than line feeds move along the line. -/
theorem after_of_no_newline (p : Pos) {cs : List Char} (h : ∀ c ∈ cs, c ≠ '\n') :
    p.after cs = ⟨p.line, p.column + cs.length⟩ := by
  induction cs generalizing p with
  | nil => simp
  | cons c cs ih =>
    have hc : c ≠ '\n' := h c (by simp)
    rw [after_cons, ih _ fun d hd => h d (by simp [hd])]
    simp only [next, hc, if_false, List.length_cons, mk.injEq, true_and]
    omega

end Pos

end Pseudocode
