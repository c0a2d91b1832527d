import Pseudocode.Token
set_option autoImplicit false

/-!
# Reading tokens (SPEC §4.4)

A reading takes tokens from the front of a list.  It succeeds with a value and the
tokens it left, or it stops: it refuses the token at hand for a stated reason, or
it finds no token at all.  On a list that ends with `eof` the tokens cannot run
out, since no reading takes `eof` away.

Repetition runs against a clock, a list of which every round takes one entry.  The
tokens at hand serve as the clock: each round reads at least one of them, so the
clock runs out only where no token is left.
-/

namespace Pseudocode

/-- Why the token at hand is refused. -/
inductive Refusal where
  | expected (what : String)
  | unexpected (found : String)
  | unsupportedKeyword (word : String)
  | invalidTarget
  | unsupportedCallee
  | trailing
  | stated (text : String)
  deriving DecidableEq, Repr, Inhabited

/-- The wording of a refusal. -/
def Refusal.message : Refusal → String
  | .expected what => "Expected " ++ what
  | .unexpected found => "Unexpected token '" ++ found ++ "'"
  | .unsupportedKeyword word => "Unsupported keyword '" ++ word ++ "'"
  | .invalidTarget => "Invalid assignment target"
  | .unsupportedCallee => "Unsupported call target"
  | .trailing => "Unexpected token after program"
  | .stated text => text

/-- How a reading stops: at the token `here`, with the tokens `ahead` still behind
it, or because there is no token where one is needed. -/
inductive Stop where
  | refused (reason : Refusal) (here : Token) (ahead : List Token)
  | exhausted
  deriving DecidableEq, Repr, Inhabited

/-- The tokens that were left where the reading stopped. -/
def Stop.rest : Stop → List Token
  | .refused _ here ahead => here :: ahead
  | .exhausted => []

/-- A value read from the front of a list of tokens, with the tokens left. -/
def Reading (α : Type) : Type :=
  List Token → Except Stop (α × List Token)

namespace Reading

variable {α β : Type}

/-- Reads nothing. -/
protected def pure (a : α) : Reading α :=
  fun ts => .ok (a, ts)

/-- Reads one thing, then another that may depend on it. -/
protected def bind (x : Reading α) (f : α → Reading β) : Reading β :=
  fun ts =>
    match x ts with
    | .error e => .error e
    | .ok (a, rest) => f a rest

instance : Monad Reading where
  pure := Reading.pure
  bind := Reading.bind

/-- The tokens not read yet. -/
def unread : Reading (List Token) :=
  fun ts => .ok (ts, ts)

/-- Stops for lack of a token. -/
def exhausted : Reading α :=
  fun _ => .error .exhausted

/-- Refuses the token at hand. -/
def refuse (reason : Refusal) : Reading α
  | [] => .error .exhausted
  | t :: ts => .error (.refused reason t ts)

/-- The token at hand, which stays where it is. -/
def current : Reading Token
  | [] => .error .exhausted
  | t :: ts => .ok (t, t :: ts)

/-- The position of the token at hand. -/
def here : Reading Pos := do
  return (← current).pos

/-- The `n`-th token behind the one at hand, or the last one if the list is
shorter. -/
def peek (n : Nat) : Reading Token :=
  fun ts =>
    match ts[n]? with
    | some t => .ok (t, ts)
    | none =>
      match ts.getLast? with
      | some t => .ok (t, ts)
      | none => .error .exhausted

/-- Takes the token at hand; `eof` is not taken away. -/
def advance : Reading Token
  | [] => .error .exhausted
  | t :: ts => .ok (t, if t.kind = .eof then t :: ts else ts)

/-- Whether the token at hand fits. -/
def isAt (p : Pattern) : Reading Bool := do
  return p.fits (← current)

/-- Takes the token at hand if it fits. -/
def accept (p : Pattern) : Reading (Option Token) := do
  if p.fits (← current) then
    return some (← advance)
  else
    return none

/-- Takes the token at hand, which has to fit. -/
def expect (p : Pattern) (reason : Refusal) : Reading Token := do
  match ← accept p with
  | some t => return t
  | none => refuse reason

/-- Takes tokens as long as `read` makes something of them. -/
def collect (read : Token → Option α) : Reading (List α)
  | [] => .error .exhausted
  | t :: ts =>
    match read t with
    | none => .ok ([], t :: ts)
    | some a =>
      match collect read ts with
      | .error e => .error e
      | .ok (as, rest) => .ok (a :: as, rest)

/-- Reads items for as long as the token at hand is wanted and the clock runs. -/
def manyWithin (wanted : Token → Bool) (item : Reading α) :
    (clock : List Token) → Reading (List α)
  | [] => exhausted
  | _ :: clock => do
    if wanted (← current) then
      let a ← item
      let as ← manyWithin wanted item clock
      return a :: as
    else
      return []

/-- Reads items for as long as the token at hand is wanted. -/
def many (wanted : Token → Bool) (item : Reading α) : Reading (List α) :=
  fun ts => manyWithin wanted item ts ts

/-- Replaces a value by what `step` reads on from it, until it reads nothing or the
clock stops. -/
def iterateWithin (step : α → Reading (Option α)) : (clock : List Token) → α → Reading α
  | [], _ => exhausted
  | _ :: clock, a => do
    match ← step a with
    | none => return a
    | some b => iterateWithin step clock b

/-- Replaces a value by what `step` reads on from it, until it reads nothing. -/
def iterate (step : α → Reading (Option α)) (a : α) : Reading α :=
  fun ts => iterateWithin step ts a ts

@[simp] theorem pure_apply (a : α) (ts : List Token) :
    (pure a : Reading α) ts = .ok (a, ts) := rfl

theorem bind_apply (x : Reading α) (f : α → Reading β) (ts : List Token) :
    (x >>= f) ts =
      match x ts with
      | .error e => .error e
      | .ok (a, rest) => f a rest := rfl

/-- A sequence succeeds just when both of its parts do. -/
theorem bind_eq_ok_iff {x : Reading α} {f : α → Reading β} {ts rest : List Token} {b : β} :
    (x >>= f) ts = .ok (b, rest) ↔ ∃ a mid, x ts = .ok (a, mid) ∧ f a mid = .ok (b, rest) := by
  rw [bind_apply]
  cases h : x ts with
  | error e => simp
  | ok r =>
    obtain ⟨a, mid⟩ := r
    constructor
    · intro hf
      exact ⟨a, mid, rfl, hf⟩
    · rintro ⟨a', mid', heq, hf⟩
      cases heq
      exact hf

/-- A sequence stops where its first part does, or where its second part does
behind the first. -/
theorem bind_eq_error_iff {x : Reading α} {f : α → Reading β} {ts : List Token} {e : Stop} :
    (x >>= f) ts = .error e ↔
      x ts = .error e ∨ ∃ a mid, x ts = .ok (a, mid) ∧ f a mid = .error e := by
  rw [bind_apply]
  cases h : x ts with
  | error e' => simp
  | ok r =>
    obtain ⟨a, mid⟩ := r
    constructor
    · intro hf
      exact .inr ⟨a, mid, rfl, hf⟩
    · rintro (hf | ⟨a', mid', heq, hf⟩)
      · cases hf
      · cases heq
        exact hf

end Reading

end Pseudocode
