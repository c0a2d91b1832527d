set_option autoImplicit false

/-!
# Declared types (SPEC §4.5)

The type that each variable was last declared with.  Blocks do not limit a
declaration.
-/

namespace Pseudocode

/-- Variables with the types they were last declared with. -/
structure TypeTable where
  entries : List (String × String)
  deriving DecidableEq, Repr, Inhabited

namespace TypeTable

/-- No declarations. -/
def empty : TypeTable := ⟨[]⟩

/-- Declares a variable. -/
def declare (table : TypeTable) (name typeName : String) : TypeTable :=
  ⟨(name, typeName) :: table.entries.filter (·.1 != name)⟩

/-- The type of a variable. -/
def find? (table : TypeTable) (name : String) : Option String :=
  table.entries.lookup name

/-- The declarations in the order of their names. -/
def sorted (table : TypeTable) : List (String × String) :=
  table.entries.mergeSort fun a b => !(b.1 < a.1)

/-- Of two declarations of a variable the later one counts. -/
@[simp] theorem find?_declare_self (table : TypeTable) (name typeName : String) :
    (table.declare name typeName).find? name = some typeName := by
  simp [find?, declare]

/-- A declaration leaves the other variables alone. -/
theorem find?_declare_of_ne (table : TypeTable) {name other : String} (typeName : String)
    (h : other ≠ name) : (table.declare name typeName).find? other = table.find? other := by
  have hb : (other == name) = false := by simpa using h
  simp only [find?, declare, List.lookup_cons, hb]
  induction table.entries with
  | nil => rfl
  | cons entry entries ih =>
    obtain ⟨n, t⟩ := entry
    by_cases hn : n = name
    · subst hn
      simp [List.lookup_cons, hb, ih]
    · by_cases ho : other = n
      · subst ho
        simp [hn]
      · have hob : (other == n) = false := by simpa using ho
        simp [hn, List.lookup_cons, hob, ih]

end TypeTable

end Pseudocode
