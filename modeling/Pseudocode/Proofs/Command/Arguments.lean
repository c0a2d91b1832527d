import Mathlib.Data.List.Nodup
import Pseudocode.Command.FileTree
import Pseudocode.Command.Run
set_option autoImplicit false

/-!
# The order of arguments

The arguments of the command come in groups: an option, together with its value if it has one,
or the source.  Reading takes one group after the other, and each sets something of its own, so
that groups of different roles may change places.
-/

namespace Pseudocode.Command

/-! ## Groups of arguments -/

/-- The name of a source among the arguments: `-`, or a text that starts with no hyphen. -/
structure Operand where
  text : String
  plain : text = "-" ∨ text.toList.head? ≠ some '-'

namespace Operand

variable (operand : Operand)

theorem not_isFlag : ¬ (operand.text.toList.head? = some '-' ∧ operand.text ≠ "-") := by
  rintro ⟨hhead, hne⟩
  exact operand.plain.elim hne (absurd hhead)

theorem ne_of_isFlag {flag : String} (h : flag.toList.head? = some '-' ∧ flag ≠ "-") :
    operand.text ≠ flag := by
  rintro rfl
  exact operand.not_isFlag h

end Operand

/-- Arguments that belong together.  The style is given behind its option or, `joined`, in the
same argument, and the log is asked for by the long option or by the short one. -/
inductive Group where
  | style (joined : Bool) (id : String)
  | output (path : String)
  | json
  | verbose (short : Bool)
  | input (operand : Operand)

/-- What a group is about. -/
inductive Role where
  | style
  | output
  | json
  | verbose
  | input
  deriving DecidableEq, Repr, Inhabited

namespace Group

def role : Group → Role
  | .style .. => .style
  | .output _ => .output
  | .json => .json
  | .verbose _ => .verbose
  | .input _ => .input

/-- The arguments of a group. -/
def arguments : Group → List String
  | .style false id => ["--style", id]
  | .style true id => ["--style=" ++ id]
  | .output path => ["-o", path]
  | .json => ["--json"]
  | .verbose false => ["--verbose"]
  | .verbose true => ["-v"]
  | .input operand => [operand.text]

/-- The options say what the group says. -/
def HoldsIn (o : Options) : Group → Prop
  | .style _ id => o.style = some id
  | .output path => o.output = path
  | .json => o.json = true
  | .verbose _ => o.verbose = true
  | .input operand => o.input = operand.text

end Group

/-- All arguments of the groups, in their order. -/
def arguments (groups : List Group) : List String :=
  groups.flatMap Group.arguments

namespace Options

/-- The options with what a group says. -/
def set (o : Options) : Group → Options
  | .style _ id => { o with style := some id }
  | .output path => { o with output := path }
  | .json => { o with json := true }
  | .verbose _ => { o with verbose := true }
  | .input operand => { o with input := operand.text }

/-- Groups of different roles set different things. -/
theorem set_comm (o : Options) {g g' : Group} (h : g.role ≠ g'.role) :
    (o.set g).set g' = (o.set g').set g := by
  cases g <;> cases g' <;> first | rfl | exact absurd rfl h

theorem holdsIn_set (o : Options) (g : Group) : g.HoldsIn (o.set g) := by
  cases g <;> rfl

/-- What one group says is not touched by groups of other roles. -/
theorem holdsIn_set_of_ne {o : Options} {g g' : Group} (h : g.role ≠ g'.role)
    (hg : g.HoldsIn o) : g.HoldsIn (o.set g') := by
  cases g <;> cases g' <;> first | exact hg | exact absurd rfl h

/-- Only the source sets the source. -/
theorem input_set_of_ne {o : Options} {g : Group} (h : g.role ≠ .input) :
    (o.set g).input = o.input := by
  cases g <;> first | rfl | exact absurd rfl h

/-! ## Reading a group -/

/-- What stands behind the front of a text. -/
theorem behind?_append (front text : String) : Text.behind? front (front ++ text) = some text := by
  rw [Text.behind?, if_pos (by simp [List.isPrefixOf_iff_prefix])]
  simp [← String.length_toList]

theorem take_joined (o : Options) (id : String) :
    o.take ("--style=" ++ id) = .ok { o with style := some id } := by
  rw [take, behind?_append]

theorem take_operand {o : Options} (operand : Operand) (h : o.input = "") :
    o.take operand.text = .ok { o with input := operand.text } := by
  have hbehind : Text.behind? "--style=" operand.text = none := by
    rw [Text.behind?, if_neg]
    intro hprefix
    obtain ⟨rest, hrest⟩ := List.isPrefixOf_iff_prefix.mp hprefix
    refine operand.not_isFlag ⟨by rw [← hrest]; rfl, ?_⟩
    rintro heq
    rw [heq] at hrest
    exact absurd (congrArg List.length hrest) (by simp)
  rw [take, hbehind]
  dsimp only
  rw [if_neg (operand.ne_of_isFlag (by decide)), if_neg, if_neg operand.not_isFlag, if_pos h]
  exact not_or.mpr ⟨operand.ne_of_isFlag (by decide), operand.ne_of_isFlag (by decide)⟩

/-- The arguments that end the reading or have a value behind them. -/
def separateFlags : List String :=
  ["--help", "-h", "--list-styles", "--style", "-o"]

/-- Reading goes on behind all other arguments. -/
theorem readFrom_take {o o' : Options} {arg : String} (h : o.take arg = .ok o')
    (hflag : arg ∉ separateFlags) (rest : List String) :
    readFrom o (arg :: rest) = readFrom o' rest := by
  simp only [separateFlags, List.mem_cons, List.not_mem_nil, or_false, not_or] at hflag
  obtain ⟨hhelp, hshort, hlist, hstyle, houtput⟩ := hflag
  rw [readFrom.eq_def]
  dsimp only
  rw [if_neg (not_or.mpr ⟨hhelp, hshort⟩), if_neg hlist, if_neg (not_or.mpr ⟨hstyle, houtput⟩), h]

/-- Reading takes one group after the other; a source is taken if there was none before. -/
theorem readFrom_group {o : Options} {g : Group} (h : g.role = .input → o.input = "")
    (rest : List String) : readFrom o (g.arguments ++ rest) = readFrom (o.set g) rest := by
  cases g with
  | style joined id =>
    cases joined with
    | false => rfl
    | true =>
      refine readFrom_take (take_joined o id) ?_ rest
      intro hmem
      have hnone : ∀ flag ∈ separateFlags, Text.behind? "--style=" flag = none := by decide
      cases (behind?_append "--style=" id).symm.trans (hnone _ hmem)
  | output path => rfl
  | json => exact readFrom_take rfl (by decide) rest
  | verbose short =>
    cases short with
    | false => exact readFrom_take rfl (by decide) rest
    | true => exact readFrom_take rfl (by decide) rest
  | input operand =>
    refine readFrom_take (take_operand operand (h rfl)) ?_ rest
    intro hmem
    have hflags : ∀ flag ∈ separateFlags, flag.toList.head? = some '-' ∧ flag ≠ "-" := by decide
    exact operand.not_isFlag (hflags _ hmem)

/-- Reading all groups. -/
theorem readFrom_arguments {groups : List Group} {o : Options}
    (h : (groups.map Group.role).Nodup)
    (hinput : Role.input ∈ groups.map Group.role → o.input = "") :
    readFrom o (arguments groups) = .ok (.convert (groups.foldl set o)) := by
  induction groups generalizing o with
  | nil => rfl
  | cons g groups ih =>
    obtain ⟨hg, hgroups⟩ := List.nodup_cons.mp h
    have hrest : Role.input ∈ groups.map Group.role → (o.set g).input = "" := by
      intro hmem
      rw [input_set_of_ne fun heq => hg (heq ▸ hmem)]
      exact hinput (List.mem_cons_of_mem _ hmem)
    rw [arguments, List.flatMap_cons, readFrom_group, List.foldl_cons, ← ih hgroups hrest]
    · rfl
    · intro hrole
      exact hinput (by simp [hrole])

/-- Groups of different roles may be taken in any order. -/
theorem foldl_set_of_perm {groups groups' : List Group} (h : (groups.map Group.role).Nodup)
    (hperm : groups.Perm groups') (o : Options) : groups.foldl set o = groups'.foldl set o := by
  apply hperm.foldl_eq'
  intro g hg g' hg' o
  by_cases hrole : g.role = g'.role
  · rw [List.inj_on_of_nodup_map h hg hg' hrole]
  · exact set_comm o hrole

/-- What was said before is kept by groups of other roles. -/
theorem holdsIn_foldl_set {groups : List Group} {g : Group}
    (h : g.role ∉ groups.map Group.role) {o : Options} (hg : g.HoldsIn o) :
    g.HoldsIn (groups.foldl set o) := by
  induction groups generalizing o with
  | nil => exact hg
  | cons g' groups ih =>
    rw [List.map_cons, List.mem_cons, not_or] at h
    exact ih h.2 (holdsIn_set_of_ne h.1 hg)

/-- In the end the options say what every group says. -/
theorem holdsIn_of_mem {groups : List Group} (h : (groups.map Group.role).Nodup) {g : Group}
    (hg : g ∈ groups) (o : Options) : g.HoldsIn (groups.foldl set o) := by
  induction groups generalizing o with
  | nil => cases hg
  | cons g' groups ih =>
    obtain ⟨hfirst, hgroups⟩ := List.nodup_cons.mp h
    rcases List.mem_cons.mp hg with rfl | hg
    · exact holdsIn_foldl_set hfirst (holdsIn_set o g)
    · exact ih hgroups hg (o.set g')

/-- Groups with different roles ask for a conversion with what they say. -/
theorem read_arguments {groups : List Group} (h : (groups.map Group.role).Nodup) :
    read (arguments groups) = .ok (.convert (groups.foldl set {})) :=
  readFrom_arguments h fun _ => rfl

end Options

/-- **The order of arguments.**  Take arguments in groups of which no two have the same role.
They ask for a conversion with what all of them say, and in any other order of the groups the
command prints the same, leaves the same files and ends with the same exit code. -/
theorem run_arguments_of_perm {Files : Type} [FileSystem Files] {groups groups' : List Group}
    (h : (groups.map Group.role).Nodup) (hperm : groups.Perm groups') (stdin : String)
    (files : Files) :
    (∃ o, Options.read (arguments groups) = .ok (.convert o) ∧ ∀ g ∈ groups, g.HoldsIn o) ∧
      run (arguments groups) stdin files = run (arguments groups') stdin files := by
  have hread := Options.read_arguments h
  have hread' := Options.read_arguments ((hperm.map Group.role).nodup_iff.mp h)
  refine ⟨⟨_, hread, fun g hg => Options.holdsIn_of_mem h hg {}⟩, ?_⟩
  unfold run
  rw [hread, hread', Options.foldl_set_of_perm h hperm]

/-- A style and an output file with the names of options, round the standard input. -/
def flagNames : List Group :=
  [.style false "--json", .input ⟨"-", .inl rfl⟩, .verbose true, .output "--help"]

theorem run_arguments_of_perm_flagNames :
    arguments flagNames = ["--style", "--json", "-", "-v", "-o", "--help"] ∧
    (flagNames.map Group.role).Nodup ∧
    (∃ o, Options.read ["--style", "--json", "-", "-v", "-o", "--help"] = .ok (.convert o) ∧
      o.style = some "--json" ∧ o.output = "--help") ∧
    run ["--style", "--json", "-", "-v", "-o", "--help"] "" FileTree.empty =
      run ["-o", "--help", "-v", "-", "--style", "--json"] "" FileTree.empty := by
  have hroles : (flagNames.map Group.role).Nodup := by decide
  obtain ⟨⟨o, hread, hholds⟩, hrun⟩ :=
    run_arguments_of_perm hroles (List.reverse_perm flagNames).symm "" FileTree.empty
  refine ⟨rfl, hroles, ⟨o, hread, ?_, ?_⟩, hrun⟩
  · exact hholds (.style false "--json") (by simp [flagNames])
  · exact hholds (.output "--help") (by simp [flagNames])

end Pseudocode.Command
