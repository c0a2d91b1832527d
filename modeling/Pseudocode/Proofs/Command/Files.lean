import Pseudocode.Command.FileTree
set_option autoImplicit false

/-!
# Files that keep what is written

What the command relies on when it writes a file.  A file that cannot be opened is left as it was.
A regular file is emptied as it is opened, then holds what was written to it, or a part of that if
writing fails, and no other file is touched.  Of a device or a pipe nothing is known.  Trees of
files obey these laws.
-/

namespace Pseudocode

open FileSystem (File read create write)

/-- A file system whose regular files keep what is written to them. -/
class LawfulFileSystem (Files : Type) [FileSystem Files] where
  /-- A file that is no device, no pipe and the like. -/
  Regular : File Files → Prop
  /-- All that is in a file, if there is such a file. -/
  content? : Files → File Files → Option ByteArray
  content?_create_error {files left : Files} {path : String} {e : FileError}
    (h : create files path = (.error e, left)) (file : File Files) :
    content? left file = content? files file
  content?_create {files opened : Files} {path : String} {file : File Files}
    (h : create files path = (.ok file, opened)) (hfile : Regular file) :
    content? opened file = some .empty
  content?_create_of_ne {files opened : Files} {path : String} {file other : File Files}
    (h : create files path = (.ok file, opened)) (hfile : Regular file) (hother : other ≠ file) :
    content? opened other = content? files other
  content?_write {files new : Files} {file : File Files} {bytes old : ByteArray}
    (h : write files file bytes = (.ok (), new)) (hfile : Regular file)
    (hold : content? files file = some old) : content? new file = some (old ++ bytes)
  content?_write_error {files new : Files} {file : File Files} {bytes old : ByteArray}
    {e : FileError} (h : write files file bytes = (.error e, new)) (hfile : Regular file)
    (hold : content? files file = some old) :
    ∃ part rest, bytes = part ++ rest ∧ content? new file = some (old ++ part)
  content?_write_of_ne (files : Files) {file other : File Files} (hfile : Regular file)
    (hother : other ≠ file) (bytes : ByteArray) :
    content? (write files file bytes).2 other = content? files other
  /-- A path leads to the file that was opened there, also after it was written. -/
  content?_of_read {files opened : Files} {path : String} {file : File Files}
    {bytes found : ByteArray} (h : create files path = (.ok file, opened)) (hfile : Regular file)
    (hread : read (write opened file bytes).2 path = .ok found) :
    content? (write opened file bytes).2 file = some found

/-! ## Trees of files -/

namespace FileTree

variable {tree opened : FileTree} {path : String} {location dir : List String}

/-- All that is in a file of the tree. -/
def contentOf? (tree : FileTree) : File → Option ByteArray
  | .regular location => tree.content? location
  | .sink => none

theorem content?_put_self (tree : FileTree) (location : List String) (content : ByteArray) :
    (tree.put location content).content? location = some content := by
  unfold content? put
  induction tree.files with
  | nil => simp
  | cons f files ih =>
    obtain ⟨place, old⟩ := f
    by_cases hplace : place = location
    · simpa [hplace] using ih
    · have hne : (location == place) = false := by simpa using Ne.symm hplace
      simpa [hplace, List.lookup_cons, hne] using ih

theorem content?_put_of_ne {other : List String} (h : other ≠ location) (content : ByteArray) :
    (tree.put location content).content? other = tree.content? other := by
  have hne : (other == location) = false := by simpa using h
  unfold content? put
  induction tree.files with
  | nil => simp [List.lookup_cons, hne]
  | cons f files ih =>
    obtain ⟨place, old⟩ := f
    by_cases hplace : place = location
    · subst hplace
      simpa [List.lookup_cons, hne] using ih
    · cases hother : other == place with
      | true => simp [hplace, List.lookup_cons, hother]
      | false => simpa [hplace, List.lookup_cons, hother] using ih

theorem contentOf?_put_of_ne {other : File} (h : other ≠ .regular location)
    (content : ByteArray) :
    (tree.put location content).contentOf? other = tree.contentOf? other := by
  cases other with
  | regular place => exact content?_put_of_ne (fun heq => h (congrArg _ heq)) content
  | sink => rfl

/-- New contents do not change the way of a path. -/
theorem walk_put {next : List String} {way : List String} (h : tree.walk dir way = .ok next)
    (location : List String) (content : ByteArray) :
    (tree.put location content).walk dir way = .ok next := by
  induction way generalizing dir with
  | nil => exact h
  | cons step way ih =>
    have henter {next : List String} (h : tree.enter dir step = .ok next) :
        (tree.put location content).enter dir step = .ok next := by
      unfold enter at h ⊢
      grind [put]
    rw [walk] at h ⊢
    cases hnext : tree.enter dir step with
    | error e =>
      rw [hnext] at h
      cases h
    | ok next =>
      rw [hnext] at h
      rw [henter hnext]
      exact ih h

/-- Where a path leads to a regular file, it leads to what was put there. -/
theorem arrive_put {last : String} (h : (tree.arrive dir last).file? = some (.regular location))
    (content : ByteArray) :
    (tree.put location content).arrive dir last = .file location content := by
  unfold arrive at h ⊢
  dsimp only at h ⊢
  split at h
  · cases h
  rename_i hname
  split at h
  · cases h
  rename_i hsink
  obtain rfl : dir ++ [last] = location := by
    split at h <;> exact File.regular.inj (Option.some.inj h)
  rw [content?_put_self]
  exact (if_neg hname).trans (if_neg hsink)

theorem resolve_put {target : Target} (h : tree.resolve path = .ok target)
    (hfile : target.file? = some (.regular location)) (content : ByteArray) :
    (tree.put location content).resolve path = .ok (.file location content) := by
  unfold resolve at h ⊢
  cases hlast : (steps path).getLast? with
  | none =>
    rw [hlast] at h
    dsimp only at h
    split at h
    · cases h
    · cases h
      cases hfile
  | some last =>
    rw [hlast] at h
    cases hwalk : tree.walk (tree.start path) (steps path).dropLast with
    | error e =>
      rw [hwalk] at h
      cases h
    | ok dir =>
      rw [hwalk] at h
      cases h
      have hstart : (tree.put location content).start path = tree.start path := rfl
      rw [hstart, walk_put hwalk]
      exact congrArg _ (arrive_put hfile content)

/-- A file that can be opened is the one that the path leads to. -/
theorem exists_of_writable {file : File} (h : tree.writable path = .ok file) :
    (∃ target, tree.resolve path = .ok target ∧ target.file? = some file) ∧
      meansDirectory path = false := by
  unfold writable at h
  cases htarget : tree.resolve path with
  | error e =>
    rw [htarget] at h
    cases h
  | ok target =>
    rw [htarget] at h
    simp only [bind, Except.bind] at h
    cases hfile : target.file? with
    | none =>
      rw [hfile] at h
      cases h
    | some found =>
      rw [hfile] at h
      cases hmeans : meansDirectory path with
      | true =>
        rw [hmeans] at h
        cases h
      | false =>
        rw [hmeans] at h
        cases h
        exact ⟨⟨target, rfl, hfile⟩, rfl⟩

/-- Opening a file empties it, and changes nothing if it fails. -/
theorem create_cases (tree : FileTree) (path : String) :
    (∃ e, tree.create path = (.error e, tree)) ∨
      ∃ file, tree.writable path = .ok file ∧ tree.create path = (.ok file, tree.clear file) := by
  unfold create
  cases tree.writable path with
  | error e => exact .inl ⟨e, rfl⟩
  | ok file => exact .inr ⟨file, rfl, rfl⟩

theorem writable_of_create {file : File} (h : tree.create path = (.ok file, opened)) :
    tree.writable path = .ok file ∧ opened = tree.clear file := by
  rcases tree.create_cases path with ⟨e, hcreate⟩ | ⟨file', hwritable, hcreate⟩
  · cases hcreate.symm.trans h
  · cases hcreate.symm.trans h
    exact ⟨hwritable, rfl⟩

theorem read_of_resolve {content : ByteArray}
    (h : tree.resolve path = .ok (.file location content)) (hmeans : meansDirectory path = false) :
    tree.read path = .ok content := by
  unfold read
  rw [h, hmeans]
  rfl

/-- What fits is a front part. -/
theorem exists_fitting (tree : FileTree) (bytes : ByteArray) :
    ∃ rest, bytes = tree.fitting bytes ++ rest := by
  unfold fitting
  cases tree.capacity with
  | none => exact ⟨.empty, ByteArray.append_empty.symm⟩
  | some n =>
    refine ⟨bytes.extract (n - tree.used) bytes.size, ByteArray.ext ?_⟩
    rw [ByteArray.extract_append_extract, ByteArray.data_extract, Nat.zero_min]
    exact (Array.extract_eq_self_of_le (Nat.le_max_right _ bytes.data.size)).symm

/-- All was written if writing did not fail. -/
theorem fitting_eq_of_le {bytes : ByteArray} (h : bytes.size ≤ (tree.fitting bytes).size) :
    tree.fitting bytes = bytes := by
  obtain ⟨rest, hrest⟩ := tree.exists_fitting bytes
  have hsize : rest.size = 0 := by
    have := congrArg ByteArray.size hrest
    rw [ByteArray.size_append] at this
    omega
  rw [ByteArray.size_eq_zero_iff.mp hsize, ByteArray.append_empty] at hrest
  exact hrest.symm

instance : LawfulFileSystem FileTree where
  Regular file := ∃ location, file = .regular location
  content? := contentOf?
  content?_create_error {files left path e} h file := by
    rcases files.create_cases path with ⟨e', hcreate⟩ | ⟨file', -, hcreate⟩
    · cases hcreate.symm.trans h
      rfl
    · cases hcreate.symm.trans h
  content?_create h hfile := by
    obtain ⟨location, rfl⟩ := hfile
    obtain ⟨-, rfl⟩ := writable_of_create h
    exact content?_put_self _ location _
  content?_create_of_ne h hfile hother := by
    obtain ⟨location, rfl⟩ := hfile
    obtain ⟨-, rfl⟩ := writable_of_create h
    exact contentOf?_put_of_ne hother _
  content?_write {files new file bytes old} h hfile hold := by
    obtain ⟨location, rfl⟩ := hfile
    obtain ⟨hresult, rfl⟩ := Prod.mk.inj h
    have hle : bytes.size ≤ (files.fitting bytes).size := by
      refine Nat.le_of_not_lt fun hlt => ?_
      rw [if_pos hlt] at hresult
      cases hresult
    have hold : files.content? location = some old := hold
    rw [hold, fitting_eq_of_le hle]
    exact content?_put_self files location _
  content?_write_error {files new file bytes old e} h hfile hold := by
    obtain ⟨location, rfl⟩ := hfile
    obtain ⟨-, rfl⟩ := Prod.mk.inj h
    have hold : files.content? location = some old := hold
    obtain ⟨rest, hrest⟩ := files.exists_fitting bytes
    refine ⟨files.fitting bytes, rest, hrest, ?_⟩
    rw [hold]
    exact content?_put_self files location _
  content?_write_of_ne files {file other} hfile hother bytes := by
    obtain ⟨location, rfl⟩ := hfile
    exact contentOf?_put_of_ne hother _
  content?_of_read {files opened path file bytes found} h hfile hread := by
    obtain ⟨location, rfl⟩ := hfile
    obtain ⟨hwritable, rfl⟩ := writable_of_create h
    obtain ⟨⟨target, htarget, hfile⟩, hmeans⟩ := exists_of_writable hwritable
    have hopened := resolve_put htarget hfile .empty
    cases hread.symm.trans (read_of_resolve (resolve_put hopened rfl _) hmeans)
    exact content?_put_self _ location _

end FileTree

end Pseudocode
