import Pseudocode.Command.Run
import Pseudocode.Proofs.Command.Files
import Pseudocode.Proofs.Conversion
set_option autoImplicit false

/-!
# What the command leaves behind

The command delivers a result once or not at all.  If it succeeds, the result is printed and no
file is touched, or the result is written to the output file, nothing is printed and no other file
is touched.  If it fails, nothing is printed but, where a document was asked for, the one that tells
of the failure, and no file is touched unless it is the output file itself that could be opened and
not be written to its end.
-/

namespace Pseudocode

variable {Files : Type} [FileSystem Files]

open FileSystem (File read create write save)

/-! ## Saving -/

namespace FileSystem

/-- The file at `path` was opened, and writing the text to it ended so. -/
def Attempts (old : Files) (path text : String) (file : File Files)
    (result : Except FileError Unit) (new : Files) : Prop :=
  ∃ opened, create old path = (.ok file, opened) ∧ write opened file text.toUTF8 = (result, new)

theorem save_cases (files : Files) (path text : String) :
    (∃ e left, create files path = (.error e, left) ∧ save files path text = (.error e, left)) ∨
      ∃ file result new, Attempts files path text file result new ∧
        save files path text = (result, new) := by
  unfold save
  rcases hcreate : create files path with ⟨e | file, opened⟩
  · exact .inl ⟨e, opened, rfl, rfl⟩
  · exact .inr ⟨file, _, _, ⟨opened, hcreate, rfl⟩, rfl⟩

variable [LawfulFileSystem Files]

open LawfulFileSystem (Regular content?)

/-- No file has been created or changed. -/
def Unchanged (old new : Files) : Prop :=
  ∀ file, content? new file = content? old file

theorem Unchanged.refl (files : Files) : Unchanged files files :=
  fun _ => rfl

/-- The text was written to the file at `path`.  If that is a regular file, the text is all of its
content, nothing else can be read at `path`, and no other file has changed. -/
structure Stores (old new : Files) (path text : String) (file : File Files) : Prop where
  written : Attempts old path text file (.ok ()) new
  content : Regular file → content? new file = some text.toUTF8
  readBack : Regular file → ∀ found, read new path = .ok found → found = text.toUTF8
  elsewhere : Regular file → ∀ other, other ≠ file → content? new other = content? old other

/-- The file at `path` was opened, but writing the text to it failed.  If that is a regular file,
it holds a front part of the text in the place of its old content, and no other file has changed. -/
structure BreaksOff (old new : Files) (path text : String) (file : File Files) : Prop where
  failed : ∃ e, Attempts old path text file (.error e) new
  content : Regular file → ∃ part rest, text.toUTF8 = part ++ rest ∧ content? new file = some part
  elsewhere : Regular file → ∀ other, other ≠ file → content? new other = content? old other

variable {old new : Files} {path text : String} {file : File Files}
  {result : Except FileError Unit}

theorem Attempts.elsewhere (h : Attempts old path text file result new) (hfile : Regular file)
    (other : File Files) (hother : other ≠ file) : content? new other = content? old other := by
  obtain ⟨opened, hcreate, hwrite⟩ := h
  have hnew := LawfulFileSystem.content?_write_of_ne opened hfile hother text.toUTF8
  rw [hwrite] at hnew
  exact hnew.trans (LawfulFileSystem.content?_create_of_ne hcreate hfile hother)

theorem Attempts.stores (h : Attempts old path text file (.ok ()) new) :
    Stores old new path text file := by
  have hcontent (hfile : Regular file) : content? new file = some text.toUTF8 := by
    obtain ⟨opened, hcreate, hwrite⟩ := h
    have hempty := LawfulFileSystem.content?_create hcreate hfile
    rw [LawfulFileSystem.content?_write hwrite hfile hempty, ByteArray.empty_append]
  refine ⟨h, hcontent, fun hfile found hread => ?_, h.elsewhere⟩
  obtain ⟨opened, hcreate, hwrite⟩ := h
  obtain rfl : (write opened file text.toUTF8).2 = new := congrArg Prod.snd hwrite
  have hfound := LawfulFileSystem.content?_of_read hcreate hfile hread
  exact Option.some.inj (hfound.symm.trans (hcontent hfile))

theorem Attempts.breaksOff {e : FileError} (h : Attempts old path text file (.error e) new) :
    BreaksOff old new path text file := by
  refine ⟨⟨e, h⟩, fun hfile => ?_, h.elsewhere⟩
  obtain ⟨opened, hcreate, hwrite⟩ := h
  have hempty := LawfulFileSystem.content?_create hcreate hfile
  obtain ⟨part, rest, htext, hpart⟩ :=
    LawfulFileSystem.content?_write_error hwrite hfile hempty
  exact ⟨part, rest, htext, by rw [hpart, ByteArray.empty_append]⟩

end FileSystem

namespace Command

open FileSystem (Unchanged Stores BreaksOff)

/-! ## How a run ends -/

variable {args : List String} {stdin text : String} {files : Files} {o : Options}
  {report : Report}

/-- The arguments ask for a conversion, and the source that they name has this report. -/
def Converts (args : List String) (stdin : String) (files : Files) (o : Options)
    (report : Report) : Prop :=
  Options.read args = .ok (.convert o) ∧
    ∃ text, source o stdin files = .ok text ∧ convert text o.style = .ok report

/-- What a conversion is asked to deliver: the pseudocode, or the report as a document. -/
def Options.result (o : Options) (code : String) : String :=
  if o.json then (Report.mk (some code) []).toJson.write else code

/-- A run that is asked for a document and has a failure to tell of. -/
def Reports (args : List String) (stdin : String) (files : Files) (report : Report) : Prop :=
  ∃ o, Converts args stdin files o report ∧ o.json = true ∧ report.isOk = false

/-- There is one report at most. -/
theorem Converts.unique {o' : Options} {report' : Report}
    (h : Converts args stdin files o report) (h' : Converts args stdin files o' report') :
    o' = o ∧ report' = report := by
  obtain ⟨hread, text, hsource, hreport⟩ := h
  obtain ⟨hread', text', hsource', hreport'⟩ := h'
  obtain rfl : o' = o := by
    rw [hread] at hread'
    cases hread'
    rfl
  obtain rfl : text' = text := Except.ok.inj (hsource'.symm.trans hsource)
  exact ⟨rfl, Except.ok.inj (hreport'.symm.trans hreport)⟩

theorem not_reports_of_ok {code : String} (h : Converts args stdin files o ⟨some code, []⟩) :
    ¬ ∃ report, Reports args stdin files report := by
  rintro ⟨report, o', hconverts, -, hfailed⟩
  obtain ⟨-, rfl⟩ := h.unique hconverts
  cases hfailed

section Lawful

variable [LawfulFileSystem Files]

/-- The ways in which a run ends: with a complaint about the arguments, with what was to
be known about the command, without a source, with a source that was refused, and with
pseudocode that was printed, for which no file could be opened, that was saved, or that could not
be written to its end. -/
inductive Ends (args : List String) (stdin : String) (files : Files) : Outcome Files → Prop
  | misused {e : UsageError} (stderr : String) (h : Options.read args = .error e) :
      Ends args stdin files ⟨2, "", stderr, files⟩
  | informed (stdout stderr : String)
      (h : Options.read args = .ok .help ∨ Options.read args = .ok .listStyles) :
      Ends args stdin files ⟨0, stdout, stderr, files⟩
  | unread {o : Options} {e : String} (stderr : String)
      (hread : Options.read args = .ok (.convert o)) (hsource : source o stdin files = .error e) :
      Ends args stdin files ⟨1, "", stderr, files⟩
  | refused {o : Options} {report : Report} (stderr : String)
      (h : Converts args stdin files o report) (hfailed : report.isOk = false) :
      Ends args stdin files
        ⟨1, if o.json then report.toJson.write ++ "\n" else "", stderr, files⟩
  | printed {o : Options} {code : String} (stderr : String)
      (h : Converts args stdin files o ⟨some code, []⟩) (houtput : o.output = "") :
      Ends args stdin files ⟨0, o.result code ++ "\n", stderr, files⟩
  | unopened {o : Options} {code : String} (stderr : String) (left : Files)
      (h : Converts args stdin files o ⟨some code, []⟩) (hleft : Unchanged files left) :
      Ends args stdin files ⟨1, "", stderr, left⟩
  | saved {o : Options} {code : String} {file : File Files} (stderr : String) (new : Files)
      (h : Converts args stdin files o ⟨some code, []⟩) (houtput : o.output ≠ "")
      (hstores : Stores files new o.output (o.result code ++ "\n") file) :
      Ends args stdin files ⟨0, "", stderr, new⟩
  | brokenOff {o : Options} {code : String} {file : File Files} (stderr : String) (new : Files)
      (h : Converts args stdin files o ⟨some code, []⟩) (houtput : o.output ≠ "")
      (hbreaks : BreaksOff files new o.output (o.result code ++ "\n") file) :
      Ends args stdin files ⟨1, "", stderr, new⟩

theorem ends_of_refused (h : Converts args stdin files o report)
    (hfailed : report.isOk = false) (log : String) :
    Ends args stdin files ((answerReport o log report).carryOut files) := by
  unfold answerReport
  rw [hfailed, if_neg Bool.false_ne_true]
  have hends := fun stderr => Ends.refused stderr h hfailed
  cases hjson : o.json with
  | true =>
    rw [hjson] at hends
    exact hends log
  | false =>
    rw [hjson] at hends
    exact hends _

theorem ends_of_ok {code : String} (h : Converts args stdin files o ⟨some code, []⟩)
    (log : String) :
    Ends args stdin files ((answerReport o log ⟨some code, []⟩).carryOut files) := by
  change Ends args stdin files ((deliver o log (o.result code)).carryOut files)
  unfold deliver
  split
  · rename_i houtput
    exact .printed log h houtput
  rename_i houtput
  unfold Response.carryOut
  dsimp only
  rcases FileSystem.save_cases files o.output (o.result code ++ "\n") with
    ⟨e, left, hcreate, hsave⟩ | ⟨file, result, new, hattempts, hsave⟩
  · rw [hsave]
    exact .unopened _ left h (LawfulFileSystem.content?_create_error hcreate)
  · rw [hsave]
    cases result with
    | ok => exact .saved log new h houtput hattempts.stores
    | error e => exact .brokenOff _ new h houtput hattempts.breaksOff

/-- A source that could be read has a report, and the command answers with it. -/
theorem exists_respond (hread : Options.read args = .ok (.convert o))
    (hsource : source o stdin files = .ok text) :
    ∃ r, respond o text = .ok r ∧ Ends args stdin files (r.carryOut files) := by
  obtain ⟨report, hreport, hsettles⟩ := Conversion.run_settles text o.style
  have hconverts : Converts args stdin files o report := ⟨hread, text, hsource, hreport⟩
  unfold respond
  dsimp only
  rw [hreport]
  refine ⟨_, rfl, ?_⟩
  obtain ⟨style, program, page, -, -, rfl⟩ | ⟨-, d, -, rfl⟩ := hsettles
  · exact ends_of_ok hconverts _
  · exact ends_of_refused hconverts rfl _

theorem exists_run (args : List String) (stdin : String) (files : Files) :
    ∃ out, run args stdin files = .ok out ∧ Ends args stdin files out := by
  unfold run
  cases hread : Options.read args with
  | error e => exact ⟨_, rfl, .misused _ hread⟩
  | ok request =>
    cases request with
    | help => exact ⟨_, rfl, .informed _ _ (.inl hread)⟩
    | listStyles => exact ⟨_, rfl, .informed _ _ (.inr hread)⟩
    | convert o =>
      rw [answerUsage]
      dsimp only
      cases hsource : source o stdin files with
      | error e => exact ⟨_, rfl, .unread _ hread hsource⟩
      | ok text =>
        obtain ⟨r, hr, hends⟩ := exists_respond hread hsource
        exact ⟨_, congrArg (Except.map (·.carryOut files)) hr, hends⟩

/-! ## The result is delivered once or not at all -/

/-- The text is printed, and no file is touched. -/
def Outcome.Prints (out : Outcome Files) (files : Files) (text : String) : Prop :=
  out.stdout = text ∧ Unchanged files out.files

/-- The text is written to the file at `path`, and nothing is printed. -/
def Outcome.Saves (out : Outcome Files) (files : Files) (path text : String) : Prop :=
  out.stdout = "" ∧ ∃ file, Stores files out.files path text file

/-- The text could not be written to the end of the file at `path`, and nothing is printed. -/
def Outcome.BreaksOff (out : Outcome Files) (files : Files) (path text : String) : Prop :=
  out.stdout = "" ∧ ∃ file, FileSystem.BreaksOff files out.files path text file

theorem line_ne_empty (text : String) : text ++ "\n" ≠ "" := by
  intro h
  have hlength := congrArg String.length h
  rw [String.length_append] at hlength
  simp at hlength

/-- **Delivery.**  On every file system, the command comes to an end.  A run that fails prints
nothing, unless it was asked for a document and the source was refused: then it prints the document
that says so.  It leaves every file as it was, unless the result was there and the output file could
be opened, but not be written to its end.  A run that succeeds in a conversion prints the result and
leaves every file as it was, or it writes the result to the output file and prints nothing, and it
never does both. -/
theorem run_delivers (args : List String) (stdin : String) (files : Files) :
    ∃ out, run args stdin files = .ok out ∧ (out.exit = 0 ∨ out.exit = 1 ∨ out.exit = 2) ∧
      (out.exit ≠ 0 →
        (∃ report, Reports args stdin files report ∧
          out.Prints files (report.toJson.write ++ "\n")) ∨
        (¬ ∃ report, Reports args stdin files report) ∧
          (out.Prints files "" ∨
            out.exit = 1 ∧ ∃ o code, Converts args stdin files o ⟨some code, []⟩ ∧
              o.output ≠ "" ∧ out.BreaksOff files o.output (o.result code ++ "\n"))) ∧
      (out.exit = 0 → Options.read args ≠ .ok .help → Options.read args ≠ .ok .listStyles →
        ∃ o code, Converts args stdin files o ⟨some code, []⟩ ∧
          (o.output = "" ∧ out.Prints files (o.result code ++ "\n") ∧
              ¬ out.Saves files o.output (o.result code ++ "\n") ∨
            o.output ≠ "" ∧ out.Saves files o.output (o.result code ++ "\n") ∧
              ¬ out.Prints files (o.result code ++ "\n"))) := by
  obtain ⟨out, hrun, hends⟩ := exists_run args stdin files
  refine ⟨out, hrun, ?_⟩
  cases hends with
  | misused stderr h =>
    refine ⟨.inr (.inr rfl), fun _ => .inr ⟨?_, .inl ⟨rfl, .refl _⟩⟩, nofun⟩
    rintro ⟨report, o, ⟨hread, -⟩, -⟩
    rw [h] at hread
    cases hread
  | informed stdout stderr h =>
    refine ⟨.inl rfl, fun hexit => absurd rfl hexit, fun _ hhelp hlist => ?_⟩
    exact absurd h (not_or.mpr ⟨hhelp, hlist⟩)
  | unread stderr hread hsource =>
    refine ⟨.inr (.inl rfl), fun _ => .inr ⟨?_, .inl ⟨rfl, .refl _⟩⟩, nofun⟩
    rintro ⟨report, o, ⟨hread', text, hsource', -⟩, -⟩
    cases hread.symm.trans hread'
    cases hsource.symm.trans hsource'
  | @refused o report stderr h hfailed =>
    refine ⟨.inr (.inl rfl), fun _ => ?_, nofun⟩
    cases hjson : o.json with
    | true => exact .inl ⟨report, ⟨o, h, hjson, hfailed⟩, rfl, .refl _⟩
    | false =>
      refine .inr ⟨?_, .inl ⟨rfl, .refl _⟩⟩
      rintro ⟨report', o', h', hjson', -⟩
      obtain ⟨rfl, -⟩ := h.unique h'
      rw [hjson] at hjson'
      cases hjson'
  | printed stderr h houtput =>
    refine ⟨.inl rfl, fun hexit => absurd rfl hexit, fun _ _ _ =>
      ⟨_, _, h, .inl ⟨houtput, ⟨rfl, .refl _⟩, ?_⟩⟩⟩
    exact fun hsaves => line_ne_empty _ hsaves.1
  | unopened stderr left h hleft =>
    exact ⟨.inr (.inl rfl), fun _ => .inr ⟨not_reports_of_ok h, .inl ⟨rfl, hleft⟩⟩, nofun⟩
  | saved stderr new h houtput hstores =>
    refine ⟨.inl rfl, fun hexit => absurd rfl hexit, fun _ _ _ =>
      ⟨_, _, h, .inr ⟨houtput, ⟨rfl, _, hstores⟩, ?_⟩⟩⟩
    exact fun hprints => line_ne_empty _ hprints.1.symm
  | brokenOff stderr new h houtput hbreaks =>
    refine ⟨.inr (.inl rfl), fun _ => .inr ⟨not_reports_of_ok h, .inr ⟨rfl, ?_⟩⟩, nofun⟩
    exact ⟨_, _, h, houtput, rfl, _, hbreaks⟩

end Lawful

/-- The loop as it is written by default. -/
def fillingLoopCode : String :=
  "for i = 0 ; i < 9 ; i = i + 2\n    m.put(i, 1)\nend for"

theorem convert_fillingLoop : convert fillingLoop none = .ok ⟨some fillingLoopCode, []⟩ := by
  have hblank : Text.isBlankText fillingLoop = false := by decide +kernel
  have hnormal : Source.normalize fillingLoop = fillingLoop := by decide +kernel
  have hscope : Scope.violation? fillingLoop = none := by decide +kernel
  have hstyle : Style.select none = .ok (.structured "sc-02") := rfl
  unfold convert Conversion.run
  rw [hblank, hstyle]
  unfold Conversion.ofSource
  simp only [hnormal, hscope, tokenize_fillingLoop, Conversion.ofTokens, Bool.false_eq_true,
    if_false]
  rfl

theorem run_fillingLoop {path : String} (hpath : path ≠ "") (files : Files) :
    run ["-o", path] fillingLoop files =
      .ok (Response.carryOut ⟨0, "", "", some (path, fillingLoopCode ++ "\n")⟩ files) := by
  have hanswer : respond { output := path } fillingLoop =
      .ok ⟨0, "", "", some (path, fillingLoopCode ++ "\n")⟩ := by
    unfold respond
    dsimp only
    rw [show (Conversion.run fillingLoop none).outcome = _ from convert_fillingLoop]
    exact congrArg Except.ok (if_neg hpath)
  change (respond { output := path } fillingLoop).map (·.carryOut files) = _
  rw [hanswer]
  rfl

/-- A result that is saved, and a failure that is told of although there is a file to write. -/
theorem run_delivers_fillingLoop :
    (∃ out, run ["-o", "o"] fillingLoop FileTree.empty = .ok out ∧
      out.Saves .empty "o" (fillingLoopCode ++ "\n")) ∧
    ∃ out report, run ["--json", "-o", "o"] "" FileTree.empty = .ok out ∧
      Reports ["--json", "-o", "o"] "" FileTree.empty report ∧
      out.Prints .empty (report.toJson.write ++ "\n") := by
  constructor
  · obtain ⟨out, hrun, -, -, hok⟩ := run_delivers ["-o", "o"] fillingLoop FileTree.empty
    have hout := Except.ok.inj ((run_fillingLoop (by decide) _).symm.trans hrun)
    obtain ⟨o, code, ⟨hread, text, hsource, hreport⟩, hresult⟩ := hok (hout ▸ rfl) nofun nofun
    cases hread
    cases hsource
    cases convert_fillingLoop.symm.trans hreport
    obtain ⟨houtput, -⟩ | ⟨-, hsaves, -⟩ := hresult
    · exact absurd houtput (by decide)
    · exact ⟨out, hrun, hsaves⟩
  · obtain ⟨out, hrun, -, hfail, -⟩ := run_delivers ["--json", "-o", "o"] "" FileTree.empty
    obtain ⟨report, hreports, hprints⟩ | ⟨hnone, -⟩ := hfail (by cases hrun; decide)
    · exact ⟨out, report, hrun, hreports, hprints⟩
    · exact absurd ⟨_, _, ⟨rfl, "", rfl, rfl⟩, rfl, rfl⟩ hnone

/-- A disk without room for more, with a file on it. -/
def fullDisk : FileTree :=
  { FileTree.empty with files := [(["work", "o"], "x\n".toUTF8)], capacity := some 2 }

/-- A run that fails may leave the output file neither as it was nor with the result in it, and a
run that succeeds may leave the result nowhere. -/
theorem run_loses_result :
    (FileSystem.read fullDisk "o" = .ok "x\n".toUTF8 ∧
      ∃ out, run ["-o", "o"] fillingLoop fullDisk = .ok out ∧ out.exit = 1 ∧
        FileSystem.read out.files "o" = .ok "fo".toUTF8) ∧
    ∃ out, run ["-o", "/dev/null"] fillingLoop FileTree.empty = .ok out ∧ out.exit = 0 ∧
      out.stdout = "" ∧ FileSystem.read out.files "/dev/null" = .ok .empty := by
  have hsave : FileSystem.save fullDisk "o" (fillingLoopCode ++ "\n") =
      (.error .noSpace, fullDisk.put ["work", "o"] "fo".toUTF8) := rfl
  refine ⟨⟨rfl, _, run_fillingLoop (by decide) fullDisk, ?_⟩,
    _, run_fillingLoop (by decide) FileTree.empty, rfl, rfl, rfl⟩
  unfold Response.carryOut
  dsimp only
  rw [hsave]
  exact ⟨rfl, rfl⟩

end Command

end Pseudocode
