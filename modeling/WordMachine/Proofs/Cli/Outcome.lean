import WordMachine.Proofs.Cli.Arguments
import WordMachine.Proofs.Cli.Loading
import WordMachine.Proofs.Cli.Writing
import WordMachine.Proofs.Console.Values
import WordMachine.Proofs.Image

/-! Everything that a command can come to. It prints, or fails with a diagnostic, or stores an image,
or runs a program at the console, whose end it reports. All that can go wrong on the way is one of the
causes that are listed here. -/

namespace WordMachine.Cli

/-! ### What a command does -/

/-- The characters that the machine is given before those of standard input. -/
inductive Queues (fs : Files) : Option String → List Char → Prop
  | nothing : Queues fs none []
  | file {name : String} {bytes : List UInt8} {cs : List Char} : fs.read name = .ok bytes →
      readText bytes = .ok cs → Queues fs (some name) cs

/-- A run that the arguments ask for: of these words, with these characters queued. -/
structure Asks (fs : Files) (args : List String) (o : Options) (file : String) (words : List Int)
    (queued : List Char) : Prop where
  loads : Loads fs args o file words
  runs : o.output = none
  queues : Queues fs o.input queued

/-- The outcome of the run that the arguments ask for, if it ends. -/
def Ran (fs : Files) (args : List String) (stdin : List Char) (o : Options) (file : String)
    (out : Outcome) : Prop :=
  ∃ words queued es, Asks fs args o file words queued ∧
    Console.Execution words o.limit ⟨queued, stdin⟩ es (.ok out)

/-! ### Diagnostics -/

inductive Diagnostic where
  | noFile
  | file (name : String) (why : FileError)
  /-- the program file is a source that cannot be assembled -/
  | source (name : String) (text : List Char) (why : Asm.AsmError)
  /-- the program file is no image -/
  | image (name : String) (why : LoadError)
  | fault (name : String) (trap : Trap)
  | refusal (why : Refusal)
  | endOfInput
  | stepLimit (limit : Int)
  deriving DecidableEq

def Diagnostic.text : Diagnostic → String
  | noFile => "error: no file provided"
  | file name why => fileDiagnostic name why
  | source name text why => name ++ ":" ++ why.text (String.ofList text)
  | image name why => loadDiagnostic name why
  | fault name trap => name ++ ":" ++ trap.message
  | refusal why => "error: " ++ why.message
  | endOfInput => "error: end of input"
  | stepLimit limit => "error: step limit of " ++ toString limit ++ " reached"

/-- What is told of the end of a run. -/
def diagnostic? (file : String) (limit : Option Int) : Ending → Option Diagnostic
  | .halted => none
  | .endOfInput => some .endOfInput
  | .outOfSteps => (limit.filter fun n => HasNumeral n).map .stepLimit
  | .refused why | .failed (.refused why) => some (.refusal why)
  | .failed (.trapped trap) => some (.fault file trap)
  | .failed (.output _) | .failed (.untold _) => none

/-- How the command ends with a run, and what it tells. -/
inductive Reported (file : String) (limit : Option Int) : Ending → Exit × String → Prop
  | halted : Reported file limit .halted (.code 0, "")
  | diagnosed {ending : Ending} (d : Diagnostic) : diagnostic? file limit ending = some d →
      Reported file limit ending (.code 1, d.text ++ "\n")
  | unfinished : limit = none → Reported file limit .outOfSteps (.unfinished, "")
  | unwritten {n : Int} : limit = some n → ¬ HasNumeral n →
      Reported file limit .outOfSteps (.numeral .unwritten, "")
  | unsendable (why : OutputError) : Reported file limit (.failed (.output why)) (.unsendable why, "")
  | untold (f : Fault) : Reported file limit (.failed (.untold f)) (.numeral .unwritten, "")

theorem report_cases (file : String) (limit : Option Int) (ending : Ending) :
    Reported file limit ending (Ending.report file limit ending) := by
  match ending, limit with
  | .halted, _ => exact .halted
  | .endOfInput, _ =>
    have htext : "error: end of input\n" = Diagnostic.endOfInput.text ++ "\n" := by decide
    rw [Ending.report, htext]
    exact .diagnosed .endOfInput rfl
  | .outOfSteps, none => exact .unfinished rfl
  | .outOfSteps, some n =>
    have hend : " reached\n" = " reached" ++ "\n" := by decide
    rw [Ending.report, hend, ← String.append_assoc]
    by_cases hn : HasNumeral n
    · rw [if_pos hn]
      refine .diagnosed (.stepLimit n) ?_
      rw [diagnostic?, Option.filter_some, if_pos (decide_eq_true hn), Option.map_some]
    · rw [if_neg hn]
      exact .unwritten rfl hn
  | .refused why, _ | .failed (.refused why), _ => exact .diagnosed (.refusal why) rfl
  | .failed (.trapped t), _ => exact .diagnosed (.fault file t) rfl
  | .failed (.output why), _ => exact .unsendable why
  | .failed (.untold f), _ => exact .untold f

/-- Why a command fails that does not come to run anything. -/
inductive Fails (fs : Files) (args : List String) : Diagnostic → Prop
  | noFile {o : Options} : Request.ofArgs args = .accepted o [] → Fails fs args .noFile
  | program {o : Options} {file : String} {more : List String} {why : FileError} :
      Request.ofArgs args = .accepted o (file :: more) → fs.read file = .error why →
      Fails fs args (.file file why)
  | source {o : Options} {file : String} {more : List String} {bytes : List UInt8} {cs : List Char}
      {why : Asm.AsmError} : Request.ofArgs args = .accepted o (file :: more) → o.asm = true →
      fs.read file = .ok bytes → readText bytes = .ok cs →
      Asm.assemble (String.ofList cs) = .error why → why.numeralError? = none →
      Fails fs args (.source file cs why)
  | image {o : Options} {file : String} {more : List String} {bytes : List UInt8} {why : LoadError} :
      Request.ofArgs args = .accepted o (file :: more) → o.asm = false → fs.read file = .ok bytes →
      Image.load bytes = .error why → Fails fs args (.image file why)
  | output {o : Options} {file name : String} {words : List Int} {image : List UInt8}
      {why : FileError} {fs' : Files} : Loads fs args o file words → o.output = some name →
      Image.dump words = .ok image → fs.write name image = .error (why, fs') →
      Fails fs args (.file name why)
  | input {o : Options} {file name : String} {words : List Int} {why : FileError} :
      Loads fs args o file words → o.output = none → o.input = some name →
      fs.read name = .error why → Fails fs args (.file name why)

/-- A file is read as text, but these bytes of it are none: the source of the program, or the input of
one that has been loaded to be run. -/
inductive NoText (fs : Files) (args : List String) : List UInt8 → Prop
  | source {o : Options} {file : String} {more : List String} {bytes : List UInt8} :
      Request.ofArgs args = .accepted o (file :: more) → o.asm = true → fs.read file = .ok bytes →
      ¬ Utf8.Valid bytes → NoText fs args bytes
  | input {o : Options} {file name : String} {words : List Int} {bytes : List UInt8} :
      Loads fs args o file words → o.output = none → o.input = some name → fs.read name = .ok bytes →
      ¬ Utf8.Valid bytes → NoText fs args bytes

/-- The source of the program has a number with more digits than are read, or one that is out of range
and has more than are written. -/
inductive OverlongSource (fs : Files) (args : List String) : NumeralError → Prop
  | intro {o : Options} {file : String} {more : List String} {bytes : List UInt8} {cs : List Char}
      {e : Asm.AsmError} {why : NumeralError} : Request.ofArgs args = .accepted o (file :: more) →
      o.asm = true → fs.read file = .ok bytes → readText bytes = .ok cs →
      Asm.assemble (String.ofList cs) = .error e → e.numeralError? = some why →
      OverlongSource fs args why

/-- A run is cut off by a limit with more digits than are written. -/
def OverlongLimit (fs : Files) (args : List String) (stdin : List Char) (out : Outcome) : Prop :=
  ∃ o file n, Ran fs args stdin o file out ∧ out.ending = .outOfSteps ∧ o.limit = some n ∧
    ¬ HasNumeral n

/-- The arguments give the name of a file. -/
def Names (args : List String) (name : String) : Prop :=
  ∃ o plain, Request.ofArgs args = .accepted o plain ∧
    (name ∈ plain ∨ o.output = some name ∨ o.input = some name)

/-- What a command can leave behind. -/
inductive Leaves (budget : Nat) (fs : Files) (args : List String) (stdin : List Char) : Report → Prop
  | help : Request.ofArgs args = .help → Leaves budget fs args stdin ⟨.code 0, helpText, "", fs⟩
  | refused {why : UsageError} : Request.ofArgs args = .refused why →
      Leaves budget fs args stdin ⟨.code 2, "", why.text, fs⟩
  | unusableName {name : String} : Names args name → '\x00' ∈ name.toList →
      Leaves budget fs args stdin ⟨.unusableName, "", "", fs⟩
  | undecodable {bytes : List UInt8} {why : Utf8.DecodeError} : NoText fs args bytes →
      Leaves budget fs args stdin ⟨.undecodable why, "", "", fs⟩
  | failed {d : Diagnostic} : Fails fs args d →
      Leaves budget fs args stdin ⟨.code 1, "", d.text ++ "\n", fs⟩
  | overlongSource {why : NumeralError} : OverlongSource fs args why →
      Leaves budget fs args stdin ⟨.numeral why, "", "", fs⟩
  | stored {o : Options} {file name : String} {words : List Int} {image : List UInt8} {fs' : Files} :
      Loads fs args o file words → o.output = some name → Image.dump words = .ok image →
      fs.write name image = .ok fs' → Leaves budget fs args stdin ⟨.code 0, "", "", fs'⟩
  | cut {o : Options} {file name : String} {words : List Int} {image : List UInt8}
      {why : MediumError} {fs' : Files} : Loads fs args o file words → o.output = some name →
      Image.dump words = .ok image → fs.write name image = .error (.incomplete why, fs') →
      Leaves budget fs args stdin
        ⟨.code 1, "", (Diagnostic.file name (.incomplete why)).text ++ "\n", fs'⟩
  | halted {o : Options} {file : String} {out : Outcome} : Ran fs args stdin o file out →
      out.machine.status = .halted none →
      Leaves budget fs args stdin ⟨.code 0, sentText out.machine.output, "", fs⟩
  | stopped {o : Options} {file : String} {out : Outcome} {d : Diagnostic} :
      Ran fs args stdin o file out → diagnostic? file o.limit out.ending = some d →
      Leaves budget fs args stdin ⟨.code 1, sentText out.machine.output, d.text ++ "\n", fs⟩
  | overlongLimit {out : Outcome} : OverlongLimit fs args stdin out →
      Leaves budget fs args stdin ⟨.numeral .unwritten, sentText out.machine.output, "", fs⟩
  | unfinished {o : Options} {file : String} {words : List Int} {queued : List Char}
      {es : List Console.Event} {out : Outcome} : Asks fs args o file words queued → o.limit = none →
      Console.Execution words (some budget) ⟨queued, stdin⟩ es (.ok out) → out.ending = .outOfSteps →
      Leaves budget fs args stdin ⟨.unfinished, sentText out.machine.output, "", fs⟩

/-! ### Names -/

namespace Files
variable {fs : Files}

theorem enter_ne_null (place : Path) (part : String) : fs.enter place part ≠ .error .nullInName := by
  unfold enter
  split
  · split
    · exact nofun
    · split
      · exact nofun
      · split <;> exact nofun
  · split <;> exact nofun

theorem walk_ne_null (place : Path) (parts : List String) :
    fs.walk place parts ≠ .error .nullInName := by
  induction parts generalizing place with
  | nil => exact nofun
  | cons part parts ih =>
    rw [walk]
    split
    · rename_i e he
      rintro ⟨⟩
      exact enter_ne_null place part he
    · exact ih _

theorem nameError?_eq_null {name : String} (h : nameError? name = some .nullInName) :
    '\x00' ∈ name.toList := by
  unfold nameError? at h
  split at h
  · rename_i hnul
    exact List.contains_iff_mem.1 hnul
  · split at h
    · cases h
    · split at h <;> cases h

theorem read_eq_null {name : String} (h : fs.read name = .error .nullInName) :
    '\x00' ∈ name.toList := by
  unfold read at h
  split at h
  · rename_i e he
    cases h
    exact nameError?_eq_null he
  · split at h
    · rename_i e he
      cases h
      exact absurd he (walk_ne_null _ _)
    · split at h
      · cases h
      · split at h <;> cases h

theorem opened_eq_null {name : String} (h : fs.opened name = .error .nullInName) :
    '\x00' ∈ name.toList := by
  unfold opened at h
  split at h
  · rename_i e he
    cases h
    exact nameError?_eq_null he
  · split at h
    · rename_i e he
      cases h
      unfold destination at he
      split at he
      · cases he
      · split at he
        · rename_i e hwalk
          cases he
          exact absurd hwalk (walk_ne_null _ _)
        · exact absurd he (enter_ne_null _ _)
    · split at h <;> cases h

end Files

/-! ### What comes of the arguments -/

section Cases
variable {budget : Nat} {fs : Files} {args : List String} {stdin : List Char} {o : Options}
  {file : String} {words : List Int} {queued : List Char}

theorem stepsOf_eq (budget : Nat) (limit : Option Int) :
    stepsOf budget limit = (limit.getD budget).toNat := by
  cases limit <;> rfl

/-- A run that its budget does not cut off is the run with its own limit, or with none. -/
theorem Asks.ran {es : List Console.Event} {out : Outcome} (h : Asks fs args o file words queued)
    (hrun : Console.Execution words (some (o.limit.getD budget)) ⟨queued, stdin⟩ es (.ok out))
    (hcut : o.limit = none → out.ending ≠ .outOfSteps) : Ran fs args stdin o file out := by
  cases hlimit : o.limit with
  | some limit =>
    rw [hlimit, Option.getD_some] at hrun
    exact ⟨words, queued, es, h, hlimit ▸ hrun⟩
  | none =>
    rw [hlimit, Option.getD_none] at hrun
    have heq := hrun.eq_converse
    rw [Int.toNat_natCast] at heq
    obtain ⟨es', hrun'⟩ := Console.execution_none_iff.2 ⟨budget, heq.symm, hcut hlimit⟩
    exact ⟨words, queued, es', h, hlimit ▸ hrun'⟩

/-- A job of running words ends with the report of their run. -/
theorem exists_report (budget : Nat) (fs : Files) (stdin : List Char) (file : String)
    (queued : List Char) (limit : Option Int) (hlen : words.length ≤ memorySize)
    (hw : ∀ w ∈ words, InRange maxOperand w) :
    ∃ es out, Console.Execution words (some (limit.getD budget)) ⟨queued, stdin⟩ es (.ok out) ∧
      (Job.executing file words queued limit).run budget fs stdin =
        Console.report file limit fs (.ok out) := by
  obtain ⟨es, hrun⟩ := Console.exists_execution words (limit.getD budget) ⟨queued, stdin⟩
  rw [Console.run_executing, stepsOf_eq]
  rw [Machine.load_of_range (by decide) hlen hw] at hrun ⊢
  exact ⟨es, _, hrun, rfl⟩

theorem leaves_of_execution {es : List Console.Event} {out : Outcome}
    (h : Asks fs args o file words queued)
    (hrun : Console.Execution words (some (o.limit.getD budget)) ⟨queued, stdin⟩ es (.ok out)) :
    Leaves budget fs args stdin (Console.report file o.limit fs (.ok out)) := by
  have hcases := report_cases file o.limit out.ending
  simp only [Console.report]
  generalize Ending.report file o.limit out.ending = told at hcases ⊢
  generalize hending : out.ending = ending at hcases
  cases hcases with
  | halted =>
    exact .halted (h.ran hrun fun _ => by rw [hending]; exact nofun) (hrun.status_of_halted hending)
  | diagnosed d hd =>
    refine .stopped (h.ran hrun ?_) (hending ▸ hd)
    intro hnone hcut
    rw [← hending, hcut, hnone] at hd
    cases hd
  | unfinished hnone =>
    rw [hnone, Option.getD_none] at hrun
    exact .unfinished h hnone hrun hending
  | unwritten hlimit hn =>
    have hran := h.ran hrun fun hnone => absurd (hnone.symm.trans hlimit) nofun
    exact .overlongLimit ⟨o, file, _, hran, hending, hlimit, hn⟩
  | unsendable why => exact absurd hending ((hrun.sent h.loads.range.2).2 why)
  | untold f =>
    refine absurd hending (hrun.told (fun w hw => ?_) f)
    obtain ⟨hlow, hhigh⟩ := h.loads.range.2 w hw
    exact hasNumeral_of_range hlow (by simp only [maxOperand, modulus] at hhigh; omega)

theorem leaves_of_asks (h : Asks fs args o file words queued) :
    Leaves budget fs args stdin ((Job.executing file words queued o.limit).run budget fs stdin) := by
  obtain ⟨hlen, hw⟩ := h.loads.range
  obtain ⟨es, out, hrun, hreport⟩ := exists_report budget fs stdin file queued o.limit hlen hw
  exact hreport ▸ leaves_of_execution h hrun

theorem leaves_of_ofFileError {name : String} {why : FileError}
    (hnull : why = .nullInName → Names args name ∧ '\x00' ∈ name.toList)
    (hfails : Fails fs args (.file name why)) :
    Leaves budget fs args stdin ((Job.ofFileError name why).run budget fs stdin) := by
  cases why with
  | nullInName => exact .unusableName (hnull rfl).1 (hnull rfl).2
  | missing | isDirectory | notADirectory | nameTooLong | incomplete => exact .failed hfails

theorem run_store (name : String) (image : List UInt8) :
    (Job.store name image).run budget fs stdin = match fs.write name image with
      | .ok fs' => ⟨.code 0, "", "", fs'⟩
      | .error (why, fs') => (Job.ofFileError name why).run budget fs' stdin := by
  rw [Job.run]
  cases fs.write name image with
  | ok fs' => rfl
  | error failure =>
    obtain ⟨why, fs'⟩ := failure
    cases why <;> rfl

theorem leaves_of_stores {name : String} (h : Loads fs args o file words) (ho : o.output = some name) :
    Leaves budget fs args stdin ((Job.storing file name words).run budget fs stdin) := by
  obtain ⟨hlen, hw⟩ := h.range
  have hdump := Image.dump_of_range hlen hw
  simp only [Job.storing, hdump, run_store]
  split
  · rename_i fs' hwrite
    exact .stored h ho hdump hwrite
  · rename_i why fs' hwrite
    rcases Files.write_eq_error hwrite with ⟨hopened, rfl⟩ | ⟨path, flaw, -, -, rfl, -⟩
    · refine leaves_of_ofFileError ?_ (.output h ho hdump hwrite)
      rintro rfl
      obtain ⟨more, _, hargs, -, -⟩ := h
      exact ⟨⟨o, _, hargs, .inr (.inl ho)⟩, Files.opened_eq_null hopened⟩
    · exact .cut h ho hdump hwrite

theorem leaves_of_loads (h : Loads fs args o file words) :
    Leaves budget fs args stdin ((Job.ofWords fs.read o file words).run budget fs stdin) := by
  unfold Job.ofWords
  split
  · rename_i ho
    exact leaves_of_stores h ho
  · rename_i ho hi
    exact leaves_of_asks ⟨h, ho, hi ▸ .nothing⟩
  · rename_i name ho hi
    split
    · rename_i why hread
      refine leaves_of_ofFileError ?_ (.input h ho hi hread)
      rintro rfl
      obtain ⟨more, _, hargs, -, -⟩ := h
      exact ⟨⟨o, _, hargs, .inr (.inr hi)⟩, Files.read_eq_null hread⟩
    · rename_i bytes hread
      split
      · rename_i why hwhy
        exact .undecodable (.input h ho hi hread (exists_readText_eq_error_iff.1 ⟨_, hwhy⟩))
      · rename_i queued hqueued
        exact leaves_of_asks ⟨h, ho, hi ▸ .file hread hqueued⟩

theorem leaves_of_ofAsmError {more : List String} {bytes : List UInt8} {cs : List Char}
    {e : Asm.AsmError} (hargs : Request.ofArgs args = .accepted o (file :: more))
    (hasm : o.asm = true) (hread : fs.read file = .ok bytes) (hcs : readText bytes = .ok cs)
    (he : Asm.assemble (String.ofList cs) = .error e) :
    Leaves budget fs args stdin ((Job.ofAsmError file (String.ofList cs) e).run budget fs stdin) := by
  unfold Job.ofAsmError
  split
  · rename_i why hwhy
    exact .overlongSource ⟨hargs, hasm, hread, hcs, he, hwhy⟩
  · rename_i hnone
    exact .failed (.source hargs hasm hread hcs he hnone)

/-- A command leaves nothing else behind. -/
theorem command_cases (budget : Nat) (fs : Files) (args : List String) (stdin : List Char) :
    Leaves budget fs args stdin (command budget fs args stdin) := by
  unfold command Job.ofArgs
  split
  · rename_i hargs
    exact .help hargs
  · rename_i why hargs
    exact .refused hargs
  · rename_i o hargs
    exact .failed (.noFile hargs)
  · rename_i o file more hargs
    split
    · rename_i why hread
      refine leaves_of_ofFileError ?_ (.program hargs hread)
      rintro rfl
      exact ⟨⟨o, _, hargs, .inl List.mem_cons_self⟩, Files.read_eq_null hread⟩
    · rename_i bytes hread
      split
      · rename_i job hjob
        rcases loadWords_eq_error hjob with ⟨hasm, e, he, rfl⟩ | ⟨hasm, cs, e, hcs, he, rfl⟩ |
          ⟨hasm, e, he, rfl⟩
        · exact .undecodable (.source hargs hasm hread (exists_readText_eq_error_iff.1 ⟨_, he⟩))
        · exact leaves_of_ofAsmError hargs hasm hread hcs he
        · exact .failed (.image hargs hasm hread he)
      · rename_i words hwords
        exact leaves_of_loads ⟨more, bytes, hargs, hread, hwords⟩

/-- The command does the run that its arguments ask for. -/
theorem command_of_asks (h : Asks fs args o file words queued) :
    command budget fs args stdin = (Job.executing file words queued o.limit).run budget fs stdin := by
  obtain ⟨hloads, ho, hqueues⟩ := h
  simp only [hloads.command, Job.ofWords, ho]
  generalize o.input = input at hqueues
  cases hqueues with
  | nothing => rfl
  | file hinput htext => simp only [hinput, htext]

/-- A file that is no text ends the command that reads it as text. -/
theorem command_of_noText {bytes : List UInt8} (h : NoText fs args bytes) :
    ∃ why, (command budget fs args stdin).exit = .undecodable why := by
  cases h with
  | source hargs hasm hread hinvalid =>
    obtain ⟨why, hwhy⟩ := exists_readText_eq_error_iff.2 hinvalid
    refine ⟨why, ?_⟩
    simp only [command, Job.ofArgs, hargs, hread, loadWords, hasm, if_true, hwhy, Job.run]
  | input hloads ho hi hread hinvalid =>
    obtain ⟨why, hwhy⟩ := exists_readText_eq_error_iff.2 hinvalid
    refine ⟨why, ?_⟩
    simp only [hloads.command, Job.ofWords, ho, hi, hread, hwhy, Job.run]

end Cases

end WordMachine.Cli
