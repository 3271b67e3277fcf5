import WordMachine.Asm.Code
import WordMachine.Cli.Files
import WordMachine.Cli.Options
import WordMachine.Image
import WordMachine.Machine.Console
import WordMachine.Text.Newlines
import WordMachine.Text.Utf8

/-! The command. It loads a program, from an image or from an assembler source, and then either
writes its image or runs it at the console. `Job.ofArgs` settles what is to be done, from the
arguments and the files; `Job.run` does it. -/

namespace WordMachine.Cli

/-- How the command ends. -/
inductive Exit where
  | code (n : Nat)
  /-- a file that is read as text is no text -/
  | undecodable (why : Utf8.DecodeError)
  /-- a file name holds a character that no name can hold -/
  | unusableName
  /-- the machine sent out a value that is no code point -/
  | unsendable (why : OutputError)
  /-- a number has too many digits to be read, or to be written -/
  | numeral (why : NumeralError)
  /-- without a limit of its own, the run is cut off -/
  | unfinished
  deriving DecidableEq, Repr

/-- What the command does once the arguments are read and the files are loaded. -/
inductive Job where
  /-- prints and ends -/
  | stop (exit : Nat) (stdout stderr : String)
  | undecodable (why : Utf8.DecodeError)
  | unusableName
  /-- ends at a number with too many digits -/
  | numeral (why : NumeralError)
  /-- writes an image -/
  | store (name : String) (image : List UInt8)
  /-- runs a program, which `file` holds; `queued` comes before standard input -/
  | execute (file : String) (program : Machine) (queued : List Char) (limit : Option Int)

/-- The job of a command that fails with the given diagnostic. -/
def Job.fail (diagnostic : String) : Job := .stop 1 "" (diagnostic ++ "\n")

/-- What is told of a file. Once a file is open, it is no longer named. -/
def fileDiagnostic (name : String) (e : FileError) : String :=
  match e with
  | .incomplete why => "error: None: " ++ why.message
  | e => "error: " ++ name ++ ": " ++ e.message

/-- The job of a command that cannot open a file. -/
def Job.ofFileError (name : String) : FileError → Job
  | .nullInName => .unusableName
  | e => .fail (fileDiagnostic name e)

def loadDiagnostic (file : String) (e : LoadError) : String := file ++ ": error: " ++ e.message

/-- The job of a command whose words are not accepted. -/
def Job.ofLoadError (file : String) : LoadError → Job
  | .untold _ _ => .numeral .unwritten
  | e => .fail (loadDiagnostic file e)

/-- The characters of a text file, if it is one. -/
def readText (bytes : List UInt8) : Except Utf8.DecodeError (List Char) :=
  (Utf8.decode bytes).map readNewlines

/-- The job of a command whose source is not assembled. -/
def Job.ofAsmError (file source : String) (e : Asm.AsmError) : Job :=
  match e.numeralError? with
  | some why => .numeral why
  | none => .fail (file ++ ":" ++ e.text source)

/-- The words of a program file, or the job that is left without them. -/
def loadWords (asm : Bool) (file : String) (bytes : List UInt8) : Except Job (List Int) :=
  if asm then
    match readText bytes with
    | .error e => .error (.undecodable e)
    | .ok cs =>
      let source := String.ofList cs
      match Asm.assemble source with
      | .error e => .error (.ofAsmError file source e)
      | .ok words => .ok words
  else match Image.load bytes with
    | .error e => .error (.ofLoadError file e)
    | .ok words => .ok words

/-- The job of writing words to a file. -/
def Job.storing (file name : String) (words : List Int) : Job :=
  match Image.dump words with
  | .error e => .ofLoadError file e
  | .ok image => .store name image

/-- The job of running words with the given characters queued. -/
def Job.executing (file : String) (words : List Int) (queued : List Char) (limit : Option Int) :
    Job :=
  match Machine.load words with
  | .error e => .ofLoadError file e
  | .ok m => .execute file m queued limit

/-- What to do with the words of the program file. -/
def Job.ofWords (read : String → Except FileError (List UInt8)) (o : Options) (file : String)
    (words : List Int) : Job :=
  match o.output, o.input with
  | some name, _ => .storing file name words
  | none, none => .executing file words [] o.limit
  | none, some name =>
    match read name with
    | .error e => .ofFileError name e
    | .ok bytes =>
      match readText bytes with
      | .error e => .undecodable e
      | .ok queued => .executing file words queued o.limit

/-- What the arguments ask for, with files read as `read` reads them. -/
def Job.ofArgs (read : String → Except FileError (List UInt8)) (args : List String) : Job :=
  match Request.ofArgs args with
  | .help => .stop 0 helpText ""
  | .refused e => .stop 2 "" e.text
  | .accepted _ [] => .fail "error: no file provided"
  | .accepted o (file :: _) =>
    match read file with
    | .error e => .ofFileError file e
    | .ok bytes =>
      match loadWords o.asm file bytes with
      | .error job => job
      | .ok words => .ofWords read o file words

/-- The text of the characters sent out. The words of images are all below the surrogates, so each
code point is a character. -/
def sentText (codePoints : List Nat) : String := String.ofList (codePoints.map Char.ofNat)

/-- What a run that does not halt by itself is told, and how the command then ends. -/
def Ending.report (file : String) (limit : Option Int) : Ending → Exit × String
  | .halted => (.code 0, "")
  | .endOfInput => (.code 1, "error: end of input\n")
  | .outOfSteps =>
    match limit with
    | some n =>
      if HasNumeral n then (.code 1, "error: step limit of " ++ toString n ++ " reached\n")
      else (.numeral .unwritten, "")
    | none => (.unfinished, "")
  | .refused r => (.code 1, "error: " ++ r.message ++ "\n")
  | .failed (.refused r) => (.code 1, "error: " ++ r.message ++ "\n")
  | .failed (.trapped t) => (.code 1, file ++ ":" ++ t.message ++ "\n")
  | .failed (.output e) => (.unsendable e, "")
  | .failed (.untold _) => (.numeral .unwritten, "")

/-- What a command leaves behind. -/
structure Report where
  exit : Exit
  stdout : String
  stderr : String
  files : Files
  deriving DecidableEq, Repr

/-- Does a job. `budget` bounds a run that has no limit of its own. -/
def Job.run (budget : Nat) (files : Files) (stdin : List Char) : Job → Report
  | .stop n stdout stderr => ⟨.code n, stdout, stderr, files⟩
  | .undecodable e => ⟨.undecodable e, "", "", files⟩
  | .unusableName => ⟨.unusableName, "", "", files⟩
  | .numeral e => ⟨.numeral e, "", "", files⟩
  | .store name image =>
    match files.write name image with
    | .error (.nullInName, files) => ⟨.unusableName, "", "", files⟩
    | .error (e, files) => ⟨.code 1, "", fileDiagnostic name e ++ "\n", files⟩
    | .ok files => ⟨.code 0, "", "", files⟩
  | .execute file m queued limit =>
    let outcome := m.converse (stepsOf budget limit) ⟨queued, stdin⟩
    let (exit, stderr) := Ending.report file limit outcome.ending
    ⟨exit, sentText outcome.machine.output, stderr, files⟩

/-- Runs the command in a working directory. -/
def command (budget : Nat) (files : Files) (args : List String) (stdin : List Char) : Report :=
  (Job.ofArgs files.read args).run budget files stdin

end WordMachine.Cli
