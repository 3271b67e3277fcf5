import WordMachine.Cli.Command

/-! The program. It reads the files and standard input, and leaves all decisions to the library. -/

namespace WordMachine.Cli

/-- steps for a run without a limit: more than any run can take -/
def endless : Nat := 0x4000000000000000

/-- What the system has against a name, or what the medium fails for; there is nothing else to tell of
a file. -/
def fileError (e : IO.Error) : IO FileError :=
  match e with
  | .noFileOrDirectory .. => return .missing
  | .inappropriateType _ 21 _ => return .isDirectory
  | .inappropriateType .. => return .notADirectory
  | .invalidArgument .. => return .nameTooLong
  | .resourceExhausted _ 28 _ => return .incomplete .noSpace
  | .hardwareFault .. => return .incomplete .inputOutput
  | _ => throw e

def readBytes (name : String) : IO (Except FileError (List UInt8)) := do
  match nameError? name with
  | some e => return .error e
  | none =>
    try
      let bytes ← IO.FS.readBinFile name
      return .ok bytes.toList
    catch e => return .error (← fileError e)

def writeBytes (name : String) (bytes : List UInt8) : IO (Except FileError Unit) := do
  match nameError? name with
  | some e => return .error e
  | none =>
    try
      IO.FS.writeBinFile name ⟨bytes.toArray⟩
      return .ok ()
    catch e => return .error (← fileError e)

/-- The files that the arguments ask to be read, read beforehand. -/
def readNamed (args : List String) : IO (String → Except FileError (List UInt8)) := do
  match Request.ofArgs args with
  | .accepted o (file :: _) =>
    let program ← readBytes file
    match o.output, o.input with
    | none, some name =>
      let input ← readBytes name
      return fun asked => if asked = name then input else program
    | _, _ => return fun _ => program
  | _ => return fun _ => .error .missing

/-- The next character of standard input, if it goes on with one. -/
def readChar (stdin : IO.FS.Stream) : IO (Option Char) := do
  let first ← stdin.read 1
  match first.toList with
  | [] => return none
  | b :: _ =>
    let count := ((Utf8.Lead.ofByte? b).map Utf8.Lead.count).getD 0
    let rest ← stdin.read count.toUSize
    match Utf8.decode (b :: rest.toList) with
    | .ok (c :: _) => return some c
    | _ => throw (IO.userError "standard input is not text")

/-- Runs a machine at the console, taking characters from standard input as it asks for them. -/
partial def converseAt (stdin stdout : IO.FS.Stream) (steps : Nat) (m : Machine)
    (queued : List Char) : IO Ending := do
  let before := m.emitted.length
  let (result, after) := m.run steps
  stdout.putStr (sentText (after.output.drop before))
  stdout.flush
  match result with
  | .error e => return .failed e
  | .ok left =>
    if after.isActive then return .outOfSteps
    if after.isHalted then return .halted
    let next ← match queued with
      | c :: _ => pure (some c)
      | [] => readChar stdin
    match next with
    | none => return .endOfInput
    | some c =>
      match after.supply (String.singleton c) with
      | .error r => return .refused r
      | .ok ready => converseAt stdin stdout left ready queued.tail

def perform (job : Job) : IO UInt32 := do
  let stdout ← IO.getStdout
  let stderr ← IO.getStderr
  match job with
  | .stop n out err =>
    stdout.putStr out
    stderr.putStr err
    return n.toUInt32
  | .undecodable e => throw (IO.userError e.message)
  | .unusableName => throw (IO.userError FileError.nullInName.message)
  | .numeral e => throw (IO.userError e.message)
  | .store name image =>
    match ← writeBytes name image with
    | .ok () => return 0
    | .error .nullInName => throw (IO.userError FileError.nullInName.message)
    | .error e =>
      stderr.putStrLn (fileDiagnostic name e)
      return 1
  | .execute file m queued limit =>
    let ending ← converseAt (← IO.getStdin) stdout (stepsOf endless limit) m queued
    let (exit, err) := Ending.report file limit ending
    stderr.putStr err
    match exit with
    | .code n => return n.toUInt32
    | .undecodable e => throw (IO.userError e.message)
    | .unusableName => throw (IO.userError FileError.nullInName.message)
    | .unsendable e => throw (IO.userError e.message)
    | .numeral e => throw (IO.userError e.message)
    | .unfinished => return 1

end WordMachine.Cli

def main (args : List String) : IO UInt32 := do
  let read ← WordMachine.Cli.readNamed args
  WordMachine.Cli.perform (WordMachine.Cli.Job.ofArgs read args)
