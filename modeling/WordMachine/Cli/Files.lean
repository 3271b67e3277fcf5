/-! Files and directories: one tree, the working directory somewhere in it, and the medium that holds
them. A name is split at
its slashes. It leads from the root if it starts with a slash, and else from the working directory;
every part but the last must lead into a directory. Of two things that are wrong with a name, the one
that is met first on this way is reported. -/

namespace WordMachine.Cli

/-- the parts of a place in the tree, from the root on -/
abbrev Path := List String

/-- Why a medium does not take all bytes of a file. -/
inductive MediumError where
  | noSpace
  | quotaExceeded
  | fileTooLarge
  | inputOutput
  deriving DecidableEq, Repr

def MediumError.message : MediumError → String
  | noSpace => "No space left on device"
  | quotaExceeded => "Disk quota exceeded"
  | fileTooLarge => "File too large"
  | inputOutput => "Input/output error"

inductive FileError where
  | missing
  | isDirectory
  | notADirectory
  /-- the name, or a part of it, has more bytes than one may have -/
  | nameTooLong
  /-- the name holds the character with code zero, which no name can hold -/
  | nullInName
  /-- the file was opened to be written, but not all its bytes were taken -/
  | incomplete (why : MediumError)
  deriving DecidableEq, Repr

def FileError.message : FileError → String
  | missing => "No such file or directory"
  | isDirectory => "Is a directory"
  | notADirectory => "Not a directory"
  | nameTooLong => "File name too long"
  | nullInName => "embedded null byte"
  | incomplete why => why.message

/-- What becomes of a write on a medium that fails. -/
structure Flaw where
  /-- how many bytes are taken -/
  taken : Nat
  why : MediumError
  deriving DecidableEq, Repr

structure Files where
  /-- the working directory -/
  here : Path
  /-- the directories, but for the working directory and those around it, which are always there -/
  directories : List Path
  contents : List (Path × List UInt8)
  /-- what is wrong with the medium, if it does not take all bytes that are written -/
  flaw : Option Flaw := none
  deriving DecidableEq, Repr

/-- the greatest number of bytes in a name -/
def maxNameBytes : Nat := 4095

/-- the greatest number of bytes in a part of a name -/
def maxPartBytes : Nat := 255

/-- the parts of a text between its slashes -/
def splitAtSlashes : List Char → List (List Char)
  | [] => [[]]
  | c :: cs =>
    if c = '/' then [] :: splitAtSlashes cs
    else match splitAtSlashes cs with
      | [] => [[c]]
      | part :: parts => (c :: part) :: parts

def partsOf (name : String) : List String := (splitAtSlashes name.toList).map String.ofList

/-- What is wrong with a name wherever it leads. -/
def nameError? (name : String) : Option FileError :=
  if name.toList.contains '\x00' then some .nullInName
  else if name = "" then some .missing
  else if maxNameBytes < name.utf8ByteSize then some .nameTooLong
  else none

namespace Files

def isDirectory (fs : Files) (path : Path) : Bool :=
  path.isPrefixOf fs.here || fs.directories.contains path

/-- where a name leads from -/
def origin (fs : Files) (name : String) : Path :=
  if name.toList.head? = some '/' then [] else fs.here

/-- Follows one part of a name from a place, which must be a directory. An empty part or a dot stays
there, and two dots go to the directory around it; around the root there is the root itself. -/
def enter (fs : Files) (place : Path) (part : String) : Except FileError Path :=
  if fs.isDirectory place then
    if part = "" ∨ part = "." then .ok place
    else if part = ".." then .ok place.dropLast
    else if maxPartBytes < part.utf8ByteSize then .error .nameTooLong
    else .ok (place ++ [part])
  else if (fs.contents.lookup place).isSome then .error .notADirectory
  else .error .missing

/-- Follows the parts of a name from a place. -/
def walk (fs : Files) (place : Path) : List String → Except FileError Path
  | [] => .ok place
  | part :: parts =>
    match fs.enter place part with
    | .error e => .error e
    | .ok place => fs.walk place parts

def read (fs : Files) (name : String) : Except FileError (List UInt8) :=
  match nameError? name with
  | some e => .error e
  | none =>
    match fs.walk (fs.origin name) (partsOf name) with
    | .error e => .error e
    | .ok path =>
      if fs.isDirectory path then .error .isDirectory
      else match fs.contents.lookup path with
        | some bytes => .ok bytes
        | none => .error .missing

/-- Where the file is that a name asks to be written. It need not be there before, but its directory
must. A name that ends with a slash can only be a directory, whatever its last part is. -/
def destination (fs : Files) (name : String) : Except FileError Path :=
  match (partsOf name).reverse.dropWhile (· == "") with
  | [] => .ok []
  | last :: around =>
    match fs.walk (fs.origin name) around.reverse with
    | .error e => .error e
    | .ok place => fs.enter place (if name.toList.getLast? = some '/' then "." else last)

/-- The place of a file that is opened to be written. -/
def opened (fs : Files) (name : String) : Except FileError Path :=
  match nameError? name with
  | some e => .error e
  | none =>
    match fs.destination name with
    | .error e => .error e
    | .ok path => if fs.isDirectory path then .error .isDirectory else .ok path

/-- The tree with the contents of the file at a place set. -/
def put (fs : Files) (path : Path) (bytes : List UInt8) : Files :=
  { fs with contents := (path, bytes) :: fs.contents.filter (·.1 ≠ path) }

/-- The tree with a file written. If that fails, the tree as it is left: an opened file has lost what it
held before, and holds the bytes that were taken. -/
def write (fs : Files) (name : String) (bytes : List UInt8) : Except (FileError × Files) Files :=
  match fs.opened name with
  | .error e => .error (e, fs)
  | .ok path =>
    match fs.flaw with
    | none => .ok (fs.put path bytes)
    | some flaw => .error (.incomplete flaw.why, fs.put path (bytes.take flaw.taken))

theorem walk_append (fs : Files) (place : Path) (parts more : List String) :
    fs.walk place (parts ++ more) = (fs.walk place parts).bind (fs.walk · more) := by
  induction parts generalizing place with
  | nil => rfl
  | cons part parts ih =>
    simp only [List.cons_append, walk]
    cases fs.enter place part with
    | error e => rfl
    | ok place => exact ih place

/-- The working directory and all those around it are directories. -/
theorem isDirectory_of_prefix (fs : Files) {path : Path} (h : path <+: fs.here) :
    fs.isDirectory path = true := by
  simp [isDirectory, List.isPrefixOf_iff_prefix.2 h]

end Files
end WordMachine.Cli
