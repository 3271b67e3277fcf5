import WordMachine.Cli.Integer
import WordMachine.Text.Quote

/-! The options of the command line. An option that takes a value finds it behind an equals sign, in
the same argument behind its letter, or in the next argument, whatever that looks like. A long
option may be cut short as long as one option only starts that way. Options and other arguments may
be mixed; behind `--` all arguments are taken as they are. -/

namespace WordMachine.Cli

structure Options where
  /-- the program is an assembler source -/
  asm : Bool
  /-- where the image is written, if it is not to be run -/
  output : Option String
  /-- the file whose characters the machine gets first -/
  input : Option String
  /-- the greatest number of instructions -/
  limit : Option Int
  deriving DecidableEq, Repr

def Options.default : Options := ⟨false, none, none, none⟩

inductive Flag where
  | asm | help | input | limit | output
  deriving DecidableEq, Repr

/-- Every option, in the order of the names. -/
def Flag.all : List Flag := [asm, help, input, limit, output]

def Flag.name : Flag → String
  | asm => "--asm"
  | help => "--help"
  | input => "--input"
  | limit => "--limit"
  | output => "--output"

def Flag.takesValue : Flag → Bool
  | asm | help => false
  | input | limit | output => true

/-- Why the arguments are refused. -/
inductive UsageError where
  | unknown (option : String)
  /-- several options start with these letters -/
  | ambiguous (option : String) (candidates : List Flag)
  | missingValue (option : String)
  | unexpectedValue (flag : Flag)
  | notAnInteger (flag : Flag) (value : String)
  deriving DecidableEq, Repr

def UsageError.message : UsageError → String
  | unknown option => "no such option: " ++ option
  | ambiguous option candidates =>
    "ambiguous option: " ++ option ++ " (" ++ ", ".intercalate (candidates.map Flag.name) ++ "?)"
  | missingValue option => option ++ " option requires 1 argument"
  | unexpectedValue flag => flag.name ++ " option does not take a value"
  | notAnInteger flag value =>
    "option " ++ flag.name ++ ": invalid integer value: " ++ quoted value

/-- What the arguments ask for. -/
inductive Request where
  | help
  | refused (why : UsageError)
  /-- the options, and the other arguments in order -/
  | accepted (options : Options) (arguments : List String)
  deriving DecidableEq, Repr

/-- The options with a name that starts with the text; a full name stands for itself alone. -/
def Flag.matching (text : List Char) : List Flag :=
  match Flag.all.find? fun f => f.name.toList = text with
  | some f => [f]
  | none => Flag.all.filter fun f => text.isPrefixOf f.name.toList

def Options.enable (o : Options) : Flag → Options
  | .asm => { o with asm := true }
  | _ => o

/-- The options with one more value; a later value takes the place of an earlier one. -/
def Options.set (o : Options) (flag : Flag) (value : String) : Except UsageError Options :=
  match flag with
  | .output => .ok { o with output := some value }
  | .input => .ok { o with input := some value }
  | .limit =>
    match integer? value with
    | some n => .ok { o with limit := some n }
    | none => .error (.notAnInteger flag value)
  | .asm | .help => .ok o

/-- One argument as it is written. -/
inductive Argument where
  /-- `--`, behind which there are no options -/
  | separator
  /-- a long option, and the value behind its equals sign -/
  | long (name : List Char) (value : Option (List Char))
  /-- the letter of a short option, and what is written behind it -/
  | short (letter : Char) (rest : List Char)
  | plain
  deriving DecidableEq, Repr

/-- the part before the first equals sign, and the part behind it if there is one -/
def splitAtEquals : List Char → List Char × Option (List Char)
  | [] => ([], none)
  | c :: cs =>
    if c = '=' then ([], some cs)
    else
      let parts := splitAtEquals cs
      (c :: parts.1, parts.2)

def Argument.ofText (text : List Char) : Argument :=
  match text with
  | ['-', '-'] => .separator
  | '-' :: '-' :: _ => .long (splitAtEquals text).1 (splitAtEquals text).2
  | '-' :: letter :: rest => .short letter rest
  | _ => .plain

/-- Reads the arguments from left to right; `plain` are those before them that are no options, the
last one first. -/
def Request.read (o : Options) (plain : List String) : List String → Request
  | [] => .accepted o plain.reverse
  | arg :: args =>
    match Argument.ofText arg.toList with
    | .separator => .accepted o (plain.reverse ++ args)
    | .plain => Request.read o (arg :: plain) args
    | .short letter rest =>
      if letter = 'h' then .help
      else if letter = 'o' then
        match rest, args with
        | [], [] => .refused (.missingValue "-o")
        | [], value :: args =>
          Request.read { o with output := some value } plain args
        | c :: cs, args =>
          Request.read { o with output := some (String.ofList (c :: cs)) } plain args
      else .refused (.unknown (String.ofList ['-', letter]))
    | .long name value =>
      match Flag.matching name with
      | [] => .refused (.unknown (String.ofList name))
      | [flag] =>
        if flag.takesValue then
          match value, args with
          | none, [] => .refused (.missingValue flag.name)
          | none, value :: args =>
            match o.set flag value with
            | .error e => .refused e
            | .ok o => Request.read o plain args
          | some value, args =>
            match o.set flag (String.ofList value) with
            | .error e => .refused e
            | .ok o => Request.read o plain args
        else if value.isSome then .refused (.unexpectedValue flag)
        else if flag = .help then .help
        else Request.read (o.enable flag) plain args
      | flags => .refused (.ambiguous (String.ofList name) flags)

def Request.ofArgs (args : List String) : Request := Request.read .default [] args

def usageText : String := "Usage: synrun [options] filename\n"

def helpText : String :=
  usageText ++ "\n" ++
  "Options:\n" ++
  "  -h, --help            show this help message and exit\n" ++
  "  --asm                 treat filename as assembler source instead of a binary\n" ++
  "                        image\n" ++
  "  -o FILE, --output=FILE\n" ++
  "                        write the program image to FILE instead of running it\n" ++
  "  --input=FILE          feed the contents of FILE as input before standard\n" ++
  "                        input\n" ++
  "  --limit=N             stop with an error after N instructions\n"

/-- what is printed when the arguments are refused -/
def UsageError.text (e : UsageError) : String :=
  usageText ++ "\nsynrun: error: " ++ e.message ++ "\n"

end WordMachine.Cli
