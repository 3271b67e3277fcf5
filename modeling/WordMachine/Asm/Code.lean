import WordMachine.Asm.Parse
import WordMachine.Text.Place

/-! Code. Statements are turned into words in one pass. A reference to a label is emitted as a zero
and kept as a fixup; when all statements are through, every fixup gets the address of its label. -/

namespace WordMachine.Asm

/-- Why a statement or an operand cannot be turned into words. -/
inductive CodeError where
  | alreadyDefined (name : String)
  /-- the label's address is beyond the last cell -/
  | outsideMemory (name : String)
  | wrongArity (op : Opcode) (operands : Nat)
  | notARegister (op : Opcode)
  /-- the number does not fit in fifteen bits -/
  | numberTooWide (n : Nat)
  | notOneCharacter
  /-- the character does not fit in fifteen bits -/
  | charTooWide (c : Char)
  /-- a text as the operand of an instruction -/
  | misplacedText
  | undefined (name : String)
  deriving DecidableEq, Repr

def CodeError.message : CodeError → String
  | alreadyDefined x => "label `" ++ x ++ "` already defined"
  | outsideMemory x => "label `" ++ x ++ "` lies outside of memory"
  | wrongArity op n =>
    op.lowerName ++ " takes " ++ toString op.arity ++ " operand(s), got " ++ toString n
  | notARegister op => op.lowerName ++ " destination must be a register"
  | numberTooWide n => "number " ++ toString n ++ " does not fit in 15 bits"
  | notOneCharacter => "character literal must hold one character"
  | charTooWide c => "character " ++ quoted (String.singleton c) ++ " does not fit in 15 bits"
  | misplacedText => "string literal outside of .data"
  | undefined x => "label `" ++ x ++ "` is not defined"

/-- Why a source is not assembled. -/
inductive AsmError where
  | syntaxError (why : SyntaxError)
  | code (loc : Nat) (why : CodeError)
  | tooLong (words : Nat)
  deriving DecidableEq, Repr

/-- The diagnostic for an error in a source, if it is not kept from being written. -/
def AsmError.text (source : String) : AsmError → String
  | syntaxError why => diagnostic (expandTabs source.toList) why.loc why.message
  | code loc why => diagnostic (expandTabs source.toList) loc why.message
  | tooLong n => "error: program of " ++ toString n ++ " words does not fit in memory"

/-- What keeps the diagnostic from being written: a number of the source is not read, or one that is to
be named has no numeral. -/
def AsmError.numeralError? : AsmError → Option NumeralError
  | syntaxError (.overlong _ digits) => some (.unread digits)
  | code _ (.numberTooWide n) => if HasNumeral n then none else some .unwritten
  | _ => none

/-- A reference to a label at an address that is to hold the label's address. -/
structure Fixup where
  addr : Nat
  /-- the location of the reference in the source -/
  loc : Nat
  name : String
  deriving DecidableEq, Repr

/-- The words so far, and what is known about labels. -/
structure Draft where
  words : Array Int
  /-- the labels that are defined, with their addresses; the last one first -/
  labels : List (String × Nat)
  /-- the references that are to be filled in; the last one first -/
  fixups : List Fixup
  deriving DecidableEq, Repr

namespace Draft

def empty : Draft := ⟨#[], [], []⟩

def emit (d : Draft) (word : Int) : Draft := { d with words := d.words.push word }

/-- Emits one character. -/
def emitChar (d : Draft) (loc : Nat) (c : Char) : Except AsmError Draft :=
  if c.toNat < modulus then .ok (d.emit c.toNat) else .error (.code loc (.charTooWide c))

/-- Emits the word of an operand. -/
def emitOperand (d : Draft) (o : Operand) : Except AsmError Draft :=
  match o.value with
  | .register r => .ok (d.emit r.word)
  | .number n => if n < modulus then .ok (d.emit n) else .error (.code o.loc (.numberTooWide n))
  | .char s =>
    match s.toList with
    | [c] => d.emitChar o.loc c
    | _ => .error (.code o.loc .notOneCharacter)
  | .text _ => .error (.code o.loc .misplacedText)
  | .label x => .ok { d.emit 0 with fixups := ⟨d.words.size, o.loc, x⟩ :: d.fixups }

/-- Emits the word of an operand in the given role: what is written must be a register. -/
def emitInRole (d : Draft) (op : Opcode) (role : Role) (o : Operand) : Except AsmError Draft :=
  match role, o.value with
  | .write, .register _ | .read, _ => d.emitOperand o
  | .write, _ => .error (.code o.loc (.notARegister op))

/-- Emits operands in their roles, from left to right. -/
def emitOperands (d : Draft) (op : Opcode) : List (Role × Operand) → Except AsmError Draft
  | [] => .ok d
  | (role, o) :: rest =>
    match d.emitInRole op role o with
    | .error e => .error e
    | .ok d => d.emitOperands op rest

def emitChars (d : Draft) (loc : Nat) : List Char → Except AsmError Draft
  | [] => .ok d
  | c :: cs =>
    match d.emitChar loc c with
    | .error e => .error e
    | .ok d => d.emitChars loc cs

/-- Emits a row of data: a text gives one word for each of its characters. -/
def emitValues (d : Draft) : List Operand → Except AsmError Draft
  | [] => .ok d
  | o :: rest =>
    let emitted := match o.value with
      | .text s => d.emitChars o.loc s.toList
      | _ => d.emitOperand o
    match emitted with
    | .error e => .error e
    | .ok d => d.emitValues rest

def define (d : Draft) (loc : Nat) (name : String) : Except AsmError Draft :=
  if (d.labels.lookup name).isSome then .error (.code loc (.alreadyDefined name))
  else if memorySize ≤ d.words.size then .error (.code loc (.outsideMemory name))
  else .ok { d with labels := (name, d.words.size) :: d.labels }

def emitStatement (d : Draft) (s : Statement) : Except AsmError Draft :=
  match s.command with
  | .label name => d.define s.loc name
  | .instruction op operands =>
    if operands.length = op.arity then (d.emit op.code).emitOperands op (op.signature.zip operands)
    else .error (.code s.loc (.wrongArity op operands.length))
  | .data values => d.emitValues values

def emitStatements (d : Draft) : List Statement → Except AsmError Draft
  | [] => .ok d
  | s :: rest =>
    match d.emitStatement s with
    | .error e => .error e
    | .ok d => d.emitStatements rest

/-- Fills in references, in the order in which they were emitted. -/
def patch (labels : List (String × Nat)) (words : Array Int) :
    List Fixup → Except AsmError (Array Int)
  | [] => .ok words
  | f :: rest =>
    match labels.lookup f.name with
    | none => .error (.code f.loc (.undefined f.name))
    | some addr => patch labels (words.setIfInBounds f.addr addr) rest

/-- The finished words, if they fit in memory. -/
def finish (d : Draft) : Except AsmError (List Int) :=
  match patch d.labels d.words d.fixups.reverse with
  | .error e => .error e
  | .ok words =>
    if memorySize < words.size then .error (.tooLong words.size) else .ok words.toList

end Draft

/-- The words of a program. -/
def assembleProgram (program : List Statement) : Except AsmError (List Int) :=
  match Draft.empty.emitStatements program with
  | .error e => .error e
  | .ok d => d.finish

/-- The words of a source. -/
def assemble (source : String) : Except AsmError (List Int) :=
  match parse source with
  | .error why => .error (.syntaxError why)
  | .ok program => assembleProgram program

end WordMachine.Asm
