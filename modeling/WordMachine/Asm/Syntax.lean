import WordMachine.Opcode
import WordMachine.Text.Numeral
import WordMachine.Text.Quote
import WordMachine.Word

/-! The syntax of programs: statements and their operands, each with the location of its first
character in the source. -/

namespace WordMachine.Asm

/-- what an operand of an instruction or a value of a data line says -/
inductive Value where
  | register (r : Register)
  | number (n : Nat)
  /-- the characters between single quotes; only one of them makes an operand -/
  | char (value : String)
  /-- the characters between double quotes -/
  | text (value : String)
  /-- the name of a label, which stands for its address -/
  | label (name : String)
  deriving DecidableEq, Repr

structure Operand where
  loc : Nat
  value : Value
  deriving DecidableEq, Repr

/-- what a statement says -/
inductive Command where
  /-- names the address of what follows -/
  | label (name : String)
  | instruction (op : Opcode) (operands : List Operand)
  | data (values : List Operand)
  deriving DecidableEq, Repr

structure Statement where
  loc : Nat
  command : Command
  deriving DecidableEq, Repr

/-- What a source, or a phrase of one, is read as. -/
inductive Node where
  | statement (s : Statement)
  | operand (o : Operand)
  | name (value : String)
  | mnemonic (op : Opcode)
  deriving DecidableEq, Repr

/-! Nodes are shown with their fields, but without locations. A number can only be shown if it has a
numeral. -/

def commaSeparated (items : List String) : String := ", ".intercalate items

def showOpcode (op : Opcode) : String :=
  "<Opcode." ++ op.name ++ ": " ++ toString op.code ++ ">"

def Value.show : Value → Except NumeralError String
  | register r => .ok ("Register(index=" ++ toString r.val ++ ")")
  | number n => (numeral n).map fun digits => "Number(value=" ++ digits ++ ")"
  | char s => .ok ("Char(value=" ++ quoted s ++ ")")
  | text s => .ok ("Text(value=" ++ quoted s ++ ")")
  | label x => .ok ("LabelRef(name=" ++ quoted x ++ ")")

/-- Shows items between brackets. -/
def showList {α : Type} (showItem : α → Except NumeralError String) (items : List α) :
    Except NumeralError String :=
  (items.mapM showItem).map fun shown => "[" ++ commaSeparated shown ++ "]"

def showOperands (os : List Operand) : Except NumeralError String := showList (·.value.show) os

def Command.show : Command → Except NumeralError String
  | label x => .ok ("Label(name=" ++ quoted x ++ ")")
  | instruction op os =>
    (showOperands os).map fun shown =>
      "Instruction(opcode=" ++ showOpcode op ++ ", operands=" ++ shown ++ ")"
  | data vs => (showOperands vs).map fun shown => "Data(values=" ++ shown ++ ")"

def Node.show : Node → Except NumeralError String
  | statement s => s.command.show
  | operand o => o.value.show
  | name x => .ok (quoted x)
  | mnemonic op => .ok (showOpcode op)

def showNodes (nodes : List Node) : Except NumeralError String := showList Node.show nodes

end WordMachine.Asm
