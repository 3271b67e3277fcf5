import WordMachine.Opcode
import WordMachine.Text.Numeral
import WordMachine.Text.Quote
import WordMachine.Word

/-! What can go wrong while the machine is driven. A fault is the program's doing and stops the
machine for good. A refusal is the host's doing and changes nothing. A value that is sent out but is
no code point is neither: the machine stays where it is. So it does where a fault would have to name a
number that has no numeral. -/

namespace WordMachine

/-- the classes that faults are reported under -/
inductive FaultKind where
  | unsupportedOpcode | invalidOperand | invalidDestination | addressing | stackUnderflow
  | divisionByZero
  deriving DecidableEq, Repr

inductive Fault where
  /-- the word in the place of an opcode names no instruction -/
  | unsupportedOpcode (word : Int)
  /-- the operand word is neither a literal nor a register -/
  | invalidOperand (word : Int)
  /-- the instruction writes a register, but its operand word is a literal -/
  | literalDestination (word : Int)
  /-- the value does not fit in fifteen bits -/
  | notAWord (value : Int)
  | noRegister (index : Int)
  | addressOutOfRange (addr : Int)
  | jumpOutOfRange (addr : Int)
  /-- memory ends before the operands of the instruction do -/
  | operandsPastEnd (op : Opcode)
  | emptyStack
  | divisionByZero (dividend : Int)
  deriving DecidableEq, Repr

namespace Fault

def kind : Fault → FaultKind
  | unsupportedOpcode _ => .unsupportedOpcode
  | invalidOperand _ | notAWord _ => .invalidOperand
  | literalDestination _ => .invalidDestination
  | noRegister _ | addressOutOfRange _ | jumpOutOfRange _ | operandsPastEnd _ => .addressing
  | emptyStack => .stackUnderflow
  | divisionByZero _ => .divisionByZero

def message : Fault → String
  | unsupportedOpcode w => "unsupported opcode " ++ toString w
  | invalidOperand w => "invalid operand " ++ toString w
  | literalDestination w => "literal " ++ toString w ++ " used as destination"
  | notAWord v => "value " ++ toString v ++ " is not a word"
  | noRegister i => "no register r" ++ toString i
  | addressOutOfRange a => "memory address " ++ toString a ++ " out of range"
  | jumpOutOfRange a => "jump target " ++ toString a ++ " out of range"
  | operandsPastEnd op => op.name ++ " operands run past the end of memory"
  | emptyStack => "pop from empty stack"
  | divisionByZero b => toString b ++ " mod 0"

/-- the number that is written in the message -/
def named? : Fault → Option Int
  | unsupportedOpcode v | invalidOperand v | literalDestination v | notAWord v | noRegister v
  | addressOutOfRange v | jumpOutOfRange v | divisionByZero v => some v
  | operandsPastEnd _ | emptyStack => none

/-- The message of the fault can be written. -/
def IsTold (f : Fault) : Prop := ∀ v ∈ f.named?, HasNumeral v

instance : DecidablePred IsTold := fun f => inferInstanceAs (Decidable (∀ v ∈ f.named?, HasNumeral v))

theorem not_isTold_iff {f : Fault} : ¬ f.IsTold ↔ ∃ v, f.named? = some v ∧ ¬ HasNumeral v := by
  rw [IsTold]
  cases f.named? <;> simp

end Fault

/-- A fault together with the address of the instruction that met it. -/
structure Trap where
  fault : Fault
  pc : Nat
  deriving DecidableEq, Repr

def Trap.message (t : Trap) : String := Hex.address t.pc ++ ": " ++ t.fault.message

/-- Why the machine does not do what its host asks. -/
inductive Refusal where
  | halted
  | stepWhileAwaiting
  | supplyWhileNotAwaiting
  | notOneCharacter (text : String)
  /-- the character does not fit in fifteen bits -/
  | tooWide (char : Char)
  deriving DecidableEq, Repr

def Refusal.message : Refusal → String
  | halted => "machine is halted"
  | stepWhileAwaiting => "step called while awaiting input"
  | supplyWhileNotAwaiting => "supply called while not awaiting input"
  | notOneCharacter text => "expected a single character, got " ++ quoted text
  | tooWide c => "character " ++ quoted (String.singleton c) ++ " does not fit in a word"

/-- Why a value cannot be sent out as a character. -/
inductive OutputError where
  /-- beyond the code points, but within thirty-two bits -/
  | notACodePoint (value : Int)
  /-- beyond thirty-two bits -/
  | notThirtyTwoBits (value : Int)
  deriving DecidableEq, Repr

def OutputError.message : OutputError → String
  | notACodePoint _ => "chr() arg not in range(0x110000)"
  | notThirtyTwoBits _ => "Python int too large to convert to C int"

/-- Why a step does not succeed. -/
inductive StepError where
  | refused (why : Refusal)
  | trapped (trap : Trap)
  | output (why : OutputError)
  /-- a fault that cannot be told, as it names a number that has no numeral -/
  | untold (why : Fault)
  deriving DecidableEq, Repr

end WordMachine
