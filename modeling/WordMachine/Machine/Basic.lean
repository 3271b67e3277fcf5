import WordMachine.LoadError
import WordMachine.Machine.Fault
import WordMachine.Machine.Memory

/-! The state of the machine, and what its host can read and change between steps. -/

namespace WordMachine

inductive Status where
  /-- loaded, and not yet stepped -/
  | ready
  | running
  /-- `dest` gets the next character that the host supplies -/
  | awaiting (dest : Register)
  /-- stopped for good, by a fault if there is one -/
  | halted (trap : Option Trap)
  deriving DecidableEq, Repr

structure Machine where
  memory : Memory
  registers : Vector Int 8
  /-- the stack, its top first -/
  stack : List Int
  /-- the address of the next instruction -/
  pc : Nat
  status : Status
  /-- the code points sent out so far, the last one first -/
  emitted : List Nat
  deriving DecidableEq

namespace Machine

/-- A machine about to run the program that starts at address zero. -/
def start (program : List Int) : Machine where
  memory := .ofList program
  registers := Vector.replicate 8 0
  stack := []
  pc := 0
  status := .ready
  emitted := []

/-- Accepts a program that fits in memory and whose words fit in sixteen bits. -/
def load (program : List Int) : Except LoadError Machine :=
  if memorySize < program.length then .error (.programTooLong program.length)
  else match firstOutside 0xffff program with
    | some (addr, word) => .error (.naming .notSixteenBits addr word)
    | none => .ok (start program)

/-- the code points sent out so far, in order -/
def output (m : Machine) : List Nat := m.emitted.reverse

/-- the fault that stopped the machine -/
def trap? (m : Machine) : Option Trap :=
  match m.status with
  | .halted trap => trap
  | _ => none

def isHalted (m : Machine) : Bool :=
  match m.status with
  | .halted _ => true
  | _ => false

/-- the register that waits for a character -/
def awaited? (m : Machine) : Option Register :=
  match m.status with
  | .awaiting dest => some dest
  | _ => none

/-- Whether the machine can be stepped: it has not halted and waits for nothing. -/
def isActive (m : Machine) : Bool :=
  match m.status with
  | .ready | .running => true
  | _ => false

def setReg (m : Machine) (r : Register) (v : Int) : Machine :=
  { m with registers := m.registers.set r.val v r.isLt }

/-- The value of an operand word that is read: a literal is its own value, a register word stands
for the register's content. -/
def resolve (m : Machine) (word : Int) : Except Fault Int :=
  if isLiteral word then .ok word
  else match Register.ofWord? word with
    | some r => .ok m.registers[r]
    | none => .error (.invalidOperand word)

/-- The register that an operand word names as a destination. -/
def target (word : Int) : Except Fault Register :=
  match Register.ofWord? word with
  | some r => .ok r
  | none =>
    if isLiteral word then .error (.literalDestination word) else .error (.invalidOperand word)

def register (m : Machine) (index : Int) : Except Fault Int :=
  match Register.ofInt? index with
  | some r => .ok m.registers[r]
  | none => .error (.noRegister index)

/-- The host sets a register to a value of fifteen bits. -/
def setRegister (m : Machine) (index value : Int) : Except Fault Machine :=
  match Register.ofInt? index with
  | none => .error (.noRegister index)
  | some r => if isLiteral value then .ok (m.setReg r value) else .error (.notAWord value)

def readMemory (m : Machine) (addr : Int) : Except Fault Int :=
  match Address.ofInt? addr with
  | some a => .ok (m.memory.peek a)
  | none => .error (.addressOutOfRange addr)

/-- The host sets a memory cell to any integer. -/
def writeMemory (m : Machine) (addr value : Int) : Except Fault Machine :=
  match Address.ofInt? addr with
  | some a => .ok { m with memory := m.memory.poke a value }
  | none => .error (.addressOutOfRange addr)

/-- The host hands over the character that the machine waits for. -/
def supply (m : Machine) (text : String) : Except Refusal Machine :=
  match m.status with
  | .halted _ => .error .halted
  | .awaiting dest =>
    match text.toList with
    | [c] =>
      if c.toNat < modulus then .ok { m.setReg dest c.toNat with status := .running }
      else .error (.tooWide c)
    | _ => .error (.notOneCharacter text)
  | _ => .error .supplyWhileNotAwaiting

end Machine
end WordMachine
