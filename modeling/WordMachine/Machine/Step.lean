import WordMachine.Machine.Basic

/-! One instruction. `plan` reads the instruction at the program counter and works out everything it
will do, changing nothing; `perform` then carries the plan out and cannot fail. So an instruction
that fails leaves memory, registers, stack, program counter and output as they were. -/

namespace WordMachine

/-- the operands of an instruction after reading: one for each role of its signature -/
def Operands : List Role → Type
  | [] => Unit
  | .write :: roles => Register × Operands roles
  | .read :: roles => Int × Operands roles

/-- What an instruction does besides moving the program counter. -/
inductive Change where
  | nothing
  | setReg (dest : Register) (value : Int)
  | setCell (addr : Address) (value : Int)
  | push (value : Int)
  /-- takes the top off the stack and leaves it in a register -/
  | popInto (dest : Register) (value : Int)
  /-- takes the top off the stack -/
  | drop
  | emit (codePoint : Nat)
  | await (dest : Register)
  | halt
  deriving DecidableEq, Repr

/-- What a step is about to do. -/
structure Plan where
  op : Opcode
  change : Change
  /-- where the program goes on -/
  pc : Nat
  deriving DecidableEq, Repr

/-- Why there is no plan. -/
inductive Failure where
  | fault (why : Fault)
  | output (why : OutputError)
  deriving DecidableEq, Repr

/-- Reduces a result to fifteen bits. -/
def reduce (v : Int) : Int := v % modulus

/-- the low fifteen bits of a value, as a natural number -/
def lowBits (v : Int) : Nat := (reduce v).toNat

/-- Accepts the values that are code points, lone surrogates among them. -/
def codePoint (v : Int) : Except OutputError Nat :=
  if 0 ≤ v ∧ v < 0x110000 then .ok v.toNat
  else if -0x80000000 ≤ v ∧ v < 0x80000000 then .error (.notACodePoint v)
  else .error (.notThirtyTwoBits v)

/-- Accepts the values that a program can go on at. -/
def jumpTarget (v : Int) : Except Failure Nat :=
  match Address.ofInt? v with
  | some a => .ok a.val
  | none => .error (.fault (.jumpOutOfRange v))

/-- Accepts the values that name a memory cell. -/
def cellAddress (v : Int) : Except Failure Address :=
  match Address.ofInt? v with
  | some a => .ok a
  | none => .error (.fault (.addressOutOfRange v))

namespace Machine

/-- Reads operand words from left to right, starting at address `a`. -/
def operands (m : Machine) : (roles : List Role) → (a : Nat) → Except Fault (Operands roles)
  | [], _ => .ok ()
  | .write :: roles, a =>
    match target (m.memory.peek a) with
    | .error f => .error f
    | .ok r =>
      match m.operands roles (a + 1) with
      | .error f => .error f
      | .ok rest => .ok (r, rest)
  | .read :: roles, a =>
    match m.resolve (m.memory.peek a) with
    | .error f => .error f
    | .ok v =>
      match m.operands roles (a + 1) with
      | .error f => .error f
      | .ok rest => .ok (v, rest)

/-- What an instruction with these operands does, and where the program goes on; `next` is the
address behind the instruction. -/
def effect (m : Machine) (next : Nat) :
    (op : Opcode) → Operands op.signature → Except Failure (Change × Nat)
  | .halt, () => .ok (.halt, next)
  | .set, (a, b, ()) => .ok (.setReg a b, next)
  | .push, (a, ()) => .ok (.push a, next)
  | .pop, (a, ()) =>
    match m.stack with
    | [] => .error (.fault .emptyStack)
    | v :: _ => .ok (.popInto a v, next)
  | .eq, (a, b, c, ()) => .ok (.setReg a (if b = c then 1 else 0), next)
  | .gt, (a, b, c, ()) => .ok (.setReg a (if b > c then 1 else 0), next)
  | .jmp, (a, ()) => (jumpTarget a).map fun pc => (.nothing, pc)
  | .jt, (a, b, ()) =>
    if a ≠ 0 then (jumpTarget b).map fun pc => (.nothing, pc) else .ok (.nothing, next)
  | .jf, (a, b, ()) =>
    if a = 0 then (jumpTarget b).map fun pc => (.nothing, pc) else .ok (.nothing, next)
  | .add, (a, b, c, ()) => .ok (.setReg a (reduce (b + c)), next)
  | .mult, (a, b, c, ()) => .ok (.setReg a (reduce (b * c)), next)
  | .mod, (a, b, c, ()) =>
    if c = 0 then .error (.fault (.divisionByZero b))
    else .ok (.setReg a (reduce (Int.fmod b c)), next)
  | .and, (a, b, c, ()) => .ok (.setReg a (lowBits b &&& lowBits c : Nat), next)
  | .or, (a, b, c, ()) => .ok (.setReg a (lowBits b ||| lowBits c : Nat), next)
  | .not, (a, b, ()) => .ok (.setReg a (reduce (-b - 1)), next)
  | .rmem, (a, b, ()) => (cellAddress b).map fun addr => (.setReg a (m.memory.peek addr), next)
  | .wmem, (a, b, ()) => (cellAddress a).map fun addr => (.setCell addr b, next)
  | .call, (a, ()) => (jumpTarget a).map fun pc => (.push (next % modulus : Nat), pc)
  | .ret, () =>
    match m.stack with
    | [] => .ok (.halt, next)
    | v :: _ => (jumpTarget v).map fun pc => (.drop, pc)
  | .out, (a, ()) =>
    match codePoint a with
    | .ok c => .ok (.emit c, next)
    | .error e => .error (.output e)
  | .input, (a, ()) => .ok (.await a, next)
  | .noop, () => .ok (.nothing, next)

/-- The plan for the instruction at the program counter. Beyond the last cell there is none, and the
machine halts there. -/
def plan (m : Machine) : Except Failure Plan :=
  if memorySize ≤ m.pc then .ok ⟨.halt, .halt, m.pc⟩
  else
    let word := m.memory.peek m.pc
    match Opcode.ofCode? word with
    | none => .error (.fault (.unsupportedOpcode word))
    | some op =>
      let next := m.pc + 1 + op.arity
      if memorySize < next then .error (.fault (.operandsPastEnd op))
      else match m.operands op.signature (m.pc + 1) with
        | .error f => .error (.fault f)
        | .ok args =>
          match m.effect next op args with
          | .error e => .error e
          | .ok (change, pc) => .ok ⟨op, change, pc⟩

def perform (m : Machine) (p : Plan) : Machine :=
  let m := { m with pc := p.pc, status := .running }
  match p.change with
  | .nothing => m
  | .setReg r v => m.setReg r v
  | .setCell a v => { m with memory := m.memory.poke a v }
  | .push v => { m with stack := v :: m.stack }
  | .popInto r v => { m.setReg r v with stack := m.stack.tail }
  | .drop => { m with stack := m.stack.tail }
  | .emit c => { m with emitted := c :: m.emitted }
  | .await r => { m with status := .awaiting r }
  | .halt => { m with status := .halted none }

/-- What comes of an instruction that fails. A fault halts the machine; a value that is no code point
leaves it running at the same instruction, and so does a fault that cannot be told. -/
def failed (m : Machine) : Failure → Except StepError Opcode × Machine
  | .fault f =>
    if f.IsTold then
      let trap : Trap := ⟨f, m.pc⟩
      (.error (.trapped trap), { m with status := .halted (some trap) })
    else (.error (.untold f), { m with status := .running })
  | .output e => (.error (.output e), { m with status := .running })

/-- Executes one instruction and answers with its opcode. -/
def step (m : Machine) : Except StepError Opcode × Machine :=
  match m.status with
  | .halted _ => (.error (.refused .halted), m)
  | .awaiting _ => (.error (.refused .stepWhileAwaiting), m)
  | _ =>
    match m.plan with
    | .ok p => (.ok p.op, m.perform p)
    | .error e => m.failed e

/-- Steps until the machine halts or needs input, or until it has taken `limit` steps. Answers with
the number of steps that are left. -/
def run : (limit : Nat) → Machine → Except StepError Nat × Machine
  | 0, m => (.ok 0, m)
  | limit + 1, m =>
    if m.isActive then
      match m.step with
      | (.ok _, m) => m.run limit
      | (.error e, m) => (.error e, m)
    else (.ok (limit + 1), m)

end Machine

/-- The number of steps that a limit allows: none if it is negative, and `budget` if there is no
limit. -/
def stepsOf (budget : Nat) : Option Int → Nat
  | some limit => limit.toNat
  | none => budget

end WordMachine
