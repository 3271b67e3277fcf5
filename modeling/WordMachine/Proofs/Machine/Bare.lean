import WordMachine.Machine.Host

/-! The machine without its guarantees. Memory, registers and stack are plain lists; addresses and
register numbers are plain integers; and the phase that the machine is in, the register that waits
for a character and the fault are kept apart from each other. Nothing in the data keeps a list from
being read or written outside of its bounds, so every access checks, and slips where the machine has
taken for granted what is not so. -/

namespace WordMachine

/-- What a bare machine takes for granted and does not find. -/
inductive Slip where
  /-- the index is none of the list -/
  | index (i : Int)
  /-- the list has no such part -/
  | part (first behind : Int)
  | noTop
  | noPending
  /-- the instruction has not so many operands -/
  | operandCount (n : Nat)
  deriving DecidableEq, Repr

inductive Phase where
  | ready | running | awaiting | halted
  deriving DecidableEq, Repr

structure Bare where
  memory : List Int
  registers : List Int
  /-- the stack, its top first -/
  stack : List Int
  pc : Int
  phase : Phase
  /-- the fault that stopped the machine, and the address at which it was met -/
  fault : Option (Fault × Int)
  /-- the number of the register that waits for a character -/
  pending : Option Int
  /-- the address behind the instruction that is carried out -/
  cursor : Int
  /-- the code points sent out so far, the last one first -/
  emitted : List Nat
  deriving DecidableEq

/-- Why an operation of a bare machine breaks off. -/
inductive Trouble where
  /-- `pc` is filled in when a step is stopped by the fault -/
  | fault (why : Fault) (pc : Option Int)
  /-- a fault that cannot be told: it stops no machine -/
  | untold (why : Fault)
  | output (why : OutputError)
  | refused (why : Refusal)
  | slip (why : Slip)
  deriving DecidableEq, Repr

/-- What a fault comes up as, before it has stopped the machine. -/
def Fault.raised (f : Fault) : Trouble := if f.IsTold then .fault f none else .untold f

inductive Reply where
  | executed (op : Opcode)
  | rested (phase : Phase)
  | value (v : Int)
  | done
  deriving DecidableEq, Repr

namespace Bare

/-- Something done to a bare machine, piece by piece; what is done before it breaks off stays. -/
abbrev Act := ExceptT Trouble (StateM Bare)

/-- The result of an act, and the machine behind it. -/
def does {α : Type} (b : Bare) (act : Act α) : Except Trouble α × Bare := act.run.run b

/-! ### Lists -/

def item {α : Type} (xs : List α) (i : Int) : Act α :=
  if h : 0 ≤ i ∧ i < xs.length then return xs[i.toNat] else throw (.slip (.index i))

/-- The list with another item at the index. -/
def replaced {α : Type} (xs : List α) (i : Int) (v : α) : Act (List α) :=
  if 0 ≤ i ∧ i < xs.length then return xs.set i.toNat v else throw (.slip (.index i))

/-- The part of a list from index `first` up to, but not with, index `behind`. -/
def part {α : Type} (xs : List α) (first behind : Int) : Act (List α) :=
  if 0 ≤ first ∧ first ≤ behind ∧ behind ≤ xs.length then
    return (xs.drop first.toNat).take (behind - first).toNat
  else throw (.slip (.part first behind))

def putRegister (r v : Int) : Act Unit := do
  let registers ← replaced (← get).registers r v
  modify fun b => { b with registers }

def push (v : Int) : Act Unit := modify fun b => { b with stack := v :: b.stack }

def top : Act Int := do
  match (← get).stack with
  | [] => throw (.slip .noTop)
  | v :: _ => return v

def pop : Act Int := do
  let v ← top
  modify fun b => { b with stack := b.stack.tail }
  return v

def become (phase : Phase) : Act Unit := modify fun b => { b with phase }

/-! ### What the host reads and changes -/

def resolve (word : Int) : Act Int :=
  if 0 ≤ word ∧ word < modulus then return word
  else if modulus ≤ word ∧ word ≤ maxOperand then do
    item (← get).registers (word - modulus)
  else throw (Fault.invalidOperand word).raised

def target (word : Int) : Act Int :=
  if modulus ≤ word ∧ word ≤ maxOperand then return word - modulus
  else if 0 ≤ word ∧ word < modulus then throw (Fault.literalDestination word).raised
  else throw (Fault.invalidOperand word).raised

def register (index : Int) : Act Int :=
  if 0 ≤ index ∧ index < 8 then do
    item (← get).registers index
  else throw (Fault.noRegister index).raised

def setRegister (index value : Int) : Act Unit :=
  if 0 ≤ index ∧ index < 8 then
    if 0 ≤ value ∧ value < modulus then putRegister index value
    else throw (Fault.notAWord value).raised
  else throw (Fault.noRegister index).raised

def readMemory (addr : Int) : Act Int :=
  if 0 ≤ addr ∧ addr < memorySize then do
    item (← get).memory addr
  else throw (Fault.addressOutOfRange addr).raised

def writeMemory (addr value : Int) : Act Unit :=
  if 0 ≤ addr ∧ addr < memorySize then do
    let memory ← replaced (← get).memory addr value
    modify fun b => { b with memory }
  else throw (Fault.addressOutOfRange addr).raised

/-- Hands a character to the register that waits. -/
def deliver (c : Char) : Act Unit := do
  match (← get).pending with
  | none => throw (.slip .noPending)
  | some r =>
    putRegister r c.toNat
    modify fun b => { b with pending := none, phase := .running }

def supply (text : String) : Act Unit := do
  match (← get).phase with
  | .halted => throw (.refused .halted)
  | .awaiting =>
    match text.toList with
    | [c] => if c.toNat < modulus then deliver c else throw (.refused (.tooWide c))
    | _ => throw (.refused (.notOneCharacter text))
  | _ => throw (.refused .supplyWhileNotAwaiting)

/-! ### Instructions -/

/-- The value, if the program can go on at it. -/
def jump (addr : Int) : Act Int :=
  if 0 ≤ addr ∧ addr < memorySize then return addr else throw (Fault.jumpOutOfRange addr).raised

def emit (v : Int) : Act Unit :=
  match codePoint v with
  | .ok c => modify fun b => { b with emitted := c :: b.emitted }
  | .error e => throw (.output e)

/-- Carries out the body of an instruction. The answer is where to go on, if that is somewhere
else than behind it. -/
def body : Opcode → List Int → Act (Option Int)
  | .halt, [] => do
    become .halted
    return none
  | .set, [a, b] => do
    putRegister a b
    return none
  | .push, [a] => do
    push a
    return none
  | .pop, [a] => do
    if (← get).stack = [] then throw Fault.emptyStack.raised else do
      putRegister a (← pop)
      return none
  | .eq, [a, b, c] => do
    putRegister a (if b = c then 1 else 0)
    return none
  | .gt, [a, b, c] => do
    putRegister a (if b > c then 1 else 0)
    return none
  | .jmp, [a] => return some (← jump a)
  | .jt, [a, b] => if a ≠ 0 then return some (← jump b) else return none
  | .jf, [a, b] => if a = 0 then return some (← jump b) else return none
  | .add, [a, b, c] => do
    putRegister a (reduce (b + c))
    return none
  | .mult, [a, b, c] => do
    putRegister a (reduce (b * c))
    return none
  | .mod, [a, b, c] =>
    if c = 0 then throw (Fault.divisionByZero b).raised else do
      putRegister a (reduce (Int.fmod b c))
      return none
  | .and, [a, b, c] => do
    putRegister a (lowBits b &&& lowBits c : Nat)
    return none
  | .or, [a, b, c] => do
    putRegister a (lowBits b ||| lowBits c : Nat)
    return none
  | .not, [a, b] => do
    putRegister a (reduce (-b - 1))
    return none
  | .rmem, [a, b] => do
    putRegister a (← readMemory b)
    return none
  | .wmem, [a, b] => do
    writeMemory a b
    return none
  | .call, [a] => do
    let addr ← jump a
    push ((← get).cursor % modulus)
    return some addr
  | .ret, [] => do
    if (← get).stack = [] then do
      become .halted
      return none
    else do
      let addr ← jump (← top)
      let _ ← pop
      return some addr
  | .out, [a] => do
    emit a
    return none
  | .input, [a] => do
    modify fun m => { m with pending := some a, phase := .awaiting }
    return none
  | .noop, [] => return none
  | _, args => throw (.slip (.operandCount args.length))

/-- The bodies in the order of the words that name them: at first none of them does anything, then
each instruction is put in its place. -/
def table : List Opcode :=
  Opcode.all.foldl (fun t op => t.set op.code op) (List.replicate Opcode.all.length .noop)

/-- Reads operand words, as many as there are and as the instruction has. -/
def operands : List Role → List Int → Act (List Int)
  | .write :: roles, word :: words => do
    let r ← target word
    return r :: (← operands roles words)
  | .read :: roles, word :: words => do
    let v ← resolve word
    return v :: (← operands roles words)
  | _, _ => return []

/-- Reads the operands of an instruction, carries it out and moves on. -/
def execute (op : Opcode) : Act Opcode := do
  let m ← get
  let next := m.pc + 1 + op.arity
  if memorySize < next then throw (Fault.operandsPastEnd op).raised else do
    let args ← operands op.signature (← part m.memory (m.pc + 1) next)
    modify fun b => { b with cursor := next }
    let elsewhere ← body (← item table op.code) args
    modify fun b => { b with pc := elsewhere.getD next }
    return op

/-- Carries out the instruction that a word names. -/
def named (word : Int) : Act Opcode :=
  match Opcode.ofCode? word with
  | none => throw (Fault.unsupportedOpcode word).raised
  | some op => execute op

/-- Carries out the instruction at the program counter. -/
def instruction : Act Opcode := do
  let m ← get
  if memorySize ≤ m.pc then do
    become .halted
    return .halt
  else do
    become .running
    named (← item m.memory m.pc)

/-- A fault halts the machine, and is kept. -/
def halting (e : Trouble) : Act Opcode :=
  match e with
  | .fault why pc => do
    let b ← get
    let pc := pc.getD b.pc
    set { b with phase := .halted, fault := some (why, pc) }
    throw (.fault why (some pc))
  | e => throw e

def step : Act Opcode := do
  match (← get).phase with
  | .halted => throw (.refused .halted)
  | .awaiting => throw (.refused .stepWhileAwaiting)
  | _ => tryCatch instruction halting

def run : (limit : Nat) → Act Unit
  | 0 => return ()
  | limit + 1 => do
    match (← get).phase with
    | .halted | .awaiting => return ()
    | _ => do
      let _ ← step
      run limit

/-! ### Sessions -/

def call : Call → Act Reply
  | .step => return .executed (← step)
  | .run limit => do
    run limit
    return .rested (← get).phase
  | .supply text => do
    supply text
    return .done
  | .resolve word => return .value (← resolve word)
  | .target word => return .value (← target word)
  | .register index => return .value (← register index)
  | .setRegister index value => do
    setRegister index value
    return .done
  | .readMemory addr => return .value (← readMemory addr)
  | .writeMemory addr value => do
    writeMemory addr value
    return .done

/-- The machine after a session. -/
def afterCalls (b : Bare) : List Call → Bare
  | [] => b
  | c :: cs => (b.does (call c)).2.afterCalls cs

def start (program : List Int) : Bare where
  memory := program ++ List.replicate (memorySize - program.length) 0
  registers := List.replicate 8 0
  stack := []
  pc := 0
  phase := .ready
  fault := none
  pending := none
  cursor := 0
  emitted := []

/-- Accepts a program that fits in memory and whose words fit in sixteen bits. -/
def load (program : List Int) : Except LoadError Bare :=
  if memorySize < program.length then .error (.programTooLong program.length)
  else match firstOutside 0xffff program with
    | some (addr, word) => .error (.naming .notSixteenBits addr word)
    | none => .ok (start program)

/-- What holds of a bare machine between calls. -/
structure Sound (b : Bare) : Prop where
  memory : b.memory.length = memorySize
  registers : b.registers.length = 8
  pc : 0 ≤ b.pc ∧ b.pc ≤ memorySize
  /-- a register waits in the awaiting phase, and in no other -/
  pending : b.phase = .awaiting ↔ b.pending.isSome
  pending_range : ∀ r, b.pending = some r → 0 ≤ r ∧ r < 8
  fault : b.fault.isSome → b.phase = .halted
  ready : b.phase = .ready → b.pc = 0 ∧ b.stack = [] ∧ b.emitted = []

end Bare
end WordMachine
