import WordMachine.Proofs.Machine.Effect

/-! The same instructions, carried out as they go. Each one acts on the machine piece by piece, and
what it did before it failed stays done. Carried out in this order an instruction leaves the same
machine as one that is planned first: no failure comes behind a change. -/

namespace WordMachine
namespace Machine

/-- Something done to the machine that may fail on the way; the machine is kept as it is then. -/
abbrev Act := ExceptT Failure (StateM Machine)

namespace Act

def push (v : Int) : Act Unit := modify fun m => { m with stack := v :: m.stack }

def drop : Act Unit := modify fun m => { m with stack := m.stack.tail }

def assign (r : Register) (v : Int) : Act Unit := modify (·.setReg r v)

def become (s : Status) : Act Unit := modify fun m => { m with status := s }

def liftExcept {α : Type} : Except Failure α → Act α
  | .ok a => return a
  | .error e => throw e

/-- Goes on at the top of the stack, and takes it off. -/
def goBack (top : Int) : Act (Option Nat) := do
  let t ← liftExcept (jumpTarget top)
  drop
  return some t

/-- Carries out the body of an instruction; `next` is the address behind it. The answer is where to
go on, if that is somewhere else. -/
def body (next : Nat) : (op : Opcode) → Operands op.signature → Act (Option Nat)
  | .halt, () => do
    become (.halted none)
    return none
  | .set, (a, b, ()) => do
    assign a b
    return none
  | .push, (a, ()) => do
    push a
    return none
  | .pop, (a, ()) => do
    match (← get).stack with
    | [] => throw (.fault .emptyStack)
    | v :: _ =>
      drop
      assign a v
      return none
  | .eq, (a, b, c, ()) => do
    assign a (if b = c then 1 else 0)
    return none
  | .gt, (a, b, c, ()) => do
    assign a (if b > c then 1 else 0)
    return none
  | .jmp, (a, ()) => do
    return some (← liftExcept (jumpTarget a))
  | .jt, (a, b, ()) => do
    if a ≠ 0 then return some (← liftExcept (jumpTarget b)) else return none
  | .jf, (a, b, ()) => do
    if a = 0 then return some (← liftExcept (jumpTarget b)) else return none
  | .add, (a, b, c, ()) => do
    assign a (reduce (b + c))
    return none
  | .mult, (a, b, c, ()) => do
    assign a (reduce (b * c))
    return none
  | .mod, (a, b, c, ()) => do
    if c = 0 then throw (.fault (.divisionByZero b))
    assign a (reduce (Int.fmod b c))
    return none
  | .and, (a, b, c, ()) => do
    assign a (lowBits b &&& lowBits c : Nat)
    return none
  | .or, (a, b, c, ()) => do
    assign a (lowBits b ||| lowBits c : Nat)
    return none
  | .not, (a, b, ()) => do
    assign a (reduce (-b - 1))
    return none
  | .rmem, (a, b, ()) => do
    let addr ← liftExcept (cellAddress b)
    assign a ((← get).memory.peek addr.val)
    return none
  | .wmem, (a, b, ()) => do
    let addr ← liftExcept (cellAddress a)
    modify fun m => { m with memory := m.memory.poke addr b }
    return none
  | .call, (a, ()) => do
    let t ← liftExcept (jumpTarget a)
    push (next % modulus : Nat)
    return some t
  | .ret, () => do
    match (← get).stack with
    | [] =>
      become (.halted none)
      return none
    | v :: _ => goBack v
  | .out, (a, ()) => do
    match codePoint a with
    | .ok c =>
      modify fun m => { m with emitted := c :: m.emitted }
      return none
    | .error e => throw (.output e)
  | .input, (a, ()) => do
    become (.awaiting a)
    return none
  | .noop, () => return none

/-- Reads the operands of an instruction, carries it out and moves on. -/
def execute (op : Opcode) : Act Opcode := do
  let m ← get
  let next := m.pc + 1 + op.arity
  if memorySize < next then throw (.fault (.operandsPastEnd op)) else
    match m.operands op.signature (m.pc + 1) with
    | .error f => throw (.fault f)
    | .ok args => do
      let elsewhere ← body next op args
      modify fun m => { m with pc := elsewhere.getD next }
      return op

/-- Carries out the instruction that a word names. -/
def named (word : Int) : Act Opcode :=
  match Opcode.ofCode? word with
  | none => throw (.fault (.unsupportedOpcode word))
  | some op => execute op

/-- Carries out the instruction at the program counter. -/
def instruction : Act Opcode := do
  let m ← get
  if memorySize ≤ m.pc then
    become (.halted none)
    return .halt
  else
    become .running
    named (m.memory.peek m.pc)

end Act

/-- A step that acts as it goes. -/
def stepInOrder (m : Machine) : Except StepError Opcode × Machine :=
  match m.status with
  | .halted _ => (.error (.refused .halted), m)
  | .awaiting _ => (.error (.refused .stepWhileAwaiting), m)
  | _ =>
    match Act.instruction.run.run m with
    | (.ok op, m') => (.ok op, m')
    | (.error (.fault f), m') =>
      if f.IsTold then (.error (.trapped ⟨f, m'.pc⟩), { m' with status := .halted (some ⟨f, m'.pc⟩) })
      else (.error (.untold f), m')
    | (.error (.output e), m') => (.error (.output e), m')

theorem body_eq_perform {m : Machine} (hs : m.status = .running) (next : Nat) (op : Opcode)
    (args : Operands op.signature) :
    (do
      let elsewhere ← Act.body next op args
      modify fun m => { m with pc := elsewhere.getD next }
      return op : Act Opcode).run.run m =
    match m.effect next op args with
    | .error e => (.error e, m)
    | .ok (c, pc) => (.ok op, m.perform ⟨op, c, pc⟩) := by
  obtain ⟨memory, registers, stack, pc, status, emitted⟩ := m
  obtain rfl : status = .running := hs
  cases op with
  | halt | set | push | eq | gt | add | mult | and | or | not | input | noop => rfl
  | pop => cases stack <;> rfl
  | mod =>
    obtain ⟨r, b, c, ⟨⟩⟩ := args
    by_cases h : c = 0
    · simp only [effect, Act.body, if_pos h]
      rfl
    · simp only [effect, Act.body, if_neg h]
      rfl
  | jmp =>
    obtain ⟨a, ⟨⟩⟩ := args
    simp only [effect, Act.body]
    cases jumpTarget a <;> rfl
  | jt =>
    obtain ⟨a, b, ⟨⟩⟩ := args
    by_cases h : a ≠ 0
    · simp only [effect, Act.body, if_pos h]
      cases jumpTarget b <;> rfl
    · simp only [effect, Act.body, if_neg h]
      rfl
  | jf =>
    obtain ⟨a, b, ⟨⟩⟩ := args
    by_cases h : a = 0
    · simp only [effect, Act.body, if_pos h]
      cases jumpTarget b <;> rfl
    · simp only [effect, Act.body, if_neg h]
      rfl
  | rmem =>
    obtain ⟨r, b, ⟨⟩⟩ := args
    simp only [effect, Act.body]
    cases cellAddress b <;> rfl
  | wmem =>
    obtain ⟨a, b, ⟨⟩⟩ := args
    simp only [effect, Act.body]
    cases cellAddress a <;> rfl
  | call =>
    obtain ⟨a, ⟨⟩⟩ := args
    simp only [effect, Act.body]
    cases jumpTarget a <;> rfl
  | ret =>
    obtain ⟨⟩ := args
    cases stack with
    | nil => rfl
    | cons v rest =>
      simp only [effect]
      -- the entry is read off the machine, so the target shows only after the reading
      change (do
        let elsewhere ← Act.goBack v
        modify fun m => { m with pc := elsewhere.getD next }
        return .ret : Act Opcode).run.run _ = _
      simp only [Act.goBack]
      cases jumpTarget v <;> rfl
  | out =>
    obtain ⟨a, ⟨⟩⟩ := args
    simp only [effect, Act.body]
    cases codePoint a <;> rfl

theorem operands_of_status (m : Machine) (s : Status) (roles : List Role) (a : Nat) :
    { m with status := s }.operands roles a = m.operands roles a := by
  induction roles generalizing a with
  | nil => rfl
  | cons role roles ih =>
    cases role with
    | write => simp only [operands, ih]
    | read =>
      simp only [operands, ih]
      rfl

theorem effect_of_status (m : Machine) (s : Status) (next : Nat) (op : Opcode)
    (args : Operands op.signature) : { m with status := s }.effect next op args = m.effect next op args := by
  cases op <;> rfl

theorem plan_of_status (m : Machine) (s : Status) : { m with status := s }.plan = m.plan := by
  simp only [plan, operands_of_status, effect_of_status]

theorem failed_of_status (m : Machine) (s : Status) (e : Failure) :
    { m with status := s }.failed e = m.failed e := by
  cases e <;> rfl

theorem execute_eq_plan {m : Machine} (hs : m.status = .running) (hpc : ¬ memorySize ≤ m.pc)
    {op : Opcode} (hop : Opcode.ofCode? (m.memory.peek m.pc) = some op) :
    (Act.execute op).run.run m =
    match m.plan with
    | .ok p => (.ok p.op, m.perform p)
    | .error e => (.error e, m) := by
  change (if memorySize < m.pc + 1 + op.arity then _ else _ : Act Opcode).run.run m = _
  by_cases hroom : memorySize < m.pc + 1 + op.arity
  · have hp : m.plan = .error (.fault (.operandsPastEnd op)) := by
      simp only [plan, if_neg hpc, hop, if_pos hroom]
    rw [if_pos hroom, hp]
    rfl
  · rw [if_neg hroom]
    cases hargs : m.operands op.signature (m.pc + 1) with
    | error f =>
      have hp : m.plan = .error (.fault f) := by
        simp only [plan, if_neg hpc, hop, if_neg hroom, hargs]
      rw [hp]
      rfl
    | ok args =>
      rw [plan_of_fetched ⟨hop, Nat.not_lt.1 hroom⟩ hargs]
      refine (body_eq_perform hs _ op args).trans ?_
      cases m.effect (m.pc + 1 + op.arity) op args <;> rfl

theorem instruction_eq_plan (m : Machine) :
    Act.instruction.run.run m =
    match m.plan with
    | .ok p => (.ok p.op, m.perform p)
    | .error e => (.error e, { m with status := .running }) := by
  change (if memorySize ≤ m.pc then _ else _ : Act Opcode).run.run m = _
  by_cases hpc : memorySize ≤ m.pc
  · rw [if_pos hpc, plan, if_pos hpc]
    rfl
  · rw [if_neg hpc]
    change (Act.named (m.memory.peek m.pc)).run.run { m with status := .running } = _
    unfold Act.named
    cases hop : Opcode.ofCode? (m.memory.peek m.pc) with
    | none =>
      have hp : m.plan = .error (.fault (.unsupportedOpcode (m.memory.peek m.pc))) := by
        simp only [plan, if_neg hpc, hop]
      rw [hp]
      rfl
    | some op =>
      have hs : { m with status := .running }.status = .running := rfl
      refine (execute_eq_plan hs hpc hop).trans ?_
      rw [plan_of_status]
      cases m.plan <;> rfl

/-- It makes no difference whether instructions act as they go or are planned first. -/
theorem stepInOrder_eq_step (m : Machine) : m.stepInOrder = m.step := by
  cases hs : m.status with
  | halted | awaiting => simp only [stepInOrder, step, hs]
  | ready | running =>
    simp only [stepInOrder, step, hs, instruction_eq_plan]
    cases m.plan with
    | ok p => rfl
    | error e => cases e <;> rfl

end Machine
end WordMachine
