import WordMachine.Machine.Host
import WordMachine.Proofs.Machine.Cells

/-! What one step can do, said once. A machine that is not active refuses. An active one carries out
its plan, or is stopped by a fault, or stays before a value that is no code point or a fault that cannot
be told. Whatever the steps and the host's own changes keep is kept by every session. -/

namespace WordMachine
namespace Machine

theorem setReg_registers (m : Machine) (r : Register) (v : Int) (s : Register) :
    (m.setReg r v).registers.get s = if s = r then v else m.registers.get s := by
  change (m.registers.set r.val v r.isLt)[s.val] = if s = r then v else m.registers[s.val]
  rw [Vector.getElem_set]
  simp only [Fin.ext_iff, eq_comm]

theorem isActive_iff {m : Machine} : m.isActive = true ↔ m.status = .ready ∨ m.status = .running := by
  unfold isActive
  cases m.status <;> simp

/-- What a step answers and leaves behind. -/
inductive Stepped (m : Machine) : Except StepError Opcode → Machine → Prop
  | halted (trap : Option Trap) : m.status = .halted trap → Stepped m (.error (.refused .halted)) m
  | awaiting (dest : Register) : m.status = .awaiting dest →
      Stepped m (.error (.refused .stepWhileAwaiting)) m
  | executed (p : Plan) : m.isActive = true → m.plan = .ok p → Stepped m (.ok p.op) (m.perform p)
  | trapped (f : Fault) : m.isActive = true → m.plan = .error (.fault f) → f.IsTold →
      Stepped m (.error (.trapped ⟨f, m.pc⟩)) { m with status := .halted (some ⟨f, m.pc⟩) }
  | untold (f : Fault) : m.isActive = true → m.plan = .error (.fault f) → ¬ f.IsTold →
      Stepped m (.error (.untold f)) { m with status := .running }
  | unsent (e : OutputError) : m.isActive = true → m.plan = .error (.output e) →
      Stepped m (.error (.output e)) { m with status := .running }

theorem step_eq_of_isActive {m : Machine} (h : m.isActive = true) :
    m.step = match m.plan with
      | .ok p => (.ok p.op, m.perform p)
      | .error e => m.failed e := by
  have hstatus := isActive_iff.1 h
  unfold step
  split
  · rename_i hs
    simp [hs] at hstatus
  · rename_i hs
    simp [hs] at hstatus
  · rfl

theorem failed_of_told (m : Machine) {f : Fault} (h : f.IsTold) : m.failed (.fault f) =
    (.error (.trapped ⟨f, m.pc⟩), { m with status := .halted (some ⟨f, m.pc⟩) }) := if_pos h

theorem failed_of_untold (m : Machine) {f : Fault} (h : ¬ f.IsTold) :
    m.failed (.fault f) = (.error (.untold f), { m with status := .running }) := if_neg h

/-- A step that fails changes nothing but the status. -/
theorem exists_failed (m : Machine) (e : Failure) :
    ∃ why status, m.failed e = (.error why, { m with status := status }) := by
  unfold failed
  split
  · split
    · exact ⟨_, _, rfl⟩
    · exact ⟨_, _, rfl⟩
  · exact ⟨_, _, rfl⟩

theorem failed_eq_trapped {m : Machine} {e : Failure} {t : Trap}
    (h : (m.failed e).1 = .error (.trapped t)) : e = .fault t.fault := by
  unfold failed at h
  split at h
  · split at h
    · cases h
      rfl
    · cases h
  · cases h

theorem step_cases (m : Machine) : m.Stepped m.step.1 m.step.2 := by
  by_cases h : m.isActive = true
  · rw [step_eq_of_isActive h]
    match hp : m.plan with
    | .ok p => exact .executed p h hp
    | .error (.fault f) =>
      by_cases htold : f.IsTold
      · simp only [m.failed_of_told htold]
        exact .trapped f h hp htold
      · simp only [m.failed_of_untold htold]
        exact .untold f h hp htold
    | .error (.output e) => exact .unsent e h hp
  · match hs : m.status with
    | .halted trap => simpa only [step, hs] using Stepped.halted trap hs
    | .awaiting dest => simpa only [step, hs] using Stepped.awaiting dest hs
    | .ready | .running => exact absurd (isActive_iff.2 (by simp [hs])) h

theorem step_eq_ok {m m' : Machine} {op : Opcode} (h : m.step = (.ok op, m')) :
    m.isActive = true ∧ ∃ p, m.plan = .ok p ∧ p.op = op ∧ m' = m.perform p := by
  have hs := m.step_cases
  rw [h] at hs
  cases hs with
  | executed p hactive hp => exact ⟨hactive, p, hp, rfl, rfl⟩

theorem step_eq_self {m : Machine} (h : m.isActive = false) : m.step.2 = m := by
  have hs := m.step_cases
  generalize m.step.1 = answer, m.step.2 = m' at hs ⊢
  cases hs with
  | halted | awaiting => rfl
  | executed _ hactive | trapped _ hactive | untold _ hactive | unsent _ hactive =>
    rw [h] at hactive
    cases hactive

theorem isActive_of_trapped {m : Machine} {t : Trap} (h : m.step.1 = .error (.trapped t)) :
    m.isActive = true := by
  have hs := m.step_cases
  rw [h] at hs
  generalize m.step.2 = m' at hs
  cases hs with
  | trapped _ hactive => exact hactive

/-- The opcode at the program counter names an instruction that lies inside of memory. -/
structure Fetched (m : Machine) (op : Opcode) : Prop where
  code : Opcode.ofCode? (m.memory.peek m.pc) = some op
  room : m.pc + 1 + op.arity ≤ memorySize

/-- An instruction of the code that stands at the beginning of memory, with room behind it for the
operands of any instruction. -/
theorem fetched_of_holds {m : Machine} {code : List Int} {op : Opcode}
    (hcode : m.memory.Holds 0 code) (hroom : code.length + 3 ≤ memorySize)
    (hop : code[m.pc]? = some (op.code : Int)) : m.Fetched op := by
  have hpc : m.pc < code.length := (List.getElem?_eq_some_iff.1 hop).1
  have harity : op.arity ≤ 3 := by cases op <;> decide
  have hpeek := hcode m.pc _ hop
  rw [Nat.zero_add] at hpeek
  exact ⟨by rw [hpeek, op.ofCode?_code], by omega⟩

/-- How a plan comes about, or why there is none. -/
inductive Planned (m : Machine) : Except Failure Plan → Prop
  | exhausted : memorySize ≤ m.pc → Planned m (.ok ⟨.halt, .halt, m.pc⟩)
  | unsupported : m.pc < memorySize → Opcode.ofCode? (m.memory.peek m.pc) = none →
      Planned m (.error (.fault (.unsupportedOpcode (m.memory.peek m.pc))))
  | pastEnd (op : Opcode) : m.pc < memorySize → Opcode.ofCode? (m.memory.peek m.pc) = some op →
      memorySize < m.pc + 1 + op.arity → Planned m (.error (.fault (.operandsPastEnd op)))
  | operand (op : Opcode) (f : Fault) : m.Fetched op →
      m.operands op.signature (m.pc + 1) = .error f → Planned m (.error (.fault f))
  | failed (op : Opcode) (args : Operands op.signature) (e : Failure) : m.Fetched op →
      m.operands op.signature (m.pc + 1) = .ok args →
      m.effect (m.pc + 1 + op.arity) op args = .error e → Planned m (.error e)
  | made (op : Opcode) (args : Operands op.signature) (c : Change) (pc : Nat) : m.Fetched op →
      m.operands op.signature (m.pc + 1) = .ok args →
      m.effect (m.pc + 1 + op.arity) op args = .ok (c, pc) → Planned m (.ok ⟨op, c, pc⟩)

theorem plan_of_fetched {m : Machine} {op : Opcode} {args : Operands op.signature}
    (h : m.Fetched op) (hargs : m.operands op.signature (m.pc + 1) = .ok args) :
    m.plan = (m.effect (m.pc + 1 + op.arity) op args).map fun r => ⟨op, r.1, r.2⟩ := by
  have hroom := h.room
  have inside : ¬ memorySize ≤ m.pc := by omega
  simp only [plan, if_neg inside, h.code, if_neg (Nat.not_lt.2 hroom), hargs]
  rcases m.effect (m.pc + 1 + op.arity) op args with e | ⟨c, pc⟩ <;> rfl

theorem step_of_fetched {m : Machine} {op : Opcode} {args : Operands op.signature} {c : Change}
    {pc : Nat} (hactive : m.isActive = true) (h : m.Fetched op)
    (hargs : m.operands op.signature (m.pc + 1) = .ok args)
    (heff : m.effect (m.pc + 1 + op.arity) op args = .ok (c, pc)) :
    m.step = (.ok op, m.perform ⟨op, c, pc⟩) := by
  rw [step_eq_of_isActive hactive, plan_of_fetched h hargs, heff]
  rfl

theorem plan_cases (m : Machine) : m.Planned m.plan := by
  by_cases hpc : memorySize ≤ m.pc
  · rw [plan, if_pos hpc]
    exact .exhausted hpc
  · match hop : Opcode.ofCode? (m.memory.peek m.pc) with
    | none =>
      simp only [plan, if_neg hpc, hop]
      exact .unsupported (Nat.not_le.1 hpc) hop
    | some op =>
      by_cases hroom : memorySize < m.pc + 1 + op.arity
      · simp only [plan, if_neg hpc, hop, if_pos hroom]
        exact .pastEnd op (Nat.not_le.1 hpc) hop hroom
      · have hf : m.Fetched op := ⟨hop, Nat.not_lt.1 hroom⟩
        match hargs : m.operands op.signature (m.pc + 1) with
        | .error f =>
          simp only [plan, if_neg hpc, hop, if_neg hroom, hargs]
          exact .operand op f hf hargs
        | .ok args =>
          rw [plan_of_fetched hf hargs]
          match heff : m.effect (m.pc + 1 + op.arity) op args with
          | .error e => exact .failed op args e hf hargs heff
          | .ok (c, pc) => exact .made op args c pc hf hargs heff

/-- Any instruction but a stop is answered only where it has been fetched. -/
theorem step_eq_ok_of_ne_halt {m m' : Machine} {op : Opcode} (h : m.step = (.ok op, m'))
    (hop : op ≠ .halt) :
    ∃ args c pc, m.Fetched op ∧ m.operands op.signature (m.pc + 1) = .ok args ∧
      m.effect (m.pc + 1 + op.arity) op args = .ok (c, pc) ∧ m' = m.perform ⟨op, c, pc⟩ := by
  obtain ⟨-, p, hp, rfl, rfl⟩ := step_eq_ok h
  have hplan := m.plan_cases
  rw [hp] at hplan
  cases hplan with
  | exhausted => exact absurd rfl hop
  | made op args c pc hf hargs heff => exact ⟨args, c, pc, hf, hargs, heff, rfl⟩

/-! ### What the host changes -/

section Host
variable {m m' : Machine}

theorem supply_eq_ok {text : String} (h : m.supply text = .ok m') :
    ∃ dest c, m.status = .awaiting dest ∧ text.toList = [c] ∧ c.toNat < modulus ∧
      m' = { m.setReg dest c.toNat with status := .running } := by
  unfold supply at h
  split at h
  · cases h
  · rename_i dest hs
    split at h
    · rename_i c hc
      split at h
      · rename_i hlt
        cases h
        exact ⟨dest, c, hs, hc, hlt, rfl⟩
      · cases h
    · cases h
  · cases h

theorem setRegister_eq_ok {index value : Int} (h : m.setRegister index value = .ok m') :
    ∃ r : Register, index = r.val ∧ 0 ≤ value ∧ value < 32768 ∧ m' = m.setReg r value := by
  unfold setRegister at h
  split at h
  · cases h
  · rename_i r hr
    split at h
    · rename_i hlit
      cases h
      obtain ⟨h0, hlt⟩ := isLiteral_iff.1 hlit
      exact ⟨r, Register.ofInt?_eq_some_iff.1 hr, h0, hlt, rfl⟩
    · cases h

theorem writeMemory_eq_ok {addr value : Int} (h : m.writeMemory addr value = .ok m') :
    ∃ a : Address, addr = a.val ∧ m' = { m with memory := m.memory.poke a value } := by
  unfold writeMemory at h
  split at h
  · rename_i a ha
    cases h
    exact ⟨a, Address.ofInt?_eq_some_iff.1 ha, rfl⟩
  · cases h

end Host

/-! ### Sessions -/

theorem call_step (m : Machine) : (m.call .step).2 = m.step.2 := by
  simp only [call]
  split <;> rename_i heq <;> rw [heq]

theorem run_induction {P : Machine → Prop} (hstep : ∀ m, P m → P m.step.2) (limit : Nat) :
    ∀ m, P m → P (m.run limit).2 := by
  induction limit with
  | zero => exact fun m h => h
  | succ limit ih =>
    intro m h
    unfold run
    split
    · have hs := hstep m h
      split <;> rename_i heq <;> rw [heq] at hs
      · exact ih _ hs
      · exact hs
    · exact h

theorem call_induction {P : Machine → Prop} (c : Call) (hstep : ∀ m, P m → P m.step.2)
    (hsupply : ∀ m m' text, c = .supply text → P m → m.supply text = .ok m' → P m')
    (hset : ∀ m m' index value, c = .setRegister index value → P m →
      m.setRegister index value = .ok m' → P m')
    (hwrite : ∀ m m' addr value, c = .writeMemory addr value → P m →
      m.writeMemory addr value = .ok m' → P m')
    {m : Machine} (hm : P m) : P (m.call c).2 := by
  have hadopt {ε : Type} (wrap : ε → CallError) (r : Except ε Machine)
      (h : ∀ m', r = .ok m' → P m') : P (m.adopt wrap r).2 := by
    cases r with
    | error e => exact hm
    | ok m' => exact h m' rfl
  have hlook (r : Except Fault Int) : P (m.look r).2 := by
    cases r <;> exact hm
  cases c with
  | step =>
    have hs := hstep m hm
    simp only [call]
    split <;> rename_i heq <;> simpa only [heq] using hs
  | run limit =>
    have hr := run_induction hstep limit m hm
    simp only [call]
    split <;> rename_i heq <;> simpa only [heq] using hr
  | supply text => exact hadopt _ _ fun m' h => hsupply m m' text rfl hm h
  | setRegister index value => exact hadopt _ _ fun m' h => hset m m' index value rfl hm h
  | writeMemory addr value => exact hadopt _ _ fun m' h => hwrite m m' addr value rfl hm h
  | resolve word => exact hlook _
  | target word => exact hlook _
  | register index => exact hlook _
  | readMemory addr => exact hlook _

theorem ofFault_ne_step (f : Fault) (e : StepError) : CallError.ofFault f ≠ .step e := by
  unfold CallError.ofFault
  split <;> nofun

/-- A call fails as a step does only if it takes steps. -/
theorem call_eq_step_error {m : Machine} {c : Call} {e : StepError}
    (h : (m.call c).1 = .error (.step e)) :
    c = .step ∧ m.step.1 = .error e ∨ ∃ limit, c = .run limit ∧ (m.run limit).1 = .error e := by
  have hadopt {ε : Type} (wrap : ε → CallError) (r : Except ε Machine)
      (hwrap : ∀ x, wrap x ≠ .step e) : (m.adopt wrap r).1 ≠ .error (.step e) := by
    cases r with
    | ok m' => exact nofun
    | error x => exact fun h => hwrap x (Except.error.inj h)
  have hlook (r : Except Fault Int) : (m.look r).1 ≠ .error (.step e) := by
    cases r with
    | ok v => exact nofun
    | error f => exact fun h => ofFault_ne_step f e (Except.error.inj h)
  cases c with
  | step =>
    refine .inl ⟨rfl, ?_⟩
    simp only [call] at h
    split at h <;> rename_i heq
    · cases h
    · rw [heq]
      simpa using h
  | run limit =>
    refine .inr ⟨limit, rfl, ?_⟩
    simp only [call] at h
    split at h <;> rename_i heq
    · cases h
    · rw [heq]
      simpa using h
  | supply text => exact absurd h (hadopt _ _ fun _ => by simp)
  | setRegister index value => exact absurd h (hadopt _ _ fun f => ofFault_ne_step f e)
  | writeMemory addr value => exact absurd h (hadopt _ _ fun f => ofFault_ne_step f e)
  | resolve word => exact absurd h (hlook _)
  | target word => exact absurd h (hlook _)
  | register index => exact absurd h (hlook _)
  | readMemory addr => exact absurd h (hlook _)

theorem call_writeMemory {m : Machine} {addr : Int} {a : Address} (ha : addr = a.val) (v : Int) :
    (m.call (.writeMemory addr v)).2 = { m with memory := m.memory.poke a v } := by
  have hwrite : m.writeMemory addr v = .ok { m with memory := m.memory.poke a v } := by
    rw [writeMemory, Address.ofInt?_eq_some_iff.2 ha]
  rw [call, hwrite]
  rfl

/-- What the steps keep, and each change that the host makes during the session, the session
keeps. -/
theorem afterCalls_induction {P : Machine → Prop} (calls : List Call)
    (hstep : ∀ m, P m → P m.step.2)
    (hsupply : ∀ m m' text, .supply text ∈ calls → P m → m.supply text = .ok m' → P m')
    (hset : ∀ m m' index value, .setRegister index value ∈ calls → P m →
      m.setRegister index value = .ok m' → P m')
    (hwrite : ∀ m m' addr value, .writeMemory addr value ∈ calls → P m →
      m.writeMemory addr value = .ok m' → P m')
    {m : Machine} (hm : P m) : P (m.afterCalls calls) := by
  induction calls generalizing m with
  | nil => exact hm
  | cons c calls ih =>
    refine ih (fun m m' t h => hsupply m m' t (.tail _ h)) (fun m m' i v h => hset m m' i v (.tail _ h))
      (fun m m' a v h => hwrite m m' a v (.tail _ h)) (call_induction c hstep ?_ ?_ ?_ hm)
    · rintro m m' text rfl
      exact hsupply m m' text (.head _)
    · rintro m m' index value rfl
      exact hset m m' index value (.head _)
    · rintro m m' addr value rfl
      exact hwrite m m' addr value (.head _)

end Machine
end WordMachine
