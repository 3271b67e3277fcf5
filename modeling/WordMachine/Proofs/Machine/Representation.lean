import WordMachine.Proofs.Machine.Cells
import WordMachine.Proofs.Machine.Counterpart
import WordMachine.Proofs.Machine.InOrder
import WordMachine.Proofs.Machine.Status

/-! A machine and its bare counterpart do the same. So the guarantees that the types of a machine give
hold of the bare one, whatever its host does with it: it never slips. -/

namespace WordMachine
namespace Bare

section Machines
variable {m : Machine} {n : Int}

/-! ### Instructions -/

theorem does_jump {b : Bare} (v : Int) :
    b.does (jump v) = answered b Failure.raised ((jumpTarget v).map fun t => (t : Int)) := by
  unfold jump jumpTarget
  cases ha : Address.ofInt? v with
  | none =>
    rw [if_neg (Address.ofInt?_eq_none_iff.1 ha)]
    rfl
  | some a =>
    obtain rfl := Address.ofInt?_eq_some_iff.1 ha
    rw [if_pos (by omega)]
    rfl

/-- The words of an instruction, as they are read from memory. -/
def wordsAt (memory : Memory) (a k : Nat) : List Int := (List.range' a k).map memory.peek

theorem wordsAt_succ (memory : Memory) (a k : Nat) :
    wordsAt memory a (k + 1) = memory.peek a :: wordsAt memory (a + 1) k := by
  rw [wordsAt, List.range'_succ, List.map_cons, wordsAt]

theorem take_drop_memory {a k : Nat} (h : a + k ≤ memorySize) :
    ((m.bare n).memory.drop a).take k = wordsAt m.memory a k := by
  induction k generalizing a with
  | zero => rfl
  | succ k ih =>
    have hmem : (m.bare n).memory[a]? = some (m.memory.peek a) := getElem?_memory ⟨a, by omega⟩
    obtain ⟨hlt, hget⟩ := List.getElem?_eq_some_iff.1 hmem
    rw [List.drop_eq_getElem_cons hlt, List.take_succ_cons, hget, ih (by omega), wordsAt_succ]

theorem does_part_memory {a k : Nat} (h : a + k ≤ memorySize) :
    (m.bare n).does (part (m.bare n).memory a (a + k : Nat)) =
      (.ok (wordsAt m.memory a k), m.bare n) := by
  have hlen : (m.bare n).memory.length = memorySize := by simp [Machine.bare]
  rw [does_part (by omega), take_drop_memory h]

theorem does_operands (roles : List Role) (a : Nat) :
    (m.bare n).does (operands roles (wordsAt m.memory a roles.length)) =
      answered (m.bare n) Fault.raised ((m.operands roles a).map (Operands.numbers roles)) := by
  induction roles generalizing a with
  | nil => rfl
  | cons role roles ih =>
    have ih := ih (a + 1)
    rw [List.length_cons, wordsAt_succ]
    cases role with
    | write =>
      simp only [operands, Machine.operands, does_bind, does_target]
      cases Machine.target (m.memory.peek a) with
      | error f => rfl
      | ok r =>
        simp only [Except.map, answered, ih]
        cases m.operands roles (a + 1) <;> rfl
    | read =>
      simp only [operands, Machine.operands, does_bind, does_resolve]
      cases m.resolve (m.memory.peek a) with
      | error f => rfl
      | ok v =>
        simp only [answered, ih]
        cases m.operands roles (a + 1) <;> rfl

/-- A bare instruction from its operands on. -/
def finish (op : Opcode) (args : List Int) (next : Int) : Act Opcode := do
  let elsewhere ← body op args
  modify fun b => { b with pc := elsewhere.getD next }
  return op

theorem does_finish_of_body {b b' : Bare} {next : Int} {op : Opcode} {args : List Int}
    (act : Act (Option Int)) (hbody : b.does (body op args) = b'.does act) :
    b.does (finish op args next) = match b'.does act with
      | (.ok elsewhere, b'') => (.ok op, { b'' with pc := elsewhere.getD next })
      | (.error e, b'') => (.error e, b'') := by
  simp only [finish, does_bind, hbody]
  rcases b'.does act with ⟨_ | _, _⟩ <;> rfl

theorem does_finish_failing {b : Bare} {next : Int} {op : Opcode} {args : List Int} {e : Trouble}
    (hbody : body op args = throw e) : b.does (finish op args next) = (.error e, b) := by
  simp only [does_finish_of_body _ (congrArg _ hbody), does_throw]

section Finish
variable {next : Nat} (hs : m.status = .running) {op : Opcode} {args : List Int}
include hs

theorem does_finish_passing (hbody : body op args = return none) :
    (m.bare next).does (finish op args next) =
      (.ok op, (m.perform ⟨op, .nothing, next⟩).bare next) := by
  obtain ⟨memory, registers, stack, pc, status, emitted⟩ := m
  obtain rfl : status = .running := hs
  simp only [does_finish_of_body _ (congrArg _ hbody), does_pure]
  rfl

theorem does_finish_assigning {r : Register} {v : Int}
    (hbody : body op args = (do putRegister r.val v; return none)) :
    (m.bare next).does (finish op args next) =
      (.ok op, (m.perform ⟨op, .setReg r v, next⟩).bare next) := by
  obtain ⟨memory, registers, stack, pc, status, emitted⟩ := m
  obtain rfl : status = .running := hs
  simp only [does_finish_of_body _ (congrArg _ hbody), does_bind, does_putRegister, does_pure]
  rfl

theorem does_finish_jumping {v : Int} (hbody : body op args = (do return some (← jump v))) :
    (m.bare next).does (finish op args next) =
    match (jumpTarget v).map fun pc => (Change.nothing, pc) with
    | .error e => (.error e.raised, m.bare next)
    | .ok (c, pc) => (.ok op, (m.perform ⟨op, c, pc⟩).bare next) := by
  obtain ⟨memory, registers, stack, pc, status, emitted⟩ := m
  obtain rfl : status = .running := hs
  simp only [does_finish_of_body _ (congrArg _ hbody), does_bind, does_jump]
  cases jumpTarget v <;> rfl

end Finish

theorem does_finish (hs : m.status = .running) (next : Nat) (op : Opcode)
    (args : Operands op.signature) :
    (m.bare next).does (finish op (args.numbers op.signature) next) =
    match m.effect next op args with
    | .error e => (.error e.raised, m.bare next)
    | .ok (c, pc) => (.ok op, (m.perform ⟨op, c, pc⟩).bare next) := by
  obtain ⟨memory, registers, stack, pc, status, emitted⟩ := m
  obtain rfl : status = .running := hs
  cases op with
  | set | eq | gt | add | mult | and | or | not => exact does_finish_assigning rfl rfl
  | jmp => exact does_finish_jumping rfl rfl
  | noop => exact does_finish_passing rfl rfl
  | jt =>
    obtain ⟨a, b, ⟨⟩⟩ := args
    by_cases h : a ≠ 0
    · simp only [Machine.effect, if_pos h]
      exact does_finish_jumping rfl (if_pos h)
    · simp only [Machine.effect, if_neg h]
      exact does_finish_passing rfl (if_neg h)
  | jf =>
    obtain ⟨a, b, ⟨⟩⟩ := args
    by_cases h : a = 0
    · simp only [Machine.effect, if_pos h]
      exact does_finish_jumping rfl (if_pos h)
    · simp only [Machine.effect, if_neg h]
      exact does_finish_passing rfl (if_neg h)
  | mod =>
    obtain ⟨r, b, c, ⟨⟩⟩ := args
    by_cases h : c = 0
    · simp only [Machine.effect, if_pos h]
      exact does_finish_failing (if_pos h)
    · simp only [Machine.effect, if_neg h]
      exact does_finish_assigning rfl (if_neg h)
  | rmem =>
    obtain ⟨r, b, ⟨⟩⟩ := args
    rw [does_finish_of_body (do putRegister r.val (← readMemory b); return none) rfl]
    simp only [does_bind, does_readMemory, Machine.readMemory, Machine.effect, cellAddress]
    cases Address.ofInt? b with
    | none => rfl
    | some a =>
      simp only [answered, does_putRegister]
      rfl
  | wmem =>
    obtain ⟨a, b, ⟨⟩⟩ := args
    rw [does_finish_of_body (do writeMemory a b; return none) rfl]
    simp only [does_bind, does_writeMemory, Machine.writeMemory, Machine.effect, cellAddress]
    cases Address.ofInt? a <;> rfl
  | halt | push | input =>
    rfl
  | pop =>
    obtain ⟨r, ⟨⟩⟩ := args
    cases stack with
    | nil => rfl
    | cons v rest =>
      -- the top is gone before the register is written
      let popped : Machine := ⟨memory, registers, rest, pc, .running, emitted⟩
      have hbody : (Machine.bare ⟨memory, registers, v :: rest, pc, .running, emitted⟩ next).does
          (body .pop [r.val]) = (popped.bare next).does (do putRegister r.val v; return none) := rfl
      refine (does_finish_of_body _ hbody).trans ?_
      simp only [does_bind, does_putRegister, does_pure]
      rfl
  | call =>
    obtain ⟨a, ⟨⟩⟩ := args
    rw [does_finish_of_body (do
      let addr ← jump a
      push ((← get).cursor % modulus)
      return some addr) rfl]
    simp only [does_bind, does_jump, Machine.effect]
    cases jumpTarget a <;> rfl
  | ret =>
    obtain ⟨⟩ := args
    cases stack with
    | nil => rfl
    | cons v rest =>
      let m : Machine := ⟨memory, registers, v :: rest, pc, .running, emitted⟩
      have hbody : (m.bare next).does (body .ret []) = (m.bare next).does (do
          let addr ← jump v
          let _ ← pop
          return some addr) := rfl
      refine (does_finish_of_body _ hbody).trans ?_
      simp only [does_bind, does_jump, Machine.effect]
      cases jumpTarget v <;> rfl
  | out =>
    obtain ⟨a, ⟨⟩⟩ := args
    rw [does_finish_of_body (do emit a; return none) rfl]
    simp only [emit, Machine.effect]
    cases codePoint a <;> rfl

/-- An instruction leaves the address behind it in the cursor, if it gets so far. -/
theorem does_execute (hs : m.status = .running) (hpc : ¬ memorySize ≤ m.pc) {op : Opcode}
    (hop : Opcode.ofCode? (m.memory.peek m.pc) = some op) :
    ∃ k, (m.bare n).does (execute op) = match m.plan with
      | .ok p => (.ok p.op, (m.perform p).bare k)
      | .error e => (.error e.raised, m.bare k) := by
  have hnext : (m.bare n).pc + 1 + op.arity = ((m.pc + 1 + op.arity : Nat) : Int) := rfl
  simp only [execute, does_bind, does_get, hnext]
  by_cases hroom : memorySize < m.pc + 1 + op.arity
  · refine ⟨n, ?_⟩
    simp only [Machine.plan, if_neg hpc, hop, if_pos hroom, if_pos (Int.ofNat_lt.2 hroom)]
    rfl
  · have hpart : (m.bare n).does (part (m.bare n).memory ((m.bare n).pc + 1)
        (m.pc + 1 + op.arity : Nat)) = (.ok (wordsAt m.memory (m.pc + 1) op.arity), m.bare n) :=
      does_part_memory (Nat.not_lt.1 hroom)
    have hoperands : (m.bare n).does (operands op.signature (wordsAt m.memory (m.pc + 1) op.arity)) =
        _ := does_operands op.signature (m.pc + 1)
    rw [if_neg (fun h => hroom (Int.ofNat_lt.1 h))]
    simp only [does_bind, hpart, hoperands]
    cases hargs : m.operands op.signature (m.pc + 1) with
    | error f =>
      refine ⟨n, ?_⟩
      simp only [Machine.plan, if_neg hpc, hop, if_neg hroom, hargs]
      rfl
    | ok args =>
      refine ⟨(m.pc + 1 + op.arity : Nat), ?_⟩
      have hfinish := does_finish hs (m.pc + 1 + op.arity) op args
      simp only [finish, does_bind] at hfinish
      rw [Machine.plan_of_fetched ⟨hop, Nat.not_lt.1 hroom⟩ hargs]
      simp only [Except.map, answered, does_modify, does_item_table]
      refine hfinish.trans ?_
      cases m.effect (m.pc + 1 + op.arity) op args <;> rfl

/-- Whether a machine is loaded or already runs makes no difference to an instruction. -/
theorem bare_become_running (hactive : m.isActive = true) :
    { m.bare n with phase := .running } = { m with status := .running }.bare n := by
  rcases Machine.isActive_iff.1 hactive with hs | hs <;>
    simp only [Machine.bare, Machine.trap?, Machine.awaited?, hs] <;> rfl

theorem bare_become_halted (hactive : m.isActive = true) :
    { m.bare n with phase := .halted } = { m with status := .halted none }.bare n := by
  rcases Machine.isActive_iff.1 hactive with hs | hs <;>
    simp only [Machine.bare, Machine.trap?, Machine.awaited?, hs] <;> rfl

theorem does_instruction (hactive : m.isActive = true) :
    ∃ k, (m.bare n).does instruction = match m.plan with
      | .ok p => (.ok p.op, (m.perform p).bare k)
      | .error e => (.error e.raised, { m with status := .running }.bare k) := by
  have hpc : (m.bare n).pc = m.pc := rfl
  simp only [instruction, does_bind, does_get, hpc, Int.ofNat_le]
  by_cases hend : memorySize ≤ m.pc
  · refine ⟨n, ?_⟩
    rw [if_pos hend, Machine.plan, if_pos hend]
    simp only [become, does_bind, does_modify, does_pure, bare_become_halted hactive]
    rfl
  · have hitem : ({ m with status := .running }.bare n).does (item (m.bare n).memory m.pc) =
        (.ok (m.memory.peek m.pc), { m with status := .running }.bare n) :=
      does_item (getElem?_memory ⟨m.pc, Nat.not_le.1 hend⟩)
    rw [if_neg hend]
    simp only [become, does_bind, does_modify, bare_become_running hactive, hitem, named]
    cases hop : Opcode.ofCode? (m.memory.peek m.pc) with
    | none =>
      refine ⟨n, ?_⟩
      simp only [Machine.plan, if_neg hend, hop]
      rfl
    | some op =>
      have hexecute := @does_execute { m with status := .running } n rfl hend op hop
      rwa [Machine.plan_of_status] at hexecute

theorem does_halting (e : Failure) (hs : m.status = .running) :
    (m.bare n).does (halting e.raised) =
      ((m.failed e).1.mapError StepError.raised, (m.failed e).2.bare n) := by
  obtain ⟨memory, registers, stack, pc, status, emitted⟩ := m
  obtain rfl : status = .running := hs
  cases e with
  | output e => rfl
  | fault f =>
    by_cases htold : f.IsTold
    · have hraised : (Failure.fault f).raised = .fault f none := if_pos htold
      rw [hraised, Machine.failed_of_told _ htold]
      rfl
    · have hraised : (Failure.fault f).raised = .untold f := if_neg htold
      rw [hraised, Machine.failed_of_untold _ htold]
      rfl

theorem does_tried (hactive : m.isActive = true) : ∃ k,
    (m.bare n).does (tryCatch instruction halting) =
      (m.step.1.mapError StepError.raised, m.step.2.bare k) := by
  obtain ⟨k, hinstruction⟩ := does_instruction (n := n) hactive
  refine ⟨k, ?_⟩
  rw [does_tryCatch, hinstruction, Machine.step_eq_of_isActive hactive]
  cases m.plan with
  | ok p => rfl
  | error e =>
    have hhalting := @does_halting { m with status := .running } k e rfl
    rwa [Machine.failed_of_status] at hhalting

/-- A step of the bare machine is the step of its counterpart. -/
theorem does_step : ∃ k, (m.bare n).does step =
    (m.step.1.mapError StepError.raised, m.step.2.bare k) := by
  have hphase : (m.bare n).phase = m.status.phase := rfl
  simp only [step, does_bind, does_get, hphase]
  cases hs : m.status with
  | ready | running => exact does_tried (Machine.isActive_iff.2 (by simp [hs]))
  | awaiting | halted =>
    refine ⟨n, ?_⟩
    simp only [Status.phase, Machine.step, hs]
    rfl

theorem does_run (limit : Nat) : ∃ k, (m.bare n).does (run limit) =
    (((m.run limit).1.map fun _ => ()).mapError StepError.raised, (m.run limit).2.bare k) := by
  induction limit generalizing m n with
  | zero => exact ⟨n, rfl⟩
  | succ limit ih =>
    have hphase : (m.bare n).phase = m.status.phase := rfl
    obtain ⟨k, hstep⟩ := @does_step m n
    simp only [run, does_bind, does_get, hphase, Machine.run]
    cases hs : m.status with
    | awaiting | halted =>
      refine ⟨n, ?_⟩
      simp only [Machine.isActive, hs]
      rfl
    | ready | running =>
      simp only [Machine.isActive, hs, Status.phase, does_bind, hstep]
      rcases m.step with ⟨answer, m'⟩
      cases answer with
      | ok op => exact @ih m' k
      | error e => exact ⟨k, rfl⟩

/-! ### Sessions -/

theorem does_looking {act : Act Int} {answer : Except Fault Int}
    (h : (m.bare n).does act = answered (m.bare n) Fault.raised answer) :
    (m.bare n).does (do return .value (← act)) =
      (((m.look answer).1.map Answer.reply).mapError CallError.raised, (m.look answer).2.bare n) := by
  simp only [does_bind, h]
  cases answer with
  | ok v => rfl
  | error f => exact congrArg (fun e => (Except.error e, m.bare n)) (CallError.raised_ofFault f).symm

theorem does_adopting {ε : Type} {act : Act Unit} {answer : Except ε Machine} {wrap : ε → CallError}
    (h : (m.bare n).does act = adopted m n (fun e => (wrap e).raised) answer) :
    (m.bare n).does (do act; return .done) =
      (((m.adopt wrap answer).1.map Answer.reply).mapError CallError.raised,
        (m.adopt wrap answer).2.bare n) := by
  simp only [does_bind, h]
  cases answer <;> rfl

/-- A call of the bare machine is the call of its counterpart. -/
theorem does_call (c : Call) : ∃ k, (m.bare n).does (call c) =
    (((m.call c).1.map Answer.reply).mapError CallError.raised, (m.call c).2.bare k) := by
  cases c with
  | step =>
    obtain ⟨k, hstep⟩ := @does_step m n
    refine ⟨k, ?_⟩
    simp only [call, does_bind, hstep, Machine.call]
    rcases m.step with ⟨_ | _, _⟩ <;> rfl
  | run limit =>
    obtain ⟨k, hrun⟩ := @does_run m n limit
    refine ⟨k, ?_⟩
    simp only [call, does_bind, hrun, Machine.call]
    rcases m.run limit with ⟨_ | _, _⟩ <;> rfl
  | supply text => exact ⟨n, does_adopting (does_supply text)⟩
  | resolve word => exact ⟨n, does_looking (does_resolve word)⟩
  | target word => exact ⟨n, does_looking (does_target word)⟩
  | register index => exact ⟨n, does_looking (does_register index)⟩
  | setRegister index value =>
    have hset := @does_setRegister m n index value
    rw [← funext CallError.raised_ofFault] at hset
    exact ⟨n, does_adopting hset⟩
  | readMemory addr => exact ⟨n, does_looking (does_readMemory addr)⟩
  | writeMemory addr value =>
    have hwrite := @does_writeMemory m n addr value
    rw [← funext CallError.raised_ofFault] at hwrite
    exact ⟨n, does_adopting hwrite⟩

theorem bare_afterCalls (calls : List Call) :
    ∃ k, (m.bare n).afterCalls calls = (m.afterCalls calls).bare k := by
  induction calls generalizing m n with
  | nil => exact ⟨n, rfl⟩
  | cons c calls ih =>
    obtain ⟨k, hcall⟩ := @does_call m n c
    rw [afterCalls, hcall, Machine.afterCalls]
    exact ih

end Machines

theorem cells_ofList {program : List Int} (h : program.length ≤ memorySize) :
    (Memory.ofList program).cells.toList =
      program ++ List.replicate (memorySize - program.length) 0 := by
  apply List.ext_getElem?
  intro a
  by_cases ha : a < memorySize
  · rw [getElem?_cells (Memory.ofList program) ⟨a, ha⟩, Memory.peek_ofList_of_le h,
      List.getD_eq_getElem?_getD]
    rcases Nat.lt_or_ge a program.length with hlt | hge
    · rw [List.getElem?_append_left hlt, List.getElem?_eq_getElem hlt]
      rfl
    · rw [List.getElem?_append_right hge, List.getElem?_replicate_of_lt (by omega),
        List.getElem?_eq_none hge]
      rfl
  · rw [List.getElem?_eq_none (by simp; omega), List.getElem?_eq_none (by simp; omega)]

theorem start_bare {program : List Int} (h : program.length ≤ memorySize) :
    start program = (Machine.start program).bare 0 := by
  rw [start, ← cells_ofList h, Machine.start, Machine.bare]
  generalize (Memory.ofList program).cells.toList = cells
  rfl

theorem load_bare (program : List Int) :
    load program = (Machine.load program).map fun m => m.bare 0 := by
  unfold load Machine.load
  split
  · rfl
  · rename_i hlen
    rw [start_bare (Nat.not_lt.1 hlen)]
    cases firstOutside 0xffff program <;> rfl

/-! ### What the types say -/

theorem sound_bare {m : Machine} (h : m.Proper) (n : Int) : (m.bare n).Sound where
  memory := by simp [Machine.bare]
  registers := by simp [Machine.bare]
  pc := ⟨Int.natCast_nonneg _, Int.ofNat_le.2 h.pc⟩
  pending := by
    cases hs : m.status <;> simp [Machine.bare, Machine.awaited?, Status.phase, hs]
  pending_range := by
    intro i hi
    obtain ⟨r, -, rfl⟩ := Option.map_eq_some_iff.1 hi
    omega
  fault := by
    cases hs : m.status <;> simp [Machine.bare, Machine.trap?, Status.phase, hs]
  ready := by
    intro hphase
    have hs : m.status = .ready := by
      cases hs : m.status <;> simp [Machine.bare, Status.phase, hs] at hphase ⊢
    obtain ⟨hpc, hstack, hemitted⟩ := h.ready hs
    exact ⟨congrArg _ hpc, hstack, hemitted⟩

/-- What goes wrong in a machine is never a slip. -/
theorem raised_ne_slip (e : CallError) (why : Slip) : e.raised ≠ .slip why := by
  cases e with
  | step e => cases e <;> nofun
  | refused | fault | untold => nofun

/-- Whatever the host of a bare machine does, it is sound between any two calls, every call is
answered as the machine with its guarantees answers it, and none ever slips. -/
theorem bare_machine_is_sound {program : List Int} {m : Machine}
    (h : Machine.load program = .ok m) :
    ∃ b, load program = .ok b ∧ ∀ calls : List Call,
      (b.afterCalls calls).Sound ∧
      (∃ cursor, b.afterCalls calls = (m.afterCalls calls).bare cursor) ∧
      ∀ c, ((b.afterCalls calls).does (call c)).1 =
          (((m.afterCalls calls).call c).1.map Answer.reply).mapError CallError.raised ∧
        ∀ why, ((b.afterCalls calls).does (call c)).1 ≠ .error (.slip why) := by
  refine ⟨m.bare 0, ?_, ?_⟩
  · rw [load_bare, h]
    rfl
  · intro calls
    obtain ⟨k, hbare⟩ := @bare_afterCalls m 0 calls
    rw [hbare]
    refine ⟨sound_bare (Machine.proper_afterCalls (Machine.proper_of_load h) calls) k, ⟨k, rfl⟩, ?_⟩
    intro c
    obtain ⟨k', hcall⟩ := @does_call (m.afterCalls calls) k c
    rw [hcall]
    refine ⟨rfl, ?_⟩
    intro why
    cases ((m.afterCalls calls).call c).1 with
    | ok answer => nofun
    | error e => exact fun hslip => raised_ne_slip e why (Except.error.inj hslip)

/-- A program that goes on at an address that it reads from memory, where the host has stored a
negative number. -/
theorem bare_machine_is_sound_of_negative_address :
    ∃ b, load [15, 32768, 5, 6, 32768, 0] = .ok b ∧
      (b.afterCalls [.writeMemory 5 (-1), .step]).Sound ∧
      ∀ why, ((b.afterCalls [.writeMemory 5 (-1), .step]).does (call .step)).1 ≠ .error (.slip why) := by
  have hload : Machine.load [15, 32768, 5, 6, 32768, 0] = .ok (.start [15, 32768, 5, 6, 32768, 0]) := rfl
  obtain ⟨b, hb, hsessions⟩ := bare_machine_is_sound hload
  obtain ⟨hsound, -, hcalls⟩ := hsessions [.writeMemory 5 (-1), .step]
  exact ⟨b, hb, hsound, (hcalls .step).2⟩

end Bare
end WordMachine
