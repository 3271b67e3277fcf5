import Mathlib.Data.Set.Defs
import WordMachine.Proofs.Machine.Cells
import WordMachine.Proofs.Machine.Protocol

/-! Memory that a run does not read. A step looks at the words of its instruction and, if it loads a
cell, at that cell. Machines that are equal but for cells which are not looked at are therefore
answered alike, and they stay equal but for these cells, even while both of them write there. -/

namespace WordMachine
namespace Machine

/-- The next step of the machine looks at the cell with this address: for the opcode, for the word
of an operand, or because the instruction loads that cell. -/
inductive Reads (m : Machine) : Nat → Prop
  | opcode : m.isActive = true → m.pc < memorySize → Reads m m.pc
  | operand (op : Opcode) (k : Nat) : m.isActive = true → m.Fetched op → k < op.arity →
      Reads m (m.pc + 1 + k)
  | loaded (r : Register) (a : Address) : m.isActive = true → m.Fetched .rmem →
      target (m.memory.peek (m.pc + 1)) = .ok r → m.resolve (m.memory.peek (m.pc + 2)) = .ok a.val →
      Reads m a.val

/-- The machines are equal but for the contents of cells in the set. -/
structure EqualOutside (unread : Set Nat) (m m' : Machine) : Prop where
  cells : ∀ a, a ∉ unread → m'.memory.peek a = m.memory.peek a
  registers : m'.registers = m.registers
  stack : m'.stack = m.stack
  pc : m'.pc = m.pc
  status : m'.status = m.status
  emitted : m'.emitted = m.emitted

variable {unread : Set Nat} {m m' : Machine}

theorem EqualOutside.eq (h : m.EqualOutside unread m') : m' = { m with memory := m'.memory } := by
  obtain ⟨memory, registers, stack, pc, status, emitted⟩ := m'
  obtain ⟨-, rfl, rfl, rfl, rfl, rfl⟩ := h
  rfl

theorem equalOutside_of_cells {memory : Memory}
    (h : ∀ a, a ∉ unread → memory.peek a = m.memory.peek a) :
    m.EqualOutside unread { m with memory := memory } :=
  ⟨h, rfl, rfl, rfl, rfl, rfl⟩

theorem EqualOutside.output (h : m.EqualOutside unread m') : m'.output = m.output :=
  congrArg List.reverse h.emitted

/-! ### One instruction on another memory -/

section Memory
variable {memory : Memory}

theorem operands_of_cells (roles : List Role) (a : Nat)
    (h : ∀ k, k < roles.length → memory.peek (a + k) = m.memory.peek (a + k)) :
    { m with memory := memory }.operands roles a = m.operands roles a := by
  induction roles generalizing a with
  | nil => rfl
  | cons role roles ih =>
    have hhead : memory.peek a = m.memory.peek a := h 0 (Nat.zero_lt_succ _)
    have htail : ∀ k, k < roles.length → memory.peek (a + 1 + k) = m.memory.peek (a + 1 + k) := by
      intro k hk
      rw [Nat.add_assoc, Nat.add_comm 1 k]
      exact h (k + 1) (Nat.succ_lt_succ hk)
    cases role with
    | write => simp only [operands, hhead, ih (a + 1) htail]
    | read =>
      simp only [operands, hhead, ih (a + 1) htail]
      rfl

/-- Only an instruction that loads a cell has an effect that depends on one. -/
theorem effect_of_cells (next : Nat) (op : Opcode) (args : Operands op.signature)
    (h : ∀ a : Address, op = .rmem → args.value? op.signature 1 = some (a.val : Int) →
      memory.peek a.val = m.memory.peek a.val) :
    { m with memory := memory }.effect next op args = m.effect next op args := by
  cases op with
  | rmem =>
    obtain ⟨r, b, ⟨⟩⟩ := args
    simp only [effect]
    cases ha : cellAddress b with
    | error e => rfl
    | ok a =>
      obtain rfl := cellAddress_eq_ok.1 ha
      exact congrArg (fun v => Except.ok (Change.setReg r v, next)) (h a rfl rfl)
  | halt | set | push | pop | eq | gt | jmp | jt | jf | add | mult | mod | and | or | not | wmem
  | call | ret | out | input | noop => rfl

theorem plan_of_cells (hactive : m.isActive = true)
    (h : ∀ a, m.Reads a → memory.peek a = m.memory.peek a) :
    { m with memory := memory }.plan = m.plan := by
  by_cases hpc : memorySize ≤ m.pc
  · simp only [plan, if_pos hpc]
  have hword : memory.peek m.pc = m.memory.peek m.pc := h _ (.opcode hactive (Nat.not_le.1 hpc))
  simp only [plan, if_neg hpc, hword]
  cases hop : Opcode.ofCode? (m.memory.peek m.pc) with
  | none => rfl
  | some op =>
    simp only
    split
    · rfl
    rename_i hroom
    have hf : m.Fetched op := ⟨hop, Nat.not_lt.1 hroom⟩
    have hargs : { m with memory := memory }.operands op.signature (m.pc + 1) =
        m.operands op.signature (m.pc + 1) :=
      operands_of_cells _ _ fun k hk => h _ (.operand op k hactive hf hk)
    rw [hargs]
    cases hread : m.operands op.signature (m.pc + 1) with
    | error f => rfl
    | ok args =>
      have heff : { m with memory := memory }.effect (m.pc + 1 + op.arity) op args =
          m.effect (m.pc + 1 + op.arity) op args := by
        refine effect_of_cells (m.pc + 1 + op.arity) op args ?_
        rintro a rfl ha
        have hdest : target (m.memory.peek (m.pc + 1)) = .ok args.1 := target_of_operands hread rfl
        have hcell : m.resolve (m.memory.peek (m.pc + 1 + 1)) = .ok a.val :=
          resolve_of_operands _ hread ha
        exact h a.val (.loaded args.1 a hactive hf hdest hcell)
      simp only [heff]

end Memory

/-! ### Calls -/

/-- Both machines carry out the same plan, and if it stores, both store the same. -/
theorem EqualOutside.perform (h : m.EqualOutside unread m') (p : Plan) :
    (m.perform p).EqualOutside unread (m'.perform p) := by
  obtain ⟨op, change, pc⟩ := p
  rw [h.eq]
  cases change with
  | setCell a v =>
    refine equalOutside_of_cells ?_
    intro b hb
    change (m'.memory.poke a v).peek b = (m.memory.poke a v).peek b
    rw [Memory.peek_poke, Memory.peek_poke, h.cells b hb]
  | nothing | setReg | push | popInto | drop | emit | await | halt =>
    exact equalOutside_of_cells h.cells

/-- Both machines fail alike. -/
theorem EqualOutside.failed (h : m.EqualOutside unread m') (e : Failure) :
    (m'.failed e).1 = (m.failed e).1 ∧ (m.failed e).2.EqualOutside unread (m'.failed e).2 := by
  rw [h.eq]
  cases e with
  | output e => exact ⟨rfl, equalOutside_of_cells h.cells⟩
  | fault f =>
    by_cases htold : f.IsTold
    · rw [failed_of_told _ htold, failed_of_told _ htold]
      exact ⟨rfl, equalOutside_of_cells h.cells⟩
    · rw [failed_of_untold _ htold, failed_of_untold _ htold]
      exact ⟨rfl, equalOutside_of_cells h.cells⟩

theorem EqualOutside.step (h : m.EqualOutside unread m') (hreads : ∀ a, m.Reads a → a ∉ unread) :
    m'.step.1 = m.step.1 ∧ m.step.2.EqualOutside unread m'.step.2 := by
  cases hs : m.status with
  | halted | awaiting =>
    simp only [Machine.step, h.status, hs, true_and]
    exact h
  | ready | running =>
    have hactive : m.isActive = true := isActive_iff.2 (by simp [hs])
    have hactive' : m'.isActive = true := isActive_iff.2 (by simp [h.status, hs])
    have hplan : m'.plan = m.plan := by
      rw [h.eq]
      exact plan_of_cells hactive fun a ha => h.cells a (hreads a ha)
    rw [step_eq_of_isActive hactive, step_eq_of_isActive hactive', hplan]
    cases m.plan with
    | error e => exact h.failed e
    | ok p => exact ⟨rfl, h.perform p⟩

theorem supply_of_memory (m : Machine) (memory : Memory) (text : String) :
    { m with memory := memory }.supply text =
      (m.supply text).map fun n => { n with memory := memory } := by
  obtain ⟨cells, registers, stack, pc, status, emitted⟩ := m
  cases status with
  | awaiting dest =>
    simp only [Machine.supply]
    split
    · split <;> rfl
    · rfl
  | ready | running | halted => rfl

theorem EqualOutside.supply (h : m.EqualOutside unread m') (text : String) :
    (m'.call (.supply text)).1 = (m.call (.supply text)).1 ∧
      (m.call (.supply text)).2.EqualOutside unread (m'.call (.supply text)).2 := by
  have hsame := m.supply_of_memory m'.memory text
  rw [← h.eq] at hsame
  simp only [call, hsame]
  cases hs : m.supply text with
  | error why => exact ⟨rfl, h⟩
  | ok n =>
    obtain ⟨dest, c, -, -, -, rfl⟩ := supply_eq_ok hs
    exact ⟨rfl, equalOutside_of_cells h.cells⟩

theorem answer_of_step (m : Machine) :
    (m.call .step).1 = (m.step.1.map Answer.executed).mapError CallError.step := by
  simp only [Machine.call]
  rcases m.step with ⟨op | e, m'⟩ <;> rfl

theorem EqualOutside.call (h : m.EqualOutside unread m') {c : Call}
    (hc : c = .step ∨ ∃ text, c = .supply text)
    (hreads : c = .step → ∀ a, m.Reads a → a ∉ unread) :
    (m'.call c).1 = (m.call c).1 ∧ (m.call c).2.EqualOutside unread (m'.call c).2 := by
  rcases hc with rfl | ⟨text, rfl⟩
  · obtain ⟨hanswer, hequal⟩ := h.step (hreads rfl)
    rw [call_step, call_step, answer_of_step, answer_of_step, hanswer]
    exact ⟨rfl, hequal⟩
  · exact h.supply text

/-! ### Sessions -/

theorem EqualOutside.afterCalls {calls : List Call} (h : m.EqualOutside unread m')
    (hcalls : ∀ c ∈ calls, c = .step ∨ ∃ text, c = .supply text)
    (hreads : ∀ cs, cs ++ [Call.step] <+: calls → ∀ a, (m.afterCalls cs).Reads a → a ∉ unread) :
    m'.transcript calls = m.transcript calls ∧
      (m.afterCalls calls).EqualOutside unread (m'.afterCalls calls) := by
  induction calls generalizing m m' with
  | nil => exact ⟨rfl, h⟩
  | cons c calls ih =>
    rw [List.forall_mem_cons] at hcalls
    have hfirst : c = .step → ∀ a, m.Reads a → a ∉ unread := by
      rintro rfl
      exact hreads [] ((List.prefix_cons_inj _).2 List.nil_prefix)
    obtain ⟨hanswer, hequal⟩ := h.call hcalls.1 hfirst
    obtain ⟨htranscript, hrest⟩ := ih hequal hcalls.2 fun cs hcs =>
      hreads (c :: cs) ((List.prefix_cons_inj c).2 hcs)
    refine ⟨?_, hrest⟩
    rw [transcript, transcript, hanswer, htranscript]

/-- Programs with the same words but for some cells are loaded into machines that are equal but for
these cells. -/
theorem equalOutside_of_load {program other : List Int} (hload : load program = .ok m)
    (hother : load other = .ok m') (h : ∀ a, a ∉ unread → other.getD a 0 = program.getD a 0) :
    m.EqualOutside unread m' := by
  obtain ⟨rfl, -⟩ := load_eq_ok hload
  obtain ⟨rfl, -⟩ := load_eq_ok hother
  refine ⟨?_, rfl, rfl, rfl, rfl, rfl⟩
  intro a ha
  by_cases hlt : a < memorySize
  · have hprogram := Memory.peek_ofList program ⟨a, hlt⟩
    have hother := Memory.peek_ofList other ⟨a, hlt⟩
    exact hother.trans ((h a ha).trans hprogram.symm)
  · rw [Memory.peek_of_le _ (Nat.not_lt.1 hlt), Memory.peek_of_le _ (Nat.not_lt.1 hlt)]

/-- Two machines that are equal but for some cells, and steps and supplies during which the first of
them looks at none of these cells: all calls are answered alike, the same is sent out, and after each
call the machines are equal but for these cells. So words that a program does not look at make no
difference to its run, whether they are changed or come behind the program. -/
theorem unread_memory_is_irrelevant :
    (∀ (unread : Set Nat) (m m' : Machine) (calls : List Call), m.EqualOutside unread m' →
      (∀ c ∈ calls, c = .step ∨ ∃ text, c = .supply text) →
      (∀ cs, cs ++ [Call.step] <+: calls → ∀ a, (m.afterCalls cs).Reads a → a ∉ unread) →
      m'.transcript calls = m.transcript calls ∧ ∀ cs, cs <+: calls →
        (m'.afterCalls cs).output = (m.afterCalls cs).output ∧
        (m.afterCalls cs).EqualOutside unread (m'.afterCalls cs)) ∧
    ∀ (program other : List Int) (unread : Set Nat) (m m' : Machine) (calls : List Call),
      load program = .ok m → load other = .ok m' →
      (∀ a, a ∉ unread → other.getD a 0 = program.getD a 0) →
      (∀ c ∈ calls, c = .step ∨ ∃ text, c = .supply text) →
      (∀ cs, cs ++ [Call.step] <+: calls → ∀ a, (m.afterCalls cs).Reads a → a ∉ unread) →
      m'.transcript calls = m.transcript calls ∧
        (m'.afterCalls calls).output = (m.afterCalls calls).output := by
  constructor
  · intro unread m m' calls h hcalls hreads
    refine ⟨(h.afterCalls hcalls hreads).1, ?_⟩
    intro cs hcs
    have hequal := (h.afterCalls (fun c hc => hcalls c (hcs.subset hc))
      fun ds hds => hreads ds (hds.trans hcs)).2
    exact ⟨hequal.output, hequal⟩
  · intro program other unread m m' calls hload hother h hcalls hreads
    obtain ⟨htranscript, hequal⟩ :=
      (equalOutside_of_load hload hother h).afterCalls hcalls hreads
    exact ⟨htranscript, hequal.output⟩

/-- Sends out a letter, stores another one in the cell behind the program, and stops. -/
def storesBehind : List Int := [19, 65, 16, 6, 66, 0]

/-- An instruction that loads nothing looks at its own words. -/
theorem Reads.within {op : Opcode} {a : Nat} (h : m.Reads a) (hf : m.Fetched op) (hop : op ≠ .rmem) :
    m.pc ≤ a ∧ a ≤ m.pc + op.arity := by
  have hsame {op' : Opcode} (hf' : m.Fetched op') : op' = op :=
    Option.some.inj (hf'.code.symm.trans hf.code)
  cases h with
  | opcode => omega
  | operand op' k _ hf' hk =>
    obtain rfl := hsame hf'
    omega
  | loaded _ _ _ hf' => exact absurd (hsame hf').symm hop

def threeSteps : List Call := [.step, .step, .step]

theorem storesBehind_reads {memory : Memory}
    (hpeek : ∀ a, memory.peek a = storesBehind.getD a 0) (regs : Vector Int 8) {cs : List Call}
    (hcs : cs ++ [Call.step] <+: threeSteps) {a : Nat}
    (ha : ((⟨memory, regs, [], 0, .ready, []⟩ : Machine).afterCalls cs).Reads a) : a < 6 := by
  have hfetched : (⟨memory, regs, [], 0, .ready, []⟩ : Machine).Fetched .out :=
    ⟨by simp only [hpeek]; rfl, Nat.le_of_ble_eq_true rfl⟩
  have hout : (⟨memory, regs, [], 0, .ready, []⟩ : Machine).step =
      (.ok .out, ⟨memory, regs, [], 2, .running, [65]⟩) :=
    @step_of_fetched ⟨memory, regs, [], 0, .ready, []⟩ .out (65, ()) _ _ rfl hfetched
      (by simp only [Opcode.signature, operands, hpeek]; rfl) rfl
  have hstores : (⟨memory, regs, [], 2, .running, [65]⟩ : Machine).Fetched .wmem :=
    ⟨by simp only [hpeek]; rfl, Nat.le_of_ble_eq_true rfl⟩
  have hwmem : (⟨memory, regs, [], 2, .running, [65]⟩ : Machine).step =
      (.ok .wmem, ⟨memory.poke ⟨6, by decide⟩ 66, regs, [], 5, .running, [65]⟩) :=
    @step_of_fetched ⟨memory, regs, [], 2, .running, [65]⟩ .wmem (6, 66, ()) _ _ rfl hstores
      (by simp only [Opcode.signature, operands, hpeek]; rfl) rfl
  have hstops : (⟨memory.poke ⟨6, by decide⟩ 66, regs, [], 5, .running, [65]⟩ : Machine).Fetched
      .halt :=
    ⟨by simp only [Memory.peek_poke, hpeek]; rfl, Nat.le_of_ble_eq_true rfl⟩
  -- at most two steps come before the one that reads
  rcases cs with _ | ⟨c, _ | ⟨d, _ | ⟨e, cs⟩⟩⟩ <;>
    simp only [threeSteps, List.nil_append, List.cons_append, List.cons_prefix_cons,
      List.prefix_nil, List.append_eq_nil_iff, reduceCtorEq, and_false] at hcs
  · have hle : a ≤ 1 := (ha.within hfetched (by decide)).2
    omega
  · obtain ⟨rfl, -⟩ := hcs
    simp only [afterCalls, call_step, hout] at ha
    have hle : a ≤ 4 := (ha.within hstores (by decide)).2
    omega
  · obtain ⟨rfl, rfl, -⟩ := hcs
    simp only [afterCalls, call_step, hout, hwmem] at ha
    have hle : a ≤ 5 := (ha.within hstops (by decide)).2
    omega

theorem unread_memory_is_irrelevant_of_storing :
    ∃ m m', load storesBehind = .ok m ∧ load (storesBehind ++ [7, 8]) = .ok m' ∧
      m'.transcript threeSteps = m.transcript threeSteps ∧
      (m.afterCalls threeSteps).EqualOutside {a | 6 ≤ a} (m'.afterCalls threeSteps) := by
  have hpeek : ∀ a, (Memory.ofList storesBehind).peek a = storesBehind.getD a 0 :=
    Memory.peek_ofList_of_le (by decide)
  have hwords : ∀ a, a ∉ {a | 6 ≤ a} → (storesBehind ++ [7, 8]).getD a 0 = storesBehind.getD a 0 := by
    intro a ha
    have hlt : a < storesBehind.length := Nat.not_le.1 ha
    rw [List.getD_eq_getElem?_getD, List.getElem?_append_left hlt, List.getD_eq_getElem?_getD]
  have hcalls : ∀ c ∈ threeSteps, c = .step ∨ ∃ text, c = .supply text := by simp [threeSteps]
  have hreads : ∀ cs, cs ++ [Call.step] <+: threeSteps →
      ∀ a, ((start storesBehind).afterCalls cs).Reads a → a ∉ {a | 6 ≤ a} :=
    fun cs hcs a ha => Nat.not_le.2 (storesBehind_reads hpeek (Vector.replicate 8 0) hcs ha)
  have hequal : (start storesBehind).EqualOutside {a | 6 ≤ a} (start (storesBehind ++ [7, 8])) :=
    equalOutside_of_load rfl rfl hwords
  refine ⟨_, _, rfl, rfl, ?_, ?_⟩
  · exact (unread_memory_is_irrelevant.2 _ _ _ _ _ _ rfl rfl hwords hcalls hreads).1
  · exact ((unread_memory_is_irrelevant.1 _ _ _ _ hequal hcalls hreads).2 _ (List.prefix_refl _)).2

end Machine
end WordMachine
