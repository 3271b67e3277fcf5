import WordMachine.Proofs.Machine.Running
import WordMachine.Proofs.Machine.Table

/-! Programs that jump only forward. An instruction that does not jump goes on behind itself, so as
long as every jump goes forward the program counter rises with each step, whatever the program does to
its own code on the way. At the end of memory one more step is left, which halts the machine. So such
a run ends, and the address that it starts from bounds the number of its steps. -/

namespace WordMachine
namespace Machine

/-- A jump that the machine is about to take goes to a higher address than its own. -/
def JumpsForward (m : Machine) : Prop :=
  ∀ op m' v, m.step = (.ok op, m') → m.goesTo? op = some v → m.pc < v

/-- Every jump that is taken during the session goes forward. -/
def OnlyForward (m : Machine) (calls : List Call) : Prop :=
  ∀ cs, cs ++ [Call.step] <+: calls → (m.afterCalls cs).JumpsForward

def isExecution : Except CallError Answer → Bool
  | .ok (.executed _) => true
  | _ => false

/-- how many calls of a session are steps that succeed -/
def executions (m : Machine) (calls : List Call) : Nat :=
  (m.transcript calls).countP fun entry => isExecution entry.2

/-- The machine has halted, or waits for a character, or its next step fails. -/
def AtRest (m : Machine) : Prop :=
  m.isHalted = true ∨ (∃ dest, m.status = .awaiting dest) ∨ ∃ e m', m.step = (.error e, m')

/-- The steps that the machine has left if it jumps only forward: one for each address from the
program counter on, and the one that halts it at the end of memory. -/
def stepsLeft (m : Machine) : Nat := if m.isHalted then 0 else memorySize + 1 - m.pc

/-! ### Counting -/

section Count
variable {m m' : Machine} {op : Opcode} {c : Call} {cs ds : List Call}

theorem executions_nil (m : Machine) : m.executions [] = 0 := rfl

theorem executions_cons (m : Machine) (c : Call) (cs : List Call) :
    m.executions (c :: cs) = m.executions [c] + (m.call c).2.executions cs := by
  simp only [executions, transcript, List.countP_cons, List.countP_nil]
  omega

theorem executions_append (m : Machine) (cs ds : List Call) :
    m.executions (cs ++ ds) = m.executions cs + (m.afterCalls cs).executions ds := by
  induction cs generalizing m with
  | nil => rw [List.nil_append, executions_nil, Nat.zero_add, afterCalls]
  | cons c cs ih =>
    rw [List.cons_append, executions_cons, executions_cons m c cs, ih, Nat.add_assoc, afterCalls]

theorem executions_step (h : m.step = (.ok op, m')) (cs : List Call) :
    m.executions (.step :: cs) = 1 + m'.executions cs := by
  have hone : m.executions [.step] = 1 := by
    simp only [executions, transcript, call_step_ok h]
    rfl
  rw [executions_cons, hone, call_step, h]

theorem executions_of_not_isExecution (h : isExecution (m.call c).1 = false) :
    m.executions [c] = 0 := by
  simp [executions, transcript, h]

theorem onlyForward_nil (m : Machine) : m.OnlyForward [] := fun cs hcs => by simp at hcs

theorem onlyForward_cons : m.OnlyForward (c :: cs) ↔
    (c = .step → m.JumpsForward) ∧ (m.call c).2.OnlyForward cs := by
  constructor
  · intro h
    refine ⟨?_, fun ds hds => h (c :: ds) (List.cons_prefix_cons.2 ⟨rfl, hds⟩)⟩
    rintro rfl
    exact h [] (List.cons_prefix_cons.2 ⟨rfl, List.nil_prefix⟩)
  · rintro ⟨hstep, hrest⟩ ds hds
    cases ds with
    | nil => exact hstep (List.cons_prefix_cons.1 hds).1.symm
    | cons d ds =>
      obtain ⟨rfl, hds'⟩ := List.cons_prefix_cons.1 hds
      exact hrest ds hds'

theorem onlyForward_append :
    m.OnlyForward (cs ++ ds) ↔ m.OnlyForward cs ∧ (m.afterCalls cs).OnlyForward ds := by
  induction cs generalizing m with
  | nil => exact ⟨fun h => ⟨m.onlyForward_nil, h⟩, And.right⟩
  | cons c cs ih =>
    rw [List.cons_append, onlyForward_cons, ih, onlyForward_cons, afterCalls, and_assoc]

end Count

/-! ### One step -/

section Step
variable {m m' : Machine} {op : Opcode}

/-- An instruction goes on behind itself unless it jumps. -/
theorem pc_of_step (hpc : m.pc < memorySize) (h : m.step = (.ok op, m')) :
    (m'.pc : Int) = (m.goesTo? op).getD (m.pc + 1 + op.arity) := by
  obtain ⟨-, p, hp, rfl, rfl⟩ := step_eq_ok h
  have hplan := m.plan_cases
  rw [hp] at hplan
  cases hplan with
  | exhausted hend => exact absurd hpc (Nat.not_lt.2 hend)
  | made op args c pc _ hargs heff => exact (row_of_effect hargs heff).pc

theorem halts_of_exhausted (hend : memorySize ≤ m.pc) (h : m.step = (.ok op, m')) :
    m'.isHalted = true := by
  obtain ⟨-, p, hp, -, rfl⟩ := step_eq_ok h
  rw [plan, if_pos hend] at hp
  cases hp
  rfl

theorem stepsLeft_of_halted (h : m.isHalted = true) : m.stepsLeft = 0 := if_pos h

theorem stepsLeft_of_active (h : m.isActive = true) : m.stepsLeft = memorySize + 1 - m.pc := by
  rw [stepsLeft, (status_of_isActive h).2.1]
  rfl

theorem stepsLeft_le (m : Machine) : m.stepsLeft ≤ memorySize + 1 - m.pc := by
  unfold stepsLeft
  split <;> omega

/-- Each step that succeeds uses up one of the steps that are left. -/
theorem stepsLeft_of_step (hm : m.Proper) (hforward : m.JumpsForward) (h : m.step = (.ok op, m')) :
    m'.stepsLeft < m.stepsLeft := by
  have hpc := hm.pc
  rw [stepsLeft_of_active (step_eq_ok h).1]
  rcases Nat.lt_or_ge m.pc memorySize with hin | hend
  · -- the program counter rises, behind the instruction or to where it jumps
    have hrises : m.pc < m'.pc := by
      have heq := pc_of_step hin h
      cases hgoes : m.goesTo? op with
      | none =>
        rw [hgoes, Option.getD_none] at heq
        omega
      | some v =>
        have hv := hforward op m' v h hgoes
        rw [hgoes, Option.getD_some] at heq
        omega
    have hle := m'.stepsLeft_le
    omega
  · rw [stepsLeft_of_halted (halts_of_exhausted hend h)]
    omega

theorem stepsLeft_of_fails {e : StepError} (h : m.step = (.error e, m')) :
    m'.stepsLeft ≤ m.stepsLeft := by
  have hs := m.step_cases
  rw [h] at hs
  cases hs with
  | halted | awaiting => exact Nat.le_refl _
  | trapped f =>
    rw [stepsLeft_of_halted rfl]
    exact Nat.zero_le _
  | untold _ hactive | unsent _ hactive =>
    rw [stepsLeft_of_active hactive, stepsLeft_of_active rfl]

theorem stepsLeft_of_supply {text : String} (h : m.supply text = .ok m') :
    m'.stepsLeft = m.stepsLeft := by
  obtain ⟨dest, c, hs, -, -, rfl⟩ := supply_eq_ok h
  simp [stepsLeft, isHalted, hs, setReg]

end Step

/-! ### Sessions -/

variable {m : Machine} {calls : List Call}

theorem executions_call_le (hm : m.Proper) {c : Call} (hc : c = .step ∨ ∃ text, c = .supply text)
    (hforward : c = .step → m.JumpsForward) :
    m.executions [c] + (m.call c).2.stepsLeft ≤ m.stepsLeft := by
  rcases hc with rfl | ⟨text, rfl⟩
  · cases hstep : m.step with
    | mk result m' =>
      cases result with
      | ok op =>
        have hless := stepsLeft_of_step hm (hforward rfl) hstep
        rw [executions_step hstep, executions_nil, call_step, hstep]
        simp only
        omega
      | error e =>
        have hfails : isExecution (m.call .step).1 = false := by simp only [call, hstep, isExecution]
        rw [executions_of_not_isExecution hfails, Nat.zero_add, call_step, hstep]
        exact stepsLeft_of_fails hstep
  · cases hsupply : m.supply text with
    | ok m' =>
      rw [executions_of_not_isExecution (by simp only [call, hsupply, adopt, isExecution]),
        Nat.zero_add, call, hsupply]
      exact Nat.le_of_eq (stepsLeft_of_supply hsupply)
    | error why =>
      rw [executions_of_not_isExecution (by simp only [call, hsupply, adopt, isExecution]),
        Nat.zero_add, call, hsupply]
      exact Nat.le_refl _

/-- A session executes no more instructions than there are steps left, as far as it uses them up. -/
theorem executions_le (hm : m.Proper) (hcalls : ∀ c ∈ calls, c = .step ∨ ∃ text, c = .supply text)
    (hforward : m.OnlyForward calls) :
    m.executions calls + (m.afterCalls calls).stepsLeft ≤ m.stepsLeft := by
  induction calls generalizing m with
  | nil =>
    rw [executions_nil, Nat.zero_add]
    exact Nat.le_refl _
  | cons c calls ih =>
    rw [List.forall_mem_cons] at hcalls
    rw [onlyForward_cons] at hforward
    have hfirst := executions_call_le hm hcalls.1 hforward.1
    have hproper : (m.call c).2.Proper := proper_afterCalls hm [c]
    have hrest := ih hproper hcalls.2 hforward.2
    rw [executions_cons, afterCalls]
    omega

/-- Steps that only jump forward come to rest. -/
theorem exists_rest (hm : m.Proper) (hforward : ∀ n, m.OnlyForward (List.replicate n .step)) :
    ∃ n answer m', m.executions (List.replicate n .step) = n ∧
      (m.afterCalls (List.replicate n .step)).AtRest ∧ m.RunsOut answer m' := by
  induction hleft : m.stepsLeft using Nat.strongRecOn generalizing m with
  | _ left ih =>
    subst hleft
    rcases m.run_cases with hactive | ⟨op, m₁, hstep⟩ | ⟨hactive, why, m₁, hstep⟩
    · refine ⟨0, _, m, rfl, ?_, .rests hactive⟩
      rcases m.status_cases with hactive' | hawaiting | hhalted
      · rw [hactive] at hactive'
        cases hactive'
      · exact .inr (.inl hawaiting)
      · exact .inl hhalted
    · have hcall : (m.call .step).2 = m₁ := by rw [call_step, hstep]
      have hnow : m.JumpsForward := (onlyForward_cons.1 (hforward 1)).1 rfl
      have hlater : ∀ n, m₁.OnlyForward (List.replicate n .step) := by
        intro n
        rw [← hcall]
        exact (onlyForward_cons.1 (hforward (n + 1))).2
      have hproper : m₁.Proper := hcall ▸ proper_afterCalls hm [.step]
      obtain ⟨n, answer, m', hcount, hrest, hruns⟩ :=
        ih _ (stepsLeft_of_step hm hnow hstep) hproper hlater rfl
      refine ⟨n + 1, answer, m', ?_, ?_, .steps hstep hruns⟩
      · rw [List.replicate_succ, executions_step hstep, hcount, Nat.add_comm]
      · rw [List.replicate_succ, afterCalls, hcall]
        exact hrest
    · exact ⟨0, _, m₁, rfl, .inr (.inr ⟨why, m₁, hstep⟩), .fails hactive hstep⟩

/-- A machine in any state that a host can bring it to, stepped and supplied with characters. While
every jump that is taken goes forward, it executes at most one instruction for each address from the
program counter on, and one more. If its jumps go forward for as long as it can then be stepped, it
comes to rest within that number of instructions, and a run without a limit has an end. -/
theorem forward_runs_end {program : List Int} {m₀ m : Machine} {history calls : List Call}
    (hload : load program = .ok m₀) (hm : m₀.afterCalls history = m)
    (hcalls : ∀ c ∈ calls, c = .step ∨ ∃ text, c = .supply text) (hforward : m.OnlyForward calls) :
    m.pc + m.executions calls ≤ 32769 ∧
    ((∀ n, m.OnlyForward (calls ++ List.replicate n .step)) → ∃ n answer m',
      m.executions (calls ++ List.replicate n .step) = m.executions calls + n ∧
      m.pc + (m.executions calls + n) ≤ 32769 ∧
      (m.afterCalls (calls ++ List.replicate n .step)).AtRest ∧
      (m.afterCalls calls).RunsOut answer m') := by
  have hproper : m.Proper := hm ▸ proper_afterCalls (proper_of_load hload) history
  have hpc := hproper.pc
  have hbound {cs : List Call} (hcs : ∀ c ∈ cs, c = .step ∨ ∃ text, c = .supply text)
      (h : m.OnlyForward cs) : m.pc + m.executions cs ≤ 32769 := by
    have hcount := executions_le hproper hcs h
    have hleft := m.stepsLeft_le
    simp only [memorySize] at hpc hleft
    omega
  refine ⟨hbound hcalls hforward, ?_⟩
  intro hsteps
  obtain ⟨n, answer, m', hcount, hrest, hruns⟩ := exists_rest (proper_afterCalls hproper calls)
    fun n => (onlyForward_append.1 (hsteps n)).2
  have hexecutions := m.executions_append calls (List.replicate n .step)
  rw [hcount] at hexecutions
  refine ⟨n, answer, m', hexecutions, ?_, ?_, hruns⟩
  · rw [← hexecutions]
    refine hbound ?_ (hsteps n)
    intro c hc
    rcases List.mem_append.1 hc with hc | hc
    · exact hcalls c hc
    · exact .inl (List.eq_of_mem_replicate hc)
  · rwa [afterCalls_append]

/-! ### A program -/

theorem jumpsForward_of_step {m' : Machine} {op : Opcode} (hstep : m.step = (.ok op, m'))
    (hgoes : ∀ v, m.goesTo? op = some v → m.pc < v) : m.JumpsForward := by
  intro op' m'' v hstep' hv
  rw [hstep] at hstep'
  cases hstep'
  exact hgoes v hv

theorem jumpsForward_of_plain {m' : Machine} {op : Opcode} (hstep : m.step = (.ok op, m'))
    (hgoes : m.goesTo? op = none) : m.JumpsForward := by
  refine jumpsForward_of_step hstep fun v hv => ?_
  rw [hgoes] at hv
  cases hv

theorem onlyForward_of_step {m' : Machine} {op : Opcode} (hstep : m.step = (.ok op, m'))
    (hforward : m.JumpsForward) (hrest : ∀ n, m'.OnlyForward (List.replicate n .step)) (n : Nat) :
    m.OnlyForward (List.replicate n .step) := by
  cases n with
  | zero => exact m.onlyForward_nil
  | succ n =>
    refine onlyForward_cons.2 ⟨fun _ => hforward, ?_⟩
    rw [call_step, hstep]
    exact hrest n

theorem onlyForward_of_not_isActive (h : m.isActive = false) (n : Nat) :
    m.OnlyForward (List.replicate n .step) := by
  induction n with
  | zero => exact m.onlyForward_nil
  | succ n ih =>
    refine onlyForward_cons.2 ⟨?_, ?_⟩
    · rintro - op m' v hstep
      rw [(step_eq_ok hstep).1] at h
      cases h
    · rwa [call_step, step_eq_self h]

/-- Reads a character and jumps back to its beginning, unless that is changed: on the way it stores
the address of the last cell in the place of the jump's target. -/
def rewriting : List Int := [20, 32768, 16, 6, 7, 6, 0, 0]

theorem rewriting_onlyForward {memory : Memory}
    (hpeek : ∀ a, memory.peek a = rewriting.getD a 0) (regs : Vector Int 8) (n : Nat) :
    (⟨memory, regs, [], 0, .ready, []⟩ : Machine).OnlyForward
      ([.step, .supply "A"] ++ List.replicate n .step) := by
  let memory' := memory.poke ⟨6, by decide⟩ 7
  have hpeek' (a : Nat) : memory'.peek a = if a = 6 then 7 else rewriting.getD a 0 := by
    rw [Memory.peek_poke, hpeek]
  have hin : (⟨memory, regs, [], 0, .ready, []⟩ : Machine).step =
      (.ok .input, ⟨memory, regs, [], 2, .awaiting 0, []⟩) :=
    @step_of_fetched ⟨memory, regs, [], 0, .ready, []⟩ .input (0, ()) _ _ rfl
      ⟨by simp only [hpeek]; rfl, Nat.le_of_ble_eq_true rfl⟩
      (by simp only [Opcode.signature, operands, hpeek]; rfl) rfl
  have hsupply : ((⟨memory, regs, [], 2, .awaiting 0, []⟩ : Machine).call (.supply "A")).2 =
      ⟨memory, regs.set 0 65, [], 2, .running, []⟩ := rfl
  have hwmem : (⟨memory, regs.set 0 65, [], 2, .running, []⟩ : Machine).step =
      (.ok .wmem, ⟨memory', regs.set 0 65, [], 5, .running, []⟩) :=
    @step_of_fetched ⟨memory, regs.set 0 65, [], 2, .running, []⟩ .wmem (6, 7, ()) _ _ rfl
      ⟨by simp only [hpeek]; rfl, Nat.le_of_ble_eq_true rfl⟩
      (by simp only [Opcode.signature, operands, hpeek]; rfl) rfl
  have hjmp : (⟨memory', regs.set 0 65, [], 5, .running, []⟩ : Machine).step =
      (.ok .jmp, ⟨memory', regs.set 0 65, [], 7, .running, []⟩) :=
    @step_of_fetched ⟨memory', regs.set 0 65, [], 5, .running, []⟩ .jmp (7, ()) _ _ rfl
      ⟨by simp only [hpeek']; rfl, Nat.le_of_ble_eq_true rfl⟩
      (by simp only [Opcode.signature, operands, hpeek']; rfl) rfl
  have hgoes : (⟨memory', regs.set 0 65, [], 5, .running, []⟩ : Machine).goesTo? .jmp = some 7 := by
    simp only [goesTo?, operandValue, operandWord, hpeek']
    rfl
  have hhalt : (⟨memory', regs.set 0 65, [], 7, .running, []⟩ : Machine).step =
      (.ok .halt, ⟨memory', regs.set 0 65, [], 8, .halted none, []⟩) :=
    @step_of_fetched ⟨memory', regs.set 0 65, [], 7, .running, []⟩ .halt () _ _ rfl
      ⟨by simp only [hpeek']; rfl, Nat.le_of_ble_eq_true rfl⟩ rfl rfl
  have hjumps : (⟨memory', regs.set 0 65, [], 5, .running, []⟩ : Machine).JumpsForward := by
    refine jumpsForward_of_step hjmp ?_
    rw [hgoes]
    rintro v ⟨⟩
    exact (by decide : (5 : Int) < 7)
  refine onlyForward_append.2 ⟨?_, ?_⟩
  · refine onlyForward_cons.2 ⟨fun _ => jumpsForward_of_plain hin rfl, ?_⟩
    exact onlyForward_cons.2 ⟨fun h => (by cases h), onlyForward_nil _⟩
  · simp only [afterCalls, call_step, hin, hsupply]
    have hhalts := onlyForward_of_step hhalt (jumpsForward_of_plain hhalt rfl)
      (onlyForward_of_not_isActive rfl)
    have hjumped := onlyForward_of_step hjmp hjumps hhalts
    exact onlyForward_of_step hwmem (jumpsForward_of_plain hwmem rfl) hjumped n

/-- The jump goes back as the program is written, and forward as it is executed. -/
theorem forward_runs_end_of_rewriting :
    ∃ n answer m', load rewriting = .ok (start rewriting) ∧
      (start rewriting).executions ([.step, .supply "A"] ++ List.replicate n .step) ≤ 32769 ∧
      ((start rewriting).afterCalls ([.step, .supply "A"] ++ List.replicate n .step)).AtRest ∧
      ((start rewriting).afterCalls [.step, .supply "A"]).RunsOut answer m' := by
  have hload : load rewriting = .ok (start rewriting) := rfl
  have hforward : ∀ n, (start rewriting).OnlyForward ([.step, .supply "A"] ++ List.replicate n .step) :=
    rewriting_onlyForward (Memory.peek_ofList_of_le (by decide)) (Vector.replicate 8 0)
  have hcalls : ∀ c ∈ [Call.step, .supply "A"], c = .step ∨ ∃ text, c = .supply text := by simp
  obtain ⟨-, hends⟩ := @forward_runs_end rewriting _ _ [] _ hload rfl hcalls (hforward 0)
  obtain ⟨n, answer, m', hcount, hbound, hrest, hruns⟩ := hends hforward
  refine ⟨n, answer, m', hload, hcount.trans_le ((Nat.zero_add _).symm.trans_le hbound), hrest, hruns⟩

end Machine
end WordMachine
