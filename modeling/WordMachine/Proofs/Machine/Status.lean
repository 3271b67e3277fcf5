import WordMachine.Proofs.Machine.Effect
import WordMachine.Proofs.Machine.Session

/-! What becomes of the status and of the program counter. A step makes an active machine go on, wait
for a character or stop, and without a fault it stops only where a program is meant to. The program
counter never gets beyond the end of memory, and a machine that is still ready has done nothing. -/

namespace WordMachine
namespace Machine

/-- Where a machine stops without a fault, and the instruction that it answers with: at a stop, at
the end of memory, and at a return with nothing to return to. -/
def StopsAt (m : Machine) (op : Opcode) : Prop :=
  op = .halt ∧ (memorySize ≤ m.pc ∨ m.Fetched .halt) ∨ op = .ret ∧ m.Fetched .ret ∧ m.stack = []

/-- What a step does to the status of an active machine, by its answer. -/
inductive StatusMoved (m m' : Machine) : Except StepError Opcode → Prop
  | proceeds (op : Opcode) : m'.status = .running → StatusMoved m m' (.ok op)
  | awaits (r : Register) : m.Fetched .input → target (m.memory.peek (m.pc + 1)) = .ok r →
      m'.status = .awaiting r → StatusMoved m m' (.ok .input)
  | stops (op : Opcode) : m.StopsAt op → m'.status = .halted none → StatusMoved m m' (.ok op)
  | trapped (t : Trap) : m'.status = .halted (some t) → StatusMoved m m' (.error (.trapped t))
  | untold (f : Fault) : m'.status = .running → StatusMoved m m' (.error (.untold f))
  | unsent (e : OutputError) : m'.status = .running → StatusMoved m m' (.error (.output e))

theorem statusMoved_of_plan {m : Machine} {p : Plan} (hp : m.plan = .ok p) :
    m.StatusMoved (m.perform p) (.ok p.op) := by
  have hplan := m.plan_cases
  rw [hp] at hplan
  cases hplan with
  | exhausted hend => exact .stops _ (.inl ⟨rfl, .inl hend⟩) rfl
  | made op args c pc hf hargs heff =>
    have hcases := m.effect_cases (m.pc + 1 + op.arity) op args
    rw [heff] at hcases
    cases hcases with
    | awaits r hop hr =>
      subst hop
      exact .awaits r hf (target_of_operands hargs hr) rfl
    | halts hop =>
      rcases hop with rfl | ⟨rfl, hs⟩
      · exact .stops _ (.inl ⟨rfl, .inr hf⟩) rfl
      · exact .stops _ (.inr ⟨rfl, hf, hs⟩) rfl
    | assigns | stores | pushes | pops | sends | passes | jumps | calls | returns =>
      exact .proceeds _ rfl

section Active
variable {m m' : Machine} {answer : Except StepError Opcode} (hactive : m.isActive = true)
include hactive

theorem status_of_isActive :
    (∀ r, m.status ≠ .awaiting r) ∧ m.isHalted = false ∧ m.trap? = none := by
  rcases isActive_iff.1 hactive with hs | hs <;> simp [isHalted, trap?, hs]

theorem status_of_step (h : m.step = (answer, m')) : m.StatusMoved m' answer := by
  have hc := m.step_cases
  rw [h] at hc
  cases hc with
  | halted _ hs | awaiting _ hs =>
    rcases isActive_iff.1 hactive with hr | hr <;> cases hs.symm.trans hr
  | executed p _ hp => exact statusMoved_of_plan hp
  | trapped f => exact .trapped _ rfl
  | untold f => exact .untold f rfl
  | unsent e => exact .unsent e rfl

theorem status_ne_ready_of_step (hstep : m.step = (answer, m')) : m'.status ≠ .ready := by
  intro h
  cases status_of_step hactive hstep with
  | awaits _ _ _ heq | stops _ _ heq =>
    rw [h] at heq
    cases heq
  | proceeds _ heq | trapped _ heq | untold _ heq | unsent _ heq =>
    rw [h] at heq
    cases heq

theorem step_awaits (hstep : m.step = (answer, m')) {r : Register} (h : m'.status = .awaiting r) :
    answer = .ok .input ∧ m.Fetched .input ∧ target (m.memory.peek (m.pc + 1)) = .ok r := by
  cases status_of_step hactive hstep with
  | awaits r' hf hr heq =>
    rw [h] at heq
    cases heq
    exact ⟨rfl, hf, hr⟩
  | stops _ _ heq | proceeds _ heq | trapped _ heq | untold _ heq | unsent _ heq =>
    rw [h] at heq
    cases heq

theorem step_halts (hstep : m.step = (answer, m')) (h : m'.status = .halted none) :
    ∃ op, answer = .ok op ∧ m.StopsAt op := by
  cases status_of_step hactive hstep with
  | stops op hstops => exact ⟨op, rfl, hstops⟩
  | awaits _ _ _ heq | proceeds _ heq | trapped _ heq | untold _ heq | unsent _ heq =>
    rw [h] at heq
    cases heq

end Active

/-! ### The program counter -/

theorem perform_pc (m : Machine) (p : Plan) : (m.perform p).pc = p.pc := by
  unfold perform
  cases p.change <;> rfl

theorem pc_of_plan {m : Machine} {p : Plan} (h : m.pc ≤ memorySize) (hp : m.plan = .ok p) :
    p.pc ≤ memorySize := by
  have hplan := m.plan_cases
  rw [hp] at hplan
  cases hplan with
  | exhausted => exact h
  | made op args c pc hf _ heff =>
    have hcases := m.effect_cases (m.pc + 1 + op.arity) op args
    rw [heff] at hcases
    cases hcases with
    | jumps k t _ _ _ hlt => exact Nat.le_of_lt hlt
    | calls t _ _ hlt | returns t _ _ _ hlt => exact Nat.le_of_lt hlt
    | assigns | stores | pushes | pops | sends | awaits | halts | passes => exact hf.room

/-- What holds of a machine between steps, besides what its type says. -/
structure Proper (m : Machine) : Prop where
  pc : m.pc ≤ memorySize
  ready : m.status = .ready → m.pc = 0 ∧ m.stack = [] ∧ m.emitted = []

theorem proper_start (program : List Int) : (start program).Proper :=
  ⟨Nat.zero_le _, fun _ => ⟨rfl, rfl, rfl⟩⟩

theorem proper_step (m : Machine) (h : m.Proper) : m.step.2.Proper := by
  cases hactive : m.isActive with
  | false => rwa [step_eq_self hactive]
  | true =>
    refine ⟨?_, fun hready => absurd hready (status_ne_ready_of_step hactive rfl)⟩
    have hc := m.step_cases
    generalize m.step.1 = answer, m.step.2 = m' at hc
    cases hc with
    | halted | awaiting | trapped | untold | unsent => exact h.pc
    | executed p _ hp =>
      rw [perform_pc]
      exact pc_of_plan h.pc hp

theorem proper_afterCalls {m : Machine} (h : m.Proper) (calls : List Call) :
    (m.afterCalls calls).Proper := by
  apply afterCalls_induction calls proper_step _ _ _ h
  · intro m m' text _ hm hs
    obtain ⟨r, c, -, -, -, rfl⟩ := supply_eq_ok hs
    exact ⟨hm.pc, nofun⟩
  · intro m m' index value _ hm hs
    obtain ⟨r, -, -, -, rfl⟩ := setRegister_eq_ok hs
    exact ⟨hm.pc, hm.ready⟩
  · intro m m' addr value _ hm hs
    obtain ⟨a, -, rfl⟩ := writeMemory_eq_ok hs
    exact ⟨hm.pc, hm.ready⟩

theorem load_eq_ok {program : List Int} {m : Machine} (h : load program = .ok m) :
    m = start program ∧ ∀ w ∈ program, 0 ≤ w ∧ w ≤ 0xffff := by
  unfold load at h
  split at h
  · cases h
  · split at h
    · cases h
    · rename_i hnone
      exact ⟨(Except.ok.inj h).symm, firstOutside_eq_none_iff.1 hnone⟩

theorem proper_of_load {program : List Int} {m : Machine} (h : load program = .ok m) : m.Proper :=
  (load_eq_ok h).1 ▸ proper_start program

end Machine
end WordMachine
