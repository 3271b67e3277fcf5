import WordMachine.Proofs.Machine.Cells
import WordMachine.Proofs.Machine.InOrder

/-! A step that fails changes nothing but the status. -/

namespace WordMachine
namespace Machine

/-- A step that fails, whether it is planned first or acts as it goes, leaves memory, registers,
stack, program counter, awaited register and output alone. A fault halts the machine, and is kept
with the address at which it was met; a refusal changes nothing at all; and a value that is no code
point leaves the machine running, as does a fault that cannot be told. -/
theorem failed_step_is_atomic {m m' : Machine} {e : StepError} (h : m.step = (.error e, m')) :
    m.stepInOrder = (.error e, m') ∧
    m'.memory = m.memory ∧ m'.registers = m.registers ∧ m'.stack = m.stack ∧ m'.pc = m.pc ∧
    m'.awaited? = m.awaited? ∧ m'.output = m.output ∧
    (∀ trap, e = .trapped trap → m'.isHalted = true ∧ m'.trap? = some trap ∧ trap.pc = m.pc) ∧
    (∀ why, e = .refused why → m' = m) ∧
    (∀ why, e = .output why → m'.status = .running ∧ m.trap? = none ∧ m'.trap? = none ∧
      m.Fetched .out ∧ ∃ v, m.resolve (m.memory.peek (m.pc + 1)) = .ok v ∧ ¬ (0 ≤ v ∧ v < 0x110000)) ∧
    (∀ f, e = .untold f → m'.status = .running ∧ m.trap? = none ∧ m'.trap? = none ∧
      ∃ v, f.named? = some v ∧ ¬ HasNumeral v) := by
  refine ⟨m.stepInOrder_eq_step.trans h, ?_⟩
  have hactive (ha : m.isActive = true) : m.awaited? = none ∧ m.trap? = none := by
    rcases isActive_iff.1 ha with hs | hs <;> simp [awaited?, trap?, hs]
  have hc := m.step_cases
  rw [h] at hc
  cases hc with
  | halted | awaiting => simp
  | trapped f ha hp =>
    refine ⟨rfl, rfl, rfl, rfl, (hactive ha).1.symm, rfl, ?_, nofun, nofun, nofun⟩
    rintro _ ⟨⟩
    exact ⟨rfl, rfl, rfl⟩
  | untold f ha hp huntold =>
    refine ⟨rfl, rfl, rfl, rfl, (hactive ha).1.symm, rfl, nofun, nofun, nofun, ?_⟩
    rintro _ ⟨⟩
    exact ⟨rfl, (hactive ha).2, rfl, Fault.not_isTold_iff.1 huntold⟩
  | unsent why ha hp =>
    refine ⟨rfl, rfl, rfl, rfl, (hactive ha).1.symm, rfl, nofun, nofun, ?_, nofun⟩
    obtain ⟨hf, v, hv, hout⟩ := plan_eq_output_error hp
    exact fun _ _ => ⟨rfl, (hactive ha).2, rfl, hf, v, hv, codePoint_eq_error hout⟩

/-- A negative number is sent out. -/
theorem failed_step_is_atomic_of_negative :
    let m := { start [19, 32768] with registers := Vector.replicate 8 (-1) }
    m.step = (.error (.output (.notACodePoint (-1))), { m with status := .running }) ∧
      m.stepInOrder.2.pc = 0 := by
  intro m
  have hpeek (a : Nat) : m.memory.peek a = [19, 32768].getD a 0 :=
    Memory.peek_ofList_of_le (by decide) a
  have hf : m.Fetched .out := ⟨by rw [hpeek]; rfl, by decide⟩
  have hargs : m.operands Opcode.out.signature (m.pc + 1) = .ok (-1, ()) := by
    simp only [Opcode.signature, operands, hpeek]
    rfl
  have hstep : m.step = (.error (.output (.notACodePoint (-1))), { m with status := .running }) := by
    rw [step_eq_of_isActive rfl, plan_of_fetched hf hargs]
    rfl
  exact ⟨hstep, by rw [(failed_step_is_atomic hstep).1]; rfl⟩

end Machine
end WordMachine
