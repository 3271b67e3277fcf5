import WordMachine.Proofs.Machine.Cells
import WordMachine.Proofs.Machine.InOrder
import WordMachine.Proofs.Machine.Status
import WordMachine.Proofs.Machine.Values

/-! Which failures stop the machine. All do but two: a value that is sent out and is no code point, and
a fault that would have to name a number that has no numeral, leave the machine where it is, and it fails
there again and again. Such values get into the machine only by the host's writing them to memory. -/

namespace WordMachine
namespace Machine

/-- The next instruction sends out a value that is no code point. -/
def SendsNoCodePoint (m : Machine) : Prop :=
  m.Fetched .out ∧ ∃ v, m.resolve (m.memory.peek (m.pc + 1)) = .ok v ∧ ¬ (0 ≤ v ∧ v < 0x110000)

/-- The next instruction meets a fault that names a number without a numeral. -/
def MeetsUntold (m : Machine) : Prop := ∃ f, m.plan = .error (.fault f) ∧ ¬ f.IsTold

variable {m m' : Machine}

/-- There is no plan without a fault just where a value that is no code point is sent out. -/
theorem plan_eq_output_error_iff :
    (∃ why, m.plan = .error (.output why)) ↔ m.SendsNoCodePoint := by
  constructor
  · rintro ⟨why, h⟩
    obtain ⟨hf, v, hv, hout⟩ := plan_eq_output_error h
    exact ⟨hf, v, hv, codePoint_eq_error hout⟩
  · rintro ⟨hf, v, hv, hout⟩
    obtain ⟨why, hwhy⟩ := codePoint_of_not_range hout
    have hargs : m.operands Opcode.out.signature (m.pc + 1) = .ok (v, ()) := by
      simp only [Opcode.signature, operands, hv]
    refine ⟨why, ?_⟩
    rw [plan_of_fetched hf hargs, effect, hwhy]
    rfl

/-- A failure that leaves the machine running repeats itself. -/
theorem step_of_stuck {e : Failure} {why : StepError} (hactive : m.isActive = true)
    (hp : m.plan = .error e) (hfailed : m.failed e = (.error why, { m with status := .running })) :
    m.step = (.error why, { m with status := .running }) ∧
      { m with status := .running }.step = (.error why, { m with status := .running }) := by
  have hp' : { m with status := .running }.plan = .error e := (plan_of_status m _).trans hp
  constructor
  · rw [step_eq_of_isActive hactive, hp, ← hfailed]
  · rw [step_eq_of_isActive rfl, hp', ← hfailed]
    exact failed_of_status m _ e

theorem afterCalls_of_stuck {e : StepError} (h : m.step = (.error e, m)) (n : Nat) :
    m.afterCalls (List.replicate n .step) = m := by
  induction n with
  | zero => rfl
  | succ n ih => rw [List.replicate_succ, afterCalls, call_step, h, ih]

/-- Where all values are code points, none is refused. -/
theorem Every.not_sendsNoCodePoint (h : m.Every (InRange 0x10ffff)) : ¬ m.SendsNoCodePoint := by
  rintro ⟨-, v, hv, hout⟩
  obtain ⟨h0, hle⟩ := h.resolve (holdsOfLiterals_inRange (by decide)) hv
  exact hout ⟨h0, by omega⟩

/-- Nor is there a fault that cannot be told. -/
theorem Every.not_meetsUntold (h : m.Every (InRange 0x10ffff)) : ¬ m.MeetsUntold := by
  rintro ⟨f, hf, huntold⟩
  refine huntold ((h.imp fun v hv => ?_).isTold hf)
  exact hasNumeral_of_range hv.1 hv.2

theorem every_codePoint {program : List Int} (hload : load program = .ok m) {calls : List Call}
    (hwrites : ∀ addr value, Call.writeMemory addr value ∈ calls → 0 ≤ value ∧ value < 0x110000) :
    (m.afterCalls calls).Every (InRange 0x10ffff) := by
  obtain ⟨rfl, hwords⟩ := load_eq_ok hload
  refine every_session (by decide) ?_ ?_
  · intro w hw
    obtain ⟨h0, hle⟩ := hwords w hw
    exact ⟨h0, by omega⟩
  · intro addr value hmem
    obtain ⟨h0, hlt⟩ := hwrites addr value hmem
    exact ⟨h0, by omega⟩

/-- What becomes of an active machine when a step of it fails, whatever its host has done before. If
the next instruction sends out a value that is no code point, or meets a fault that cannot be told, the
machine is left running, and from then on every step fails in the same way. Otherwise it has halted, and
keeps the fault. And it is never otherwise, as long as the host writes only code points to memory. -/
theorem failing_step_halts {program : List Int} {m m₁ m₂ : Machine} {calls : List Call}
    {e : StepError} (hload : load program = .ok m) (hm : m.afterCalls calls = m₁)
    (hactive : m₁.isActive = true) (hstep : m₁.step = (.error e, m₂)) :
    (¬ m₁.SendsNoCodePoint → ¬ m₁.MeetsUntold → ∃ t, e = .trapped t ∧ t.pc = m₁.pc ∧
      m₂ = { m₁ with status := .halted (some t) }) ∧
    (m₁.SendsNoCodePoint → (∃ why, e = .output why) ∧ m₂ = { m₁ with status := .running } ∧
      ∀ n, m₂.afterCalls (List.replicate n .step) = m₂ ∧ m₂.step = (.error e, m₂)) ∧
    (m₁.MeetsUntold → (∃ f, e = .untold f) ∧ m₂ = { m₁ with status := .running } ∧
      ∀ n, m₂.afterCalls (List.replicate n .step) = m₂ ∧ m₂.step = (.error e, m₂)) ∧
    ((∀ addr value, Call.writeMemory addr value ∈ calls → 0 ≤ value ∧ value < 0x110000) →
      ¬ m₁.SendsNoCodePoint ∧ ¬ m₁.MeetsUntold) := by
  refine ⟨?_, ?_, ?_, ?_⟩
  · intro hsends hmeets
    rw [step_eq_of_isActive hactive] at hstep
    match hp : m₁.plan with
    | .ok p =>
      rw [hp] at hstep
      cases hstep
    | .error (.fault f) =>
      have htold : f.IsTold := Decidable.of_not_not fun huntold => hmeets ⟨f, hp, huntold⟩
      rw [hp] at hstep
      simp only [m₁.failed_of_told htold] at hstep
      cases hstep
      exact ⟨_, rfl, rfl, rfl⟩
    | .error (.output why) => exact absurd (plan_eq_output_error_iff.1 ⟨why, hp⟩) hsends
  · intro hsends
    obtain ⟨why, hp⟩ := plan_eq_output_error_iff.2 hsends
    obtain ⟨hfails, hagain⟩ := step_of_stuck hactive hp rfl
    cases hstep.symm.trans hfails
    exact ⟨⟨why, rfl⟩, rfl, fun n => ⟨afterCalls_of_stuck hagain n, hagain⟩⟩
  · rintro ⟨f, hp, huntold⟩
    obtain ⟨hfails, hagain⟩ := step_of_stuck hactive hp (failed_of_untold m₁ huntold)
    cases hstep.symm.trans hfails
    exact ⟨⟨f, rfl⟩, rfl, fun n => ⟨afterCalls_of_stuck hagain n, hagain⟩⟩
  · intro hwrites
    have hevery := hm ▸ every_codePoint hload hwrites
    exact ⟨hevery.not_sendsNoCodePoint, hevery.not_meetsUntold⟩

/-- A program that reads a cell and sends it out. -/
def sender : List Int := [15, 32768, 5, 19, 32768, 0]

/-- The cell, in which the host has stored one more than the last code point. -/
def sentCell : Address := ⟨5, Nat.le_of_ble_eq_true rfl⟩

theorem sender_steps {memory : Memory}
    (hpeek : ∀ a, memory.peek a = if a = sentCell then 1114112 else sender.getD a 0)
    (regs : Vector Int 8) :
    let sends : Machine := ⟨memory, regs.set 0 1114112, [], 3, .running, []⟩
    (⟨memory, regs, [], 0, .ready, []⟩ : Machine).step = (.ok .rmem, sends) ∧
      sends.SendsNoCodePoint ∧ sends.step = (.error (.output (.notACodePoint 1114112)), sends) := by
  intro sends
  have hcell : cellAddress 5 = .ok sentCell := cellAddress_eq_ok.2 rfl
  have hload : (⟨memory, regs, [], 0, .ready, []⟩ : Machine).step = (.ok .rmem, sends) := by
    refine @step_of_fetched ⟨memory, regs, [], 0, .ready, []⟩ .rmem (0, 5, ()) (.setReg 0 1114112) 3
      rfl ⟨by simp only [hpeek]; rfl, Nat.le_of_ble_eq_true rfl⟩
      (by simp only [Opcode.signature, operands, hpeek]; rfl) ?_
    simp only [effect, hcell, hpeek]
    rfl
  have hfetched : sends.Fetched .out :=
    ⟨by simp only [sends, hpeek]; rfl, Nat.le_of_ble_eq_true rfl⟩
  have hvalue : sends.resolve (sends.memory.peek (sends.pc + 1)) = .ok 1114112 := by
    have hregister : sends.registers[(0 : Register)] = 1114112 := Vector.getElem_set_self _
    simp only [sends, hpeek]
    exact congrArg Except.ok hregister
  have hargs : sends.operands Opcode.out.signature (sends.pc + 1) = .ok (1114112, ()) := by
    simp only [Opcode.signature, operands, hvalue]
  refine ⟨hload, ⟨hfetched, 1114112, hvalue, by decide⟩, ?_⟩
  rw [step_eq_of_isActive rfl, plan_of_fetched hfetched hargs]
  rfl

theorem sender_session :
    ∃ m, m.SendsNoCodePoint ∧ m.isActive = true ∧
      (start sender).afterCalls [.writeMemory 5 1114112, .step] = m ∧
      m.step = (.error (.output (.notACodePoint 1114112)), m) := by
  have hpeek (a : Nat) : ((Memory.ofList sender).poke sentCell 1114112).peek a =
      if a = sentCell then 1114112 else sender.getD a 0 := by
    rw [Memory.peek_poke, Memory.peek_ofList_of_le (Nat.le_of_ble_eq_true rfl)]
  obtain ⟨hload, hsends, hfails⟩ := sender_steps hpeek (Vector.replicate 8 0)
  have hcell : (5 : Int) = sentCell.val := rfl
  refine ⟨_, hsends, rfl, ?_, hfails⟩
  rw [afterCalls, afterCalls, afterCalls, call_writeMemory hcell, call_step]
  simp only [start, hload]

/-- Not every step that fails halts its machine. -/
theorem failing_step_runs_on :
    ¬ ∀ (program : List Int) (m : Machine) (calls : List Call) (e : StepError) (m₂ : Machine),
      load program = .ok m → (m.afterCalls calls).isActive = true →
      (m.afterCalls calls).step = (.error e, m₂) → ∃ t, e = .trapped t ∧ m₂.status = .halted (some t) := by
  intro h
  obtain ⟨m, -, hactive, rfl, hfails⟩ := sender_session
  obtain ⟨t, he, -⟩ := h sender _ _ _ _ rfl hactive hfails
  cases he

theorem failing_step_halts_of_sender :
    ∃ m, (start sender).afterCalls [.writeMemory 5 1114112, .step] = m ∧
      m.status = .running ∧ ∀ n, m.afterCalls (List.replicate n .step) = m := by
  obtain ⟨m, hsends, hactive, hm, hfails⟩ := sender_session
  have hload : load sender = .ok (start sender) := rfl
  obtain ⟨-, hrunning, hagain⟩ := (failing_step_halts hload hm hactive hfails).2.1 hsends
  exact ⟨m, hm, congrArg Machine.status hrunning, fun n => (hagain n).1⟩

end Machine
end WordMachine
