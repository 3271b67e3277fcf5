import WordMachine.Proofs.Machine.Protocol

/-! Runs of the machine. A run of so many steps and then of so many more is one run of all of them,
and a run without a limit is any of these that comes to rest. Whatever has been sent out by then stays
sent. -/

namespace WordMachine
namespace Machine

/-- A run without a limit, by its answer and the machine that it leaves. -/
inductive RunsOut : Machine → Except CallError Answer → Machine → Prop
  | rests {m : Machine} : m.isActive = false → RunsOut m (.ok (.rested m.status)) m
  | fails {m m' : Machine} {why : StepError} : m.isActive = true → m.step = (.error why, m') →
      RunsOut m (.error (.step why)) m'
  | steps {m m' m'' : Machine} {op : Opcode} {answer : Except CallError Answer} :
      m.step = (.ok op, m') → RunsOut m' answer m'' → RunsOut m answer m''

/-- A machine can be stepped, or waits for a character, or has halted. -/
theorem status_cases (m : Machine) :
    m.isActive = true ∨ (∃ dest, m.status = .awaiting dest) ∨ m.isHalted = true := by
  unfold isActive isHalted
  cases m.status <;> simp

/-- What a run does first. -/
theorem run_cases (m : Machine) :
    m.isActive = false ∨ (∃ op m', m.step = (.ok op, m')) ∨
      m.isActive = true ∧ ∃ why m', m.step = (.error why, m') := by
  match hactive : m.isActive, hstep : m.step with
  | false, _ => exact .inl rfl
  | true, (.ok op, m') => exact .inr (.inl ⟨op, m', rfl⟩)
  | true, (.error why, m') => exact .inr (.inr ⟨rfl, why, m', rfl⟩)

section Run
variable {m m' : Machine} {op : Opcode} {why : StepError}

theorem run_of_not_isActive (h : m.isActive = false) (n : Nat) : m.run n = (.ok n, m) := by
  unfold run
  split
  · rfl
  · simp only [h, Bool.false_eq_true, if_false]

theorem run_succ_of_step (h : m.step = (.ok op, m')) (n : Nat) : m.run (n + 1) = m'.run n := by
  rw [run, if_pos (step_eq_ok h).1, h]

theorem run_succ_of_fails (hactive : m.isActive = true) (h : m.step = (.error why, m')) (n : Nat) :
    m.run (n + 1) = (.error why, m') := by
  rw [run, if_pos hactive, h]

theorem call_run_zero (m : Machine) : m.call (.run 0) = (.ok (.rested m.status), m) := rfl

theorem call_run_of_not_isActive (h : m.isActive = false) (n : Nat) :
    m.call (.run n) = (.ok (.rested m.status), m) := by
  simp only [call, run_of_not_isActive h]

theorem call_run_succ_of_step (h : m.step = (.ok op, m')) (n : Nat) :
    m.call (.run (n + 1)) = m'.call (.run n) := by
  simp only [call, run_succ_of_step h]

theorem call_run_succ_of_fails (hactive : m.isActive = true) (h : m.step = (.error why, m'))
    (n : Nat) : m.call (.run (n + 1)) = (.error (.step why), m') := by
  simp only [call, run_succ_of_fails hactive h]

/-- A run of more steps goes on where the run of fewer has stopped, unless that one has failed. -/
theorem call_run_add (m : Machine) (k n : Nat) :
    m.call (.run (k + n)) = match m.call (.run k) with
      | (.ok _, m') => m'.call (.run n)
      | (.error e, m') => (.error e, m') := by
  induction k generalizing m with
  | zero => rw [call_run_zero, Nat.zero_add]
  | succ k ih =>
    rw [Nat.add_right_comm]
    rcases m.run_cases with hactive | ⟨op, m', hstep⟩ | ⟨hactive, why, m', hstep⟩
    · simp only [call_run_of_not_isActive hactive]
    · rw [call_run_succ_of_step hstep, call_run_succ_of_step hstep, ih]
    · simp only [call_run_succ_of_fails hactive hstep]

theorem runsOut_of_call {answer : Except CallError Answer} {n : Nat}
    (h : m.call (.run n) = (answer, m'))
    (hrest : m'.isActive = false ∨ ∃ e, answer = .error e) : RunsOut m answer m' := by
  induction n generalizing m with
  | zero =>
    rw [call_run_zero] at h
    cases h
    rcases hrest with hrest | ⟨e, he⟩
    · exact .rests hrest
    · cases he
  | succ n ih =>
    rcases m.run_cases with hactive | ⟨op, m₁, hstep⟩ | ⟨hactive, why, m₁, hstep⟩
    · rw [call_run_of_not_isActive hactive] at h
      cases h
      exact .rests hactive
    · rw [call_run_succ_of_step hstep] at h
      exact .steps hstep (ih h)
    · rw [call_run_succ_of_fails hactive hstep] at h
      cases h
      exact .fails hactive hstep

theorem runsOut_of_run {n left : Nat} (h : m.run n = (.ok left, m')) (hrest : m'.isActive = false) :
    m.RunsOut (.ok (.rested m'.status)) m' :=
  runsOut_of_call (n := n) (by simp only [Machine.call, h]) (.inl hrest)

theorem RunsOut.call {answer : Except CallError Answer} (h : RunsOut m answer m') :
    ∃ n, m.call (.run n) = (answer, m') ∧ (m'.isActive = false ∨ ∃ e, answer = .error e) := by
  induction h with
  | rests hactive => exact ⟨0, call_run_zero _, .inl hactive⟩
  | fails hactive hstep => exact ⟨1, call_run_succ_of_fails hactive hstep 0, .inr ⟨_, rfl⟩⟩
  | steps hstep _ ih =>
    obtain ⟨n, hcall, hrest⟩ := ih
    exact ⟨n + 1, (call_run_succ_of_step hstep n).trans hcall, hrest⟩

theorem rested_of_call {a : Answer} {n : Nat} (h : m.call (.run n) = (.ok a, m')) :
    a = .rested m'.status := by
  simp only [call] at h
  split at h <;> cases h
  rfl

/-- More steps make no difference to a run that has come to rest or failed. -/
theorem call_run_add_of_rest {answer : Except CallError Answer} {n : Nat}
    (h : m.call (.run n) = (answer, m')) (hrest : m'.isActive = false ∨ ∃ e, answer = .error e)
    (k : Nat) : m.call (.run (n + k)) = (answer, m') := by
  rw [call_run_add, h]
  match answer with
  | .error e => rfl
  | .ok a =>
    have hactive : m'.isActive = false := hrest.resolve_right (by simp)
    simp only [call_run_of_not_isActive hactive, rested_of_call h]

theorem RunsOut.unique {answer answer' : Except CallError Answer} {m'' : Machine}
    (h : RunsOut m answer m') (h' : RunsOut m answer' m'') : answer' = answer ∧ m'' = m' := by
  obtain ⟨n, hcall, hrest⟩ := h.call
  obtain ⟨k, hcall', hrest'⟩ := h'.call
  have heq : (answer, m') = (answer', m'') := by
    rw [← call_run_add_of_rest hcall hrest k, ← call_run_add_of_rest hcall' hrest' n, Nat.add_comm]
  cases heq
  exact ⟨rfl, rfl⟩

end Run

/-! ### Output -/

section Output
variable {m m' : Machine}

theorem output_perform (m : Machine) (p : Plan) : m.output <+: (m.perform p).output := by
  unfold perform output
  match p.change with
  | .emit c => exact List.reverse_cons ▸ List.prefix_append _ _
  | .nothing | .setReg _ _ | .setCell _ _ | .push _ | .popInto _ _ | .drop | .await _ | .halt =>
    exact List.prefix_rfl

theorem output_of_step {answer : Except StepError Opcode} (h : m.step = (answer, m')) :
    m.output <+: m'.output := by
  have hs := m.step_cases
  rw [h] at hs
  cases hs with
  | executed p => exact output_perform m p
  | halted | awaiting | trapped | untold | unsent => exact List.prefix_rfl

theorem output_of_supply {text : String} (h : m.supply text = .ok m') : m'.output = m.output := by
  obtain ⟨dest, c, -, -, -, rfl⟩ := supply_eq_ok h
  rfl

end Output

end Machine
end WordMachine
