import WordMachine.Proofs.Machine.Transition

/-! Sessions taken apart. A run is nothing but the steps that it takes, so every session leaves the
machine that a session without runs does, and visits the machines that one visits. A run without a
limit is none of the calls: if it comes to rest, it is the run with as many steps as it has taken. A
call that is no run takes a step, changes one thing for the host, or leaves the machine as it is. -/

namespace WordMachine

def Call.isRun : Call → Bool
  | .run _ => true
  | _ => false

/-- Whether the call only looks. -/
def Call.isLook : Call → Bool
  | .resolve _ | .target _ | .register _ | .readMemory _ => true
  | _ => false

namespace Machine

/-- How many steps a run takes, the one that fails among them. -/
def stepsTaken : (limit : Nat) → Machine → Nat
  | 0, _ => 0
  | limit + 1, m =>
    if m.isActive then
      match m.step with
      | (.ok _, m) => m.stepsTaken limit + 1
      | (.error _, _) => 1
    else 0

/-- A call as calls that take one step at most. -/
def moves (m : Machine) : Call → List Call
  | .run limit => List.replicate (m.stepsTaken limit) .step
  | c => [c]

/-- A session with its runs taken apart into their steps. -/
def unrolled (m : Machine) : List Call → List Call
  | [] => []
  | c :: cs => m.moves c ++ (m.call c).2.unrolled cs

theorem call_run (m : Machine) (limit : Nat) : (m.call (.run limit)).2 = (m.run limit).2 := by
  simp only [call]
  split <;> rename_i heq <;> rw [heq]

theorem afterCalls_stepsTaken (limit : Nat) (m : Machine) :
    m.afterCalls (List.replicate (m.stepsTaken limit) .step) = (m.run limit).2 := by
  induction limit generalizing m with
  | zero => rfl
  | succ limit ih =>
    unfold stepsTaken run
    split
    · rcases hs : m.step with ⟨answer, m'⟩
      cases answer with
      | ok op =>
        simp only [List.replicate_succ, afterCalls, call_step, hs]
        exact ih m'
      | error e => simp only [List.replicate_one, afterCalls, call_step, hs]
    · rfl

theorem moves_of_not_run (m : Machine) {c : Call} (h : c.isRun = false) : m.moves c = [c] := by
  cases c with
  | run limit => cases h
  | step | supply | resolve | target | register | setRegister | readMemory | writeMemory => rfl

theorem afterCalls_moves (m : Machine) (c : Call) : m.afterCalls (m.moves c) = (m.call c).2 := by
  cases hc : c.isRun with
  | false => rw [m.moves_of_not_run hc, afterCalls, afterCalls]
  | true =>
    cases c with
    | run limit => rw [call_run, ← afterCalls_stepsTaken, moves]
    | step | supply | resolve | target | register | setRegister | readMemory | writeMemory => cases hc

/-- The machine after a session is the one after its steps and other calls, one by one. -/
theorem afterCalls_unrolled (m : Machine) (calls : List Call) :
    m.afterCalls (m.unrolled calls) = m.afterCalls calls := by
  induction calls generalizing m with
  | nil => rfl
  | cons c calls ih => rw [unrolled, afterCalls_append, afterCalls_moves, ih, afterCalls]

theorem of_mem_moves {m : Machine} {c d : Call} (h : d ∈ m.moves c) :
    d.isRun = false ∧ (d = c ∨ d = .step) := by
  cases hc : c.isRun with
  | false =>
    rw [m.moves_of_not_run hc, List.mem_singleton] at h
    exact ⟨h ▸ hc, .inl h⟩
  | true =>
    cases c with
    | run limit =>
      obtain rfl := List.eq_of_mem_replicate h
      exact ⟨rfl, .inr rfl⟩
    | step | supply | resolve | target | register | setRegister | readMemory | writeMemory => cases hc

/-- What a session is taken apart into: steps, and calls of its own that are no runs. -/
theorem of_mem_unrolled {m : Machine} {calls : List Call} {d : Call} (h : d ∈ m.unrolled calls) :
    d.isRun = false ∧ (d ∈ calls ∨ d = .step) := by
  induction calls generalizing m with
  | nil => cases h
  | cons c calls ih =>
    rcases List.mem_append.1 h with h | h
    · obtain ⟨hrun, rfl | rfl⟩ := of_mem_moves h
      · exact ⟨hrun, .inl (.head _)⟩
      · exact ⟨hrun, .inr rfl⟩
    · obtain ⟨hrun, hmem | rfl⟩ := ih h
      · exact ⟨hrun, .inl (.tail _ hmem)⟩
      · exact ⟨hrun, .inr rfl⟩

/-- What a call that is no run answers and leaves behind. -/
inductive Handled (m : Machine) : Call → Except CallError Answer → Machine → Prop
  | stepped (op : Opcode) (m' : Machine) : m.step = (.ok op, m') →
      Handled m .step (.ok (.executed op)) m'
  | failed (e : StepError) (m' : Machine) : m.step = (.error e, m') →
      Handled m .step (.error (.step e)) m'
  | supplied (text : String) (c : Char) (dest : Register) : m.status = .awaiting dest →
      text.toList = [c] → c.toNat < modulus →
      Handled m (.supply text) (.ok .done) { m.setReg dest c.toNat with status := .running }
  | refused (text : String) (why : Refusal) : m.supply text = .error why →
      Handled m (.supply text) (.error (.refused why)) m
  | assigned (index value : Int) (r : Register) : 0 ≤ value → value < 32768 →
      Handled m (.setRegister index value) (.ok .done) (m.setReg r value)
  | stored (addr value : Int) (a : Address) :
      Handled m (.writeMemory addr value) (.ok .done) { m with memory := m.memory.poke a value }
  | unassigned (index value : Int) (f : Fault) :
      Handled m (.setRegister index value) (.error (.ofFault f)) m
  | unstored (addr value : Int) (f : Fault) :
      Handled m (.writeMemory addr value) (.error (.ofFault f)) m
  | looked (c : Call) (answer : Except Fault Int) : c.isLook = true → Handled m c (m.look answer).1 m

theorem look_eq (m : Machine) (answer : Except Fault Int) : (m.look answer).2 = m := by
  cases answer <;> rfl

theorem handled_step (m : Machine) : m.Handled .step (m.call .step).1 (m.call .step).2 := by
  simp only [call]
  rcases hs : m.step with ⟨answer, m'⟩
  cases answer with
  | ok op => exact .stepped op m' hs
  | error e => exact .failed e m' hs

theorem handled_supply (m : Machine) (text : String) :
    m.Handled (.supply text) (m.call (.supply text)).1 (m.call (.supply text)).2 := by
  simp only [call]
  cases hs : m.supply text with
  | ok m' =>
    obtain ⟨dest, c, hstatus, htext, hc, rfl⟩ := supply_eq_ok hs
    exact .supplied text c dest hstatus htext hc
  | error why => exact .refused text why hs

theorem handled_setRegister (m : Machine) (index value : Int) :
    m.Handled (.setRegister index value) (m.call (.setRegister index value)).1
      (m.call (.setRegister index value)).2 := by
  simp only [call]
  cases hs : m.setRegister index value with
  | ok m' =>
    obtain ⟨r, -, h0, hlt, rfl⟩ := setRegister_eq_ok hs
    exact .assigned index value r h0 hlt
  | error f => exact .unassigned index value f

theorem handled_writeMemory (m : Machine) (addr value : Int) :
    m.Handled (.writeMemory addr value) (m.call (.writeMemory addr value)).1
      (m.call (.writeMemory addr value)).2 := by
  simp only [call]
  cases hs : m.writeMemory addr value with
  | ok m' =>
    obtain ⟨a, -, rfl⟩ := writeMemory_eq_ok hs
    exact .stored addr value a
  | error f => exact .unstored addr value f

theorem handled_look (m : Machine) (c : Call) (h : c.isLook = true) (answer : Except Fault Int) :
    m.Handled c (m.look answer).1 (m.look answer).2 := by
  rw [look_eq]
  exact .looked c answer h

theorem call_cases (m : Machine) {c : Call} (h : c.isRun = false) :
    m.Handled c (m.call c).1 (m.call c).2 := by
  cases c with
  | run limit => cases h
  | step => exact m.handled_step
  | supply text => exact m.handled_supply text
  | setRegister index value => exact m.handled_setRegister index value
  | writeMemory addr value => exact m.handled_writeMemory addr value
  | resolve | target | register | readMemory => exact m.handled_look _ rfl _

end Machine
end WordMachine
