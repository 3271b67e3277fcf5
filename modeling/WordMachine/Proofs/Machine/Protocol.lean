import WordMachine.Proofs.Machine.Cells
import WordMachine.Proofs.Machine.Status

/-! The protocol between a machine and a host that steps it, runs it and supplies it with characters.
A call out of turn is refused, and might as well not have been made. Everything else moves the status
one way: from ready to running, to waiting and back, and to a stop for good. -/

namespace WordMachine

/-- Whether the call is one of those that drive a program on. -/
def Call.drives : Call → Bool
  | .step | .run _ | .supply _ => true
  | _ => false

/-- Whether an answer is a refusal: the machine has halted, or it was not the call's turn. -/
def isRefusal : Except CallError Answer → Bool
  | .error (.refused _) | .error (.step (.refused _)) => true
  | _ => false

namespace Machine

/-- The calls of a session, each with its answer. -/
def transcript (m : Machine) : List Call → List (Call × Except CallError Answer)
  | [] => []
  | c :: cs => (c, (m.call c).1) :: (m.call c).2.transcript cs

/-- The calls of a session that are not refused, each with its answer. -/
def accepted (m : Machine) (calls : List Call) : List (Call × Except CallError Answer) :=
  (m.transcript calls).filter fun entry => !isRefusal entry.2

/-! ### Refused calls -/

theorem run_ne_refused (limit : Nat) (m : Machine) (why : Refusal) :
    (m.run limit).1 ≠ .error (.refused why) := by
  intro h
  induction limit generalizing m with
  | zero => cases h
  | succ limit ih =>
    unfold run at h
    split at h
    · rename_i hactive
      rcases hs : m.step with ⟨answer, m'⟩
      rw [hs] at h
      cases answer with
      | ok op => exact ih m' h
      | error e => cases status_of_step hactive hs <;> cases h
    · cases h

/-- A refused call changes nothing. -/
theorem call_of_refusal {m : Machine} {c : Call} (h : isRefusal (m.call c).1 = true) :
    (m.call c).2 = m := by
  cases hrun : c.isRun with
  | false =>
    have hh := m.call_cases hrun
    generalize (m.call c).1 = answer, (m.call c).2 = m' at h hh ⊢
    cases hh with
    | failed e m' hs =>
      cases hactive : m.isActive with
      | false => rw [← step_eq_self hactive, hs]
      | true => cases status_of_step hactive hs <;> cases h
    | refused | unassigned | unstored | looked => rfl
    | stepped | supplied | assigned | stored => cases h
  | true =>
    cases c with
    | run limit =>
      have hne := m.run_ne_refused limit
      simp only [call] at h
      rcases hr : m.run limit with ⟨answer, m'⟩
      rw [hr] at h hne
      cases answer with
      | ok left => cases h
      | error e =>
        cases e with
        | refused why => exact absurd rfl (hne why)
        | trapped | output | untold => cases h
    | step | supply | resolve | target | register | setRegister | readMemory | writeMemory =>
      cases hrun

/-- Without its refused calls a session is answered as before and leaves the same machine. -/
theorem transcript_accepted (m : Machine) (calls : List Call) :
    m.transcript ((m.accepted calls).map Prod.fst) = m.accepted calls ∧
      m.afterCalls ((m.accepted calls).map Prod.fst) = m.afterCalls calls := by
  induction calls generalizing m with
  | nil => exact ⟨rfl, rfl⟩
  | cons c calls ih =>
    have ih := ih (m.call c).2
    cases h : isRefusal (m.call c).1 with
    | true =>
      have haccepted : m.accepted (c :: calls) = (m.call c).2.accepted calls := by
        simp [accepted, transcript, h]
      rw [haccepted, afterCalls]
      rwa [call_of_refusal h] at ih ⊢
    | false =>
      have haccepted : m.accepted (c :: calls) = (c, (m.call c).1) :: (m.call c).2.accepted calls := by
        simp [accepted, transcript, h]
      rw [haccepted, List.map_cons, transcript, afterCalls, afterCalls, ih.1, ih.2]
      exact ⟨rfl, rfl⟩

/-! ### Turns -/

/-- The text is a character of fifteen bits, and the machine waits for one. -/
def WaitsFor (m : Machine) (text : String) (r : Register) (ch : Char) : Prop :=
  m.status = .awaiting r ∧ text.toList = [ch] ∧ ch.toNat ≤ 32767

/-- It is not the call's turn, or what it supplies is not what the machine waits for. -/
def OutOfTurn (m : Machine) : Call → Prop
  | .step => m.isActive = false
  | .supply text => ¬ ∃ r ch, m.WaitsFor text r ch
  | _ => False

/-- What a single call of a driving host may do. -/
structure InTurn (m : Machine) (c : Call) : Prop where
  refused : isRefusal (m.call c).1 = true ↔ m.OutOfTurn c
  ready : (m.call c).2.status = .ready → m.status = .ready
  /-- The machine waits only where it has just executed an instruction that reads a character. -/
  awaits : ∀ r, (m.call c).2.status = .awaiting r → (m.call c).2 = m ∨
    c = .step ∧ m.isActive = true ∧ (m.call c).1 = .ok (.executed .input) ∧
      m.Fetched .input ∧ target (m.memory.peek (m.pc + 1)) = .ok r
  /-- It goes on with the character that it waits for, which changes one register and the status,
  and with nothing else. -/
  resumes : ∀ r, m.status = .awaiting r → m.OutOfTurn c ∧ (m.call c).2 = m ∨
    ∃ text ch, c = .supply text ∧ m.WaitsFor text r ch ∧
      m.call c = (.ok .done, { m.setReg r ch.toNat with status := .running })
  rests : m.isHalted = true → (m.call c).2 = m
  /-- Without a fault it halts only at a stop, at a return with nothing to return to and at the end
  of memory. -/
  halts : (m.call c).2.status = .halted none → (m.call c).2 = m ∨
    c = .step ∧ m.isActive = true ∧ ∃ op, (m.call c).1 = .ok (.executed op) ∧
      (op = .halt ∧ (m.Fetched .halt ∨ m.pc = memorySize) ∨
        op = .ret ∧ m.Fetched .ret ∧ m.stack = [])
  trap : ∀ t, m.trap? = some t → (m.call c).2.trap? = some t

theorem inTurn_of_refused {m : Machine} {c : Call} {answer : Except CallError Answer}
    (hcall : m.call c = (answer, m)) (hrefusal : isRefusal answer = true) (hout : m.OutOfTurn c) :
    m.InTurn c := by
  have hsame : (m.call c).2 = m := by rw [hcall]
  refine ⟨?_, ?_, fun _ _ => .inl hsame, fun _ _ => .inl ⟨hout, hsame⟩, fun _ => hsame,
    fun _ => .inl hsame, ?_⟩
  · rw [hcall]
    exact ⟨fun _ => hout, fun _ => hrefusal⟩
  · rw [hsame]
    exact id
  · intro t h
    rwa [hsame]

theorem call_step_refused {m : Machine} (h : m.isActive = false) :
    ∃ why, m.call .step = (.error (.step (.refused why)), m) := by
  cases hs : m.status with
  | halted => exact ⟨.halted, by simp only [call, step, hs]⟩
  | awaiting => exact ⟨.stepWhileAwaiting, by simp only [call, step, hs]⟩
  | ready | running => simp [isActive, hs] at h

theorem call_step_ok {m m' : Machine} {op : Opcode} (h : m.step = (.ok op, m')) :
    (m.call .step).1 = .ok (.executed op) := by
  simp only [call, h]

theorem not_isRefusal_call_step {m : Machine} (hactive : m.isActive = true) :
    isRefusal (m.call .step).1 = false := by
  rcases hs : m.step with ⟨answer, m'⟩
  cases answer with
  | ok op =>
    rw [call_step_ok hs]
    rfl
  | error e =>
    have hcall : (m.call .step).1 = .error (.step e) := by simp only [call, hs]
    rw [hcall]
    cases status_of_step hactive hs <;> rfl

theorem inTurn_of_step {m : Machine} (hm : m.Proper) (hactive : m.isActive = true) :
    m.InTurn .step := by
  obtain ⟨hawaiting, hhalted, htrap⟩ := status_of_isActive hactive
  rcases hs : m.step with ⟨answer, m'⟩
  have heq : (m.call .step).2 = m' := by rw [call_step, hs]
  refine ⟨?_, ?_, ?_, ?_, ?_, ?_, ?_⟩
  · simp [not_isRefusal_call_step hactive, OutOfTurn, hactive]
  · intro h
    exact absurd h (heq ▸ status_ne_ready_of_step hactive hs)
  · intro r h
    obtain ⟨rfl, hf, hr⟩ := step_awaits hactive hs (heq ▸ h)
    exact .inr ⟨rfl, hactive, call_step_ok hs, hf, hr⟩
  · intro r h
    exact absurd h (hawaiting r)
  · intro h
    rw [hhalted] at h
    cases h
  · intro h
    obtain ⟨op, rfl, hstops⟩ := step_halts hactive hs (heq ▸ h)
    refine .inr ⟨rfl, hactive, op, call_step_ok hs, ?_⟩
    rcases hstops with ⟨rfl, hend | hf⟩ | hret
    · exact .inl ⟨rfl, .inr (Nat.le_antisymm hm.pc hend)⟩
    · exact .inl ⟨rfl, .inl hf⟩
    · exact .inr hret
  · intro t h
    rw [htrap] at h
    cases h

theorem call_supply {m : Machine} {text : String} {r : Register} {ch : Char}
    (h : m.WaitsFor text r ch) :
    m.call (.supply text) = (.ok .done, { m.setReg r ch.toNat with status := .running }) := by
  obtain ⟨hs, htext, hch⟩ := h
  have hlt : ch.toNat < modulus := Nat.lt_succ_of_le hch
  simp only [call, supply, hs, htext, if_pos hlt, adopt]

theorem call_supply_refused {m : Machine} {text : String} (h : m.OutOfTurn (.supply text)) :
    ∃ why, m.call (.supply text) = (.error (.refused why), m) := by
  cases hs : m.supply text with
  | ok m' =>
    obtain ⟨r, ch, hstatus, htext, hch, -⟩ := supply_eq_ok hs
    exact absurd ⟨r, ch, hstatus, htext, Nat.le_of_lt_succ hch⟩ h
  | error why => exact ⟨why, by rw [call, hs, adopt]⟩

theorem inTurn_of_supply {m : Machine} {text : String} {r : Register} {ch : Char}
    (h : m.WaitsFor text r ch) : m.InTurn (.supply text) := by
  have hs := h.1
  have hcall := call_supply h
  refine ⟨?_, ?_, ?_, ?_, ?_, ?_, ?_⟩
  · simp only [hcall, isRefusal, OutOfTurn, Bool.false_eq_true, false_iff]
    exact fun hout => hout ⟨r, ch, h⟩
  · simp [hcall]
  · simp [hcall]
  · intro r' hr
    obtain rfl : r = r' := by simpa [hs] using hr
    exact .inr ⟨text, ch, rfl, h, hcall⟩
  · simp [isHalted, hs]
  · simp [hcall]
  · simp [trap?, hs]

theorem inTurn {m : Machine} {c : Call} (hm : m.Proper) (hrun : c.isRun = false)
    (hdrives : c.drives = true) : m.InTurn c := by
  cases c with
  | step =>
    cases hactive : m.isActive with
    | false =>
      obtain ⟨why, hcall⟩ := call_step_refused hactive
      exact inTurn_of_refused hcall rfl hactive
    | true => exact inTurn_of_step hm hactive
  | supply text =>
    by_cases h : ∃ r ch, m.WaitsFor text r ch
    · obtain ⟨r, ch, h⟩ := h
      exact inTurn_of_supply h
    · obtain ⟨why, hcall⟩ := call_supply_refused h
      exact inTurn_of_refused hcall rfl h
  | run => cases hrun
  | resolve | target | register | setRegister | readMemory | writeMemory => cases hdrives

/-! ### Sessions -/

theorem drives_of_mem_unrolled {m : Machine} {calls : List Call}
    (hcalls : ∀ c ∈ calls, c.drives = true) {d : Call} (h : d ∈ m.unrolled calls) :
    d.drives = true := by
  obtain ⟨-, hmem | rfl⟩ := of_mem_unrolled h
  · exact hcalls d hmem
  · rfl

/-- What steps and characters keep, a driving host keeps. -/
theorem driven_induction {P : Machine → Prop} {calls : List Call}
    (hcalls : ∀ c ∈ calls, c.drives = true) (hstep : ∀ m, P m → P m.step.2)
    (hsupply : ∀ m dest (c : Char), m.status = .awaiting dest → P m →
      P { m.setReg dest c.toNat with status := .running }) {m : Machine} (hm : P m) :
    P (m.afterCalls calls) := by
  apply afterCalls_induction calls hstep _ _ _ hm
  · intro m m' text _ hm hs
    obtain ⟨dest, c, hstatus, -, -, rfl⟩ := supply_eq_ok hs
    exact hsupply m dest c hstatus hm
  · intro m m' index value hmem
    cases hcalls _ hmem
  · intro m m' addr value hmem
    cases hcalls _ hmem

theorem isActive_of_isHalted {m : Machine} (h : m.isHalted = true) : m.isActive = false := by
  cases hs : m.status <;> simp [isHalted, isActive, hs] at h ⊢

theorem isHalted_of_trap {m : Machine} {t : Trap} (h : m.trap? = some t) : m.isHalted = true := by
  cases hs : m.status <;> simp [trap?, isHalted, hs] at h ⊢

theorem afterCalls_of_halted {m : Machine} (h : m.isHalted = true) {calls : List Call}
    (hcalls : ∀ c ∈ calls, c.drives = true) : m.afterCalls calls = m := by
  refine driven_induction (P := (· = m)) hcalls ?_ ?_ rfl
  · rintro _ rfl
    exact step_eq_self (isActive_of_isHalted h)
  · rintro _ dest c hs rfl
    simp [isHalted, hs] at h

theorem status_afterCalls_ne_ready {m : Machine} (h : m.status ≠ .ready) {calls : List Call}
    (hcalls : ∀ c ∈ calls, c.drives = true) : (m.afterCalls calls).status ≠ .ready := by
  refine driven_induction (P := fun m => m.status ≠ .ready) hcalls ?_ (fun _ _ _ _ _ => nofun) h
  intro m h
  cases hactive : m.isActive with
  | false => rwa [step_eq_self hactive]
  | true => exact status_ne_ready_of_step hactive rfl

/-- For a host that steps, runs and supplies a loaded program, in any order and with any text. A
session without its refused calls is answered as before and leaves the same machine. Taken apart into
its single calls it leaves the same machine too, and none of them does anything out of turn. And
behind it, a machine that is no longer ready never is again, and one that has halted stays as it is,
with its fault if there is one. -/
theorem driving_host_keeps_turns {program : List Int} {m : Machine} (hload : load program = .ok m)
    {calls : List Call} (hcalls : ∀ c ∈ calls, c.drives = true) :
    (m.transcript ((m.accepted calls).map Prod.fst) = m.accepted calls ∧
      m.afterCalls ((m.accepted calls).map Prod.fst) = m.afterCalls calls) ∧
    (m.afterCalls (m.unrolled calls) = m.afterCalls calls ∧ ∀ before c after,
      m.unrolled calls = before ++ c :: after → (m.afterCalls before).InTurn c) ∧
    ∀ more : List Call, (∀ c ∈ more, c.drives = true) →
      let m₁ := m.afterCalls calls
      let m₂ := m₁.afterCalls more
      (m₁.status ≠ .ready → m₂.status ≠ .ready) ∧ (m₁.isHalted = true → m₂ = m₁) ∧
        ∀ t, m₁.trap? = some t → m₂.trap? = some t := by
  refine ⟨m.transcript_accepted calls, ⟨m.afterCalls_unrolled calls, ?_⟩, ?_⟩
  · intro before c after hsession
    have hmem : c ∈ m.unrolled calls := hsession ▸ List.mem_append_right before (.head _)
    exact inTurn (proper_afterCalls (proper_of_load hload) before) (of_mem_unrolled hmem).1
      (drives_of_mem_unrolled hcalls hmem)
  · intro more hmore
    refine ⟨fun h => status_afterCalls_ne_ready h hmore, fun h => afterCalls_of_halted h hmore, ?_⟩
    intro t ht
    rwa [afterCalls_of_halted (isHalted_of_trap ht) hmore]

/-- A host that supplies a character before one is asked for, steps while one is, supplies two at
once, and goes on after the machine has halted. -/
def hastyHost : List Call :=
  [.supply "a", .run 10, .step, .supply "ab", .supply "a", .run 10, .step]

/-- What such a host gets done with a program that reads a character and stops. -/
theorem accepted_hastyHost {memory : Memory}
    (hpeek : ∀ a, memory.peek a = [20, 32768, 0].getD a 0) (regs : Vector Int 8) :
    ((⟨memory, regs, [], 0, .ready, []⟩ : Machine).accepted hastyHost).map Prod.fst =
      [.run 10, .supply "a", .run 10] := by
  have hin : (⟨memory, regs, [], 0, .ready, []⟩ : Machine).step =
      (.ok .input, ⟨memory, regs, [], 2, .awaiting 0, []⟩) :=
    @step_of_fetched ⟨memory, regs, [], 0, .ready, []⟩ .input (0, ()) _ _ rfl
      ⟨by simp only [hpeek]; rfl, Nat.le_of_ble_eq_true rfl⟩
      (by simp only [Opcode.signature, operands, hpeek]; rfl) rfl
  have hhalt (regs : Vector Int 8) : (⟨memory, regs, [], 2, .running, []⟩ : Machine).step =
      (.ok .halt, ⟨memory, regs, [], 3, .halted none, []⟩) :=
    @step_of_fetched ⟨memory, regs, [], 2, .running, []⟩ .halt () _ _ rfl
      ⟨by simp only [hpeek]; rfl, Nat.le_of_ble_eq_true rfl⟩ rfl rfl
  have hwaits : (⟨memory, regs, [], 2, .awaiting 0, []⟩ : Machine).step =
      (.error (.refused .stepWhileAwaiting), ⟨memory, regs, [], 2, .awaiting 0, []⟩) := rfl
  have hrests (regs : Vector Int 8) : (⟨memory, regs, [], 3, .halted none, []⟩ : Machine).step =
      (.error (.refused .halted), ⟨memory, regs, [], 3, .halted none, []⟩) := rfl
  simp [accepted, hastyHost, transcript, call, run, isActive, supply, adopt, hin, hhalt, hwaits,
    hrests, isRefusal, setReg, modulus]

theorem driving_host_keeps_turns_of_hasty_host :
    let m := start [20, 32768, 0]
    load [20, 32768, 0] = .ok m ∧
      m.afterCalls [.run 10, .supply "a", .run 10] = m.afterCalls hastyHost := by
  intro m
  have hload : load [20, 32768, 0] = .ok m := rfl
  have hkeeps := (@driving_host_keeps_turns _ m hload hastyHost (by decide)).1.2
  have haccepted : (m.accepted hastyHost).map Prod.fst = [.run 10, .supply "a", .run 10] :=
    accepted_hastyHost (Memory.peek_ofList_of_le (by decide)) (Vector.replicate 8 0)
  rw [haccepted] at hkeeps
  exact ⟨hload, hkeeps⟩

end Machine
end WordMachine
