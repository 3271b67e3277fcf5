import WordMachine.Proofs.Execution.Reading
import WordMachine.Proofs.Machine.Values

/-! The machine executes what the source says. A program that keeps to its instructions, and does not
write to memory, stays in memory as it was assembled. The program counter and all return addresses
are then addresses where statements begin, so each step reads the words of one instruction, and
their values are those that the source gives. -/

namespace WordMachine

namespace Machine

/-- Executes an instruction with these operands at the program counter, whatever memory holds
there. -/
def executed (m : Machine) (op : Opcode) (args : Operands op.signature) :
    Except StepError Opcode × Machine :=
  match m.effect (m.pc + 1 + op.arity) op args with
  | .ok (change, pc) => (.ok op, m.perform ⟨op, change, pc⟩)
  | .error e => m.failed e

theorem step_eq_executed {m : Machine} (h : m.isActive = true) {op : Opcode}
    (hf : m.Fetched op) {args : Operands op.signature}
    (hargs : m.operands op.signature (m.pc + 1) = .ok args) : m.step = m.executed op args := by
  rw [step_eq_of_isActive h, plan_of_fetched hf hargs, executed]
  match m.effect (m.pc + 1 + op.arity) op args with
  | .ok (c, pc) | .error e => rfl

theorem executed_eq_ok {m : Machine} {op op' : Opcode} {args : Operands op.signature}
    (h : (m.executed op args).1 = .ok op') : op' = op := by
  unfold executed at h
  split at h
  · cases h
    rfl
  · rename_i e _
    obtain ⟨why, status, heq⟩ := m.exists_failed e
    rw [heq] at h
    cases h

end Machine

namespace Asm

/-- Neither data nor an instruction that changes memory or saves a value of its own; and what jumps
goes to a label. -/
def Command.Plain : Command → Prop
  | .label _ => True
  | .instruction op os => op ≠ .wmem ∧ op ≠ .push ∧
    ∀ k ∈ op.targetIndex?, ∀ o ∈ os[k]?, ∃ x, o.value = .label x
  | .data _ => False

/-! ### What steps keep -/

section Steps
variable {p : List Statement} {m : Machine}

/-- The value is an address in memory at which the machine can go on with the program. -/
def Lands (p : List Statement) (v : Int) : Prop := ∃ a : Nat, v = a ∧ a < memorySize ∧ Boundary p a

/-- The program is in memory as it was assembled, and the machine is at the beginning of a statement
or beyond the program; calls have saved only addresses of that kind. -/
structure Aligned (p : List Statement) (m : Machine) : Prop where
  memory : m.memory = .ofList (words (addressOf p) p)
  pc : Boundary p m.pc ∨ size p ≤ m.pc
  stack : ∀ v ∈ m.stack, Lands p v

theorem Sound.length_words (h : Sound p) : (words (addressOf p) p).length = size p :=
  h.clean.length_words _

theorem Aligned.holds (hp : Sound p) (h : Aligned p m) {a : Nat} {op : Opcode} {os : List Operand}
    (hat : StandsAt p a op os) : m.memory.Holds a ((Command.instruction op os).words (addressOf p)) := by
  have hfits : (words (addressOf p) p).length ≤ memorySize := by
    rw [hp.length_words]
    exact hp.fits
  have hall := Memory.holds_ofList hfits
  rw [← h.memory] at hall
  obtain ⟨before, loc, after, heq, rfl⟩ := hat
  have hbefore : (words (addressOf p) before).length = size before :=
    Clean.length_words (heq ▸ hp.clean).left _
  rw [congrArg (words (addressOf p)) heq, words_append, Memory.holds_append, hbefore,
    words_cons, Memory.holds_append, Nat.zero_add] at hall
  exact hall.2.1

theorem StandsAt.fetched (hp : Sound p) (h : Aligned p m) {op : Opcode} {os : List Operand}
    (hat : StandsAt p m.pc op os) : m.Fetched op := by
  have hroom := hat.next_le
  have hfits := hp.fits
  refine ⟨?_, by simp only [memorySize]; omega⟩
  rw [(Memory.holds_cons.1 (h.holds hp hat)).1]
  exact op.ofCode?_code

/-- A step at the beginning of an instruction executes that instruction. -/
theorem StandsAt.step_eq (hp : Sound p) (h : Aligned p m) (hactive : m.isActive = true)
    {op : Opcode} {os : List Operand} (hat : StandsAt p m.pc op os) :
    ∃ args, given? (addressOf p) m op.signature os = some args ∧ m.step = m.executed op args := by
  obtain ⟨s, hs, hc⟩ := hat.mem
  obtain ⟨harity, hos⟩ := hp.clean.instruction hs hc
  obtain ⟨args, hgiven, hargs⟩ := operands_of_holds hp.addressOf_le harity hos
    (Memory.holds_cons.1 (h.holds hp hat)).2
  exact ⟨args, hgiven, Machine.step_eq_executed hactive (hat.fetched hp h) hargs⟩

/-- Behind the last statement memory holds zeros, so the machine halts there. -/
theorem Aligned.plan_of_le (hp : Sound p) (h : Aligned p m) (hpc : size p ≤ m.pc) :
    ∃ t, size p ≤ t ∧ m.plan = .ok ⟨.halt, .halt, t⟩ := by
  by_cases hin : memorySize ≤ m.pc
  · exact ⟨m.pc, hpc, by rw [Machine.plan, if_pos hin]⟩
  · have hzero : m.memory.peek m.pc = 0 := by
      have hlen := hp.length_words
      rw [h.memory, Memory.peek_ofList_of_le (hlen ▸ hp.fits), List.getD_eq_getElem?_getD,
        List.getElem?_eq_none (by omega)]
      rfl
    have hf : m.Fetched .halt := ⟨by rw [hzero]; rfl, Nat.not_le.1 hin⟩
    exact ⟨m.pc + 1, by omega, @Machine.plan_of_fetched m .halt () hf rfl⟩

theorem Aligned.step_of_le (hp : Sound p) (h : Aligned p m) (hactive : m.isActive = true)
    (hpc : size p ≤ m.pc) :
    ∃ t, size p ≤ t ∧ m.step = (.ok .halt, { m with pc := t, status := .halted none }) := by
  obtain ⟨t, ht, hplan⟩ := h.plan_of_le hp hpc
  exact ⟨t, ht, by rw [Machine.step_eq_of_isActive hactive, hplan]; rfl⟩

theorem StandsAt.plain (hplain : ∀ s ∈ p, s.command.Plain) {a : Nat} {op : Opcode}
    {os : List Operand} (hat : StandsAt p a op os) : (Command.instruction op os).Plain := by
  obtain ⟨s, hs, hc⟩ := hat.mem
  rw [← hc]
  exact hplain s hs

/-- What jumps goes to a label. -/
theorem StandsAt.lands (hp : Sound p) (hplain : ∀ s ∈ p, s.command.Plain) {a : Nat} {op : Opcode}
    {os : List Operand} (hat : StandsAt p a op os) {args : Operands op.signature}
    (hargs : given? (addressOf p) m op.signature os = some args) {k : Nat} {v : Int}
    (hk : op.targetIndex? = some k) (hv : args.value? op.signature k = some v) : Lands p v := by
  obtain ⟨o, ho, hden⟩ := value?_of_given? hargs hv
  obtain ⟨x, hx⟩ := (hat.plain hplain).2.2 k hk o ho
  rw [hx] at hden
  obtain rfl : (addressOf p x : Int) = v := Option.some.inj hden
  have hdefined : x ∈ labelNames p := by
    obtain ⟨s, hs, hc⟩ := hat.mem
    apply hp.defined o _ x hx
    rw [operands, List.mem_flatMap]
    refine ⟨s, hs, ?_⟩
    rw [hc]
    exact List.mem_of_getElem? ho
  have := hp.addressOf_le x
  exact ⟨addressOf p x, rfl, by simp only [memorySize]; omega, boundary_addressOf hdefined⟩

/-- A call saves an address that the machine can return to, also where it is the last instruction in
memory: the address behind it is then zero. -/
theorem StandsAt.lands_next (hp : Sound p) {a : Nat} {op : Opcode} {os : List Operand}
    (hat : StandsAt p a op os) : Lands p ((a + 1 + op.arity) % modulus : Nat) := by
  have hnext := hat.next_le
  have hfits := hp.fits
  refine ⟨_, rfl, Nat.mod_lt _ (by decide), ?_⟩
  by_cases hend : a + 1 + op.arity = modulus
  · rw [hend, Nat.mod_self]
    exact boundary_zero p
  · rw [Nat.mod_eq_of_lt (by simp only [modulus] at hend ⊢; omega)]
    exact hat.boundary_next

/-- What executing an instruction of the program can lead to. -/
theorem Aligned.executed (hp : Sound p) (hplain : ∀ s ∈ p, s.command.Plain) (h : Aligned p m)
    {op : Opcode} {os : List Operand} (hat : StandsAt p m.pc op os) {args : Operands op.signature}
    (hargs : given? (addressOf p) m op.signature os = some args) :
    Aligned p (m.executed op args).2 := by
  obtain ⟨hwmem, hpush, -⟩ := hat.plain hplain
  have hnext : Boundary p (m.pc + 1 + op.arity) ∨ size p ≤ m.pc + 1 + op.arity :=
    .inl hat.boundary_next
  have hreturn := hat.lands_next hp
  have hcases := m.effect_cases (m.pc + 1 + op.arity) op args
  have hfailed : ∀ e, Aligned p (m.failed e).2 := by
    intro e
    obtain ⟨why, status, heq⟩ := m.exists_failed e
    rw [heq]
    exact ⟨h.memory, h.pc, h.stack⟩
  unfold Machine.executed
  generalize m.effect (m.pc + 1 + op.arity) op args = result at hcases
  cases hcases with
  | assigns | sends | awaits | halts | passes => exact ⟨h.memory, hnext, h.stack⟩
  | stores a v hop => exact absurd hop hwmem
  | pushes v hop => exact absurd hop hpush
  | pops r v rest _ _ hstack =>
    exact ⟨h.memory, hnext, fun w hw => h.stack w (List.mem_of_mem_tail hw)⟩
  | jumps k t _ hk ht =>
    obtain ⟨a, hat', -, hb⟩ := hat.lands hp hplain hargs hk ht
    exact ⟨h.memory, .inl (Int.ofNat.inj hat' ▸ hb), h.stack⟩
  | calls t hop ht =>
    obtain ⟨a, hat', -, hb⟩ := hat.lands hp hplain hargs (by rw [hop]; rfl) ht
    refine ⟨h.memory, .inl (Int.ofNat.inj hat' ▸ hb), ?_⟩
    exact List.forall_mem_cons.2 ⟨hreturn, h.stack⟩
  | returns t rest _ hstack =>
    obtain ⟨a, hat', -, hb⟩ := h.stack t (by rw [hstack]; exact .head _)
    exact ⟨h.memory, .inl (Int.ofNat.inj hat' ▸ hb), fun w hw => h.stack w (List.mem_of_mem_tail hw)⟩
  | underflows | divides | misses | strays | straysBack | unsent => exact hfailed _

theorem Aligned.exists_standsAt (hplain : ∀ s ∈ p, s.command.Plain) (h : Aligned p m)
    (hpc : m.pc < size p) : ∃ op os, StandsAt p m.pc op os := by
  rcases h.pc with hb | hend
  · apply hb.exists_standsAt hpc
    intro s hs vs hc
    have hdata := hplain s hs
    rw [hc] at hdata
    exact hdata
  · omega

/-- A step on the program executes an instruction, and one behind it halts. -/
theorem Aligned.step_cases (hp : Sound p) (hplain : ∀ s ∈ p, s.command.Plain) (h : Aligned p m)
    (hactive : m.isActive = true) :
    (m.pc < size p ∧ ∃ op os args, StandsAt p m.pc op os ∧
      given? (addressOf p) m op.signature os = some args ∧ m.step = m.executed op args) ∨
    (size p ≤ m.pc ∧ ∃ t, size p ≤ t ∧
      m.step = (.ok .halt, { m with pc := t, status := .halted none })) := by
  rcases Nat.lt_or_ge m.pc (size p) with hpc | hpc
  · obtain ⟨op, os, hat⟩ := h.exists_standsAt hplain hpc
    obtain ⟨args, hargs, hstep⟩ := hat.step_eq hp h hactive
    exact .inl ⟨hpc, op, os, args, hat, hargs, hstep⟩
  · exact .inr ⟨hpc, h.step_of_le hp hactive hpc⟩

theorem Aligned.step (hp : Sound p) (hplain : ∀ s ∈ p, s.command.Plain) (h : Aligned p m) :
    Aligned p m.step.2 := by
  by_cases hactive : m.isActive = true
  · rcases h.step_cases hp hplain hactive with ⟨-, op, os, args, hat, hargs, hstep⟩ | ⟨-, t, ht, hstep⟩
    · rw [hstep]
      exact h.executed hp hplain hat hargs
    · rw [hstep]
      exact ⟨h.memory, .inr ht, h.stack⟩
  · rwa [Machine.step_eq_self (Bool.not_eq_true _ ▸ hactive)]

theorem Aligned.supply {m' : Machine} {text : String} (h : Aligned p m)
    (hm' : m.supply text = .ok m') : Aligned p m' := by
  obtain ⟨dest, c, -, -, -, rfl⟩ := Machine.supply_eq_ok hm'
  exact ⟨h.memory, h.pc, h.stack⟩

theorem aligned_start (p : List Statement) : Aligned p (.start (words (addressOf p) p)) :=
  ⟨rfl, .inl (boundary_zero p), nofun⟩

theorem Aligned.afterCalls (hp : Sound p) (hplain : ∀ s ∈ p, s.command.Plain) (h : Aligned p m)
    {calls : List Call} (hcalls : ∀ c ∈ calls, c = .step ∨ ∃ text, c = .supply text) :
    Aligned p (m.afterCalls calls) := by
  apply Machine.afterCalls_induction calls _ _ _ _ h
  · intro m hm
    exact hm.step hp hplain
  · intro m m' text _ hm
    exact hm.supply
  · intro _ _ index value hc
    rcases hcalls _ hc with h | ⟨text, h⟩ <;> cases h
  · intro _ _ addr value hc
    rcases hcalls _ hc with h | ⟨text, h⟩ <;> cases h

/-- An instruction of the program is stopped only by an empty stack, by a division by zero, or by an
address that it loads from. -/
theorem Aligned.trapped (hp : Sound p) (hplain : ∀ s ∈ p, s.command.Plain) (h : Aligned p m)
    {op : Opcode} {os : List Operand} (hat : StandsAt p m.pc op os) {args : Operands op.signature}
    (hargs : given? (addressOf p) m op.signature os = some args) {t : Trap}
    (ht : (m.executed op args).1 = .error (.trapped t)) :
    t.fault.kind = .stackUnderflow ∨ t.fault.kind = .divisionByZero ∨
      t.fault.kind = .addressing ∧ op = .rmem := by
  obtain ⟨hwmem, -⟩ := hat.plain hplain
  have hcases := m.effect_cases (m.pc + 1 + op.arity) op args
  unfold Machine.executed at ht
  generalize m.effect (m.pc + 1 + op.arity) op args = result at hcases ht
  cases hcases with
  | underflows =>
    injection Machine.failed_eq_trapped ht with hfault
    exact .inl (hfault ▸ rfl)
  | divides =>
    injection Machine.failed_eq_trapped ht with hfault
    exact .inr (.inl (hfault ▸ rfl))
  | misses v hop =>
    injection Machine.failed_eq_trapped ht with hfault
    exact .inr (.inr ⟨hfault ▸ rfl, hop.resolve_right hwmem⟩)
  | strays k v hk hv hout =>
    obtain ⟨a, ha, hlt, -⟩ := hat.lands hp hplain hargs hk hv
    exact absurd ha (hout a hlt)
  | straysBack v rest _ hstack hout =>
    obtain ⟨a, ha, hlt, -⟩ := h.stack v (by rw [hstack]; exact .head _)
    exact absurd ha (hout a hlt)
  | _ => cases ht

end Steps

/-- What a machine with an assembled program owes to its source: memory holds the program as it was
assembled; control is never within a statement; a step on the program executes the instruction that
begins at the program counter, on the operands that the source gives; a step behind the program halts
without a fault; and a step meets none of the faults that come from malformed words. -/
structure Agrees (p : List Statement) (words : List Int) (m : Machine) : Prop where
  memory : m.memory = .ofList words
  outside : ∀ before s after, p = before ++ s :: after →
    ¬ (size before < m.pc ∧ m.pc < size before + s.command.size)
  executes : m.isActive = true → m.pc < words.length → ∃ op os args, StandsAt p m.pc op os ∧
    given? (addressOf p) m op.signature os = some args ∧ m.step = m.executed op args ∧
    ∀ op', m.step.1 = .ok op' → op' = op
  ends : m.isActive = true → words.length ≤ m.pc →
    m.step.1 = .ok .halt ∧ m.step.2.status = .halted none
  traps : ∀ t, m.step.1 = .error (.trapped t) →
    t.fault.kind ≠ .unsupportedOpcode ∧ t.fault.kind ≠ .invalidOperand ∧
    t.fault.kind ≠ .invalidDestination ∧
    (t.fault.kind = .addressing → ∃ os, StandsAt p m.pc .rmem os)

theorem Aligned.outside {p : List Statement} {m : Machine} (h : Aligned p m)
    {before after : List Statement} {s : Statement} (hp : p = before ++ s :: after) :
    ¬ (size before < m.pc ∧ m.pc < size before + s.command.size) := by
  subst hp
  rcases h.pc with hb | hend
  · exact hb.not_within
  · rw [size_append, size_cons] at hend
    omega

theorem Aligned.agrees {p : List Statement} {m : Machine} (hp : Sound p)
    (hplain : ∀ s ∈ p, s.command.Plain) (h : Aligned p m) :
    Agrees p (words (addressOf p) p) m := by
  have hlen := hp.length_words
  refine ⟨h.memory, fun _ _ _ => h.outside, ?_, ?_, ?_⟩
  · intro hactive hpc
    rcases h.step_cases hp hplain hactive with ⟨-, op, os, args, hat, hargs, hstep⟩ | ⟨hend, -⟩
    · refine ⟨op, os, args, hat, hargs, hstep, ?_⟩
      intro op' hop
      rw [hstep] at hop
      exact Machine.executed_eq_ok hop
    · omega
  · intro hactive hpc
    rcases h.step_cases hp hplain hactive with ⟨hin, -⟩ | ⟨-, t, -, hstep⟩
    · omega
    · rw [hstep]
      exact ⟨rfl, rfl⟩
  · intro t ht
    have hactive := Machine.isActive_of_trapped ht
    rcases h.step_cases hp hplain hactive with ⟨-, op, os, args, hat, hargs, hstep⟩ | ⟨-, _, -, hstep⟩
    · rw [hstep] at ht
      rcases h.trapped hp hplain hat hargs ht with hk | hk | ⟨hk, rfl⟩
      · simp [hk]
      · simp [hk]
      · exact ⟨by simp [hk], by simp [hk], by simp [hk], fun _ => ⟨os, hat⟩⟩
    · rw [hstep] at ht
      cases ht

/-- A source that assembles, has no data, writes nothing to memory, saves no values of its own and
jumps only to labels: whatever steps its machine takes and whatever it is supplied with, the machine
agrees with the source. -/
theorem assembled_runs_agree {source : String} {program : List Statement} {words : List Int}
    (hparse : parse source = .ok program) (hwords : assemble source = .ok words)
    (hplain : ∀ s ∈ program, s.command.Plain) {calls : List Call}
    (hcalls : ∀ c ∈ calls, c = .step ∨ ∃ text, c = .supply text) :
    ∃ m, Machine.load words = .ok m ∧ Agrees program words (m.afterCalls calls) := by
  simp only [assemble, hparse, assembleProgram_eq, twoPass_eq_ok_iff] at hwords
  obtain ⟨hp, rfl⟩ := hwords
  refine ⟨_, Machine.load_of_words ?_ ?_, ?_⟩
  · rw [hp.length_words]
    exact hp.fits
  · intro w hw
    have := hp.words_range w hw
    simp only [InRange, maxOperand, modulus] at this ⊢
    omega
  · exact ((aligned_start program).afterCalls hp hplain hcalls).agrees hp hplain

/-- A program that sends out what it is given. -/
def echoSource : String := "a: call b\nout r0\njmp a\nb: in r0\nret"

def echo : List Statement :=
  [⟨0, .label "a"⟩, ⟨3, .instruction .call [⟨8, .label "b"⟩]⟩,
   ⟨10, .instruction .out [⟨14, .register 0⟩]⟩, ⟨17, .instruction .jmp [⟨21, .label "a"⟩]⟩,
   ⟨23, .label "b"⟩, ⟨26, .instruction .input [⟨29, .register 0⟩]⟩, ⟨32, .instruction .ret []⟩]

theorem echo_parsed : parse echoSource = .ok echo := by
  have h : (parse echoSource).toOption = some echo := by decide +kernel
  cases hr : parse echoSource with
  | error e =>
    rw [hr] at h
    cases h
  | ok p =>
    rw [hr] at h
    rw [Option.some.inj h]

theorem echo_assembled : assemble echoSource = .ok [17, 6, 19, 32768, 6, 0, 20, 32768, 18] := by
  rw [assemble, echo_parsed]
  rfl

theorem echo_plain : ∀ s ∈ echo, s.command.Plain := by
  simp [echo, Command.Plain, Opcode.targetIndex?]

theorem assembled_runs_agree_of_echo :
    ∃ m, Machine.load [17, 6, 19, 32768, 6, 0, 20, 32768, 18] = .ok m ∧
      Agrees echo [17, 6, 19, 32768, 6, 0, 20, 32768, 18]
        (m.afterCalls [.step, .step, .supply "A"]) :=
  assembled_runs_agree echo_parsed echo_assembled echo_plain (by simp)

end Asm
end WordMachine
