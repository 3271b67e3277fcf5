import WordMachine.Proofs.Machine.Cells
import WordMachine.Proofs.Machine.Status
import WordMachine.Proofs.Machine.Values

/-! Exactly when a step fails, and how. The causes are met in a fixed order: the opcode, the end of
memory, the operand words from left to right, and only then what the instruction does with its
operands. So where several of them hold, the first one is reported; unless it would have to name a
number that has no numeral. -/

namespace WordMachine
namespace Machine

/-- The instruction lies inside of memory, and all its operand words can be operands. -/
structure Legible (m : Machine) (op : Opcode) : Prop where
  room : m.pc + 1 + op.arity ≤ memorySize
  fits : ∀ k, m.OperandFits op k

/-- The operand word at a place is looked at: the instruction lies inside of memory, and every word
before this one can be an operand. -/
structure LooksAt (m : Machine) (op : Opcode) (k : Nat) (role : Role) : Prop where
  room : m.pc + 1 + op.arity ≤ memorySize
  role : op.signature[k]? = some role
  before : ∀ j, j < k → m.OperandFits op j

/-- Why there is no plan for an instruction, in the order in which the causes are met. -/
inductive Foiled (m : Machine) (op : Opcode) : Failure → Prop
  | pastEnd : memorySize < m.pc + 1 + op.arity → Foiled m op (.fault (.operandsPastEnd op))
  | operand (k : Nat) (role : Role) (f : Fault) : m.LooksAt op k role →
      Misfit role (m.operandWord k) f → Foiled m op (.fault f)
  | effect (e : Failure) : m.Legible op → m.Fails op e → Foiled m op e

variable {m : Machine} {op : Opcode}

theorem operands_error_iff (hroom : m.pc + 1 + op.arity ≤ memorySize) {f : Fault} :
    m.operands op.signature (m.pc + 1) = .error f ↔
      ∃ k role, m.LooksAt op k role ∧ Misfit role (m.operandWord k) f := by
  rw [operands_eq_error_iff]
  constructor
  · rintro ⟨k, role, hk, hmisfit, hbefore⟩
    exact ⟨k, role, ⟨hroom, hk, hbefore⟩, hmisfit⟩
  · rintro ⟨k, role, hlooks, hmisfit⟩
    exact ⟨k, role, hlooks.role, hmisfit, hlooks.before⟩

theorem legible_of_operands (hroom : m.pc + 1 + op.arity ≤ memorySize)
    {args : Operands op.signature} (hargs : m.operands op.signature (m.pc + 1) = .ok args) :
    m.Legible op := by
  refine ⟨hroom, ?_⟩
  intro k
  induction k using Nat.strongRecOn with
  | ind k ih =>
    intro role hrole
    refine (fits_or_misfit role (m.operandWord k)).resolve_right ?_
    rintro ⟨f, hmisfit⟩
    rw [(operands_error_iff hroom).2 ⟨k, role, ⟨hroom, hrole, ih⟩, hmisfit⟩] at hargs
    cases hargs

theorem plan_of_legible (hcode : Opcode.ofCode? (m.memory.peek m.pc) = some op) (h : m.Legible op) :
    ∃ args : Operands op.signature, m.operands op.signature (m.pc + 1) = .ok args ∧
      m.plan = (m.effect (m.pc + 1 + op.arity) op args).map fun r => ⟨op, r.1, r.2⟩ := by
  obtain ⟨args, hargs⟩ := exists_operands h.fits
  exact ⟨args, hargs, plan_of_fetched ⟨hcode, h.room⟩ hargs⟩

theorem plan_eq_error_iff (hpc : m.pc < memorySize)
    (hcode : Opcode.ofCode? (m.memory.peek m.pc) = some op) {e : Failure} :
    m.plan = .error e ↔ m.Foiled op e := by
  have hinside : ¬ memorySize ≤ m.pc := Nat.not_le.2 hpc
  constructor
  · intro h
    have hplan := m.plan_cases
    rw [h] at hplan
    cases hplan with
    | unsupported _ hnone =>
      rw [hcode] at hnone
      cases hnone
    | pastEnd op' _ hcode' hpast =>
      cases hcode.symm.trans hcode'
      exact .pastEnd hpast
    | operand op' f hf hargs =>
      cases hcode.symm.trans hf.code
      obtain ⟨k, role, hlooks, hmisfit⟩ := (operands_error_iff hf.room).1 hargs
      exact .operand k role f hlooks hmisfit
    | failed op' args _ hf hargs heff =>
      cases hcode.symm.trans hf.code
      exact .effect e (legible_of_operands hf.room hargs) ((effect_eq_error_iff args hargs).1 heff)
  · intro h
    cases h with
    | pastEnd hpast => simp only [plan, if_neg hinside, hcode, if_pos hpast]
    | operand k role f hlooks hmisfit =>
      have hargs := (operands_error_iff hlooks.room).2 ⟨k, role, hlooks, hmisfit⟩
      simp only [plan, if_neg hinside, hcode, if_neg (Nat.not_lt.2 hlooks.room), hargs]
    | effect _ hlegible hfails =>
      obtain ⟨args, hargs, hplan⟩ := plan_of_legible hcode hlegible
      rw [hplan, map_eq_error_iff]
      exact (effect_eq_error_iff args hargs).2 hfails

theorem plan_of_unsupported (hpc : m.pc < memorySize)
    (hcode : Opcode.ofCode? (m.memory.peek m.pc) = none) :
    m.plan = .error (.fault (.unsupportedOpcode (m.memory.peek m.pc))) := by
  simp only [plan, if_neg (Nat.not_le.2 hpc), hcode]

/-! ### From the plan to the step -/

/-- The next step fails with a fault of this kind, met at the program counter. -/
def Raises (m : Machine) (kind : FaultKind) : Prop :=
  ∃ f, m.step.1 = .error (.trapped ⟨f, m.pc⟩) ∧ f.kind = kind

/-- The next step fails because a value that is sent out is no code point. -/
def FailsToSend (m : Machine) : Prop := ∃ e, m.step.1 = .error (.output e)

/-- The next step fails with a fault that cannot be told. -/
def FailsToTell (m : Machine) : Prop := ∃ f, m.step.1 = .error (.untold f)

section Active
variable (hactive : m.isActive = true)
include hactive

/-- What the plan makes of the answer to a step. -/
theorem answer_cases :
    (∃ p, m.plan = .ok p ∧ m.step.1 = .ok p.op) ∨
    (∃ f, m.plan = .error (.fault f) ∧ f.IsTold ∧ m.step.1 = .error (.trapped ⟨f, m.pc⟩)) ∨
    (∃ f, m.plan = .error (.fault f) ∧ ¬ f.IsTold ∧ m.step.1 = .error (.untold f)) ∨
    ∃ u, m.plan = .error (.output u) ∧ m.step.1 = .error (.output u) := by
  rw [step_eq_of_isActive hactive]
  match m.plan with
  | .ok p => exact .inl ⟨p, rfl, rfl⟩
  | .error (.fault f) =>
    by_cases htold : f.IsTold
    · exact .inr (.inl ⟨f, rfl, htold, by simp only [m.failed_of_told htold]⟩)
    · exact .inr (.inr (.inl ⟨f, rfl, htold, by simp only [m.failed_of_untold htold]⟩))
  | .error (.output u) => exact .inr (.inr (.inr ⟨u, rfl, rfl⟩))

theorem raises_iff {kind : FaultKind} :
    m.Raises kind ↔ ∃ f, m.plan = .error (.fault f) ∧ f.kind = kind ∧ f.IsTold := by
  rcases answer_cases hactive with ⟨p, hp, hs⟩ | ⟨f, hp, htold, hs⟩ | ⟨f, hp, htold, hs⟩ | ⟨u, hp, hs⟩ <;>
    simp [Raises, *]

theorem failsToTell_iff : m.FailsToTell ↔ ∃ f, m.plan = .error (.fault f) ∧ ¬ f.IsTold := by
  rcases answer_cases hactive with ⟨p, hp, hs⟩ | ⟨f, hp, htold, hs⟩ | ⟨f, hp, htold, hs⟩ | ⟨u, hp, hs⟩ <;>
    simp [FailsToTell, *]

theorem failsToSend_iff : m.FailsToSend ↔ ∃ u, m.plan = .error (.output u) := by
  rcases answer_cases hactive with ⟨p, hp, hs⟩ | ⟨f, hp, -, hs⟩ | ⟨f, hp, -, hs⟩ | ⟨u, hp, hs⟩ <;>
    simp [FailsToSend, hp, hs]

theorem step_ok_iff : m.step.1 = .ok op ↔ ∃ p, m.plan = .ok p ∧ p.op = op := by
  rcases answer_cases hactive with ⟨p, hp, hs⟩ | ⟨f, hp, -, hs⟩ | ⟨f, hp, -, hs⟩ | ⟨u, hp, hs⟩ <;>
    simp [hp, hs]

theorem step_ok_of_legible (hcode : Opcode.ofCode? (m.memory.peek m.pc) = some op)
    (hlegible : m.Legible op) (h : ∀ e, ¬ m.Fails op e) : m.step.1 = .ok op := by
  obtain ⟨args, hargs, hplan⟩ := plan_of_legible hcode hlegible
  cases heff : m.effect (m.pc + 1 + op.arity) op args with
  | error e => exact absurd ((effect_eq_error_iff args hargs).1 heff) (h e)
  | ok r =>
    rw [heff] at hplan
    exact (step_ok_iff hactive).2 ⟨_, hplan, rfl⟩

end Active

/-! ### The rule for each kind of failure -/

/-- What must hold of an instruction for a step to fail before or in it with a fault of this kind, and
the number that the fault names, if it names one. -/
inductive Cause (m : Machine) (op : Opcode) : FaultKind → Option Int → Prop
  | pastEnd : memorySize < m.pc + 1 + op.arity → Cause m op .addressing none
  | address (v : Int) : m.Legible op → m.goesTo? op = some v ∨ m.reaches? op = some v →
      ¬ (0 ≤ v ∧ v ≤ 32767) → Cause m op .addressing (some v)
  | literal (k : Nat) : m.LooksAt op k .write → 0 ≤ m.operandWord k → m.operandWord k ≤ 32767 →
      Cause m op .invalidDestination (some (m.operandWord k))
  | word (k : Nat) (role : Role) : m.LooksAt op k role →
      ¬ (0 ≤ m.operandWord k ∧ m.operandWord k ≤ 32775) →
      Cause m op .invalidOperand (some (m.operandWord k))
  | underflow : m.Legible op → op = .pop → m.stack = [] → Cause m op .stackUnderflow none
  | division : m.Legible op → op = .mod → m.operandValue 2 = 0 →
      Cause m op .divisionByZero (some (m.operandValue 1))

/-- Just where a step fails before or in this instruction, for each way of failing, and just where
it succeeds. -/
structure Judged (m : Machine) (op : Opcode) : Prop where
  raises : ∀ kind, m.Raises kind ↔ ∃ named, m.Cause op kind named ∧ ∀ v ∈ named, HasNumeral v
  untold : m.FailsToTell ↔ ∃ kind v, m.Cause op kind (some v) ∧ ¬ HasNumeral v
  /-- where every number has a numeral, nothing but the cause counts -/
  told : m.Every HasNumeral → ∀ kind, m.Raises kind ↔ ∃ named, m.Cause op kind named
  unsent : m.FailsToSend ↔
    m.Legible op ∧ op = .out ∧ ¬ (0 ≤ m.operandValue 0 ∧ m.operandValue 0 ≤ 0x10ffff)
  succeeds : m.step.1 = .ok op ↔ m.Legible op ∧ ¬ m.Misaddresses op ∧
    ¬ (op = .pop ∧ m.stack = []) ∧ ¬ (op = .mod ∧ m.operandValue 2 = 0) ∧
    ¬ (op = .out ∧ ¬ (0 ≤ m.operandValue 0 ∧ m.operandValue 0 ≤ 0x10ffff))
  /-- a return with nothing to return to -/
  stops : op = .ret → m.stack = [] → m.step.1 = .ok .ret
  /-- a conditional jump that is not taken, wherever it would go -/
  passes : m.Legible op → op = .jt ∧ m.operandValue 0 = 0 ∨ op = .jf ∧ m.operandValue 0 ≠ 0 →
    m.step.1 = .ok op

/-- Each cause is met with a fault of its kind, and each fault has the cause of its kind. -/
theorem foiled_iff_cause {kind : FaultKind} {named : Option Int} :
    (∃ f, m.Foiled op (.fault f) ∧ f.kind = kind ∧ f.named? = named) ↔ m.Cause op kind named := by
  constructor
  · rintro ⟨f, hfoiled, rfl, rfl⟩
    cases hfoiled with
    | pastEnd hpast => exact .pastEnd hpast
    | operand k role _ hlooks hmisfit =>
      cases hmisfit with
      | literal _ h0 hle => exact .literal k hlooks h0 hle
      | invalid _ _ hout => exact .word k role hlooks hout
    | effect _ hlegible hfails =>
      cases hfails with
      | underflow hs => exact .underflow hlegible rfl hs
      | division hz => exact .division hlegible rfl hz
      | jump _ v h hout => exact .address v hlegible (.inl h) hout
      | cell _ v h hout => exact .address v hlegible (.inr h) hout
  · intro hcause
    cases hcause with
    | pastEnd hpast => exact ⟨_, .pastEnd hpast, rfl, rfl⟩
    | address v hlegible h hout =>
      rcases h with hgoes | hreaches
      · exact ⟨_, .effect _ hlegible (.jump op v hgoes hout), rfl, rfl⟩
      · exact ⟨_, .effect _ hlegible (.cell op v hreaches hout), rfl, rfl⟩
    | literal k hlooks h0 hle => exact ⟨_, .operand k .write _ hlooks (.literal _ h0 hle), rfl, rfl⟩
    | word k role hlooks hout => exact ⟨_, .operand k role _ hlooks (.invalid role _ hout), rfl, rfl⟩
    | underflow hlegible hop hs =>
      subst hop
      exact ⟨_, .effect _ hlegible (.underflow hs), rfl, rfl⟩
    | division hlegible hop hz =>
      subst hop
      exact ⟨_, .effect _ hlegible (.division hz), rfl, rfl⟩

section Judged
variable (hactive : m.isActive = true) (hpc : m.pc < memorySize)
  (hcode : Opcode.ofCode? (m.memory.peek m.pc) = some op)
include hactive hpc hcode

theorem raises_iff_cause {kind : FaultKind} :
    m.Raises kind ↔ ∃ named, m.Cause op kind named ∧ ∀ v ∈ named, HasNumeral v := by
  simp only [raises_iff hactive, plan_eq_error_iff hpc hcode, ← foiled_iff_cause]
  constructor
  · rintro ⟨f, hfoiled, hkind, htold⟩
    exact ⟨f.named?, ⟨f, hfoiled, hkind, rfl⟩, htold⟩
  · rintro ⟨_, ⟨f, hfoiled, hkind, rfl⟩, htold⟩
    exact ⟨f, hfoiled, hkind, htold⟩

theorem failsToTell_iff_cause :
    m.FailsToTell ↔ ∃ kind v, m.Cause op kind (some v) ∧ ¬ HasNumeral v := by
  simp only [failsToTell_iff hactive, plan_eq_error_iff hpc hcode, ← foiled_iff_cause,
    Fault.not_isTold_iff]
  constructor
  · rintro ⟨f, hfoiled, v, hv, hnumeral⟩
    exact ⟨f.kind, v, ⟨f, hfoiled, rfl, hv⟩, hnumeral⟩
  · rintro ⟨kind, v, ⟨f, hfoiled, -, hv⟩, hnumeral⟩
    exact ⟨f, hfoiled, v, hv, hnumeral⟩

theorem raises_iff_cause_of_every (hevery : m.Every HasNumeral) {kind : FaultKind} :
    m.Raises kind ↔ ∃ named, m.Cause op kind named := by
  rw [raises_iff_cause hactive hpc hcode]
  constructor
  · rintro ⟨named, hcause, -⟩
    exact ⟨named, hcause⟩
  · rintro ⟨_, hcause⟩
    obtain ⟨f, hfoiled, -, rfl⟩ := foiled_iff_cause.2 hcause
    exact ⟨_, hcause, hevery.isTold ((plan_eq_error_iff hpc hcode).2 hfoiled)⟩

theorem failsToSend_iff_unsent : m.FailsToSend ↔
    m.Legible op ∧ op = .out ∧ ¬ (0 ≤ m.operandValue 0 ∧ m.operandValue 0 ≤ 0x10ffff) := by
  simp only [failsToSend_iff hactive, plan_eq_error_iff hpc hcode, ← codePoint_error_iff]
  constructor
  · rintro ⟨u, hfoiled⟩
    cases hfoiled with
    | effect _ hlegible hfails =>
      cases hfails with
      | unsent _ hu => exact ⟨hlegible, rfl, u, hu⟩
  · rintro ⟨hlegible, rfl, u, hu⟩
    exact ⟨u, .effect _ hlegible (.unsent u hu)⟩

theorem step_succeeds_iff : m.step.1 = .ok op ↔ m.Legible op ∧ ∀ e, ¬ m.Fails op e := by
  constructor
  · intro h
    obtain ⟨p, hp, -⟩ := (step_ok_iff hactive).1 h
    have hsound (e : Failure) : ¬ m.Foiled op e := by
      rw [← plan_eq_error_iff hpc hcode, hp]
      simp
    have hroom : m.pc + 1 + op.arity ≤ memorySize :=
      Nat.not_lt.1 fun hpast => hsound _ (.pastEnd hpast)
    cases hargs : m.operands op.signature (m.pc + 1) with
    | error f =>
      obtain ⟨k, role, hlooks, hmisfit⟩ := (operands_error_iff hroom).1 hargs
      exact absurd (.operand k role f hlooks hmisfit) (hsound _)
    | ok args =>
      have hlegible := legible_of_operands hroom hargs
      exact ⟨hlegible, fun e he => hsound e (.effect e hlegible he)⟩
  · rintro ⟨hlegible, h⟩
    exact step_ok_of_legible hactive hcode hlegible h

end Judged

theorem judged (hactive : m.isActive = true) (hpc : m.pc < memorySize)
    (hcode : Opcode.ofCode? (m.memory.peek m.pc) = some op) : m.Judged op where
  raises := fun _ => raises_iff_cause hactive hpc hcode
  untold := failsToTell_iff_cause hactive hpc hcode
  told := fun hevery _ => raises_iff_cause_of_every hactive hpc hcode hevery
  unsent := failsToSend_iff_unsent hactive hpc hcode
  succeeds := (step_succeeds_iff hactive hpc hcode).trans (and_congr_right fun _ => never_fails_iff)
  stops := by
    rintro rfl hs
    have hgoes : m.goesTo? .ret = none := by rw [goesTo?, hs, List.head?_nil]
    exact step_ok_of_legible hactive hcode ⟨hpc, fun k role h => by cases h⟩
      fun e => not_fails hgoes rfl (by decide)
  passes := by
    rintro hlegible (⟨rfl, hz⟩ | ⟨rfl, hnz⟩)
    · exact step_ok_of_legible hactive hcode hlegible
        fun e => not_fails (if_neg (not_not_intro hz)) rfl (by decide)
    · exact step_ok_of_legible hactive hcode hlegible
        fun e => not_fails (if_neg hnz) rfl (by decide)

/-- The words that name an instruction are those from 0 to 21. -/
theorem exists_code_iff {w : Int} : (∃ op, Opcode.ofCode? w = some op) ↔ 0 ≤ w ∧ w ≤ 21 := by
  constructor
  · rintro ⟨op, hop⟩
    have := Opcode.code_of_ofCode? hop
    have := op.code_lt
    omega
  · rintro ⟨h0, hle⟩
    have hlt : w.toNat < Opcode.all.length := by
      change w.toNat < 22
      omega
    exact ⟨Opcode.all[w.toNat], by rw [Opcode.ofCode?, if_neg (by omega), List.getElem?_eq_getElem hlt]⟩

theorem code_eq_none_iff :
    Opcode.ofCode? (m.memory.peek m.pc) = none ↔
      ¬ (0 ≤ m.memory.peek m.pc ∧ m.memory.peek m.pc ≤ 21) := by
  rw [← exists_code_iff]
  cases Opcode.ofCode? (m.memory.peek m.pc) <;> simp

section Unsupported
variable (hactive : m.isActive = true) (hpc : m.pc < memorySize)
include hactive hpc

theorem raises_unsupported_iff : m.Raises .unsupportedOpcode ↔
    ¬ (0 ≤ m.memory.peek m.pc ∧ m.memory.peek m.pc ≤ 21) ∧ HasNumeral (m.memory.peek m.pc) := by
  rw [← code_eq_none_iff]
  constructor
  · intro hraises
    cases hcode : Opcode.ofCode? (m.memory.peek m.pc) with
    | some op =>
      obtain ⟨named, hcause, -⟩ := (raises_iff_cause hactive hpc hcode).1 hraises
      cases hcause
    | none =>
      obtain ⟨f, hf, -, htold⟩ := (raises_iff hactive).1 hraises
      rw [plan_of_unsupported hpc hcode] at hf
      cases hf
      exact ⟨rfl, htold _ rfl⟩
  · rintro ⟨hcode, hnumeral⟩
    refine (raises_iff hactive).2 ⟨_, plan_of_unsupported hpc hcode, rfl, ?_⟩
    rintro v ⟨⟩
    exact hnumeral

theorem failsToTell_of_unsupported
    (hcode : ¬ (0 ≤ m.memory.peek m.pc ∧ m.memory.peek m.pc ≤ 21))
    (hnumeral : ¬ HasNumeral (m.memory.peek m.pc)) : m.FailsToTell := by
  have hplan := plan_of_unsupported hpc (code_eq_none_iff.2 hcode)
  exact (failsToTell_iff hactive).2 ⟨_, hplan, Fault.not_isTold_iff.2 ⟨_, rfl, hnumeral⟩⟩

end Unsupported

end Machine
end WordMachine
