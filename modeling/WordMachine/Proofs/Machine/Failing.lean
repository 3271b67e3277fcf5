import WordMachine.Proofs.Machine.OperandWords

/-! Why an instruction fails whose operands have all been read: it takes from an empty stack, divides
by zero, uses as an address what is none, or sends out what is no code point. An instruction has at
most one of these reasons to fail. -/

namespace WordMachine
namespace Machine

/-- Why an instruction fails whose operands have all been read. -/
inductive Fails (m : Machine) : Opcode → Failure → Prop
  | underflow : m.stack = [] → Fails m .pop (.fault .emptyStack)
  | division : m.operandValue 2 = 0 → Fails m .mod (.fault (.divisionByZero (m.operandValue 1)))
  | jump (op : Opcode) (v : Int) : m.goesTo? op = some v → ¬ (0 ≤ v ∧ v ≤ 32767) →
      Fails m op (.fault (.jumpOutOfRange v))
  | cell (op : Opcode) (v : Int) : m.reaches? op = some v → ¬ (0 ≤ v ∧ v ≤ 32767) →
      Fails m op (.fault (.addressOutOfRange v))
  | unsent (e : OutputError) : codePoint (m.operandValue 0) = .error e → Fails m .out (.output e)

variable {m : Machine} {op : Opcode}

/-- A value is an address or not. -/
theorem address_cases (v : Int) :
    (∃ a, Address.ofInt? v = some a ∧ 0 ≤ v ∧ v ≤ 32767) ∨
      Address.ofInt? v = none ∧ ¬ (0 ≤ v ∧ v ≤ 32767) := by
  cases ha : Address.ofInt? v with
  | some a =>
    have hlt : a.val < 32768 := a.isLt
    have hv := Address.ofInt?_eq_some_iff.1 ha
    exact .inl ⟨a, rfl, by omega, by omega⟩
  | none =>
    have hout := Address.ofInt?_eq_none_iff.1 ha
    simp only [memorySize] at hout
    exact .inr ⟨rfl, by omega⟩

theorem jumpTarget_eq_error_iff {v : Int} {e : Failure} :
    jumpTarget v = .error e ↔ ¬ (0 ≤ v ∧ v ≤ 32767) ∧ e = .fault (.jumpOutOfRange v) := by
  rcases address_cases v with ⟨a, ha, hin⟩ | ⟨ha, hout⟩
  · simp only [jumpTarget, ha, hin, reduceCtorEq, not_true, and_self, false_and]
  · simp only [jumpTarget, ha, hout, Except.error.injEq, eq_comm, not_false_iff, true_and]

theorem cellAddress_eq_error_iff {v : Int} {e : Failure} :
    cellAddress v = .error e ↔ ¬ (0 ≤ v ∧ v ≤ 32767) ∧ e = .fault (.addressOutOfRange v) := by
  rcases address_cases v with ⟨a, ha, hin⟩ | ⟨ha, hout⟩
  · simp only [cellAddress, ha, hin, reduceCtorEq, not_true, and_self, false_and]
  · simp only [cellAddress, ha, hout, Except.error.injEq, eq_comm, not_false_iff, true_and]

theorem codePoint_error_iff {v : Int} : (∃ u, codePoint v = .error u) ↔ ¬ (0 ≤ v ∧ v ≤ 0x10ffff) := by
  constructor
  · rintro ⟨u, hu⟩
    have := codePoint_eq_error hu
    omega
  · intro hout
    exact codePoint_of_not_range (by omega)

theorem map_eq_error_iff {α β ε : Type} {f : α → β} {r : Except ε α} {e : ε} :
    r.map f = .error e ↔ r = .error e := by
  cases r <;> simp [Except.map]

/-- An instruction that goes elsewhere reaches for no cell. -/
theorem goesTo?_of_reaches? {v : Int} (h : m.reaches? op = some v) : m.goesTo? op = none := by
  cases op with
  | rmem | wmem => rfl
  | _ => cases h

section Fails
variable {e : Failure}

/-- An instruction that goes nowhere else and reaches for no cell fails only for a reason of its
own. -/
theorem not_fails (hgoes : m.goesTo? op = none) (hreaches : m.reaches? op = none)
    (hop : op ≠ .pop ∧ op ≠ .mod ∧ op ≠ .out) : ¬ m.Fails op e := by
  intro h
  cases h with
  | underflow => exact hop.1 rfl
  | division => exact hop.2.1 rfl
  | unsent => exact hop.2.2 rfl
  | jump _ v h =>
    rw [hgoes] at h
    cases h
  | cell _ v h =>
    rw [hreaches] at h
    cases h

theorem fails_jump_iff {v : Int} (hgoes : m.goesTo? op = some v) :
    m.Fails op e ↔ ¬ (0 ≤ v ∧ v ≤ 32767) ∧ e = .fault (.jumpOutOfRange v) := by
  constructor
  · intro h
    cases h with
    | underflow | division | unsent => cases hgoes
    | jump _ w h hout =>
      cases hgoes.symm.trans h
      exact ⟨hout, rfl⟩
    | cell _ w h => cases hgoes.symm.trans (goesTo?_of_reaches? h)
  · rintro ⟨hout, rfl⟩
    exact .jump op v hgoes hout

theorem fails_cell_iff {v : Int} (hreaches : m.reaches? op = some v) :
    m.Fails op e ↔ ¬ (0 ≤ v ∧ v ≤ 32767) ∧ e = .fault (.addressOutOfRange v) := by
  constructor
  · intro h
    cases h with
    | underflow | division | unsent => cases hreaches
    | jump _ w h => cases h.symm.trans (goesTo?_of_reaches? hreaches)
    | cell _ w h hout =>
      cases hreaches.symm.trans h
      exact ⟨hout, rfl⟩
  · rintro ⟨hout, rfl⟩
    exact .cell op v hreaches hout

theorem fails_pop_iff : m.Fails .pop e ↔ m.stack = [] ∧ e = .fault .emptyStack := by
  constructor
  · intro h
    cases h with
    | underflow hs => exact ⟨hs, rfl⟩
    | jump _ _ h | cell _ _ h => cases h
  · rintro ⟨hs, rfl⟩
    exact .underflow hs

theorem fails_mod_iff : m.Fails .mod e ↔
    m.operandValue 2 = 0 ∧ e = .fault (.divisionByZero (m.operandValue 1)) := by
  constructor
  · intro h
    cases h with
    | division hz => exact ⟨hz, rfl⟩
    | jump _ _ h | cell _ _ h => cases h
  · rintro ⟨hz, rfl⟩
    exact .division hz

theorem fails_out_iff : m.Fails .out e ↔
    ∃ u, codePoint (m.operandValue 0) = .error u ∧ e = .output u := by
  constructor
  · intro h
    cases h with
    | unsent u hu => exact ⟨u, hu, rfl⟩
    | jump _ _ h | cell _ _ h => cases h
  · rintro ⟨u, hu, rfl⟩
    exact .unsent u hu

end Fails

section Effect
variable {next : Nat} {e : Failure}

/-- An instruction that goes on where a value says fails just where the value is no address. -/
theorem goes_error_iff {v : Int} {f : Nat → Change × Nat} (hgoes : m.goesTo? op = some v) :
    (jumpTarget v).map f = .error e ↔ m.Fails op e := by
  rw [map_eq_error_iff, jumpTarget_eq_error_iff, fails_jump_iff hgoes]

/-- The same of an instruction that goes there only on a condition. -/
theorem goes_if_error_iff {cond : Prop} [Decidable cond] {v : Int} {f : Nat → Change × Nat}
    {r : Change × Nat} (hgoes : m.goesTo? op = if cond then some v else none)
    (hreaches : m.reaches? op = none) (hop : op ≠ .pop ∧ op ≠ .mod ∧ op ≠ .out) :
    (if cond then (jumpTarget v).map f else .ok r) = .error e ↔ m.Fails op e := by
  by_cases htaken : cond
  · rw [if_pos htaken] at hgoes ⊢
    exact goes_error_iff hgoes
  · rw [if_neg htaken] at hgoes ⊢
    exact iff_of_false (by simp) (not_fails hgoes hreaches hop)

theorem effect_ret_error_iff (args : Operands Opcode.ret.signature) :
    m.effect next .ret args = .error e ↔ m.Fails .ret e := by
  obtain ⟨⟩ := args
  simp only [effect]
  cases hs : m.stack with
  | nil =>
    have hgoes : m.goesTo? .ret = none := by rw [goesTo?, hs, List.head?_nil]
    exact iff_of_false (by simp) (not_fails hgoes rfl (by decide))
  | cons v rest =>
    have hgoes : m.goesTo? .ret = some v := by rw [goesTo?, hs, List.head?_cons]
    exact goes_error_iff hgoes

theorem effect_pop_error_iff (args : Operands Opcode.pop.signature) :
    m.effect next .pop args = .error e ↔ m.Fails .pop e := by
  obtain ⟨r, ⟨⟩⟩ := args
  rw [fails_pop_iff]
  simp only [effect]
  cases hs : m.stack with
  | nil => simp only [Except.error.injEq, eq_comm, true_and]
  | cons v rest => simp only [reduceCtorEq, false_and]

theorem effect_mod_error_iff (args : Operands Opcode.mod.signature)
    (hargs : m.operands Opcode.mod.signature (m.pc + 1) = .ok args) :
    m.effect next .mod args = .error e ↔ m.Fails .mod e := by
  obtain rfl := operands_of_binary hargs
  rw [fails_mod_iff]
  simp only [effect]
  split
  · rename_i hz
    simp only [Except.error.injEq, eq_comm, hz, true_and]
  · rename_i hnz
    simp only [reduceCtorEq, hnz, false_and]

theorem effect_out_error_iff (args : Operands Opcode.out.signature)
    (hargs : m.operands Opcode.out.signature (m.pc + 1) = .ok args) :
    m.effect next .out args = .error e ↔ m.Fails .out e := by
  obtain rfl := operands_of_value hargs
  rw [fails_out_iff]
  simp only [effect]
  cases hc : codePoint (m.operandValue 0) with
  | ok c => simp
  | error u => simp [eq_comm]

/-- An instruction whose operands have been read fails for these reasons and for no other. -/
theorem effect_eq_error_iff (args : Operands op.signature)
    (hargs : m.operands op.signature (m.pc + 1) = .ok args) :
    m.effect next op args = .error e ↔ m.Fails op e := by
  cases op with
  | halt | set | push | eq | gt | add | mult | and | or | not | input | noop =>
    refine iff_of_false ?_ (not_fails rfl rfl (by decide))
    intro h
    cases h
  | pop => exact effect_pop_error_iff args
  | mod => exact effect_mod_error_iff args hargs
  | jt | jf =>
    obtain rfl := operands_of_pair hargs
    exact goes_if_error_iff rfl rfl (by decide)
  | ret => exact effect_ret_error_iff args
  | out => exact effect_out_error_iff args hargs
  | jmp | call =>
    obtain rfl := operands_of_value hargs
    exact goes_error_iff rfl
  | rmem =>
    obtain rfl := operands_of_unary hargs
    rw [fails_cell_iff rfl, ← cellAddress_eq_error_iff]
    simp only [effect]
    cases cellAddress (m.operandValue 1) with
    | ok a =>
      refine iff_of_false ?_ (by simp)
      intro h
      cases h
    | error u =>
      change (Except.error u : Except Failure (Change × Nat)) = .error e ↔ _
      rw [Except.error.injEq, Except.error.injEq]
  | wmem =>
    obtain rfl := operands_of_pair hargs
    simp only [effect]
    rw [fails_cell_iff rfl, map_eq_error_iff, cellAddress_eq_error_iff]

end Effect

/-- The instruction goes on at, loads or stores at a value that is no address. -/
def Misaddresses (m : Machine) (op : Opcode) : Prop :=
  ∃ v, (m.goesTo? op = some v ∨ m.reaches? op = some v) ∧ ¬ (0 ≤ v ∧ v ≤ 32767)

/-- The failures of an instruction, by what is wrong with its values. -/
theorem never_fails_iff : (∀ e, ¬ m.Fails op e) ↔ ¬ m.Misaddresses op ∧
    ¬ (op = .pop ∧ m.stack = []) ∧ ¬ (op = .mod ∧ m.operandValue 2 = 0) ∧
    ¬ (op = .out ∧ ¬ (0 ≤ m.operandValue 0 ∧ m.operandValue 0 ≤ 0x10ffff)) := by
  simp only [← codePoint_error_iff]
  constructor
  · intro h
    refine ⟨?_, ?_, ?_, ?_⟩
    · rintro ⟨v, hgoes | hreaches, hout⟩
      · exact h _ (.jump op v hgoes hout)
      · exact h _ (.cell op v hreaches hout)
    · rintro ⟨rfl, hs⟩
      exact h _ (.underflow hs)
    · rintro ⟨rfl, hz⟩
      exact h _ (.division hz)
    · rintro ⟨rfl, u, hu⟩
      exact h _ (.unsent u hu)
  · rintro ⟨haddr, hpop, hmod, hout⟩ e he
    cases he with
    | underflow hs => exact hpop ⟨rfl, hs⟩
    | division hz => exact hmod ⟨rfl, hz⟩
    | unsent u hu => exact hout ⟨rfl, u, hu⟩
    | jump _ v h hv => exact haddr ⟨v, .inl h, hv⟩
    | cell _ v h hv => exact haddr ⟨v, .inr h, hv⟩

end Machine
end WordMachine
