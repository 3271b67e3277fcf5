import WordMachine.Proofs.Machine.Effect

/-! The operand words of the instruction at the program counter: which of them can be operands, what
they stand for, and which of several bad ones is the one that is reported. -/

namespace WordMachine

/-- A word that can be an operand: a literal or a register, and a register if it is written. -/
def Fits (role : Role) (w : Int) : Prop := 0 ≤ w ∧ w ≤ 32775 ∧ (role = .write → 32768 ≤ w)

/-- What is wrong with a word in the place of an operand. -/
inductive Misfit : Role → Int → Fault → Prop
  | literal (w : Int) : 0 ≤ w → w ≤ 32767 → Misfit .write w (.literalDestination w)
  | invalid (role : Role) (w : Int) : ¬ (0 ≤ w ∧ w ≤ 32775) → Misfit role w (.invalidOperand w)

theorem Misfit.not_fits {role : Role} {w : Int} {f : Fault} (h : Misfit role w f) : ¬ Fits role w := by
  rintro ⟨h0, hle, hwrite⟩
  cases h with
  | literal _ _ hlt =>
    have := hwrite rfl
    omega
  | invalid _ _ hout => exact hout ⟨h0, hle⟩

namespace Machine

/-- the word of an operand of the instruction at the program counter; operands count from zero -/
def operandWord (m : Machine) (k : Nat) : Int := m.memory.peek (m.pc + 1 + k)

/-- What an operand stands for where it is read: its word, or the content of the register that the
word names. -/
def operandValue (m : Machine) (k : Nat) : Int :=
  if m.operandWord k < 32768 then m.operandWord k
  else m.registers[(m.operandWord k - 32768).toNat]?.getD 0

/-- The operand word at a place of the instruction can be the operand there. -/
def OperandFits (m : Machine) (op : Opcode) (k : Nat) : Prop :=
  ∀ role, op.signature[k]? = some role → Fits role (m.operandWord k)

/-- where the instruction sends the program, unless it goes on behind the instruction -/
def goesTo? (m : Machine) : Opcode → Option Int
  | .jmp | .call => some (m.operandValue 0)
  | .jt => if m.operandValue 0 ≠ 0 then some (m.operandValue 1) else none
  | .jf => if m.operandValue 0 = 0 then some (m.operandValue 1) else none
  | .ret => m.stack.head?
  | _ => none

/-- the address of the cell that the instruction loads or stores -/
def reaches? (m : Machine) : Opcode → Option Int
  | .rmem => some (m.operandValue 1)
  | .wmem => some (m.operandValue 0)
  | _ => none

section Word
variable {m : Machine} {w : Int}

/-- A word is a literal, or a register, or neither. -/
theorem word_cases (w : Int) :
    (0 ≤ w ∧ w ≤ 32767) ∨ (∃ r : Register, w = r.word) ∨ ¬ (0 ≤ w ∧ w ≤ 32775) := by
  by_cases hreg : 32768 ≤ w ∧ w ≤ 32775
  · refine .inr (.inl ⟨⟨(w - 32768).toNat, by omega⟩, ?_⟩)
    simp only [Register.word, modulus]
    omega
  · omega

theorem fits_or_misfit (role : Role) (w : Int) : Fits role w ∨ ∃ f, Misfit role w f := by
  by_cases hout : 0 ≤ w ∧ w ≤ 32775
  · by_cases hlit : role = .write ∧ w ≤ 32767
    · obtain ⟨rfl, hle⟩ := hlit
      exact .inr ⟨_, .literal w hout.1 hle⟩
    · refine .inl ⟨hout.1, hout.2, ?_⟩
      intro hwrite
      exact Int.not_le.1 fun hle => hlit ⟨hwrite, hle⟩
  · exact .inr ⟨_, .invalid role w hout⟩

theorem range_of_word (r : Register) : 32768 ≤ r.word ∧ r.word ≤ 32775 := r.word_range

theorem ofWord?_eq_none (h : w ≤ 32767 ∨ ¬ (0 ≤ w ∧ w ≤ 32775)) : Register.ofWord? w = none := by
  rw [Register.ofWord?_eq_none_iff]
  simp only [modulus, maxOperand]
  omega

theorem not_isLiteral (h : 32768 ≤ w ∨ ¬ (0 ≤ w ∧ w ≤ 32775)) : isLiteral w = false := by
  rw [← Bool.not_eq_true, isLiteral_iff]
  omega

theorem target_literal (h : 0 ≤ w ∧ w ≤ 32767) : target w = .error (.literalDestination w) := by
  have hlit : isLiteral w = true := isLiteral_iff.2 ⟨h.1, by omega⟩
  simp only [target, ofWord?_eq_none (.inl h.2), hlit, if_true]

theorem target_register (r : Register) : target r.word = .ok r := by
  rw [target, Register.ofWord?_word]

theorem target_invalid (h : ¬ (0 ≤ w ∧ w ≤ 32775)) : target w = .error (.invalidOperand w) := by
  simp only [target, ofWord?_eq_none (.inr h), not_isLiteral (.inr h), Bool.false_eq_true, if_false]

theorem resolve_literal (h : 0 ≤ w ∧ w ≤ 32767) : m.resolve w = .ok w := by
  rw [resolve, if_pos (isLiteral_iff.2 ⟨h.1, by omega⟩)]

theorem resolve_register (r : Register) : m.resolve r.word = .ok (m.registers.get r) := by
  simp only [resolve, not_isLiteral (.inl (range_of_word r).1), Register.ofWord?_word,
    Bool.false_eq_true, if_false]
  rfl

theorem resolve_invalid (h : ¬ (0 ≤ w ∧ w ≤ 32775)) : m.resolve w = .error (.invalidOperand w) := by
  simp only [resolve, not_isLiteral (.inr h), ofWord?_eq_none (.inr h), Bool.false_eq_true, if_false]

theorem operands_write {r : Register} {a : Nat} {roles : List Role} {rest : Operands roles}
    (hword : m.memory.peek a = r.word) (hrest : m.operands roles (a + 1) = .ok rest) :
    m.operands (.write :: roles) a = .ok (r, rest) := by
  simp only [operands, hword, target_register, hrest]

theorem operands_literal {a : Nat} {roles : List Role} {rest : Operands roles}
    (hword : m.memory.peek a = w) (hw : 0 ≤ w ∧ w ≤ 32767)
    (hrest : m.operands roles (a + 1) = .ok rest) :
    m.operands (.read :: roles) a = .ok (w, rest) := by
  simp only [operands, hword, resolve_literal hw, hrest]

theorem operands_register {r : Register} {v : Int} {a : Nat} {roles : List Role}
    {rest : Operands roles} (hword : m.memory.peek a = r.word) (hv : m.registers.get r = v)
    (hrest : m.operands roles (a + 1) = .ok rest) :
    m.operands (.read :: roles) a = .ok (v, rest) := by
  simp only [operands, hword, resolve_register, hv, hrest]

theorem target_eq_ok {r : Register} (h : target w = .ok r) : w = r.word := by
  rcases word_cases w with hlit | ⟨s, rfl⟩ | hout
  · rw [target_literal hlit] at h
    cases h
  · rw [target_register] at h
    cases h
    rfl
  · rw [target_invalid hout] at h
    cases h

theorem target_eq_error_iff {f : Fault} : target w = .error f ↔ Misfit .write w f := by
  constructor
  · intro h
    rcases word_cases w with hlit | ⟨r, rfl⟩ | hout
    · rw [target_literal hlit] at h
      cases h
      exact .literal w hlit.1 hlit.2
    · rw [target_register] at h
      cases h
    · rw [target_invalid hout] at h
      cases h
      exact .invalid _ w hout
  · intro h
    cases h with
    | literal _ h0 hle => exact target_literal ⟨h0, hle⟩
    | invalid _ _ hout => exact target_invalid hout

theorem resolve_eq_error_iff {f : Fault} : m.resolve w = .error f ↔ Misfit .read w f := by
  constructor
  · intro h
    rcases word_cases w with hlit | ⟨r, rfl⟩ | hout
    · rw [resolve_literal hlit] at h
      cases h
    · rw [resolve_register] at h
      cases h
    · rw [resolve_invalid hout] at h
      cases h
      exact .invalid _ w hout
  · intro h
    cases h with
    | invalid _ _ hout => exact resolve_invalid hout

end Word

variable {m : Machine}

theorem operandValue_of_resolve {k : Nat} {v : Int} (h : m.resolve (m.operandWord k) = .ok v) :
    v = m.operandValue k := by
  unfold operandValue
  rcases word_cases (m.operandWord k) with hlit | ⟨r, hr⟩ | hout
  · rw [resolve_literal hlit] at h
    cases h
    rw [if_pos (by omega)]
  · rw [hr] at h ⊢
    rw [resolve_register] at h
    cases h
    have hrange := range_of_word r
    have hindex : (r.word - 32768).toNat = r.val := by
      simp only [Register.word, modulus]
      omega
    rw [if_neg (by omega), hindex, Vector.getElem?_eq_getElem r.isLt]
    rfl
  · rw [resolve_invalid hout] at h
    cases h

/-- The values that an instruction reads are those of its operands. -/
theorem value_of_operands {roles : List Role} {args : Operands roles}
    (h : m.operands roles (m.pc + 1) = .ok args) {k : Nat} {v : Int}
    (hv : args.value? roles k = some v) : v = m.operandValue k :=
  operandValue_of_resolve (resolve_of_operands roles h hv)

/-- The register that an instruction writes is the one that its first operand names. -/
theorem word_of_operands {roles : List Role} {args : Operands roles}
    (h : m.operands roles (m.pc + 1) = .ok args) {r : Register}
    (hr : args.dest? roles = some r) : m.operandWord 0 = r.word :=
  target_eq_ok (target_of_operands h hr)

theorem operands_of_fits {role : Role} {roles : List Role} {a : Nat} {f : Fault}
    (h : Fits role (m.memory.peek a)) :
    m.operands (role :: roles) a = .error f ↔ m.operands roles (a + 1) = .error f := by
  obtain ⟨h0, hle, hwrite⟩ := h
  cases role with
  | write =>
    cases htarget : target (m.memory.peek a) with
    | error f' => exact absurd ⟨h0, hle, hwrite⟩ (target_eq_error_iff.1 htarget).not_fits
    | ok r =>
      simp only [operands, htarget]
      cases m.operands roles (a + 1) <;> simp
  | read =>
    cases hresolve : m.resolve (m.memory.peek a) with
    | error f' => exact absurd ⟨h0, hle, hwrite⟩ (resolve_eq_error_iff.1 hresolve).not_fits
    | ok v =>
      simp only [operands, hresolve]
      cases m.operands roles (a + 1) <;> simp

theorem operands_of_misfit {role : Role} {a : Nat} {f : Fault} (h : Misfit role (m.memory.peek a) f)
    (roles : List Role) : m.operands (role :: roles) a = .error f := by
  cases role with
  | write => simp only [operands, target_eq_error_iff.2 h]
  | read => simp only [operands, resolve_eq_error_iff.2 h]

/-- Of several words that are no operands, the leftmost is the one that is reported. -/
theorem operands_eq_error_iff {roles : List Role} {a : Nat} {f : Fault} :
    m.operands roles a = .error f ↔
      ∃ k role, roles[k]? = some role ∧ Misfit role (m.memory.peek (a + k)) f ∧
        ∀ j, j < k → ∀ role', roles[j]? = some role' → Fits role' (m.memory.peek (a + j)) := by
  induction roles generalizing a with
  | nil => simp [operands]
  | cons role roles ih =>
    constructor
    · intro h
      rcases fits_or_misfit role (m.memory.peek a) with hfits | ⟨f', hmisfit⟩
      · obtain ⟨k, role', hk, hmisfit, hbefore⟩ := ih.1 ((operands_of_fits hfits).1 h)
        refine ⟨k + 1, role', hk, ?_, ?_⟩
        · rwa [Nat.add_comm k 1, ← Nat.add_assoc]
        · intro j hj role'' hrole
          cases j with
          | zero =>
            cases hrole
            exact hfits
          | succ j =>
            rw [Nat.add_comm j 1, ← Nat.add_assoc]
            exact hbefore j (Nat.lt_of_succ_lt_succ hj) role'' hrole
      · rw [operands_of_misfit hmisfit] at h
        cases h
        exact ⟨0, role, rfl, hmisfit, fun j hj => absurd hj (Nat.not_lt_zero j)⟩
    · rintro ⟨k, role', hk, hmisfit, hbefore⟩
      cases k with
      | zero =>
        cases hk
        exact operands_of_misfit hmisfit roles
      | succ k =>
        have hfirst : Fits role (m.memory.peek a) := hbefore 0 (Nat.zero_lt_succ k) role rfl
        rw [operands_of_fits hfirst, ih]
        refine ⟨k, role', hk, ?_, ?_⟩
        · rwa [Nat.add_assoc, Nat.add_comm 1 k]
        · intro j hj role'' hrole
          rw [Nat.add_assoc, Nat.add_comm 1 j]
          exact hbefore (j + 1) (Nat.succ_lt_succ hj) role'' hrole

/-- Where every word can be an operand, all of them are read. -/
theorem exists_operands {op : Opcode} (h : ∀ k, m.OperandFits op k) :
    ∃ args, m.operands op.signature (m.pc + 1) = .ok args := by
  cases hargs : m.operands op.signature (m.pc + 1) with
  | ok args => exact ⟨args, rfl⟩
  | error f =>
    obtain ⟨k, role, hk, hmisfit, -⟩ := operands_eq_error_iff.1 hargs
    exact absurd (h k role hk) hmisfit.not_fits

/-! ### The operands of an instruction, all at once -/

/-- the register that the first operand names -/
def dest (m : Machine) : Register := (Register.ofWord? (m.operandWord 0)).getD (Fin.last 7)

theorem dest_of_operands {roles : List Role} {args : Operands roles}
    (h : m.operands roles (m.pc + 1) = .ok args) {r : Register} (hr : args.dest? roles = some r) :
    m.dest = r := by
  rw [dest, word_of_operands h hr, Register.ofWord?_word, Option.getD_some]

theorem operands_of_unary {args : Operands [.write, .read]}
    (h : m.operands [.write, .read] (m.pc + 1) = .ok args) :
    args = (m.dest, m.operandValue 1, ()) := by
  obtain ⟨r, b, ⟨⟩⟩ := args
  obtain rfl := dest_of_operands h rfl
  obtain rfl : b = m.operandValue 1 := value_of_operands h rfl
  rfl

theorem operands_of_binary {args : Operands [.write, .read, .read]}
    (h : m.operands [.write, .read, .read] (m.pc + 1) = .ok args) :
    args = (m.dest, m.operandValue 1, m.operandValue 2, ()) := by
  obtain ⟨r, b, c, ⟨⟩⟩ := args
  obtain rfl := dest_of_operands h rfl
  obtain rfl : b = m.operandValue 1 := value_of_operands h rfl
  obtain rfl : c = m.operandValue 2 := value_of_operands h rfl
  rfl

theorem operands_of_value {args : Operands [.read]}
    (h : m.operands [.read] (m.pc + 1) = .ok args) : args = (m.operandValue 0, ()) := by
  obtain ⟨a, ⟨⟩⟩ := args
  obtain rfl : a = m.operandValue 0 := value_of_operands h rfl
  rfl

theorem operands_of_pair {args : Operands [.read, .read]}
    (h : m.operands [.read, .read] (m.pc + 1) = .ok args) :
    args = (m.operandValue 0, m.operandValue 1, ()) := by
  obtain ⟨a, b, ⟨⟩⟩ := args
  obtain rfl : a = m.operandValue 0 := value_of_operands h rfl
  obtain rfl : b = m.operandValue 1 := value_of_operands h rfl
  rfl

end Machine
end WordMachine
