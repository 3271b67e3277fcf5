/-! The numbers of the machine. Literals are the values below `modulus`; the eight values from
`modulus` on stand for the registers. Cells, registers and stack entries hold integers of any size,
because a host may write any integer into memory and the machine copies values as they are; only
arithmetic and bit operations reduce their results to fifteen bits. -/

namespace WordMachine

/-- Arithmetic results are reduced modulo this number. -/
def modulus : Nat := 32768

/-- how many cells memory has -/
def memorySize : Nat := 32768

abbrev Register := Fin 8

/-- the address of a memory cell -/
abbrev Address := Fin memorySize

/-- the largest word that can be an operand: the last register -/
def maxOperand : Nat := modulus + 7

/-- the word that stands for a register -/
def Register.word (r : Register) : Int := modulus + r.val

def Register.ofInt? (i : Int) : Option Register :=
  if h : 0 ≤ i ∧ i < 8 then some ⟨i.toNat, by omega⟩ else none

/-- the register that a word stands for -/
def Register.ofWord? (word : Int) : Option Register := Register.ofInt? (word - modulus)

def Address.ofInt? (a : Int) : Option Address :=
  if h : 0 ≤ a ∧ a < memorySize then some ⟨a.toNat, by omega⟩ else none

/-- Whether a value fits in fifteen bits. -/
def isLiteral (v : Int) : Bool := 0 ≤ v && v < modulus

theorem isLiteral_iff {v : Int} : isLiteral v = true ↔ 0 ≤ v ∧ v < 32768 := by
  rw [isLiteral, Bool.and_eq_true, decide_eq_true_eq, decide_eq_true_eq]
  simp only [modulus]
  omega

theorem Register.ofInt?_eq_some_iff {i : Int} {r : Register} :
    Register.ofInt? i = some r ↔ i = r.val := by
  unfold Register.ofInt?
  split
  · simp only [Option.some.injEq, Fin.ext_iff]
    omega
  · have := r.isLt
    simp only [reduceCtorEq, false_iff]
    omega

theorem Register.ofWord?_eq_some_iff {word : Int} {r : Register} :
    Register.ofWord? word = some r ↔ word = r.word := by
  rw [Register.ofWord?, Register.ofInt?_eq_some_iff, Register.word]
  omega

theorem Register.ofInt?_eq_none_iff {i : Int} : Register.ofInt? i = none ↔ ¬ (0 ≤ i ∧ i < 8) := by
  unfold Register.ofInt?
  split <;> simp_all

theorem Register.ofWord?_eq_none_iff {word : Int} :
    Register.ofWord? word = none ↔ ¬ (modulus ≤ word ∧ word ≤ maxOperand) := by
  rw [Register.ofWord?, Register.ofInt?_eq_none_iff]
  simp only [modulus, maxOperand]
  omega

theorem Register.word_range (r : Register) : modulus ≤ r.word ∧ r.word ≤ maxOperand := by
  have := r.isLt
  simp only [Register.word, modulus, maxOperand]
  omega

theorem Register.word_sub (r : Register) : r.word - modulus = (r.val : Int) := by
  rw [Register.word]
  omega

theorem Register.ofWord?_word (r : Register) : Register.ofWord? r.word = some r :=
  Register.ofWord?_eq_some_iff.2 rfl

theorem Address.ofInt?_eq_some_iff {a : Int} {b : Address} :
    Address.ofInt? a = some b ↔ a = b.val := by
  unfold Address.ofInt?
  split
  · simp only [Option.some.injEq, Fin.ext_iff]
    omega
  · have := b.isLt
    simp only [reduceCtorEq, false_iff]
    omega

theorem Address.ofInt?_eq_none_iff {a : Int} :
    Address.ofInt? a = none ↔ ¬ (0 ≤ a ∧ a < memorySize) := by
  unfold Address.ofInt?
  split <;> simp_all

end WordMachine
