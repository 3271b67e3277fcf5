/-! The twenty-two instructions. An opcode is the word that names an instruction in memory; its
signature says, operand by operand, whether the instruction writes a register or reads a value. -/

namespace WordMachine

/-- what an instruction does with an operand word -/
inductive Role where
  /-- a register that is written -/
  | write
  /-- a value, given as a literal or as the register that holds it -/
  | read
  deriving DecidableEq, Repr, Inhabited

/-- the letter that stands for a role in a written signature -/
def Role.letter : Role → Char
  | .write => 'w'
  | .read => 'r'

inductive Opcode where
  | halt | set | push | pop | eq | gt | jmp | jt | jf | add | mult
  | mod | and | or | not | rmem | wmem | call | ret | out | input | noop
  deriving DecidableEq, Repr, Inhabited

namespace Opcode

/-- Every instruction once, in the order of the words that name them. -/
def all : List Opcode :=
  [halt, set, push, pop, eq, gt, jmp, jt, jf, add, mult,
   mod, and, or, not, rmem, wmem, call, ret, out, input, noop]

/-- the word that names the instruction -/
def code : Opcode → Nat
  | halt => 0 | set => 1 | push => 2 | pop => 3 | eq => 4 | gt => 5 | jmp => 6 | jt => 7
  | jf => 8 | add => 9 | mult => 10 | mod => 11 | and => 12 | or => 13 | not => 14 | rmem => 15
  | wmem => 16 | call => 17 | ret => 18 | out => 19 | input => 20 | noop => 21

/-- The instruction that a word names: words 0 to 21 name one each and no other word does. -/
def ofCode? (word : Int) : Option Opcode :=
  if word < 0 then none else all[word.toNat]?

def signature : Opcode → List Role
  | halt | ret | noop => []
  | push | jmp | call | out => [.read]
  | pop | input => [.write]
  | jt | jf | wmem => [.read, .read]
  | set | not | rmem => [.write, .read]
  | eq | gt | add | mult | mod | and | or => [.write, .read, .read]

/-- how many operand words follow the opcode -/
def arity (op : Opcode) : Nat := op.signature.length

/-- the name that programs are written with, in capitals -/
def name : Opcode → String
  | halt => "HALT" | set => "SET" | push => "PUSH" | pop => "POP" | eq => "EQ" | gt => "GT"
  | jmp => "JMP" | jt => "JT" | jf => "JF" | add => "ADD" | mult => "MULT" | mod => "MOD"
  | and => "AND" | or => "OR" | not => "NOT" | rmem => "RMEM" | wmem => "WMEM" | call => "CALL"
  | ret => "RET" | out => "OUT" | input => "IN" | noop => "NOOP"

/-- the name in small letters, as diagnostics give it -/
def lowerName (op : Opcode) : String := String.ofList (op.name.toList.map Char.toLower)

theorem ofCode?_code (op : Opcode) : ofCode? op.code = some op := by
  cases op <;> rfl

theorem code_lt (op : Opcode) : op.code < 22 := by
  cases op <;> decide

theorem code_of_ofCode? {word : Int} {op : Opcode} (h : ofCode? word = some op) :
    word = op.code := by
  obtain ⟨n, rfl⟩ | neg : (∃ n : Nat, word = n) ∨ word < 0 := by
    rcases Int.lt_or_le word 0 with h | h
    · exact .inr h
    · exact .inl ⟨word.toNat, by omega⟩
  · have hlt : n < all.length := by
      rcases Nat.lt_or_ge n all.length with hlt | hge
      · exact hlt
      · simp [ofCode?, List.getElem?_eq_none hge] at h
    have hmem : n ∈ List.range 22 := by simpa [all] using hlt
    simp only [List.range, List.range.loop, List.mem_cons, List.not_mem_nil, or_false] at hmem
    rcases hmem with rfl | rfl | rfl | rfl | rfl | rfl | rfl | rfl | rfl | rfl | rfl | rfl | rfl |
      rfl | rfl | rfl | rfl | rfl | rfl | rfl | rfl | rfl <;>
      (simp only [ofCode?, all] at h; cases h; rfl)
  · simp [ofCode?, neg] at h

theorem ofCode?_eq_some_iff {word : Int} {op : Opcode} : ofCode? word = some op ↔ word = op.code :=
  ⟨code_of_ofCode?, fun h => h ▸ ofCode?_code op⟩

theorem mem_all (op : Opcode) : op ∈ all := by
  cases op <;> decide

end Opcode
end WordMachine
