import WordMachine.Word

/-! Memory: a fixed number of cells, each holding an integer. -/

namespace WordMachine

structure Memory where
  cells : Vector Int memorySize
  deriving DecidableEq

namespace Memory

/-- Lays the words out from address zero on; the cells behind them hold zero. -/
def ofList (words : List Int) : Memory :=
  let row := words.toArray
  ⟨Vector.ofFn fun a => row.getD a 0⟩

/-- the content of the cell at an address, and zero beyond the last cell -/
def peek (m : Memory) (a : Nat) : Int := m.cells[a]?.getD 0

def poke (m : Memory) (a : Address) (v : Int) : Memory := ⟨m.cells.set a.val v a.isLt⟩

@[simp] theorem peek_ofList (words : List Int) (a : Address) :
    (ofList words).peek a = words.getD a 0 := by
  simp [ofList, peek]

@[simp] theorem peek_poke (m : Memory) (a : Address) (v : Int) (b : Nat) :
    (m.poke a v).peek b = if b = a then v else m.peek b := by
  simp only [poke, peek, Vector.getElem?_set]
  by_cases h : b = a.val
  · simp [h]
  · simp [h, Ne.symm h]

theorem peek_of_le (m : Memory) {a : Nat} (h : memorySize ≤ a) : m.peek a = 0 := by
  simp [peek, Vector.getElem?_eq_none h]

theorem ext_peek {m m' : Memory} (h : ∀ a, a < memorySize → m.peek a = m'.peek a) : m = m' := by
  obtain ⟨c⟩ := m
  obtain ⟨c'⟩ := m'
  congr 1
  apply Vector.ext
  intro i hi
  simpa [peek, hi] using h i hi

end Memory
end WordMachine
