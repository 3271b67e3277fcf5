import WordMachine.Machine.Memory

/-! Rows of words in memory. -/

namespace WordMachine
namespace Memory

theorem peek_ofList_of_le {words : List Int} (h : words.length ≤ memorySize) (a : Nat) :
    (ofList words).peek a = words.getD a 0 := by
  by_cases ha : a < memorySize
  · exact peek_ofList words ⟨a, ha⟩
  · have hlen : words.length ≤ a := by omega
    rw [peek_of_le _ (Nat.not_lt.1 ha), List.getD_eq_getElem?_getD, List.getElem?_eq_none hlen]
    rfl

/-- The words stand in memory from address `a` on. -/
def Holds (m : Memory) (a : Nat) (words : List Int) : Prop :=
  ∀ (k : Nat) (w : Int), words[k]? = some w → m.peek (a + k) = w

theorem Holds.nil (m : Memory) (a : Nat) : m.Holds a [] := nofun

theorem holds_cons {m : Memory} {a : Nat} {w : Int} {words : List Int} :
    m.Holds a (w :: words) ↔ m.peek a = w ∧ m.Holds (a + 1) words := by
  constructor
  · intro h
    refine ⟨h 0 w rfl, ?_⟩
    intro k v hk
    rw [Nat.add_assoc, Nat.add_comm 1 k]
    exact h (k + 1) v hk
  · rintro ⟨h0, h⟩ k v hk
    cases k with
    | zero => exact h0.trans (Option.some.inj hk)
    | succ k =>
      rw [Nat.add_comm k 1, ← Nat.add_assoc]
      exact h k v hk

theorem holds_append {m : Memory} {a : Nat} {v w : List Int} :
    m.Holds a (v ++ w) ↔ m.Holds a v ∧ m.Holds (a + v.length) w := by
  induction v generalizing a with
  | nil => simp [Holds.nil]
  | cons x v ih =>
    rw [List.cons_append, holds_cons, holds_cons, ih, List.length_cons, and_assoc,
      Nat.add_comm v.length 1, Nat.add_assoc]

theorem holds_ofList {words : List Int} (h : words.length ≤ memorySize) :
    (ofList words).Holds 0 words := by
  intro k w hk
  rw [Nat.zero_add, peek_ofList_of_le h, List.getD_eq_getElem?_getD, hk]
  rfl

end Memory
end WordMachine
