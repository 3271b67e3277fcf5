/-! Numbers in hexadecimal, with small letters. Diagnostics give addresses with at least four
digits, and text escapes have two, four or eight. -/

namespace WordMachine.Hex

/-- The digits of `n` in base sixteen, with zeros in front until there are `width` of them. -/
def padded (width n : Nat) : List Char :=
  let digits := Nat.toDigits 16 n
  List.replicate (width - digits.length) '0' ++ digits

/-- an address as diagnostics give it -/
def address (a : Nat) : String := String.ofList (padded 4 a)

/-- the value of a hexadecimal digit in either case -/
def digit? (c : Char) : Option Nat :=
  if '0' ≤ c ∧ c ≤ '9' then some (c.toNat - 48)
  else if 'a' ≤ c ∧ c ≤ 'f' then some (c.toNat - 87)
  else if 'A' ≤ c ∧ c ≤ 'F' then some (c.toNat - 55)
  else none

/-- Each digit reads back. -/
theorem digit?_digitChar {d : Nat} (h : d < 16) : digit? d.digitChar = some d := by
  have each : ∀ e ∈ List.range 16, digit? e.digitChar = some e := by decide
  exact each d (List.mem_range.2 h)

/-- The case of a digit does not matter. -/
theorem digit?_toLower (c : Char) : digit? c.toLower = digit? c := by
  by_cases hc : 'A' ≤ c ∧ c ≤ 'Z'
  · have each : ∀ k ∈ List.range 26, digit? (Char.ofNat (65 + k)).toLower = digit? (Char.ofNat (65 + k)) := by
      decide
    have hlo : 65 ≤ c.toNat := hc.1
    have hhi : c.toNat ≤ 90 := hc.2
    have hk := each (c.toNat - 65) (List.mem_range.2 (by omega))
    rwa [Nat.add_sub_cancel' hlo, Char.ofNat_toNat] at hk
  · have hsame : c.toLower = c := dif_neg hc
    rw [hsame]

theorem width_le_length_padded (width n : Nat) : width ≤ (padded width n).length := by
  simp only [padded, List.length_append, List.length_replicate]
  omega

example : address 10 = "000a" ∧ address 0x12345 = "12345" := by decide +kernel

end WordMachine.Hex
