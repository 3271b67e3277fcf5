/-! Numbers and their decimal digits. There is a limit between the two: a text with more digits than
that is not read as a number, zeros in front included, and a number with more digits is not written.
In bases that are powers of two there is none. -/

namespace WordMachine

/-- the greatest number of decimal digits that are read or written -/
def maxDigits : Nat := 4300

/-- Why a number and its decimal digits are not made out of each other. -/
inductive NumeralError where
  /-- the text has so many digits -/
  | unread (digits : Nat)
  /-- the number has too many digits -/
  | unwritten
  deriving DecidableEq, Repr

def NumeralError.message (e : NumeralError) : String :=
  let value := match e with
    | unread digits => ": value has " ++ toString digits ++ " digits"
    | unwritten => ""
  "Exceeds the limit (" ++ toString maxDigits ++ " digits) for integer string conversion" ++ value ++
    "; use sys.set_int_max_str_digits() to increase the limit"

/-- The number has few enough digits to be written. -/
def HasNumeral (v : Int) : Prop := v.natAbs < Nat.pow 10 maxDigits

instance : DecidablePred HasNumeral :=
  fun v => inferInstanceAs (Decidable (v.natAbs < Nat.pow 10 maxDigits))

/-- the decimal digits of a number, behind a sign if it is negative -/
def numeral (v : Int) : Except NumeralError String :=
  if HasNumeral v then .ok (toString v) else .error .unwritten

/-- What counts is the digits without a sign. -/
theorem hasNumeral_iff_digits {v : Int} :
    HasNumeral v ↔ (Nat.toDigits 10 v.natAbs).length ≤ maxDigits := by
  rw [HasNumeral, Nat.pow_eq, Nat.length_toDigits_le_iff (by decide) (by decide)]

theorem hasNumeral_of_natAbs_lt {v : Int} (h : v.natAbs < 10000000000) : HasNumeral v := by
  have hpow (k : Nat) (hk : 10 ≤ k) : Nat.pow 10 10 ≤ Nat.pow 10 k :=
    Nat.pow_le_pow_right (by decide) hk
  exact Nat.lt_of_lt_of_le h (hpow maxDigits (by decide))

/-- The numbers that a machine is loaded with and computes have numerals. -/
theorem hasNumeral_of_range {v : Int} (h0 : 0 ≤ v) (hle : v ≤ 0x10ffff) : HasNumeral v :=
  hasNumeral_of_natAbs_lt (by omega)

end WordMachine
