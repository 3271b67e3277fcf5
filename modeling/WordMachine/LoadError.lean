import WordMachine.Text.Hex
import WordMachine.Text.Numeral
import WordMachine.Word

/-! Why words are not accepted: as an image on disk, or as a program for the machine. -/

namespace WordMachine

inductive LoadError where
  /-- an image whose bytes do not pair up -/
  | oddLength (bytes : Nat)
  /-- an image with more words than memory has cells -/
  | imageTooLong (words : Nat)
  /-- an image word that is neither a literal nor a register -/
  | notAnOperand (addr : Nat) (word : Int)
  /-- a program with more words than memory has cells -/
  | programTooLong (words : Nat)
  /-- a program word that does not fit in sixteen bits -/
  | notSixteenBits (addr : Nat) (word : Int)
  /-- a word that is not accepted and has no numeral: what comes up in place of the error that names it -/
  | untold (addr : Nat) (word : Int)
  deriving DecidableEq, Repr

def LoadError.message : LoadError → String
  | oddLength n => "image length " ++ toString n ++ " is not a whole number of words"
  | imageTooLong n =>
    "image has " ++ toString n ++ " words, memory holds " ++ toString memorySize
  | notAnOperand a w => Hex.address a ++ ": word " ++ toString w ++ " out of range"
  | programTooLong n => "program of " ++ toString n ++ " words does not fit in memory"
  | notSixteenBits a w => Hex.address a ++ ": word " ++ toString w ++ " is not 16 bits wide"
  | untold _ _ => NumeralError.unwritten.message

/-- The error that names a word that is not accepted, as far as it can be named. -/
def LoadError.naming (error : Nat → Int → LoadError) (addr : Nat) (word : Int) : LoadError :=
  if HasNumeral word then error addr word else .untold addr word

/-- The first word outside of `0..bound`, after its address. -/
def firstOutside (bound : Int) (words : List Int) : Option (Nat × Int) :=
  (words.zipIdx.find? fun p => !(0 ≤ p.1 && p.1 ≤ bound)).map fun p => (p.2, p.1)

theorem firstOutside_eq_none_iff {bound : Int} {words : List Int} :
    firstOutside bound words = none ↔ ∀ w ∈ words, 0 ≤ w ∧ w ≤ bound := by
  simp only [firstOutside, Option.map_eq_none_iff, List.find?_eq_none, Bool.not_eq_true',
    Bool.and_eq_false_iff, decide_eq_false_iff_not, not_or, Decidable.not_not]
  constructor
  · intro h w hw
    obtain ⟨i, hi, rfl⟩ := List.mem_iff_getElem.1 hw
    exact h (words[i], i) (List.mem_zipIdx_iff_getElem?.2 (by simp [hi]))
  · rintro h ⟨w, i⟩ hw
    exact h w (List.mem_of_getElem? (List.mem_zipIdx_iff_getElem?.1 hw))

end WordMachine
