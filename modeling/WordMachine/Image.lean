import WordMachine.LoadError

/-! Images: the words of a program as bytes, two for each word, the low byte first. Only words that
can be operands are stored, and no more of them than memory has cells; both directions refuse the
rest with the first offending address. -/

namespace WordMachine.Image

/-- Accepts the words that an image may hold. -/
def check (words : List Int) : Except LoadError (List Int) :=
  if memorySize < words.length then .error (.imageTooLong words.length)
  else match firstOutside maxOperand words with
    | some (addr, word) => .error (.naming .notAnOperand addr word)
    | none => .ok words

/-- Reads bytes in pairs, the low byte first; a last byte without a partner is dropped. -/
def pairs : List UInt8 → List Int
  | lo :: hi :: rest => (lo.toNat + 256 * hi.toNat : Nat) :: pairs rest
  | _ => []

/-- the two bytes of a word -/
def bytesOf (word : Int) : List UInt8 :=
  [UInt8.ofNat word.toNat, UInt8.ofNat (word.toNat / 256)]

/-- The words of an image. -/
def load (bytes : List UInt8) : Except LoadError (List Int) :=
  if bytes.length % 2 = 1 then .error (.oddLength bytes.length) else check (pairs bytes)

/-- The image of a list of words. -/
def dump (words : List Int) : Except LoadError (List UInt8) :=
  (check words).map (·.flatMap bytesOf)

end WordMachine.Image
