import WordMachine.Text.Hex

/-! UTF-8. A text is decoded strictly: each character has one shortest form, surrogates have none,
and the first bytes that are no part of such a form are reported, with their positions. -/

namespace WordMachine.Utf8

inductive Reason where
  /-- the byte starts no character -/
  | invalidStart
  /-- the byte behind the reported ones does not go on with the character that they start -/
  | invalidContinuation
  /-- the bytes end within a character -/
  | unexpectedEnd
  deriving DecidableEq, Repr

def Reason.message : Reason → String
  | invalidStart => "invalid start byte"
  | invalidContinuation => "invalid continuation byte"
  | unexpectedEnd => "unexpected end of data"

/-- Bytes that cannot be decoded. -/
structure DecodeError where
  /-- the position of the first of them -/
  start : Nat
  first : UInt8
  /-- how many there are -/
  count : Nat
  reason : Reason
  deriving DecidableEq, Repr

def hexByte (b : UInt8) : String := "0x" ++ String.ofList (Hex.padded 2 b.toNat)

def DecodeError.message (e : DecodeError) : String :=
  "'utf-8' codec can't decode " ++
    (if e.count = 1 then "byte " ++ hexByte e.first ++ " in position " ++ toString e.start
     else "bytes in position " ++ toString e.start ++ "-" ++ toString (e.start + e.count - 1)) ++
    ": " ++ e.reason.message

/-- What the first byte of a character says about the bytes behind it. -/
structure Lead where
  /-- how many bytes follow -/
  count : Nat
  /-- the least and the greatest value of the first of them -/
  low : UInt8
  high : UInt8
  /-- the bits that the first byte gives to the code point -/
  bits : Nat
  deriving DecidableEq, Repr

def Lead.ofByte? (b : UInt8) : Option Lead :=
  if b < 0x80 then some ⟨0, 0x80, 0xBF, b.toNat⟩
  else if b < 0xC2 then none
  else if b < 0xE0 then some ⟨1, 0x80, 0xBF, b.toNat - 0xC0⟩
  else if b < 0xF0 then
    some ⟨2, if b = 0xE0 then 0xA0 else 0x80, if b = 0xED then 0x9F else 0xBF, b.toNat - 0xE0⟩
  else if b < 0xF5 then
    some ⟨3, if b = 0xF0 then 0x90 else 0x80, if b = 0xF4 then 0x8F else 0xBF, b.toNat - 0xF0⟩
  else none

/-- Reads `count` bytes that go on with a character, the first of them within the given bounds, and
adds their bits to those read before. The error comes with the number of bytes that were fine. -/
def continuation (count : Nat) (low high : UInt8) (bits : Nat) (bytes : List UInt8) :
    Except (Nat × Reason) Nat :=
  match count, bytes with
  | 0, _ => .ok bits
  | _ + 1, [] => .error (0, .unexpectedEnd)
  | count + 1, b :: rest =>
    if low ≤ b ∧ b ≤ high then
      match continuation count 0x80 0xBF (bits * 64 + (b.toNat - 0x80)) rest with
      | .ok bits => .ok bits
      | .error (n, reason) => .error (n + 1, reason)
    else .error (0, .invalidContinuation)

/-- Decodes bytes, the first of which has the given position. -/
def decodeFrom (start : Nat) : List UInt8 → Except DecodeError (List Char)
  | [] => .ok []
  | b :: rest =>
    match Lead.ofByte? b with
    | none => .error ⟨start, b, 1, .invalidStart⟩
    | some lead =>
      match continuation lead.count lead.low lead.high lead.bits rest with
      | .error (n, reason) => .error ⟨start, b, n + 1, reason⟩
      | .ok code =>
        match decodeFrom (start + 1 + lead.count) (rest.drop lead.count) with
        | .error e => .error e
        | .ok cs => .ok (Char.ofNat code :: cs)
termination_by bytes => bytes.length

def decode (bytes : List UInt8) : Except DecodeError (List Char) := decodeFrom 0 bytes

end WordMachine.Utf8
