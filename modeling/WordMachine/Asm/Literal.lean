import WordMachine.Text.Hex
import WordMachine.Text.Numeral
import WordMachine.Text.WordChar

/-! Numbers and quoted texts as sources write them. A number is decimal, or hexadecimal behind `0x`,
and ends only where no letter, digit or underscore of any script follows. A decimal one may have too
many digits to be read. A quoted text stays on one line; a backslash takes the next character with
it. -/

namespace WordMachine.Asm

def isHexDigit (c : Char) : Bool := (Hex.digit? c).isSome

/-- the number that digits write in a base -/
def digitsValue (base : Nat) (digits : List Char) : Nat :=
  digits.foldl (fun n d => n * base + (Hex.digit? d).getD 0) 0

/-- Digits behind `0x`: their value, and how many characters the number has in all. -/
def hexadecimal? : List Char → Option (Nat × Nat)
  | '0' :: x :: cs =>
    let digits := cs.takeWhile isHexDigit
    if (x = 'x' ∨ x = 'X') ∧ digits ≠ [] then some (digitsValue 16 digits, digits.length + 2)
    else none
  | _ => none

/-- Decimal digits: their value, and how many there are. -/
def decimal? (cs : List Char) : Option (Nat × Nat) :=
  let digits := cs.takeWhile Char.isDigit
  if digits = [] then none else some (digitsValue 10 digits, digits.length)

/-- Whether a text goes on with a character that words are made of. -/
def wordGoesOn : List Char → Bool
  | [] => false
  | c :: _ => isWordChar c

/-- A number in either base, and how many characters it has. If a decimal one has too many digits, the
error is how many there are. -/
def numeral? (cs : List Char) : Option (Except Nat Nat × Nat) :=
  match hexadecimal? cs with
  | some (n, length) => some (.ok n, length)
  | none =>
    (decimal? cs).map fun (n, digits) => (if digits ≤ maxDigits then .ok n else .error digits, digits)

/-- The number that a text starts with, and how many characters it has. -/
def number? (cs : List Char) : Option (Except Nat Nat × Nat) :=
  match numeral? cs with
  | some (n, length) => if wordGoesOn (cs.drop length) then none else some (n, length)
  | none => none

/-- The characters up to the closing quote, still with their backslashes. -/
def quotedBody? (quote : Char) : List Char → Option (List Char)
  | [] => none
  | c :: cs =>
    if c = quote then some []
    else if c = '\n' ∨ c = '\r' then none
    else if c = '\\' then
      match cs with
      | [] => none
      | d :: cs => if d = '\n' then none else (quotedBody? quote cs).map fun body => c :: d :: body
    else (quotedBody? quote cs).map (c :: ·)

/-- The character that a backslash and one more character stand for, where that one is followed by
`next`: a control letter stands for its control character, a 0 that no 3 follows for the null
character, and anything else for itself. -/
def escapeOf (c : Char) (next : Option Char) : Char :=
  if c = 't' then '\t'
  else if c = 'n' then '\n'
  else if c = 'f' then '\x0c'
  else if c = 'r' then '\r'
  else if c = '0' ∧ next ≠ some '3' then '\x00'
  else c

/-- The character with the code that follows a backslash and a letter: a hexadecimal digit and a 2
behind an x, a hexadecimal digit and a 4 behind a u. -/
def codeEscape? (letter first last : Char) : Option Char :=
  if letter = 'x' ∧ last = '2' then (Hex.digit? first).map fun h => Char.ofNat (16 * h + 2)
  else if letter = 'u' ∧ last = '4' then (Hex.digit? first).map fun h => Char.ofNat (16 * h + 4)
  else none

/-- What the body of a quoted text stands for. -/
def unescape : List Char → List Char
  | [] => []
  | c :: cs =>
    if c ≠ '\\' then c :: unescape cs
    else match cs with
      | [] => [c]
      | [d] => [escapeOf d none]
      | [d, e] => escapeOf d (some e) :: unescape [e]
      | d :: e :: f :: fs =>
        match codeEscape? d e f with
        | some k => k :: unescape fs
        | none => escapeOf d (some e) :: unescape (e :: f :: fs)

example : unescape "a\\t\\03\\0\\x42\\u54\\x41\\q".toList = "a\t03\x00BTx41q".toList := by
  decide +kernel

end WordMachine.Asm
