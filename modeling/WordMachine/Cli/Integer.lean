import WordMachine.Text.DecimalDigit
import WordMachine.Text.Hex
import WordMachine.Text.Numeral
import WordMachine.Text.Ranges

/-! Integers on the command line. The first characters settle the base: `0x` stands for sixteen,
`0b` for two, another zero for eight, and all else for ten. Then come blanks, a sign, the letter of
the base behind a zero once more, and digits of any script, with single underscores between them. In
base ten there must not be too many of them. -/

namespace WordMachine.Cli

/-- the empty space outside of ASCII -/
def wideBlankRanges : List (Nat × Nat) :=
  [(0x85, 0x85), (0xa0, 0xa0), (0x1680, 0x1680), (0x2000, 0x200a), (0x2028, 0x2029),
   (0x202f, 0x202f), (0x205f, 0x205f), (0x3000, 0x3000)]

/-- The characters that may stand around an integer. -/
def isOuterBlank (c : Char) : Bool :=
  if c.toNat < 128 then c == ' ' || (9 ≤ c.toNat && c.toNat ≤ 13)
  else inRanges wideBlankRanges c.toNat

/-- The value of a digit: a decimal digit of any script, or a letter from a to f. -/
def digitValue? (c : Char) : Option Nat := (decimalDigit? c).or (Hex.digit? c)

/-- Digits with single underscores between them, read behind a part with the given value. -/
def digitRun? (base value : Nat) (behindDigit : Bool) : List Char → Option Nat
  | [] => if behindDigit then some value else none
  | c :: cs =>
    if c = '_' then if behindDigit then digitRun? base value false cs else none
    else match digitValue? c with
      | some d => if d < base then digitRun? base (value * base + d) true cs else none
      | none => none

/-- Whether a letter behind a zero stands for the base. -/
def isBaseLetter (base : Nat) (c : Char) : Bool :=
  (base == 16 && (c == 'x' || c == 'X')) || (base == 8 && (c == 'o' || c == 'O')) ||
    (base == 2 && (c == 'b' || c == 'B'))

/-- Digits, behind a zero and the letter of their base if these are there; an underscore may follow
that letter. -/
def magnitude? (base : Nat) (cs : List Char) : Option Nat :=
  match cs with
  | z :: letter :: rest =>
    if digitValue? z = some 0 ∧ isBaseLetter base letter then
      match rest with
      | '_' :: rest => digitRun? base 0 false rest
      | rest => digitRun? base 0 false rest
    else digitRun? base 0 false cs
  | _ => digitRun? base 0 false cs

def trimBlanks (cs : List Char) : List Char :=
  ((cs.dropWhile isOuterBlank).reverse.dropWhile isOuterBlank).reverse

/-- An integer in a base, with blanks around it and a sign. -/
def signed? (base : Nat) (cs : List Char) : Option Int :=
  match trimBlanks cs with
  | '-' :: rest => (magnitude? base rest).map fun n => -(n : Int)
  | '+' :: rest => (magnitude? base rest).map Int.ofNat
  | rest => (magnitude? base rest).map Int.ofNat

/-- The integer that an argument writes. -/
def integer? (text : String) : Option Int :=
  match text.toList with
  | '0' :: c :: rest =>
    if c = 'x' ∨ c = 'X' then signed? 16 ('0' :: c :: rest)
    else if c = 'b' ∨ c = 'B' then if rest = [] then some 0 else signed? 2 rest
    else signed? 8 ('0' :: c :: rest)
  | ['0'] => signed? 8 ['0']
  | cs => if (cs.filter fun c => (decimalDigit? c).isSome).length ≤ maxDigits then signed? 10 cs else none

end WordMachine.Cli
