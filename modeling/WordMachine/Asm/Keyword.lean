import WordMachine.Opcode

/-! Keywords: the mnemonics of the instructions and the word that starts a line of data. A keyword
is written in any mixture of capitals and small letters, and it ends only where no letter, digit,
underscore or dollar sign follows. -/

namespace WordMachine.Asm

/-- The capital of a letter, as far as that is a letter of ASCII. Besides the small letters of ASCII
only the dotless i and the long s have such a capital. -/
def capital (c : Char) : Char :=
  if c = 'ı' then 'I' else if c = 'ſ' then 'S' else c.toUpper

/-- Whether a character may stand inside of a keyword, so that no keyword ends before it. -/
def isKeywordChar (c : Char) : Bool :=
  (capital c).isUpper || c.isDigit || c == '_' || c == '$'

/-- What follows the letters of a keyword, if the text starts with them. -/
def afterLetters? : (word cs : List Char) → Option (List Char)
  | [], cs => some cs
  | _ :: _, [] => none
  | w :: word, c :: cs => if capital c = w then afterLetters? word cs else none

/-- Whether a text goes on with a character that may stand inside of a keyword. -/
def goesOn : List Char → Bool
  | [] => false
  | c :: _ => isKeywordChar c

/-- Whether the text starts with the keyword. -/
def startsWith (word cs : List Char) : Bool :=
  match afterLetters? word cs with
  | some rest => !goesOn rest
  | none => false

/-- Where the keyword's letters match but the keyword does not end, the number of its letters. -/
def overrun (word cs : List Char) : Nat :=
  match afterLetters? word cs with
  | some rest => if goesOn rest then word.length else 0
  | none => 0

/-- the word that starts a line of data -/
def dataWord : List Char := ".DATA".toList

/-- The mnemonic that the text starts with. The mnemonics are tried in the given order. -/
def mnemonic? (order : List Opcode) (cs : List Char) : Option Opcode :=
  order.find? fun op => startsWith op.name.toList cs

/-- the greatest overrun of a mnemonic -/
def mnemonicOverrun (order : List Opcode) (cs : List Char) : Nat :=
  order.foldl (fun n op => max n (overrun op.name.toList cs)) 0

end WordMachine.Asm
