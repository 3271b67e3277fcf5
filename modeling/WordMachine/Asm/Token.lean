import WordMachine.Asm.Keyword
import WordMachine.Asm.Literal
import WordMachine.Word

/-! Tokens. Before each token blanks are skipped, and a comment: a semicolon and everything up to
the end of the line. The newline itself is a token. What class a token has is settled by its first
character, but for words: a word is a register or a mnemonic if it can be one, and else a name. -/

namespace WordMachine.Asm

inductive Token where
  | register (r : Register)
  | number (n : Nat)
  /-- a decimal number with too many digits to be read -/
  | overlong (digits : Nat)
  | char (value : String)
  | text (value : String)
  | name (value : String)
  | mnemonic (op : Opcode)
  /-- the word `.data` -/
  | data
  | colon
  | comma
  | newline
  deriving DecidableEq, Repr

def Token.ofNumber : Except Nat Nat → Token
  | .ok n => number n
  | .error digits => overlong digits

/-- A token with the location of its first character. -/
structure Lexeme where
  loc : Nat
  /-- whether a blank stands directly before it -/
  spaced : Bool
  token : Token
  deriving DecidableEq, Repr

/-- Where no further token can be read. -/
structure Stop where
  loc : Nat
  spaced : Bool
  /-- whether this is the end of the text, rather than a character that starts no token -/
  atEnd : Bool
  deriving DecidableEq, Repr

/-- The tokens of a text, as far as there are any. -/
structure Lexed where
  lexemes : List Lexeme
  stop : Stop
  deriving DecidableEq, Repr

def isBlank (c : Char) : Bool := c == ' ' || c == '\t' || c == '\r'

def isNameStart (c : Char) : Bool := c.isAlpha || c == '_'

def isNameChar (c : Char) : Bool := c.isAlphanum || c == '_'

/-- The blanks and the comment before a token. -/
structure Gap where
  length : Nat
  /-- whether the last of them is a blank -/
  spaced : Bool
  deriving DecidableEq, Repr

/-- The gap that a text starts with. Only a newline or the end of the text follows a comment. -/
def Gap.before (cs : List Char) : Gap :=
  let blanks := (cs.takeWhile isBlank).length
  match cs.drop blanks with
  | ';' :: comment => ⟨blanks + 1 + (comment.takeWhile (· != '\n')).length, false⟩
  | _ => ⟨blanks, blanks != 0⟩

/-- The register that a text starts with: its letter, and one digit that ends the word. -/
def register? (c : Char) (cs : List Char) : Option Register :=
  if c = 'r' ∨ c = 'R' then
    match cs with
    | [] => none
    | d :: ds =>
      if (ds.head?.map isNameChar).getD false then none else Register.ofInt? (d.toNat - 48 : Int)
  else none

/-- The token that starts with the character `c`, and how many of the characters behind it belong to
it. The mnemonics are tried in the given order. -/
def Token.read? (order : List Opcode) (c : Char) (cs : List Char) : Option (Token × Nat) :=
  if c = '\n' then some (.newline, 0)
  else if c = ':' then some (.colon, 0)
  else if c = ',' then some (.comma, 0)
  else if c = '"' then
    (quotedBody? c cs).map fun body => (.text (String.ofList (unescape body)), body.length + 1)
  else if c = '\'' then
    (quotedBody? c cs).map fun body => (.char (String.ofList (unescape body)), body.length + 1)
  else if c.isDigit then
    (number? (c :: cs)).map fun (n, length) => (.ofNumber n, length - 1)
  else if c = '.' then
    if startsWith dataWord (c :: cs) then some (.data, dataWord.length - 1) else none
  else match register? c cs with
    | some r => some (.register r, 1)
    | none =>
      match mnemonic? order (c :: cs) with
      | some op => some (.mnemonic op, op.name.length - 1)
      | none =>
        if isNameStart c then
          let rest := cs.takeWhile isNameChar
          some (.name (String.ofList (c :: rest)), rest.length)
        else none

/-- Reads the tokens of a text whose first character has the given location. -/
def lex (order : List Opcode) (loc : Nat) (cs : List Char) : Lexed :=
  let gap := Gap.before cs
  match _eq : cs.drop gap.length with
  | [] => ⟨[], ⟨loc + gap.length, gap.spaced, true⟩⟩
  | c :: tail =>
    match Token.read? order c tail with
    | none => ⟨[], ⟨loc + gap.length, gap.spaced, false⟩⟩
    | some (token, n) =>
      let more := lex order (loc + gap.length + 1 + n) (tail.drop n)
      ⟨⟨loc + gap.length, gap.spaced, token⟩ :: more.lexemes, more.stop⟩
termination_by cs.length
decreasing_by
  have shorter := congrArg List.length _eq
  simp only [List.length_drop, List.length_cons] at shorter ⊢
  omega

end WordMachine.Asm
