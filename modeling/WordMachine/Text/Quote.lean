import WordMachine.Text.Hex
import WordMachine.Text.Printable

/-! Text as diagnostics quote it: between single quotes, or between double quotes where the text
has a single quote and no double one. The quote in use and the backslash get a backslash in front;
newline, return and tab are written `\n`, `\r` and `\t`; any other character without a visible
form is written as its code point in two, four or eight hexadecimal digits. -/

namespace WordMachine

/-- how one character stands inside of the given quotes -/
def quotedChar (quote c : Char) : List Char :=
  if c = quote ∨ c = '\\' then ['\\', c]
  else if c = '\n' then ['\\', 'n']
  else if c = '\r' then ['\\', 'r']
  else if c = '\t' then ['\\', 't']
  else if isPrintable c then [c]
  else if c.toNat < 0x100 then '\\' :: 'x' :: Hex.padded 2 c.toNat
  else if c.toNat < 0x10000 then '\\' :: 'u' :: Hex.padded 4 c.toNat
  else '\\' :: 'U' :: Hex.padded 8 c.toNat

/-- the quotes that a text is given -/
def quoteFor (cs : List Char) : Char :=
  if cs.contains '\'' && !cs.contains '"' then '"' else '\''

def quoted (text : String) : String :=
  let cs := text.toList
  let quote := quoteFor cs
  String.ofList (quote :: cs.flatMap (quotedChar quote) ++ [quote])

example : quoted "it's\t\x00" = "\"it's\\t\\x00\"" := by decide +kernel

end WordMachine
