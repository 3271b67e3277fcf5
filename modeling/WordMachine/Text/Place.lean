/-! Places in a text: lines and columns, both counted from one. Only a newline ends a line, and the
newline itself stands in the column behind the last character of its line. A diagnostic names the
place, says what is wrong, quotes the line and marks the column under it. -/

namespace WordMachine

/-- the location at which the line of a location starts -/
def lineStart (src : List Char) (loc : Nat) : Nat :=
  let before := src.take loc
  before.length - (before.reverse.takeWhile (· != '\n')).length

structure Place where
  line : Nat
  column : Nat
  /-- the whole line, without its newline -/
  text : List Char
  deriving DecidableEq, Repr

/-- The place of the character at a location of a text. -/
def Place.locate (src : List Char) (loc : Nat) : Place where
  line := (src.take loc).count '\n' + 1
  column := loc - lineStart src loc + 1
  text := (src.drop (lineStart src loc)).takeWhile (· != '\n')

/-- The text of a diagnostic. -/
def diagnostic (src : List Char) (loc : Nat) (message : String) : String :=
  let place := Place.locate src loc
  toString place.line ++ ":" ++ toString place.column ++ ": error: " ++ message ++ "\n" ++
    String.ofList place.text ++ "\n" ++
    String.ofList (List.replicate (place.column - 1) ' ') ++ "^"

/-- A diagnostic starts with the number of the line. -/
theorem diagnostic_line (src : List Char) (loc : Nat) (message : String) :
    ∃ more, diagnostic src loc message = toString (Place.locate src loc).line ++ ":" ++ more := by
  simp only [diagnostic, String.append_assoc]
  with_reducible exact ⟨_, rfl⟩

end WordMachine
