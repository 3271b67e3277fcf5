import WordMachine.Asm.Parse

/-! The rules of the grammar, each of which can be read on its own: a text is then one phrase of the
rule, with blanks and a comment around it and empty space behind it. -/

namespace WordMachine.Asm

inductive Rule where
  | register | number | char | text | identifier | labelRef | label | mnemonic | operand | value
  | instruction | data | line | program
  deriving DecidableEq, Repr

/-- Whether a value is of the class that a rule reads. -/
def Rule.takes : Rule → Value → Bool
  | register, .register _ | number, .number _ | char, .char _ | text, .text _
  | identifier, .label _ | labelRef, .label _ | value, _ => true
  | operand, .text _ => false
  | operand, _ => true
  | _, _ => false

/-- The nodes that a rule reads from the front, and the tokens behind them; nothing if no phrase
starts there. The error is what stands where a value is missing or is not read. -/
def Rule.read (rule : Rule) (ls : List Lexeme) :
    Except (List Lexeme) (Option (List Node × List Lexeme)) :=
  let statements (r : List Statement × List Lexeme) := some (r.1.map Node.statement, r.2)
  match rule with
  | .program => (Asm.program ls).map statements
  | .line => (Asm.line ls).map statements
  | .label =>
    match Asm.label ls with
    | (some s, rest) => .ok (some ([.statement s], rest))
    | (none, _) => .ok none
  | .instruction =>
    match ls with
    | ⟨_, _, .mnemonic _⟩ :: _ => (Asm.command ls).map fun r => statements (r.1.toList, r.2)
    | _ => .ok none
  | .data =>
    match ls with
    | ⟨_, _, .data⟩ :: _ => (Asm.command ls).map fun r => statements (r.1.toList, r.2)
    | _ => .ok none
  | .mnemonic =>
    match ls with
    | ⟨_, _, .mnemonic op⟩ :: rest => .ok (some ([.mnemonic op], rest))
    | _ => .ok none
  | rule =>
    match ls with
    | [] => .ok none
    | l :: rest =>
      match l.token.value? with
      | none => if overlongNext ls && rule.takes (.number 0) then .error ls else .ok none
      | some v =>
        if rule.takes v then
          match rule, v with
          | .identifier, .label x => .ok (some ([.name x], rest))
          | _, _ => .ok (some ([.operand ⟨l.loc, v⟩], rest))
        else .ok none

/-- Whether a token is a word that is no name. -/
def Token.isReserved : Token → Bool
  | register _ | mnemonic _ => true
  | _ => false

/-- Where a rule finds that no phrase of its own starts. Names are refused before the blanks in
front of a reserved word; a keyword that does not end is refused at the character behind its
letters; a label without its colon where the colon should stand. -/
def Rule.mismatchLoc (rule : Rule) (order : List Opcode) (cs : List Char) (lexed : Lexed) : Nat :=
  let start := lexed.stop.locOf lexed.lexemes
  match rule with
  | .mnemonic | .instruction => start + mnemonicOverrun order (cs.drop start)
  | .data => start + overrun dataWord (cs.drop start)
  | .identifier | .labelRef | .label =>
    match lexed.lexemes with
    | ⟨loc, _, .name _⟩ :: rest => if rule = .label then lexed.stop.locOf rest else loc
    | l :: _ => if l.token.isReserved then 0 else start
    | [] => start
  | _ => start

/-- The characters of empty space, newlines among them. -/
def isSpace (c : Char) : Bool := isBlank c || c == '\n'

/-- Where the text behind a phrase goes on with more than empty space. -/
def leftover? (cs : List Char) (stop : Stop) : List Lexeme → Option Nat
  | [] => if stop.atEnd then none else some stop.loc
  | l :: _ =>
    if l.token = .newline then
      let rest := cs.drop l.loc
      let space := rest.takeWhile isSpace
      if space.length = rest.length then none else some (l.loc + space.length)
    else some l.loc

/-- Reads a whole text without tabs as one phrase, trying the mnemonics in the given order. -/
def Rule.parseIn (rule : Rule) (order : List Opcode) (cs : List Char) :
    Except SyntaxError (List Node) :=
  let lexed := lex order 0 cs
  match rule.read lexed.lexemes with
  | .error rest => .error (lexed.stop.missingValue rest)
  | .ok none => .error (.unexpected (rule.mismatchLoc order cs lexed))
  | .ok (some (nodes, rest)) =>
    match leftover? cs lexed.stop rest with
    | some loc => .error (.unexpected loc)
    | none => .ok nodes

/-- Reads a whole text as one phrase of a rule. Locations refer to the text with its tabs
expanded. -/
def Rule.parse (rule : Rule) (source : String) : Except SyntaxError (List Node) :=
  rule.parseIn Opcode.all (expandTabs source.toList)

/-- A program goes on behind each newline, so what stands behind it is none. -/
theorem newline_not_behind_program {ls rest : List Lexeme} {ss : List Statement} {l : Lexeme}
    (h : Asm.program ls = .ok (ss, l :: rest)) : l.token ≠ .newline := by
  fun_induction Asm.program ls generalizing ss <;> simp_all

theorem Rule.parseIn_program (order : List Opcode) (cs : List Char) :
    Rule.program.parseIn order cs = (Asm.parseIn order cs).map (·.map Node.statement) := by
  simp only [Rule.parseIn, Rule.read, Asm.parseIn]
  cases h : Asm.program (lex order 0 cs).lexemes with
  | error rest => rfl
  | ok read =>
    obtain ⟨ss, rest⟩ := read
    cases rest with
    | nil =>
      cases hend : (lex order 0 cs).stop.atEnd <;> simp [leftover?, hend, Except.map, Stop.locOf]
    | cons l rest => simp [leftover?, newline_not_behind_program h, Except.map, Stop.locOf]

/-- The rule of whole programs reads what `parse` reads. -/
theorem Rule.parse_program (source : String) :
    Rule.program.parse source = (Asm.parse source).map (·.map Node.statement) :=
  Rule.parseIn_program _ _

end WordMachine.Asm
