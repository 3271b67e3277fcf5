import WordMachine.Asm.Syntax
import WordMachine.Asm.Token
import WordMachine.Text.Tabs

/-! Programs as token sequences. A line has at most one label, and behind it at most one instruction
or one row of data; each value may be followed by one comma. Reading takes the longest beginning
that the grammar allows and never goes back behind a line's end, so the first bad line settles where
and why a source is refused. A data line without a value is refused for that reason wherever it is
met, and so is a line with a value that is a number of too many digits. -/

namespace WordMachine.Asm

/-- Why a source is refused. -/
inductive SyntaxError where
  /-- the grammar allows nothing that starts here -/
  | unexpected (loc : Nat)
  /-- a value of a data line is missing; `spaced` if a blank stands directly before its place -/
  | missingValue (loc : Nat) (spaced : Bool)
  /-- a value is a number with too many digits to be read -/
  | overlong (loc digits : Nat)
  deriving DecidableEq, Repr

def SyntaxError.loc : SyntaxError → Nat
  | unexpected loc => loc
  | missingValue loc _ | overlong loc _ => loc

def SyntaxError.message : SyntaxError → String
  | unexpected _ => "Expected end of text"
  | missingValue _ spaced => if spaced then "Expected string enclosed in '\"'" else "Expected value"
  | overlong _ digits => (NumeralError.unread digits).message

/-- The value that a token is. -/
def Token.value? : Token → Option Value
  | register r => some (.register r)
  | number n => some (.number n)
  | char s => some (.char s)
  | text s => some (.text s)
  | name x => some (.label x)
  | overlong _ | mnemonic _ | data | colon | comma | newline => none

/-- As many values as there are, each with at most one comma behind it. -/
def values : List Lexeme → List Operand × List Lexeme
  | [] => ([], [])
  | l :: ls =>
    match l.token.value? with
    | none => ([], l :: ls)
    | some v =>
      match ls with
      | [] => ([⟨l.loc, v⟩], [])
      | next :: rest =>
        if next.token = .comma then
          let more := values rest
          (⟨l.loc, v⟩ :: more.1, more.2)
        else
          let more := values (next :: rest)
          (⟨l.loc, v⟩ :: more.1, more.2)

/-- A label, if there is one. -/
def label : List Lexeme → Option Statement × List Lexeme
  | ⟨loc, spaced, .name x⟩ :: next :: rest =>
    if next.token = .colon then (some ⟨loc, .label x⟩, rest)
    else (none, ⟨loc, spaced, .name x⟩ :: next :: rest)
  | ls => (none, ls)

/-- Whether a number with too many digits comes next. -/
def overlongNext : List Lexeme → Bool
  | ⟨_, _, .overlong _⟩ :: _ => true
  | _ => false

/-- An instruction or a row of data, if there is one. The error is what stands where a value is
missing or is not read. -/
def command : List Lexeme → Except (List Lexeme) (Option Statement × List Lexeme)
  | ⟨loc, _, .mnemonic op⟩ :: rest =>
    match values rest with
    | (os, rest) =>
      if overlongNext rest then .error rest else .ok (some ⟨loc, .instruction op os⟩, rest)
  | ⟨loc, _, .data⟩ :: rest =>
    match values rest with
    | ([], rest) => .error rest
    | (v :: vs, rest) =>
      if overlongNext rest then .error rest else .ok (some ⟨loc, .data (v :: vs)⟩, rest)
  | ls => .ok (none, ls)

def line (ls : List Lexeme) : Except (List Lexeme) (List Statement × List Lexeme) :=
  let first := label ls
  match command first.2 with
  | .error rest => .error rest
  | .ok (second, rest) => .ok (first.1.toList ++ second.toList, rest)

theorem length_values_le (ls : List Lexeme) : (values ls).2.length ≤ ls.length := by
  fun_induction values ls <;> simp_all +zetaDelta <;> omega

theorem length_label_le (ls : List Lexeme) : (label ls).2.length ≤ ls.length := by
  fun_cases label ls <;> simp_all
  omega

theorem length_command_le {ls rest : List Lexeme} {s : Option Statement}
    (h : command ls = .ok (s, rest)) : rest.length ≤ ls.length := by
  unfold command at h
  split at h
  · rename_i more
    have := length_values_le more
    dsimp only at h
    split at h
    · cases h
    · simp only [Except.ok.injEq, Prod.mk.injEq] at h
      simp only [← h.2, List.length_cons]
      omega
  · rename_i more
    have := length_values_le more
    split at h
    · cases h
    · rename_i v vs rest' hv
      split at h
      · cases h
      · simp only [Except.ok.injEq, Prod.mk.injEq] at h
        simp only [hv, h.2, List.length_cons] at this ⊢
        omega
  · cases h
    exact Nat.le_refl _

theorem length_line_le {ls rest : List Lexeme} {ss : List Statement}
    (h : line ls = .ok (ss, rest)) : rest.length ≤ ls.length := by
  simp only [line] at h
  split at h
  · cases h
  · rename_i hc
    simp only [Except.ok.injEq, Prod.mk.injEq] at h
    rw [← h.2]
    exact Nat.le_trans (length_command_le hc) (length_label_le ls)

/-- Lines, each but the first behind a newline. -/
def program (ls : List Lexeme) : Except (List Lexeme) (List Statement × List Lexeme) :=
  match _eq : line ls with
  | .error rest => .error rest
  | .ok (ss, []) => .ok (ss, [])
  | .ok (ss, next :: rest) =>
    if next.token = .newline then
      match program rest with
      | .error rest => .error rest
      | .ok (more, rest) => .ok (ss ++ more, rest)
    else .ok (ss, next :: rest)
termination_by ls.length
decreasing_by
  have := length_line_le _eq
  simp only [List.length_cons] at this
  omega

/-- The location of the next token, or of where reading stopped. -/
def Stop.locOf (stop : Stop) : List Lexeme → Nat
  | [] => stop.loc
  | l :: _ => l.loc

/-- The refusal of a line that has the given tokens in the place of a value. -/
def Stop.missingValue (stop : Stop) : List Lexeme → SyntaxError
  | [] => .missingValue stop.loc stop.spaced
  | ⟨loc, _, .overlong digits⟩ :: _ => .overlong loc digits
  | l :: _ => .missingValue l.loc l.spaced

/-- The statements of a source without tabs, trying the mnemonics in the given order. -/
def parseIn (order : List Opcode) (cs : List Char) : Except SyntaxError (List Statement) :=
  let lexed := lex order 0 cs
  match program lexed.lexemes with
  | .error rest => .error (lexed.stop.missingValue rest)
  | .ok (ss, rest) =>
    if rest.isEmpty && lexed.stop.atEnd then .ok ss
    else .error (.unexpected (lexed.stop.locOf rest))

/-- The statements of a source. Locations refer to the source with its tabs expanded. -/
def parse (source : String) : Except SyntaxError (List Statement) :=
  parseIn Opcode.all (expandTabs source.toList)

end WordMachine.Asm
