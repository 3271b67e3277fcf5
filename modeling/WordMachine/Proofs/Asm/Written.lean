import WordMachine.Asm.Syntax
import WordMachine.Asm.Token

/-! How programs are written. A value, a row of values, a command, a line and a program can each be
written in many ways; the relations here hold between what is written, with the location where each
part of it stands, and each of the texts that write it. Decimal numbers may be written with more digits
than are read; so the relations also say which of them is the first such one. -/

namespace WordMachine.Asm

/-- The letters of a keyword, in any mixture of capitals and small letters. -/
def Spells (letters word : List Char) : Prop := letters.map Char.toUpper = word

/-- What a label can be called: a word that spells neither a mnemonic nor a register. -/
structure IsName (x : String) : Prop where
  word : ∃ c cs, x.toList = c :: cs ∧ isNameStart c = true ∧ ∀ d ∈ cs, isNameChar d = true
  noMnemonic : ∀ op : Opcode, ¬ Spells x.toList op.name.toList
  noRegister : ∀ r : Register, ¬ Spells x.toList ['R', r.val.digitChar]

def blanks (n : Nat) : List Char := List.replicate n ' '

/-- how a character is written between quotes -/
def escaped (quote c : Char) : List Char :=
  if c = '\\' ∨ c = quote then ['\\', c]
  else if c = '\n' then ['\\', 'n']
  else if c = '\r' then ['\\', 'r']
  else if c = '\t' then ['\\', 't']
  else [c]

def quotedWith (quote : Char) (s : String) : List Char :=
  quote :: (s.toList.flatMap (escaped quote) ++ [quote])

/-- The number of digits, if there are too many of them to be read. -/
def unread? (digits : Nat) : Option Nat := if maxDigits < digits then some digits else none

/-- A value, a text that writes it, and how many digits this has if they are too many. -/
inductive ValueWritten : Value → List Char → Option Nat → Prop
  | register {r : Register} {letter : Char} (h : letter = 'r' ∨ letter = 'R') :
      ValueWritten (.register r) [letter, r.val.digitChar] none
  | decimal (zeros n : Nat) :
      ValueWritten (.number n) (List.replicate zeros '0' ++ Nat.toDigits 10 n)
        (unread? (List.replicate zeros '0' ++ Nat.toDigits 10 n).length)
  | hexadecimal {zeros n : Nat} {x : Char} {digits : List Char} (hx : x = 'x' ∨ x = 'X')
      (h : digits.map Char.toLower = List.replicate zeros '0' ++ Nat.toDigits 16 n) :
      ValueWritten (.number n) ('0' :: x :: digits) none
  | char (s : String) : ValueWritten (.char s) (quotedWith '\'' s) none
  | text (s : String) : ValueWritten (.text s) (quotedWith '"' s) none
  | label {x : String} (h : IsName x) : ValueWritten (.label x) x.toList none

/-- What may stand between two values: spaces, or one comma with any spaces around it. -/
inductive Separator : List Char → Prop
  | spaces (n : Nat) : Separator (blanks (n + 1))
  | comma (before after : Nat) : Separator (blanks before ++ ',' :: blanks after)

/-- The location and the number of digits of the first number that has too many of them. -/
abbrev Unread := Option (Nat × Nat)

/-- A row of values; the first of them stands at the location. -/
inductive RowWritten : Nat → List Operand → List Char → Unread → Prop
  | last {loc : Nat} {v : Value} {cs : List Char} {digits : Option Nat} (h : ValueWritten v cs digits) :
      RowWritten loc [⟨loc, v⟩] cs (digits.map (loc, ·))
  | more {loc : Nat} {v : Value} {os : List Operand} {cs between rest : List Char}
      {digits : Option Nat} {unread : Unread} (h : ValueWritten v cs digits) (hbetween : Separator between)
      (hrest : RowWritten (loc + cs.length + between.length) os rest unread) :
      RowWritten loc (⟨loc, v⟩ :: os) (cs ++ (between ++ rest)) ((digits.map (loc, ·)).or unread)

/-- An instruction or a row of data at the location. -/
inductive CommandWritten : Nat → Command → List Char → Unread → Prop
  | bare {loc : Nat} {op : Opcode} {letters : List Char} (h : Spells letters op.name.toList) :
      CommandWritten loc (.instruction op []) letters none
  | instruction {loc n : Nat} {op : Opcode} {os : List Operand} {letters cs : List Char}
      {unread : Unread} (h : Spells letters op.name.toList)
      (hrow : RowWritten (loc + letters.length + (n + 1)) os cs unread) :
      CommandWritten loc (.instruction op os) (letters ++ (blanks (n + 1) ++ cs)) unread
  | data {loc n : Nat} {vs : List Operand} {letters cs : List Char} {unread : Unread}
      (h : Spells letters dataWord) (hrow : RowWritten (loc + letters.length + (n + 1)) vs cs unread) :
      CommandWritten loc (.data vs) (letters ++ (blanks (n + 1) ++ cs)) unread

/-- A line at the location, with the one or two statements on it if there are any. -/
inductive LineWritten : Nat → List Statement → List Char → Unread → Prop
  | empty {loc : Nat} : LineWritten loc [] [] none
  | command {loc : Nat} {c : Command} {cs : List Char} {unread : Unread}
      (h : CommandWritten loc c cs unread) : LineWritten loc [⟨loc, c⟩] cs unread
  | label {loc : Nat} {x : String} (h : IsName x) (n : Nat) :
      LineWritten loc [⟨loc, .label x⟩] (x.toList ++ ':' :: blanks n) none
  | labelled {loc n : Nat} {x : String} {c : Command} {cs : List Char} {unread : Unread} (h : IsName x)
      (hcommand : CommandWritten (loc + x.toList.length + 1 + n) c cs unread) :
      LineWritten loc [⟨loc, .label x⟩, ⟨loc + x.toList.length + 1 + n, c⟩]
        (x.toList ++ ':' :: (blanks n ++ cs)) unread

/-- Lines joined by newlines, the first of them at the location. -/
inductive ProgramWritten : Nat → List Statement → List Char → Unread → Prop
  | last {loc : Nat} {ss : List Statement} {cs : List Char} {unread : Unread}
      (h : LineWritten loc ss cs unread) : ProgramWritten loc ss cs unread
  | more {loc : Nat} {ss more : List Statement} {cs rest : List Char} {unread unread' : Unread}
      (h : LineWritten loc ss cs unread)
      (hrest : ProgramWritten (loc + cs.length + 1) more rest unread') :
      ProgramWritten loc (ss ++ more) (cs ++ '\n' :: rest) (unread.or unread')

/-! ### Everything can be written -/

/-- What a statement says, apart from where. -/
inductive Phrase where
  | label (name : String)
  | instruction (op : Opcode) (values : List Value)
  | data (values : List Value)
  deriving DecidableEq, Repr

def Statement.phrase (s : Statement) : Phrase :=
  match s.command with
  | .label x => .label x
  | .instruction op os => .instruction op (os.map Operand.value)
  | .data vs => .data (vs.map Operand.value)

/-- The labels among values have names that labels can have. -/
def Nameable (vs : List Value) : Prop := ∀ x, Value.label x ∈ vs → IsName x

/-- An instruction with any values, or a row of data. -/
inductive CommandPhrase : Phrase → Prop
  | instruction {op : Opcode} {vs : List Value} (h : Nameable vs) : CommandPhrase (.instruction op vs)
  | data {vs : List Value} (hne : vs ≠ []) (h : Nameable vs) : CommandPhrase (.data vs)

/-- A label, a command, both or neither. -/
inductive LinePhrases : List Phrase → Prop
  | empty : LinePhrases []
  | command {p : Phrase} (h : CommandPhrase p) : LinePhrases [p]
  | label {x : String} (hx : IsName x) : LinePhrases [.label x]
  | labelled {x : String} {p : Phrase} (hx : IsName x) (h : CommandPhrase p) : LinePhrases [.label x, p]

/-- The digits of a base up to sixteen. -/
theorem exists_digit_of_mem_toDigits {base : Nat} (hbase : 1 < base) (n : Nat) :
    ∀ c ∈ Nat.toDigits base n, ∃ d < base, c = d.digitChar := by
  induction n using Nat.strongRecOn with
  | ind n ih =>
    rw [Nat.toDigits_eq_if hbase]
    split
    · rename_i hn
      intro c hc
      exact ⟨n, hn, List.mem_singleton.1 hc⟩
    · rename_i hn
      intro c hc
      rcases List.mem_append.1 hc with hc | hc
      · exact ih _ (Nat.div_lt_self (by omega) hbase) c hc
      · exact ⟨_, Nat.mod_lt n (Nat.zero_lt_of_lt hbase), List.mem_singleton.1 hc⟩

theorem map_toLower_toDigits (n : Nat) : (Nat.toDigits 16 n).map Char.toLower = Nat.toDigits 16 n := by
  have hlower : ∀ d < 16, (Nat.digitChar d).toLower = d.digitChar := by decide
  refine (List.map_congr_left fun c hc => ?_).trans (List.map_id _)
  obtain ⟨d, hd, rfl⟩ := exists_digit_of_mem_toDigits (by decide) n c hc
  exact hlower d hd

theorem exists_valueWritten {v : Value} (h : ∀ x, v = .label x → IsName x) :
    ∃ cs, ValueWritten v cs none := by
  cases v with
  | register r => exact ⟨_, .register (.inl rfl)⟩
  | number n => exact ⟨_, @ValueWritten.hexadecimal 0 n _ _ (.inl rfl) (map_toLower_toDigits n)⟩
  | char s => exact ⟨_, .char s⟩
  | text s => exact ⟨_, .text s⟩
  | label x => exact ⟨_, .label (h x rfl)⟩

theorem exists_rowWritten {vs : List Value} (hne : vs ≠ []) (h : Nameable vs) (loc : Nat) :
    ∃ os cs, RowWritten loc os cs none ∧ os.map Operand.value = vs := by
  induction vs generalizing loc with
  | nil => exact absurd rfl hne
  | cons v vs ih =>
    obtain ⟨cs, hv⟩ := exists_valueWritten fun x hx => h x (hx ▸ List.mem_cons_self)
    by_cases hlast : vs = []
    · exact ⟨[⟨loc, v⟩], cs, .last hv, by rw [hlast]; rfl⟩
    · have hvs : Nameable vs := fun x hx => h x (List.mem_cons_of_mem v hx)
      obtain ⟨os, rest, hrow, hos⟩ := ih hlast hvs (loc + cs.length + (blanks (0 + 1)).length)
      exact ⟨_, _, .more hv (.spaces 0) hrow, by rw [List.map_cons, hos]⟩

theorem exists_commandWritten {p : Phrase} (h : CommandPhrase p) (loc : Nat) :
    ∃ c cs, CommandWritten loc c cs none ∧ Statement.phrase ⟨loc, c⟩ = p := by
  have hname (op : Opcode) : Spells op.name.toList op.name.toList := by
    unfold Spells
    cases op <;> decide
  have hdata : Spells dataWord dataWord := by
    unfold Spells
    decide
  cases h with
  | @instruction op vs h =>
    by_cases hvs : vs = []
    · exact ⟨_, _, .bare (hname op), by rw [hvs]; rfl⟩
    · obtain ⟨os, cs, hrow, rfl⟩ := exists_rowWritten hvs h (loc + op.name.toList.length + (0 + 1))
      exact ⟨_, _, .instruction (hname op) hrow, rfl⟩
  | @data vs hne h =>
    obtain ⟨os, cs, hrow, rfl⟩ := exists_rowWritten hne h (loc + dataWord.length + (0 + 1))
    exact ⟨_, _, .data hdata hrow, rfl⟩

theorem exists_lineWritten {ps : List Phrase} (h : LinePhrases ps) (loc : Nat) :
    ∃ ss cs, LineWritten loc ss cs none ∧ ss.map Statement.phrase = ps := by
  cases h with
  | empty => exact ⟨_, _, .empty, rfl⟩
  | command h =>
    obtain ⟨c, cs, hcommand, hphrase⟩ := exists_commandWritten h loc
    exact ⟨_, _, .command hcommand, by rw [List.map_singleton, hphrase]⟩
  | label hx => exact ⟨_, _, .label hx 0, rfl⟩
  | @labelled x p hx h =>
    obtain ⟨c, cs, hcommand, hphrase⟩ := exists_commandWritten h (loc + x.toList.length + 1 + 0)
    exact ⟨_, _, .labelled hx hcommand, by rw [List.map_cons, List.map_singleton, hphrase]; rfl⟩

/-- Whatever lines are to say, there is a text that writes them and has no digits too many: numbers may be
written in hexadecimal. -/
theorem exists_programWritten {lines : List (List Phrase)} (h : ∀ ps ∈ lines, LinePhrases ps)
    (loc : Nat) : ∃ program cs, ProgramWritten loc program cs none ∧ program.map Statement.phrase = lines.flatten := by
  induction lines generalizing loc with
  | nil => exact ⟨_, _, .last .empty, rfl⟩
  | cons ps lines ih =>
    rw [List.forall_mem_cons] at h
    obtain ⟨ss, cs, hline, hss⟩ := exists_lineWritten h.1 loc
    obtain ⟨more, rest, hrest, hmore⟩ := ih h.2 (loc + cs.length + 1)
    exact ⟨_, _, .more hline hrest, by rw [List.map_append, hss, hmore, List.flatten_cons]⟩

end WordMachine.Asm
