import WordMachine.Asm.Parse
import WordMachine.Proofs.Asm.Lexing

/-! Phrases in front of a newline. What is read at the front of some tokens is read there as well
when a newline and more tokens follow; and when all of them stand further on in a text, the same is
read, at locations that are further on. -/

namespace WordMachine.Asm

/-! ### Shifted locations -/

def Operand.shift (k : Nat) (o : Operand) : Operand := { o with loc := o.loc + k }

def Command.shift (k : Nat) : Command → Command
  | .label x => .label x
  | .instruction op os => .instruction op (os.map (Operand.shift k))
  | .data vs => .data (vs.map (Operand.shift k))

def Statement.shift (k : Nat) (s : Statement) : Statement := ⟨s.loc + k, s.command.shift k⟩

def SyntaxError.shift (k : Nat) : SyntaxError → SyntaxError
  | .unexpected loc => .unexpected (loc + k)
  | .missingValue loc spaced => .missingValue (loc + k) spaced
  | .overlong loc digits => .overlong (loc + k) digits

/-! ### One phrase -/

/-- the token that a value is read from -/
def Value.token : Value → Token
  | .register r => .register r
  | .number n => .number n
  | .char s => .char s
  | .text s => .text s
  | .label x => .name x

theorem Token.value?_eq_some_iff {token : Token} {v : Value} :
    token.value? = some v ↔ token = v.token := by
  cases token <;> cases v <;> simp [Token.value?, Value.token]

theorem values_of_none {l : Lexeme} (h : l.token.value? = none) (ls : List Lexeme) :
    values (l :: ls) = ([], l :: ls) := by
  rw [values.eq_def]
  simp only [h]

theorem values_comma {l next : Lexeme} {v : Value} (h : l.token.value? = some v)
    (hcomma : next.token = .comma) (ls : List Lexeme) :
    values (l :: next :: ls) = (⟨l.loc, v⟩ :: (values ls).1, (values ls).2) := by
  rw [values.eq_def]
  simp only [h, hcomma, if_true]

theorem values_cons {l : Lexeme} {v : Value} {ls : List Lexeme} (h : l.token.value? = some v)
    (hcomma : ∀ next, ls.head? = some next → next.token ≠ .comma) :
    values (l :: ls) = (⟨l.loc, v⟩ :: (values ls).1, (values ls).2) := by
  rw [values.eq_def]
  cases ls with
  | nil => simp only [h, values]
  | cons next ls => simp only [h, hcomma next rfl, if_false]

theorem label_colon {loc : Nat} {spaced : Bool} {x : String} {next : Lexeme} {rest : List Lexeme}
    (h : next.token = .colon) :
    label (⟨loc, spaced, .name x⟩ :: next :: rest) = (some ⟨loc, .label x⟩, rest) := by
  rw [label, if_pos h]

theorem label_of_ne_colon {loc : Nat} {spaced : Bool} {x : String} {next : Lexeme} {rest : List Lexeme}
    (h : next.token ≠ .colon) :
    label (⟨loc, spaced, .name x⟩ :: next :: rest) = (none, ⟨loc, spaced, .name x⟩ :: next :: rest) := by
  rw [label, if_neg h]

theorem label_of_ne_name {l : Lexeme} (h : ∀ x, l.token ≠ .name x) (ls : List Lexeme) :
    label (l :: ls) = (none, l :: ls) := by
  obtain ⟨loc, spaced, token⟩ := l
  cases token with
  | name x => exact absurd rfl (h x)
  | register | number | overlong | char | text | mnemonic | data | colon | comma | newline => rfl

theorem command_of_ne_command {l : Lexeme} (hmnemonic : ∀ op, l.token ≠ .mnemonic op)
    (hdata : l.token ≠ .data) (ls : List Lexeme) : command (l :: ls) = .ok (none, l :: ls) := by
  obtain ⟨loc, spaced, token⟩ := l
  cases token with
  | mnemonic op => exact absurd rfl (hmnemonic op)
  | data => exact absurd rfl hdata
  | register | number | overlong | char | text | name | colon | comma | newline => rfl

theorem command_mnemonic (loc : Nat) (spaced : Bool) (op : Opcode) (ls : List Lexeme) :
    command (⟨loc, spaced, .mnemonic op⟩ :: ls) =
      if overlongNext (values ls).2 = true then .error (values ls).2
      else .ok (some ⟨loc, .instruction op (values ls).1⟩, (values ls).2) := rfl

theorem command_data (loc : Nat) (spaced : Bool) (ls : List Lexeme) :
    command (⟨loc, spaced, .data⟩ :: ls) =
      if (values ls).1 = [] ∨ overlongNext (values ls).2 = true then .error (values ls).2
      else .ok (some ⟨loc, .data (values ls).1⟩, (values ls).2) := by
  match h : values ls with
  | ([], rest) => simp only [command, h, true_or, if_true]
  | (v :: vs, rest) => simp only [command, h, reduceCtorEq, false_or]

/-- The ways in which a command is read: a mnemonic with the values behind it, a row of data with at least
one value, or none. -/
theorem command_cases {ls rest : List Lexeme} {s : Option Statement} (h : command ls = .ok (s, rest)) :
    (∃ loc spaced op more, ls = ⟨loc, spaced, .mnemonic op⟩ :: more ∧ rest = (values more).2 ∧
      s = some ⟨loc, .instruction op (values more).1⟩) ∨
    (∃ loc spaced more, ls = ⟨loc, spaced, .data⟩ :: more ∧ (values more).1 ≠ [] ∧
      rest = (values more).2 ∧ s = some ⟨loc, .data (values more).1⟩) ∨
    s = none ∧ rest = ls := by
  match ls with
  | [] =>
    cases h
    exact .inr (.inr ⟨rfl, rfl⟩)
  | ⟨loc, spaced, token⟩ :: more =>
    cases token with
    | mnemonic op =>
      rw [command_mnemonic] at h
      split at h
      · cases h
      · cases h
        exact .inl ⟨loc, spaced, op, more, rfl, rfl, rfl⟩
    | data =>
      rw [command_data] at h
      split at h
      · cases h
      · rename_i hread
        cases h
        exact .inr (.inl ⟨loc, spaced, more, rfl, (not_or.1 hread).1, rfl, rfl⟩)
    | register | number | overlong | char | text | name | colon | comma | newline =>
      cases h
      exact .inr (.inr ⟨rfl, rfl⟩)

theorem line_eq_ok_iff {ls rest : List Lexeme} {ss : List Statement} :
    line ls = .ok (ss, rest) ↔
      ∃ s, command (label ls).2 = .ok (s, rest) ∧ ss = (label ls).1.toList ++ s.toList := by
  simp only [line]
  cases command (label ls).2 with
  | error behind => simp
  | ok read =>
    obtain ⟨second, behind⟩ := read
    constructor
    · rintro ⟨⟩
      exact ⟨second, rfl, rfl⟩
    · rintro ⟨s, ⟨⟩, rfl⟩
      rfl

/-! ### Phrases in front of other tokens -/

/-- the tokens behind what is read -/
def behind {α : Type} : Except (List Lexeme) (α × List Lexeme) → List Lexeme
  | .error rest => rest
  | .ok (_, rest) => rest

theorem values_suffix (ls : List Lexeme) : (values ls).2 <:+ ls := by
  fun_induction values ls with
  | case1 => exact List.suffix_refl _
  | case2 l ls hv => exact List.suffix_refl _
  | case3 l v hv => exact List.nil_suffix
  | case4 l v hv next rest hcomma more ih =>
    exact (ih.trans (List.suffix_cons next rest)).trans (List.suffix_cons l _)
  | case5 l v hv next rest hcomma more ih => exact ih.trans (List.suffix_cons l _)

theorem label_suffix (ls : List Lexeme) : (label ls).2 <:+ ls := by
  fun_cases label ls with
  | case1 loc spaced x next rest hcolon =>
    exact (List.suffix_cons next rest).trans (List.suffix_cons _ _)
  | case2 => exact List.suffix_refl _
  | case3 => exact List.suffix_refl _

theorem command_suffix (ls : List Lexeme) : behind (command ls) <:+ ls := by
  match ls with
  | [] => exact List.suffix_refl _
  | ⟨loc, spaced, token⟩ :: rest =>
    have hvalues := (values_suffix rest).trans (List.suffix_cons ⟨loc, spaced, token⟩ rest)
    cases token with
    | mnemonic op =>
      rw [command_mnemonic]
      split <;> exact hvalues
    | data =>
      rw [command_data]
      split <;> exact hvalues
    | register | number | overlong | char | text | name | colon | comma | newline => exact List.suffix_refl _

theorem line_suffix (ls : List Lexeme) : behind (line ls) <:+ ls := by
  have hcommand := (command_suffix (label ls).2).trans (label_suffix ls)
  simp only [line]
  cases hc : command (label ls).2 with
  | error rest => rwa [hc] at hcommand
  | ok r => rwa [hc] at hcommand

section Newline
variable {newline : Lexeme} (hnewline : newline.token = .newline) (ls rest : List Lexeme)
include hnewline

theorem values_newline :
    values (ls ++ newline :: rest) = ((values ls).1, (values ls).2 ++ newline :: rest) := by
  have hnone : newline.token.value? = none := by
    rw [hnewline]
    rfl
  have hbehind : values (newline :: rest) = ([], newline :: rest) := values_of_none hnone rest
  fun_induction values ls with
  | case1 => exact hbehind
  | case2 l ls hv => exact values_of_none hv _
  | case3 l v hv =>
    rw [List.cons_append, List.nil_append, values_cons hv, hbehind]
    rintro next ⟨⟩
    simp [hnewline]
  | case4 l v hv next more hcomma tail ih =>
    rw [List.cons_append, List.cons_append, values_comma hv hcomma, ih]
  | case5 l v hv next more hcomma tail ih =>
    rw [List.cons_append, values_cons hv, ih]
    rintro next ⟨⟩
    exact hcomma

theorem label_newline :
    label (ls ++ newline :: rest) = ((label ls).1, (label ls).2 ++ newline :: rest) := by
  match ls with
  | [] => exact label_of_ne_name (by simp [hnewline]) rest
  | ⟨loc, spaced, token⟩ :: more =>
    cases token with
    | name x =>
      match more with
      | [] => exact label_of_ne_colon (by simp [hnewline])
      | next :: more =>
        by_cases hcolon : next.token = .colon
        · rw [label_colon hcolon]
          exact label_colon hcolon
        · rw [label_of_ne_colon hcolon]
          exact label_of_ne_colon hcolon
    | register | number | overlong | char | text | mnemonic | data | colon | comma | newline => rfl

theorem overlongNext_newline : overlongNext (ls ++ newline :: rest) = overlongNext ls := by
  match ls with
  | [] =>
    obtain ⟨loc, spaced, token⟩ := newline
    obtain rfl : token = .newline := hnewline
    rfl
  | ⟨loc, spaced, token⟩ :: more => cases token <;> rfl

theorem command_newline :
    command (ls ++ newline :: rest) =
      ((command ls).map fun r => (r.1, r.2 ++ newline :: rest)).mapError (· ++ newline :: rest) := by
  match ls with
  | [] => exact command_of_ne_command (by simp [hnewline]) (by simp [hnewline]) rest
  | ⟨loc, spaced, token⟩ :: more =>
    cases token with
    | mnemonic op =>
      rw [List.cons_append, command_mnemonic, command_mnemonic, values_newline hnewline,
        overlongNext_newline hnewline]
      split <;> rfl
    | data =>
      rw [List.cons_append, command_data, command_data, values_newline hnewline,
        overlongNext_newline hnewline]
      split <;> rfl
    | register | number | overlong | char | text | name | colon | comma | newline => rfl

theorem line_newline :
    line (ls ++ newline :: rest) =
      ((line ls).map fun r => (r.1, r.2 ++ newline :: rest)).mapError (· ++ newline :: rest) := by
  simp only [line, label_newline hnewline, command_newline hnewline]
  cases command (label ls).2 <;> rfl

end Newline

/-! ### Phrases elsewhere -/

section Shift
variable (k : Nat) (ls : List Lexeme)

theorem values_shift :
    values (ls.map (Lexeme.shift k)) =
      ((values ls).1.map (Operand.shift k), (values ls).2.map (Lexeme.shift k)) := by
  fun_induction values ls with
  | case1 => rfl
  | case2 l ls hv =>
    have hv' : (l.shift k).token.value? = none := hv
    exact values_of_none hv' _
  | case3 l v hv =>
    have hv' : (l.shift k).token.value? = some v := hv
    refine values_cons hv' ?_
    rintro next ⟨⟩
  | case4 l v hv next rest hcomma more ih =>
    have hv' : (l.shift k).token.value? = some v := hv
    have hcomma' : (next.shift k).token = .comma := hcomma
    rw [List.map_cons, List.map_cons, values_comma hv' hcomma', ih]
    rfl
  | case5 l v hv next rest hcomma more ih =>
    have hv' : (l.shift k).token.value? = some v := hv
    rw [List.map_cons, values_cons hv', ih]
    · rfl
    · rintro n ⟨⟩
      exact hcomma

theorem label_shift :
    label (ls.map (Lexeme.shift k)) =
      ((label ls).1.map (Statement.shift k), (label ls).2.map (Lexeme.shift k)) := by
  match ls with
  | [] => rfl
  | ⟨loc, spaced, token⟩ :: more =>
    cases token with
    | name x =>
      match more with
      | [] => rfl
      | next :: more =>
        by_cases hcolon : next.token = .colon
        · rw [label_colon hcolon]
          exact @label_colon _ _ _ (next.shift k) _ hcolon
        · rw [label_of_ne_colon hcolon]
          exact @label_of_ne_colon _ _ _ (next.shift k) _ hcolon
    | register | number | overlong | char | text | mnemonic | data | colon | comma | newline => rfl

theorem overlongNext_shift : overlongNext (ls.map (Lexeme.shift k)) = overlongNext ls := by
  match ls with
  | [] => rfl
  | ⟨loc, spaced, token⟩ :: more => cases token <;> rfl

theorem command_shift :
    command (ls.map (Lexeme.shift k)) =
      ((command ls).map fun r => (r.1.map (Statement.shift k), r.2.map (Lexeme.shift k))).mapError
        (List.map (Lexeme.shift k)) := by
  match ls with
  | [] => rfl
  | ⟨loc, spaced, token⟩ :: more =>
    cases token with
    | mnemonic op =>
      rw [command_mnemonic]
      refine (command_mnemonic (loc + k) spaced op (more.map (Lexeme.shift k))).trans ?_
      rw [values_shift, overlongNext_shift]
      split <;> rfl
    | data =>
      rw [command_data]
      refine (command_data (loc + k) spaced (more.map (Lexeme.shift k))).trans ?_
      simp only [values_shift, List.map_eq_nil_iff, overlongNext_shift]
      split <;> rfl
    | register | number | overlong | char | text | name | colon | comma | newline => rfl

theorem line_shift :
    line (ls.map (Lexeme.shift k)) =
      ((line ls).map fun r => (r.1.map (Statement.shift k), r.2.map (Lexeme.shift k))).mapError
        (List.map (Lexeme.shift k)) := by
  simp only [line, label_shift, command_shift]
  cases command (label ls).2 with
  | error rest => rfl
  | ok r =>
    obtain ⟨s, rest⟩ := r
    change Except.ok (_ ++ _, _) = Except.ok (List.map _ (_ ++ _), _)
    rw [List.map_append, Option.toList_map, Option.toList_map]

end Shift

/-! ### Programs -/

section Program
variable {ls : List Lexeme}

theorem program_of_error {rest : List Lexeme} (h : line ls = .error rest) :
    program ls = .error rest := by
  rw [program]
  split <;> simp_all

theorem program_of_last {ss : List Statement} {rest : List Lexeme} (h : line ls = .ok (ss, rest))
    (hrest : ∀ l, rest.head? = some l → l.token ≠ .newline) : program ls = .ok (ss, rest) := by
  rw [program]
  split
  · simp_all
  · simp_all
  · rename_i ss' next more heq
    rw [h] at heq
    cases heq
    rw [if_neg (hrest next rfl)]

theorem program_of_newline {ss : List Statement} {newline : Lexeme} {rest : List Lexeme}
    (h : line ls = .ok (ss, newline :: rest)) (hnewline : newline.token = .newline) :
    program ls = (program rest).map fun r => (ss ++ r.1, r.2) := by
  rw [program]
  split <;> simp_all
  cases program rest <;> rfl

/-- One line is a program if no newline is in it. -/
theorem program_eq_line (hls : ∀ l ∈ ls, l.token ≠ .newline) : program ls = line ls := by
  match h : line ls with
  | .error rest => exact program_of_error h
  | .ok (ss, rest) =>
    refine program_of_last h fun l hl => hls l ?_
    have hsuffix := line_suffix ls
    rw [h] at hsuffix
    exact hsuffix.subset (List.mem_of_mem_head? hl)

theorem program_shift (k : Nat) (ls : List Lexeme) :
    program (ls.map (Lexeme.shift k)) =
      ((program ls).map fun r => (r.1.map (Statement.shift k), r.2.map (Lexeme.shift k))).mapError
        (List.map (Lexeme.shift k)) := by
  have hline := line_shift k ls
  fun_induction program ls with
  | case1 ls rest hl =>
    rw [hl] at hline
    exact program_of_error hline
  | case2 ls ss hl =>
    rw [hl] at hline
    exact program_of_last hline nofun
  | case3 ls ss next rest hl hnewline rest' hrest ih =>
    rw [hl] at hline
    rw [program_of_newline hline hnewline, ih (line_shift k rest), hrest]
    rfl
  | case4 ls ss next rest hl hnewline more rest' hrest ih =>
    rw [hl] at hline
    rw [program_of_newline hline hnewline, ih (line_shift k rest), hrest]
    change Except.ok (_ ++ _, _) = Except.ok (List.map _ (_ ++ _), _)
    rw [List.map_append]
  | case5 ls ss next rest hl hnewline =>
    rw [hl] at hline
    refine program_of_last hline ?_
    rintro l ⟨⟩
    exact hnewline

end Program

/-! ### Sources -/

/-- The statements that the tokens of a text make up. -/
def Lexed.statements (lexed : Lexed) : Except SyntaxError (List Statement) :=
  match program lexed.lexemes with
  | .error rest => .error (lexed.stop.missingValue rest)
  | .ok (ss, rest) =>
    if rest.isEmpty && lexed.stop.atEnd then .ok ss
    else .error (.unexpected (lexed.stop.locOf rest))

theorem statements_eq_ok_iff {lexed : Lexed} {ss : List Statement} :
    lexed.statements = .ok ss ↔ program lexed.lexemes = .ok (ss, []) ∧ lexed.stop.atEnd = true := by
  rw [Lexed.statements]
  rcases program lexed.lexemes with rest | ⟨ss', rest⟩
  · simp
  · cases hend : lexed.stop.atEnd <;> cases rest <;> simp

theorem parseIn_eq (order : List Opcode) (cs : List Char) :
    parseIn order cs = (lex order 0 cs).statements := rfl

/-- What is read from a text that stands further on. -/
def shifted {α : Type} (shift : Nat → α → α) (k : Nat) (r : Except SyntaxError (List α)) :
    Except SyntaxError (List α) :=
  (r.map (List.map (shift k))).mapError (SyntaxError.shift k)

theorem missingValue_shift (k : Nat) (stop : Stop) (rest : List Lexeme) :
    (stop.shift k).missingValue (rest.map (Lexeme.shift k)) = (stop.missingValue rest).shift k := by
  match rest with
  | [] => rfl
  | ⟨loc, spaced, token⟩ :: more => cases token <;> rfl

/-- Where a line stops, a newline is not a value either. -/
theorem missingValue_newline (stop stop' : Stop) (rest more : List Lexeme) :
    stop'.missingValue (rest ++ ⟨stop.loc, stop.spaced, .newline⟩ :: more) = stop.missingValue rest := by
  match rest with
  | [] => rfl
  | ⟨loc, spaced, token⟩ :: rest => cases token <;> rfl

theorem missingValue_loc (stop : Stop) (rest : List Lexeme) :
    (stop.missingValue rest).loc = stop.locOf rest := by
  match rest with
  | [] => rfl
  | ⟨loc, spaced, token⟩ :: more => cases token <;> rfl

theorem statements_shift (order : List Opcode) (loc k : Nat) (cs : List Char) :
    (lex order (loc + k) cs).statements = shifted Statement.shift k (lex order loc cs).statements := by
  rw [lex_shift]
  simp only [Lexed.statements, program_shift]
  rcases program (lex order loc cs).lexemes with rest | ⟨ss, rest⟩
  · exact congrArg Except.error (missingValue_shift k _ rest)
  · cases rest with
    | nil =>
      change ite ((lex order loc cs).stop.atEnd = true) _ _ =
        shifted Statement.shift k (ite ((lex order loc cs).stop.atEnd = true) _ _)
      split <;> rfl
    | cons l rest => rfl

/-- If a line can be read at all, what follows it is read by itself. -/
theorem statements_followedBy {first : Lexed} (hfirst : ∀ l ∈ first.lexemes, l.token ≠ .newline)
    (rest : Lexed) :
    (first.followedBy rest).statements =
      first.statements.bind fun ss => rest.statements.map (ss ++ ·) := by
  have hprogram := program_eq_line hfirst
  cases hend : first.stop.atEnd with
  | false =>
    have hsame : first.followedBy rest = first := by
      rw [Lexed.followedBy, hend]
      rfl
    rw [hsame]
    simp only [Lexed.statements, hend, Bool.and_false]
    cases program first.lexemes <;> rfl
  | true =>
    have hnewline :=
      @line_newline ⟨first.stop.loc, first.stop.spaced, .newline⟩ rfl first.lexemes rest.lexemes
    simp only [Lexed.followedBy, hend, if_true, Lexed.statements, hprogram, Bool.and_true]
    match hline : line first.lexemes with
    | .error behind =>
      rw [hline] at hnewline
      rw [program_of_error hnewline]
      exact congrArg Except.error (missingValue_newline first.stop rest.stop behind _)
    | .ok (ss, []) =>
      rw [hline] at hnewline
      rw [program_of_newline hnewline rfl]
      match program rest.lexemes with
      | .error behind => rfl
      | .ok (more, behind) =>
        simp only [Except.map, Except.bind, List.isEmpty_nil, if_true]
        split <;> rfl
    | .ok (ss, l :: behind) =>
      have hsuffix := line_suffix first.lexemes
      rw [hline] at hnewline hsuffix
      rw [program_of_last hnewline]
      · rfl
      · rintro _ ⟨⟩
        exact hfirst _ (hsuffix.subset List.mem_cons_self)

theorem program_suffix (ls : List Lexeme) : behind (program ls) <:+ ls := by
  have hline := line_suffix ls
  fun_induction program ls with
  | case1 ls rest hl => rwa [hl] at hline
  | case2 ls ss hl => rwa [hl] at hline
  | case3 ls ss next rest hl hnewline rest' hrest ih =>
    rw [hl] at hline
    have hmore := ih (line_suffix rest)
    rw [hrest] at hmore
    exact hmore.trans ((List.suffix_cons next rest).trans hline)
  | case4 ls ss next rest hl hnewline more rest' hrest ih =>
    rw [hl] at hline
    have hmore := ih (line_suffix rest)
    rw [hrest] at hmore
    exact hmore.trans ((List.suffix_cons next rest).trans hline)
  | case5 ls ss next rest hl hnewline => rwa [hl] at hline

/-- A text is refused at one of its locations, or at its end. -/
theorem loc_le_of_refused {order : List Opcode} {loc : Nat} {cs : List Char} {e : SyntaxError}
    (h : (lex order loc cs).statements = .error e) : e.loc ≤ loc + cs.length := by
  have hwithin := lex_within order loc cs
  have hsuffix := program_suffix (lex order loc cs).lexemes
  rw [Lexed.statements] at h
  match hp : program (lex order loc cs).lexemes with
  | .error rest =>
    rw [hp] at h hsuffix
    cases h
    rw [missingValue_loc]
    match rest with
    | [] => exact hwithin.2
    | l :: rest => exact hwithin.1 l (hsuffix.subset List.mem_cons_self)
  | .ok (ss, rest) =>
    simp only [hp] at h hsuffix
    split at h
    · cases h
    · cases h
      match rest with
      | [] => exact hwithin.2
      | l :: rest => exact hwithin.1 l (hsuffix.subset List.mem_cons_self)

end WordMachine.Asm
