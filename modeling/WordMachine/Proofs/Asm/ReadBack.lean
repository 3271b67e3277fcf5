import WordMachine.Asm.Rule
import WordMachine.Proofs.Asm.Phrases
import WordMachine.Proofs.Asm.Spelling

/-! What is written is read back. The tokens of a written text stand behind blanks where the writing
puts them, and make up what was written; but a number that has too many digits is no value, and the
reading ends in front of it. -/

namespace WordMachine.Asm

/-! ### Tokens behind blanks -/

section Lex
variable {order : List Opcode}

theorem drop_blanks (n : Nat) (rest : List Char) : (blanks n ++ rest).drop n = rest :=
  List.drop_left' List.length_replicate

theorem Gap.before_blanks (n : Nat) {rest : List Char}
    (hrest : ∀ c, rest.head? = some c → isBlank c = false ∧ c ≠ ';') :
    Gap.before (blanks n ++ rest) = ⟨n, n != 0⟩ := by
  have hblank : ∀ b ∈ blanks n, isBlank b = true := by
    intro b hb
    rw [(List.mem_replicate.1 hb).2]
    rfl
  have hgap := Gap.before_blank hblank hrest
  rwa [blanks, List.length_replicate] at hgap

theorem lex_blanks (loc n : Nat) : lex order loc (blanks n) = ⟨[], loc + n, n != 0, true⟩ := by
  have hgap := @Gap.before_blanks n [] nofun
  rw [List.append_nil] at hgap
  rw [lex_of_end, hgap]
  rw [hgap]
  exact List.drop_of_length_le (Nat.le_of_eq List.length_replicate)

/-- A token behind blanks, and what is behind it. -/
theorem lex_token {loc n : Nat} {c : Char} {tail rest : List Char} {token : Token}
    (hc : isBlank c = false) (hcomment : c ≠ ';')
    (hread : Token.read? order c (tail ++ rest) = some (token, tail.length)) :
    lex order loc (blanks n ++ (c :: tail ++ rest)) =
      let more := lex order (loc + n + (tail.length + 1)) rest
      ⟨⟨loc + n, n != 0, token⟩ :: more.lexemes, more.stop⟩ := by
  have hgap : Gap.before (blanks n ++ (c :: tail ++ rest)) = ⟨n, n != 0⟩ := by
    refine Gap.before_blanks n ?_
    rintro d ⟨⟩
    exact ⟨hc, hcomment⟩
  have hdrop : (blanks n ++ (c :: tail ++ rest)).drop
      (Gap.before (blanks n ++ (c :: tail ++ rest))).length = c :: (tail ++ rest) := by
    rw [hgap, drop_blanks]
    rfl
  rw [lex_of_read hdrop hread, hgap, List.drop_left' rfl]
  simp only [Nat.add_assoc, Nat.add_comm 1]

theorem lex_symbol {loc n : Nat} {c : Char} {rest : List Char} {token : Token}
    (hc : isBlank c = false) (hcomment : c ≠ ';')
    (hread : ∀ cs, Token.read? order c cs = some (token, 0)) :
    lex order loc (blanks n ++ c :: rest) =
      let more := lex order (loc + n + 1) rest
      ⟨⟨loc + n, n != 0, token⟩ :: more.lexemes, more.stop⟩ :=
  @lex_token order loc n c [] rest token hc hcomment (hread rest)

theorem lex_reads {loc n : Nat} {cs rest : List Char} {token : Token} (h : Reads order token cs)
    (hrest : Breaks rest) :
    lex order loc (blanks n ++ (cs ++ rest)) =
      let more := lex order (loc + n + cs.length) rest
      ⟨⟨loc + n, n != 0, token⟩ :: more.lexemes, more.stop⟩ := by
  obtain ⟨c, tail, rfl, hc, hcomment, hread⟩ := h
  exact lex_token hc hcomment (Token.read?_append_of_eq_some hread hrest)

theorem lex_nil (loc : Nat) : lex order loc [] = ⟨[], loc, false, true⟩ := lex_blanks loc 0

theorem lex_reads_last {loc n : Nat} {cs : List Char} {token : Token} (h : Reads order token cs) :
    lex order loc (blanks n ++ cs) =
      ⟨[⟨loc + n, n != 0, token⟩], loc + n + cs.length, false, true⟩ := by
  have hlex := @lex_reads order loc n cs [] token h breaks_nil
  rwa [lex_nil, List.append_nil] at hlex

end Lex

/-! ### Phrases -/

section Written
variable {order : List Opcode}

theorem breaks_blanks (n : Nat) {rest : List Char} (hrest : Breaks rest) :
    Breaks (blanks n ++ rest) := by
  cases n with
  | zero => exact hrest
  | succ n => exact breaks_cons.2 rfl

theorem Separator.breaks {between : List Char} (h : Separator between) (rest : List Char) :
    Breaks (between ++ rest) := by
  cases h with
  | spaces n => exact breaks_cons.2 rfl
  | comma before after =>
    rw [List.append_assoc]
    exact breaks_blanks before (breaks_cons.2 rfl)

theorem Value.value?_token (v : Value) : v.token.value? = some v := Token.value?_eq_some_iff.2 rfl

theorem Value.tokenRead_ne_comma (v : Value) (digits : Option Nat) : v.tokenRead digits ≠ .comma := by
  cases digits with
  | none => cases v <;> nofun
  | some digits => nofun

theorem RowWritten.head?_ne_comma {loc start n : Nat} {os : List Operand} {cs : List Char}
    {unread : Unread} (h : RowWritten loc os cs unread) :
    ∀ l, (lex order start (blanks n ++ cs)).lexemes.head? = some l → l.token ≠ .comma := by
  cases h with
  | @last _ v _ digits hv =>
    rw [lex_reads_last (hv.reads order)]
    rintro l ⟨⟩
    exact v.tokenRead_ne_comma digits
  | @more _ v _ _ _ _ digits _ hv hbetween hrest =>
    rw [lex_reads (hv.reads order) (hbetween.breaks _)]
    rintro l ⟨⟩
    exact v.tokenRead_ne_comma digits

/-- What is left when a written phrase is read: nothing, or the first number that is not read, and what
is behind it. -/
def Left (unread : Unread) (rest : List Lexeme) : Prop :=
  match unread with
  | none => rest = []
  | some (loc, digits) => ∃ spaced more, rest = ⟨loc, spaced, .overlong digits⟩ :: more

theorem Left.not_overlongNext {rest : List Lexeme} (h : Left none rest) : ¬ overlongNext rest = true := by
  rw [show rest = [] from h]
  exact nofun

/-- A written row is read to its end, or to the first number that is not read. -/
theorem RowWritten.values_eq {loc start n : Nat} {os : List Operand} {cs : List Char} {unread : Unread}
    (h : RowWritten loc os cs unread) (hloc : start + n = loc) :
    let lexed := lex order start (blanks n ++ cs)
    Left unread (values lexed.lexemes).2 ∧
      (unread = none → (values lexed.lexemes).1 = os ∧ lexed.stop.atEnd = true) := by
  induction h generalizing start n with
  | @last loc v cs digits hv =>
    rw [lex_reads_last (hv.reads order), hloc]
    dsimp only
    cases digits with
    | none =>
      rw [@values_cons ⟨loc, n != 0, v.tokenRead none⟩ v [] v.value?_token nofun]
      exact ⟨rfl, fun _ => ⟨rfl, rfl⟩⟩
    | some digits =>
      rw [@values_of_none ⟨loc, n != 0, v.tokenRead (some digits)⟩ rfl]
      exact ⟨⟨_, [], rfl⟩, nofun⟩
  | @more loc v os cs between rest digits unread hv hbetween hrest ih =>
    rw [lex_reads (hv.reads order) (hbetween.breaks rest), hloc]
    dsimp only
    cases digits with
    | some digits =>
      rw [@values_of_none ⟨loc, n != 0, v.tokenRead (some digits)⟩ rfl]
      exact ⟨⟨_, _, rfl⟩, nofun⟩
    | none =>
      cases hbetween with
      | spaces k =>
        have hlength : (blanks (k + 1)).length = k + 1 := List.length_replicate
        obtain ⟨hleft, hread⟩ := @ih (loc + cs.length) (k + 1) (by omega)
        rw [@values_cons ⟨loc, n != 0, v.tokenRead none⟩ v _ v.value?_token hrest.head?_ne_comma]
        exact ⟨hleft, fun hnone => ⟨congrArg _ (hread hnone).1, (hread hnone).2⟩⟩
      | comma before after =>
        have hlength : (blanks before ++ ',' :: blanks after).length = before + 1 + after := by
          simp [blanks]
          omega
        obtain ⟨hleft, hread⟩ := @ih (loc + cs.length + before + 1) after (by omega)
        rw [List.append_assoc, List.cons_append, lex_symbol rfl (by decide) Token.read?_comma,
          @values_comma ⟨loc, n != 0, v.tokenRead none⟩ _ v v.value?_token rfl]
        exact ⟨hleft, fun hnone => ⟨congrArg _ (hread hnone).1, (hread hnone).2⟩⟩

theorem RowWritten.ne_nil {loc : Nat} {os : List Operand} {cs : List Char} {unread : Unread}
    (h : RowWritten loc os cs unread) : os ≠ [] := by
  cases h <;> exact List.cons_ne_nil _ _

/-- The tokens are read to their end as what was written; or else the error is what starts with the first
number that is not read. -/
def ReadThrough {α : Type} (unread : Unread) (written : α) (lexed : Lexed)
    (read : Except (List Lexeme) (α × List Lexeme)) : Prop :=
  match unread with
  | none => read = .ok (written, []) ∧ lexed.stop.atEnd = true
  | some (loc, digits) => ∃ spaced more, read = .error (⟨loc, spaced, .overlong digits⟩ :: more)

/-- A row with nothing left is read through; one with a number left that is not read ends there. -/
theorem Left.readThrough {unread : Unread} {rest : List Lexeme} (h : Left unread rest) {p : Prop}
    [Decidable p] {s s' : Statement} {lexed : Lexed} (hover : overlongNext rest = true → p)
    (hread : unread = none → ¬ p ∧ s' = s ∧ lexed.stop.atEnd = true) :
    ReadThrough unread (some s) lexed (if p then .error rest else .ok (some s', rest)) := by
  cases unread with
  | none =>
    obtain ⟨hp, rfl, hend⟩ := hread rfl
    rw [if_neg hp, show rest = [] from h]
    exact ⟨rfl, hend⟩
  | some left =>
    obtain ⟨spaced, more, rfl⟩ := h
    rw [if_pos (hover rfl)]
    exact ⟨spaced, more, rfl⟩

/-- A command that is read through completes its line, behind a label or without one. -/
theorem ReadThrough.completes {unread : Unread} {first : Option Statement} {s : Statement}
    {lexed lexed' : Lexed} {ls rest : List Lexeme} (h : ReadThrough unread (some s) lexed (command rest))
    (hlabel : label ls = (first, rest)) (hstop : lexed'.stop = lexed.stop) :
    ReadThrough unread (first.toList ++ [s]) lexed' (line ls) := by
  cases unread with
  | none =>
    obtain ⟨hread, hend⟩ := h
    simp only [line, hlabel, hread]
    exact ⟨rfl, hstop ▸ hend⟩
  | some left =>
    obtain ⟨spaced, more, hread⟩ := h
    simp only [line, hlabel, hread]
    exact ⟨spaced, more, rfl⟩

/-- A written command is read through; it starts with no label. -/
theorem CommandWritten.command_eq (horder : ∀ op, op ∈ order) {loc start n : Nat} {c : Command}
    {cs : List Char} {unread : Unread} (h : CommandWritten loc c cs unread) (hloc : start + n = loc) :
    let lexed := lex order start (blanks n ++ cs)
    ReadThrough unread (some ⟨loc, c⟩) lexed (command lexed.lexemes) ∧
      label lexed.lexemes = (none, lexed.lexemes) := by
  subst hloc
  have hrow {k : Nat} {os : List Operand} {letters cs : List Char} {unread : Unread}
      (h : RowWritten (start + n + letters.length + (k + 1)) os cs unread) :=
    @RowWritten.values_eq order _ (start + n + letters.length) (k + 1) os cs unread h (by omega)
  cases h with
  | bare hletters =>
    rw [lex_reads_last (reads_mnemonic order (horder _) hletters)]
    exact ⟨⟨rfl, rfl⟩, label_of_ne_name (by simp) _⟩
  | @instruction k op os letters cs _ hletters h =>
    obtain ⟨hleft, hread⟩ := hrow h
    have hbreaks : Breaks (blanks (k + 1) ++ cs) := breaks_cons.2 rfl
    rw [lex_reads (reads_mnemonic order (horder _) hletters) hbreaks]
    refine ⟨?_, label_of_ne_name (by simp) _⟩
    rw [command_mnemonic]
    refine hleft.readThrough id fun hnone => ?_
    obtain ⟨hos, hend⟩ := hread hnone
    subst hnone
    exact ⟨hleft.not_overlongNext, by rw [hos], hend⟩
  | @data k vs letters cs _ hletters h =>
    obtain ⟨hleft, hread⟩ := hrow h
    have hbreaks : Breaks (blanks (k + 1) ++ cs) := breaks_cons.2 rfl
    rw [lex_reads (reads_data order hletters) hbreaks]
    refine ⟨?_, label_of_ne_name (by simp) _⟩
    rw [command_data]
    refine hleft.readThrough .inr fun hnone => ?_
    obtain ⟨hvs, hend⟩ := hread hnone
    subst hnone
    rw [hvs]
    exact ⟨not_or.2 ⟨h.ne_nil, hleft.not_overlongNext⟩, rfl, hend⟩

/-- A label is read, and what is behind its colon. -/
theorem lex_label {x : String} (hx : IsName x) (loc : Nat) (rest : List Char) :
    lex order loc (x.toList ++ ':' :: rest) =
      let more := lex order (loc + x.toList.length + 1) rest
      ⟨⟨loc, false, .name x⟩ :: ⟨loc + x.toList.length, false, .colon⟩ :: more.lexemes, more.stop⟩ := by
  have hbreaks : Breaks (':' :: rest) := breaks_cons.2 rfl
  have hname : lex order loc (x.toList ++ ':' :: rest) =
      let more := lex order (loc + x.toList.length) (':' :: rest)
      ⟨⟨loc, false, .name x⟩ :: more.lexemes, more.stop⟩ :=
    @lex_reads order loc 0 _ _ _ (reads_name order hx) hbreaks
  have hcolon : lex order (loc + x.toList.length) (':' :: rest) =
      let more := lex order (loc + x.toList.length + 1) rest
      ⟨⟨loc + x.toList.length, false, .colon⟩ :: more.lexemes, more.stop⟩ :=
    @lex_symbol order (loc + x.toList.length) 0 ':' rest .colon rfl (by decide) Token.read?_colon
  rw [hname, hcolon]

/-- A written line is read through. -/
theorem LineWritten.line_eq (horder : ∀ op, op ∈ order) {loc : Nat} {ss : List Statement}
    {cs : List Char} {unread : Unread} (h : LineWritten loc ss cs unread) :
    ReadThrough unread ss (lex order loc cs) (line (lex order loc cs).lexemes) := by
  cases h with
  | empty =>
    rw [lex_nil]
    exact ⟨rfl, rfl⟩
  | @command c _ _ h =>
    obtain ⟨hcommand, hlabel⟩ := @CommandWritten.command_eq order horder _ loc 0 _ _ _ h rfl
    exact hcommand.completes hlabel rfl
  | label hx n =>
    rw [lex_label hx, lex_blanks]
    exact ⟨rfl, rfl⟩
  | @labelled n x c cs _ hx h =>
    obtain ⟨hcommand, -⟩ :=
      @CommandWritten.command_eq order horder _ (loc + x.toList.length + 1) n _ _ _ h rfl
    rw [lex_label hx]
    have hlabel := @label_colon loc false x ⟨loc + x.toList.length, false, .colon⟩
      (lex order (loc + x.toList.length + 1) (blanks n ++ cs)).lexemes rfl
    exact hcommand.completes hlabel rfl

end Written

/-! ### Lines -/

/-- The characters that writing puts on a line: neither a newline nor a tab. -/
def OneLine (cs : List Char) : Prop := ∀ c ∈ cs, c ≠ '\n' ∧ c ≠ '\t'

instance (cs : List Char) : Decidable (OneLine cs) :=
  List.decidableBAll (fun c => c ≠ '\n' ∧ c ≠ '\t') cs

theorem oneLine_nil : OneLine [] := nofun

theorem oneLine_cons {c : Char} {cs : List Char} :
    OneLine (c :: cs) ↔ (c ≠ '\n' ∧ c ≠ '\t') ∧ OneLine cs := List.forall_mem_cons

theorem oneLine_append {cs cs' : List Char} : OneLine (cs ++ cs') ↔ OneLine cs ∧ OneLine cs' :=
  List.forall_mem_append

theorem oneLine_blanks (n : Nat) : OneLine (blanks n) := by
  intro c hc
  rw [(List.mem_replicate.1 hc).2]
  decide

theorem oneLine_of_class {p : Char → Bool} (hn : p '\n' = false) (ht : p '\t' = false) {cs : List Char}
    (h : ∀ c ∈ cs, p c = true) : OneLine cs := by
  intro c hc
  have hp := h c hc
  constructor
  · rintro rfl
    rw [hn] at hp
    cases hp
  · rintro rfl
    rw [ht] at hp
    cases hp

theorem oneLine_escaped {quote : Char} (hquote : quote ≠ '\n' ∧ quote ≠ '\t') (c : Char) :
    OneLine (escaped quote c) := by
  unfold escaped
  split
  · rename_i hc
    have : c ≠ '\n' ∧ c ≠ '\t' := by
      rcases hc with rfl | rfl
      · decide
      · exact hquote
    exact oneLine_cons.2 ⟨by decide, oneLine_cons.2 ⟨this, oneLine_nil⟩⟩
  · split
    · decide
    · rename_i hn
      split
      · decide
      · split
        · decide
        · rename_i ht
          exact oneLine_cons.2 ⟨⟨hn, ht⟩, oneLine_nil⟩

theorem oneLine_quotedWith {quote : Char} (hquote : quote ≠ '\n' ∧ quote ≠ '\t') (s : String) :
    OneLine (quotedWith quote s) := by
  refine oneLine_cons.2 ⟨hquote, oneLine_append.2 ⟨?_, oneLine_cons.2 ⟨hquote, oneLine_nil⟩⟩⟩
  intro c hc
  obtain ⟨d, -, hd⟩ := List.mem_flatMap.1 hc
  exact oneLine_escaped hquote d c hd

theorem IsName.oneLine {x : String} (h : IsName x) : OneLine x.toList := by
  obtain ⟨c, cs, hx, hc, hcs⟩ := h.word
  have hall : ∀ d ∈ c :: cs, isNameChar d = true :=
    List.forall_mem_cons.2 ⟨isNameChar_of_isNameStart hc, hcs⟩
  rw [hx]
  exact oneLine_of_class (by decide) (by decide) hall

theorem ValueWritten.oneLine {v : Value} {cs : List Char} {digits : Option Nat}
    (h : ValueWritten v cs digits) : OneLine cs := by
  cases h with
  | @register r letter h =>
    have hdigit : ∀ r : Register, isNameChar r.val.digitChar = true := by decide
    have hletter : isNameChar letter = true := by
      rcases h with rfl | rfl <;> decide
    exact oneLine_of_class (p := isNameChar) (by decide) (by decide) (by simp [hletter, hdigit])
  | decimal zeros n => exact oneLine_of_class (by decide) (by decide) (isDigit_of_mem_decimal zeros n)
  | @hexadecimal zeros n x digits hx h =>
    have hline := oneLine_of_class (by decide) (by decide) (isHexDigit_of_mem_hexadecimal h)
    have hletter : x ≠ '\n' ∧ x ≠ '\t' := by
      rcases hx with rfl | rfl <;> decide
    exact oneLine_cons.2 ⟨by decide, oneLine_cons.2 ⟨hletter, hline⟩⟩
  | char s => exact oneLine_quotedWith (by decide) s
  | text s => exact oneLine_quotedWith (by decide) s
  | label h => exact h.oneLine

theorem Separator.oneLine {cs : List Char} (h : Separator cs) : OneLine cs := by
  cases h with
  | spaces n => exact oneLine_blanks (n + 1)
  | comma before after =>
    exact oneLine_append.2 ⟨oneLine_blanks before, oneLine_cons.2 ⟨by decide, oneLine_blanks after⟩⟩

theorem RowWritten.oneLine {loc : Nat} {os : List Operand} {cs : List Char} {unread : Unread}
    (h : RowWritten loc os cs unread) : OneLine cs := by
  induction h with
  | last hv => exact hv.oneLine
  | more hv hbetween hrest ih =>
    exact oneLine_append.2 ⟨hv.oneLine, oneLine_append.2 ⟨hbetween.oneLine, ih⟩⟩

theorem Spells.oneLine {letters word : List Char} (h : Spells letters word) (hword : OneLine word) :
    OneLine letters := by
  intro c hc
  have hupper : c.toUpper ∈ word := h ▸ List.mem_map_of_mem hc
  constructor
  · rintro rfl
    exact (hword _ hupper).1 (by decide)
  · rintro rfl
    exact (hword _ hupper).2 (by decide)

theorem oneLine_name (op : Opcode) : OneLine op.name.toList :=
  oneLine_of_class (by decide) (by decide) (isUpper_of_mem_name op)

theorem CommandWritten.oneLine {loc : Nat} {c : Command} {cs : List Char} {unread : Unread}
    (h : CommandWritten loc c cs unread) : OneLine cs := by
  cases h with
  | bare hletters => exact hletters.oneLine (oneLine_name _)
  | instruction hletters hrow =>
    exact oneLine_append.2 ⟨hletters.oneLine (oneLine_name _),
      oneLine_append.2 ⟨oneLine_blanks _, hrow.oneLine⟩⟩
  | data hletters hrow =>
    have hword : OneLine dataWord := by decide
    exact oneLine_append.2 ⟨hletters.oneLine hword,
      oneLine_append.2 ⟨oneLine_blanks _, hrow.oneLine⟩⟩

theorem LineWritten.oneLine {loc : Nat} {ss : List Statement} {cs : List Char} {unread : Unread}
    (h : LineWritten loc ss cs unread) : OneLine cs := by
  cases h with
  | empty => exact oneLine_nil
  | command h => exact h.oneLine
  | label hx n =>
    exact oneLine_append.2 ⟨hx.oneLine, oneLine_cons.2 ⟨by decide, oneLine_blanks n⟩⟩
  | labelled hx h =>
    exact oneLine_append.2 ⟨hx.oneLine,
      oneLine_cons.2 ⟨by decide, oneLine_append.2 ⟨oneLine_blanks _, h.oneLine⟩⟩⟩

/-! ### Programs -/

/-- What is written; or, if a number in it has too many digits, the refusal for the first such one. -/
def readOf {α : Type} (unread : Unread) (written : α) : Except SyntaxError α :=
  match unread with
  | none => .ok written
  | some (loc, digits) => .error (.overlong loc digits)

/-- The first of two texts that is refused is refused for both. -/
theorem readOf_append {α : Type} (unread unread' : Unread) (first second : List α) :
    readOf (unread.or unread') (first ++ second) =
      (readOf unread first).bind fun ss => (readOf unread' second).map (ss ++ ·) := by
  cases unread with
  | some => rfl
  | none => cases unread' <;> rfl

theorem LineWritten.newline_not_mem {loc : Nat} {ss : List Statement} {cs : List Char}
    {unread : Unread} (h : LineWritten loc ss cs unread) : '\n' ∉ cs :=
  fun hmem => (h.oneLine _ hmem).1 rfl

theorem LineWritten.statements_eq {order : List Opcode} (horder : ∀ op, op ∈ order) {loc : Nat}
    {ss : List Statement} {cs : List Char} {unread : Unread} (h : LineWritten loc ss cs unread) :
    (lex order loc cs).statements = readOf unread ss := by
  have hline := h.line_eq horder
  rw [Lexed.statements, program_eq_line (ne_newline_of_mem_lex h.newline_not_mem)]
  cases unread with
  | none =>
    obtain ⟨hread, hend⟩ := hline
    rw [hread, hend]
    rfl
  | some left =>
    obtain ⟨spaced, more, hread⟩ := hline
    rw [hread]
    rfl

theorem ProgramWritten.tab_not_mem {loc : Nat} {ss : List Statement} {cs : List Char} {unread : Unread}
    (h : ProgramWritten loc ss cs unread) : '\t' ∉ cs := by
  induction h with
  | last h => exact fun hmem => (h.oneLine _ hmem).2 rfl
  | more h hrest ih =>
    rw [List.mem_append, List.mem_cons, not_or, not_or]
    exact ⟨fun hmem => (h.oneLine _ hmem).2 rfl, by decide, ih⟩

/-- The tokens of a written program are those of its lines, with newlines between them. -/
theorem ProgramWritten.statements_eq {order : List Opcode} (horder : ∀ op, op ∈ order) {loc : Nat}
    {ss : List Statement} {cs : List Char} {unread : Unread} (h : ProgramWritten loc ss cs unread) :
    (lex order loc cs).statements = readOf unread ss := by
  induction h with
  | last h => exact h.statements_eq horder
  | @more loc ss more cs rest unread unread' h hrest ih =>
    have hnone := @ne_newline_of_mem_lex order loc cs h.newline_not_mem
    rw [lex_newline h.newline_not_mem, statements_followedBy hnone, h.statements_eq horder, ih,
      readOf_append]

theorem ProgramWritten.parse_eq {program : List Statement} {cs : List Char} {unread : Unread}
    (h : ProgramWritten 0 program cs unread) : parse (String.ofList cs) = readOf unread program := by
  rw [parse, String.toList_ofList, expandTabs, expandTabsFrom_of_no_tab 0 h.tab_not_mem, parseIn_eq,
    h.statements_eq Opcode.mem_all]

/-- A written program is read as what was written, each part of it where it stands; but if a decimal
number in it has too many digits, the source is refused at the first such number. -/
theorem written_program_is_read {program : List Statement} {cs : List Char} {unread : Unread}
    (h : ProgramWritten 0 program cs unread) :
    Rule.program.parse (String.ofList cs) = readOf unread (program.map Node.statement) := by
  rw [Rule.parse_program, h.parse_eq]
  cases unread <;> rfl

theorem isName_again : IsName "Again_1" where
  word := ⟨'A', "gain_1".toList, by decide, by decide, List.all_eq_true.1 (by decide)⟩
  noMnemonic := by
    intro op
    unfold Spells
    cases op <;> decide
  noRegister := by
    unfold Spells
    decide

/-- A labelled instruction, an empty line and a row of data. -/
theorem written_program_is_read_of_rows :
    Rule.program.parse "Again_1:  Add R1,0x0f 'x'\n\n.Data 007 , \"a;\\\"\" Again_1" =
      .ok [.statement ⟨0, .label "Again_1"⟩,
        .statement ⟨10, .instruction .add [⟨14, .register 1⟩, ⟨17, .number 15⟩, ⟨22, .char "x"⟩]⟩,
        .statement ⟨27, .data [⟨33, .number 7⟩, ⟨39, .text "a;\""⟩, ⟨46, .label "Again_1"⟩]⟩] := by
  have hfifteen : ValueWritten (.number 15) ['0', 'x', '0', 'f'] none :=
    @ValueWritten.hexadecimal 1 15 'x' ['0', 'f'] (.inl rfl) (by decide)
  have hseven : ValueWritten (.number 7) ['0', '0', '7'] none := .decimal 2 7
  have hadd : RowWritten 14 [⟨14, .register 1⟩, ⟨17, .number 15⟩, ⟨22, .char "x"⟩] _ none :=
    .more (.register (.inr rfl)) (.comma 0 0) (.more hfifteen (.spaces 0) (.last (.char "x")))
  have hdata : RowWritten 33 [⟨33, .number 7⟩, ⟨39, .text "a;\""⟩, ⟨46, .label "Again_1"⟩] _ none :=
    .more hseven (.comma 1 1) (.more (.text _) (.spaces 0) (.last (.label isName_again)))
  have hspelled : Spells ['A', 'd', 'd'] Opcode.add.name.toList := by
    unfold Spells
    decide
  have hword : Spells ['.', 'D', 'a', 't', 'a'] dataWord := by
    unfold Spells
    decide
  have hfirst : LineWritten 0 _ _ none :=
    .labelled (n := 2) isName_again (.instruction (n := 0) hspelled hadd)
  have hlast : LineWritten 27 _ _ none := .command (.data (n := 0) hword hdata)
  have hread := written_program_is_read (.more hfirst (.more .empty (.last hlast)))
  refine (congrArg Rule.program.parse ?_).trans hread
  decide +kernel

/-- a row of data with a seven behind a great many zeros -/
def manyZeros : List Char := ['.', 'd', 'a', 't', 'a', ' '] ++ (List.replicate 4300 '0' ++ ['7'])

theorem manyZeros_row : CommandWritten 0 (.data [⟨6, .number 7⟩]) manyZeros (some (6, 4301)) := by
  have hunread : unread? (List.replicate 4300 '0' ++ Nat.toDigits 10 7).length = some 4301 := by
    rw [List.length_append, List.length_replicate]
    rfl
  have hseven := ValueWritten.decimal 4300 7
  rw [hunread] at hseven
  have hword : Spells ['.', 'd', 'a', 't', 'a'] dataWord := by
    unfold Spells
    decide
  exact .data (n := 0) hword (.last hseven)

theorem parse_manyZeros : parse (String.ofList manyZeros) = .error (.overlong 6 4301) :=
  ProgramWritten.parse_eq (.last (.command manyZeros_row))

/-- The zeros in front of a number count as its digits, and so a seven may be refused. -/
theorem zeros_are_counted :
    ProgramWritten 0 [⟨0, .data [⟨6, .number 7⟩]⟩] manyZeros (some (6, 4301)) ∧
      Rule.program.parse (String.ofList manyZeros) = .error (.overlong 6 4301) := by
  refine ⟨.last (.command manyZeros_row), ?_⟩
  rw [Rule.parse_program, parse_manyZeros]
  rfl

end WordMachine.Asm
