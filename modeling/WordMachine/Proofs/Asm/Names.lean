import WordMachine.Asm.Rule
import WordMachine.Proofs.Asm.Layout
import WordMachine.Proofs.Asm.ReadBack

/-! Names and keywords. A name ends before a dollar sign and before a letter that is not of ASCII, but
a keyword does not end there if the capital of that letter is. So the letters of a mnemonic can be
read as a name there. Nothing that may follow a name starts with such a character, though, and so no
program has a name that is a keyword. -/

namespace WordMachine.Asm

/-! ### Where a name ends but no keyword does -/

/-- The characters that end a name but no keyword. -/
def Sticks (d : Char) : Prop := d = '$' ∨ d = 'ı' ∨ d = 'ſ'

theorem sticks_of_isKeywordChar {d : Char} (hkeyword : isKeywordChar d = true)
    (hname : isNameChar d = false) : Sticks d := by
  by_cases hi : d = 'ı'
  · exact .inr (.inl hi)
  by_cases hs : d = 'ſ'
  · exact .inr (.inr hs)
  have hcapital : capital d = d.toUpper := by rw [capital, if_neg hi, if_neg hs]
  simp only [isKeywordChar, hcapital, Char.isUpper_toUpper_eq_isAlpha, Bool.or_eq_true,
    beq_iff_eq] at hkeyword
  simp only [isNameChar, Char.isAlphanum, Bool.or_eq_false_iff, beq_eq_false_iff_ne] at hname
  obtain ⟨⟨halpha, hdigit⟩, hunderscore⟩ := hname
  rcases hkeyword with ((h | h) | h) | h
  · rw [halpha] at h
    cases h
  · rw [hdigit] at h
    cases h
  · exact absurd h hunderscore
  · exact .inl h

theorem Sticks.isKeywordChar {d : Char} (h : Sticks d) : isKeywordChar d = true := by
  rcases h with rfl | rfl | rfl <;> decide

theorem Sticks.isNameChar {d : Char} (h : Sticks d) : isNameChar d = false := by
  rcases h with rfl | rfl | rfl <;> decide

section Word
variable {letters word rest : List Char}

/-- The letters of a keyword are taken off the text, whatever follows them. -/
theorem afterLetters?_of_spells (hletters : ∀ c ∈ letters, isNameChar c = true)
    (h : Spells letters word) : afterLetters? word (letters ++ rest) = some rest := by
  subst h
  induction letters with
  | nil => rfl
  | cons c letters ih =>
    rw [List.forall_mem_cons] at hletters
    simp only [List.map_cons, List.cons_append, afterLetters?,
      if_pos (capital_of_isNameChar hletters.1)]
    exact ih hletters.2

end Word

section Read
variable {order : List Opcode} {c : Char} {tail : List Char} {x : String} {n : Nat}

/-- What is read as a name is a word that is no keyword where it stands. -/
structure ReadName (order : List Opcode) (c : Char) (tail : List Char) (x : String) (n : Nat) :
    Prop where
  start : isNameStart c = true
  letters : x.toList = c :: tail.takeWhile isNameChar
  length : n = (tail.takeWhile isNameChar).length
  noRegister : register? c tail = none
  noMnemonic : mnemonic? order (c :: tail) = none

theorem readName_of_read? (h : Token.read? order c tail = some (.name x, n)) :
    ReadName order c tail x n := by
  cases Token.taken_of_read? h with
  | name hc hregister hmnemonic => exact ⟨hc, String.toList_ofList, rfl, hregister, hmnemonic⟩

theorem ReadName.drop (h : ReadName order c tail x n) : tail.drop n = tail.dropWhile isNameChar := by
  rw [h.length, drop_length_takeWhile]

theorem ReadName.append (h : ReadName order c tail x n) : x.toList ++ tail.drop n = c :: tail := by
  rw [h.letters, h.drop, List.cons_append, List.takeWhile_append_dropWhile]

theorem ReadName.isNameChar (h : ReadName order c tail x n) : ∀ d ∈ x.toList, isNameChar d = true := by
  rw [h.letters, List.forall_mem_cons]
  exact ⟨isNameChar_of_isNameStart h.start, fun d hd => List.mem_takeWhile_imp hd⟩

theorem letter_of_toUpper {c : Char} (hc : Asm.isNameChar c = true) (h : c.toUpper = 'R') :
    c = 'r' ∨ c = 'R' :=
  forall_ascii (fun c => Asm.isNameChar c = true → c.toUpper = 'R' → c = 'r' ∨ c = 'R')
    (by decide +kernel) (toNat_lt_of_isNameChar hc) hc h

theorem digit_of_toUpper {d : Char} (hd : Asm.isNameChar d = true) {r : Register}
    (h : d.toUpper = r.val.digitChar) : (d.toNat - 48 : Int) = r.val :=
  forall_ascii (fun d => Asm.isNameChar d = true → ∀ r : Register, d.toUpper = r.val.digitChar →
    (d.toNat - 48 : Int) = r.val) (by decide +kernel) (toNat_lt_of_isNameChar hd) hd r h

/-- A register is read wherever a word spells it. -/
theorem register?_of_spells {r : Register} (hc : isNameStart c = true)
    (h : Spells (c :: tail.takeWhile Asm.isNameChar) ['R', r.val.digitChar]) :
    register? c tail = some r := by
  obtain ⟨hletter, hdigit⟩ := List.cons.inj h
  cases tail with
  | nil => cases hdigit
  | cons d ds =>
    by_cases hd : Asm.isNameChar d = true
    · rw [List.takeWhile_cons_of_pos hd] at hdigit
      obtain ⟨hdigit, hds⟩ := List.cons.inj hdigit
      have hends : (ds.head?.map Asm.isNameChar).getD false = false := by
        cases ds with
        | nil => rfl
        | cons e es =>
          rw [List.map_eq_nil_iff, List.takeWhile_cons] at hds
          split at hds
          · cases hds
          · rename_i he
            exact Bool.eq_false_iff.2 he
      simp only [register?, letter_of_toUpper (isNameChar_of_isNameStart hc) hletter, if_true, hends,
        Bool.false_eq_true, if_false]
      exact Register.ofInt?_eq_some_iff.2 (digit_of_toUpper hd hdigit)
    · rw [List.takeWhile_cons_of_neg hd] at hdigit
      cases hdigit

/-- A name spells a mnemonic only where a character follows that sticks to keywords. -/
theorem ReadName.sticks (h : ReadName order c tail x n) {op : Opcode} (hop : op ∈ order)
    (hspells : Spells x.toList op.name.toList) : ∃ d rest, tail.drop n = d :: rest ∧ Sticks d := by
  have hafter := @afterLetters?_of_spells _ _ (tail.drop n) h.isNameChar hspells
  rw [h.append] at hafter
  have hstarts := List.find?_eq_none.1 h.noMnemonic op hop
  simp only [startsWith, hafter, Bool.not_eq_true', Bool.not_eq_false] at hstarts
  cases hrest : tail.drop n with
  | nil =>
    rw [hrest] at hstarts
    cases hstarts
  | cons d rest =>
    rw [hrest] at hstarts
    have hends := List.head?_dropWhile_not Asm.isNameChar tail
    rw [← h.drop, hrest] at hends
    exact ⟨d, rest, rfl, sticks_of_isKeywordChar hstarts hends⟩

theorem ReadName.isName_or_sticks (horder : ∀ op, op ∈ order) (h : ReadName order c tail x n) :
    IsName x ∨ ∃ d rest, tail.drop n = d :: rest ∧ Sticks d := by
  by_cases hmnemonic : ∃ op : Opcode, Spells x.toList op.name.toList
  · obtain ⟨op, hop⟩ := hmnemonic
    exact .inr (h.sticks (horder op) hop)
  · refine .inl ⟨⟨c, _, h.letters, h.start, fun d hd => List.mem_takeWhile_imp hd⟩,
      fun op hop => hmnemonic ⟨op, hop⟩, ?_⟩
    intro r hr
    have hread := register?_of_spells h.start (h.letters ▸ hr)
    rw [h.noRegister] at hread
    cases hread

/-- A character that sticks to keywords starts a keyword or nothing. -/
theorem Sticks.read? {d : Char} (h : Sticks d) (order : List Opcode) (rest : List Char) :
    Token.read? order d rest = none ∨ ∃ op n, Token.read? order d rest = some (.mnemonic op, n) := by
  have hregister : register? d rest = none := by
    rcases h with rfl | rfl | rfl <;> rfl
  have hstart : isNameStart d = false := by
    rcases h with rfl | rfl | rfl <;> decide
  have hread : Token.read? order d rest =
      (mnemonic? order (d :: rest)).map fun op => (.mnemonic op, op.name.length - 1) := by
    have hne : d ≠ '\n' ∧ d ≠ ':' ∧ d ≠ ',' ∧ d ≠ '"' ∧ d ≠ '\'' ∧ d ≠ '.' ∧ d.isDigit = false := by
      rcases h with rfl | rfl | rfl <;> decide
    obtain ⟨h1, h2, h3, h4, h5, h6, h7⟩ := hne
    simp only [Token.read?, h1, h2, h3, h4, h5, h6, h7, hregister, hstart, Bool.false_eq_true,
      if_false]
    cases mnemonic? order (d :: rest) <;> rfl
  rw [hread]
  cases mnemonic? order (d :: rest) with
  | none => exact .inl rfl
  | some op => exact .inr ⟨op, _, rfl⟩

theorem Sticks.gap {d : Char} (h : Sticks d) (rest : List Char) :
    (Gap.before (d :: rest)).length = 0 := by
  rcases h with rfl | rfl | rfl <;> rfl

theorem Sticks.lex {d : Char} (h : Sticks d) (order : List Opcode) (loc : Nat) (rest : List Char) :
    (lex order loc (d :: rest)).lexemes = [] ∧ (lex order loc (d :: rest)).stop.atEnd = false ∨
      ∃ next more op, (lex order loc (d :: rest)).lexemes = next :: more ∧ next.token = .mnemonic op := by
  have hdrop : (d :: rest).drop (Gap.before (d :: rest)).length = d :: rest := by
    rw [h.gap, List.drop_zero]
  rcases h.read? order rest with hread | ⟨op, n, hread⟩
  · rw [lex_of_stuck hdrop hread]
    exact .inl ⟨rfl, rfl⟩
  · rw [lex_of_read hdrop hread]
    exact .inr ⟨_, _, op, rfl, rfl⟩

/-- What is read as a name is one, unless a mnemonic or nothing at all is read right behind it. -/
theorem isName_of_lex (horder : ∀ op, op ∈ order) {loc : Nat} {cs : List Char} {l : Lexeme}
    {after : List Lexeme} (hl : l :: after <:+ (lex order loc cs).lexemes) (hx : l.token = .name x) :
    IsName x ∨ after = [] ∧ (lex order loc cs).stop.atEnd = false ∨
      ∃ next more op, after = next :: more ∧ next.token = .mnemonic op := by
  fun_induction lex order loc cs with
  | case1 | case2 => exact absurd (List.suffix_nil.1 hl) (by simp)
  | case3 loc cs gap c tail hdrop token n hread more ih =>
    rcases List.suffix_cons_iff.1 hl with heq | hmore
    · obtain ⟨rfl, rfl⟩ := List.cons.inj heq
      obtain rfl : token = .name x := hx
      rcases (readName_of_read? hread).isName_or_sticks horder with hname | ⟨d, rest, hrest, hsticks⟩
      · exact .inl hname
      · have hmore := hsticks.lex order (loc + gap.length + 1 + n) rest
        rw [← hrest] at hmore
        exact .inr hmore
    · exact ih hmore

end Read

/-! ### What may follow a name -/

/-- The statement defines the name or refers to it. -/
def Statement.Mentions (s : Statement) (x : String) : Prop :=
  s.command.label? = some x ∨ ∃ o ∈ s.command.operands, o.value = .label x

/-- No mnemonic stands at the front. -/
def NoMnemonic (ls : List Lexeme) : Prop := ∀ next op, ls.head? = some next → next.token ≠ .mnemonic op

/-- The name is one of the tokens, and no mnemonic is the next one. -/
def Named (ls : List Lexeme) (x : String) : Prop :=
  ∃ l after, l :: after <:+ ls ∧ l.token = .name x ∧ NoMnemonic after

/-- What is known of a statement that the tokens make up. -/
structure MadeOf (ls : List Lexeme) (s : Statement) : Prop where
  named : ∀ x, s.Mentions x → Named ls x
  filled : ∀ vs, s.command = .data vs → vs ≠ []

section Phrases
variable {ls ls' rest : List Lexeme}

theorem NoMnemonic.nil : NoMnemonic [] := by
  intro next op h
  cases h

theorem noMnemonic_cons {l : Lexeme} (h : ∀ op, l.token ≠ .mnemonic op) : NoMnemonic (l :: ls) := by
  rintro next op ⟨⟩
  exact h op

theorem Named.of_suffix {x : String} (h : Named ls x) (hls : ls <:+ ls') : Named ls' x := by
  obtain ⟨l, after, hl, hx, hafter⟩ := h
  exact ⟨l, after, hl.trans hls, hx, hafter⟩

theorem MadeOf.of_suffix {s : Statement} (h : MadeOf ls s) (hls : ls <:+ ls') : MadeOf ls' s :=
  ⟨fun x hx => (h.named x hx).of_suffix hls, h.filled⟩

theorem name_of_value? {token : Token} {x : String} (h : token.value? = some (.label x)) :
    token = .name x :=
  Token.value?_eq_some_iff.1 h

theorem named_of_values (hrest : NoMnemonic (values ls).2) :
    ∀ o ∈ (values ls).1, ∀ x, o.value = .label x → Named ls x := by
  fun_induction values ls with
  | case1 => simp
  | case2 l ls hv => simp
  | case3 l v hv =>
    intro o ho x hx
    obtain rfl := List.mem_singleton.1 ho
    exact ⟨l, [], List.suffix_refl _, name_of_value? (hx ▸ hv), .nil⟩
  | case4 l v hv next rest hcomma more ih =>
    intro o ho x hx
    rcases List.mem_cons.1 ho with rfl | ho
    · refine ⟨l, next :: rest, List.suffix_refl _, name_of_value? (hx ▸ hv), noMnemonic_cons ?_⟩
      simp [hcomma]
    · exact (ih hrest o ho x hx).of_suffix ((List.suffix_cons next rest).trans (List.suffix_cons l _))
  | case5 l v hv next rest hcomma more ih =>
    intro o ho x hx
    rcases List.mem_cons.1 ho with rfl | ho
    · refine ⟨l, next :: rest, List.suffix_refl _, name_of_value? (hx ▸ hv), noMnemonic_cons ?_⟩
      -- a mnemonic would be left over, at the front of what is behind the values
      intro op hop
      have hnone : next.token.value? = none := by rw [hop]; rfl
      simp only [more, values_of_none hnone] at hrest
      exact hrest next op rfl hop
    · exact (ih hrest o ho x hx).of_suffix (List.suffix_cons l _)

theorem madeOf_of_command {s : Statement} (h : command ls = .ok (some s, rest))
    (hrest : NoMnemonic rest) : MadeOf ls s := by
  rcases command_cases h with ⟨loc, spaced, op, more, rfl, rfl, hs⟩ |
    ⟨loc, spaced, more, rfl, hne, rfl, hs⟩ | ⟨hs, -⟩
  · cases hs
    refine ⟨?_, by simp⟩
    rintro x (hlabel | ⟨o, ho, hx⟩)
    · cases hlabel
    · exact (named_of_values hrest o ho x hx).of_suffix (List.suffix_cons _ _)
  · cases hs
    refine ⟨?_, ?_⟩
    · rintro x (hlabel | ⟨o, ho, hx⟩)
      · cases hlabel
      · exact (named_of_values hrest o ho x hx).of_suffix (List.suffix_cons _ _)
    · rintro _ ⟨⟩
      exact hne
  · cases hs

theorem madeOf_of_label {s : Statement} (h : label ls = (some s, rest)) : MadeOf ls s := by
  unfold label at h
  split at h
  · rename_i loc spaced x next more
    split at h
    · rename_i hcolon
      cases h
      refine ⟨?_, by simp⟩
      rintro y (hlabel | ⟨o, ho, -⟩)
      · obtain rfl : x = y := Option.some.inj hlabel
        refine ⟨_, _, List.suffix_refl _, rfl, noMnemonic_cons ?_⟩
        simp [hcolon]
      · cases ho
    · cases h
  · cases h

theorem madeOf_of_line {ss : List Statement} (h : line ls = .ok (ss, rest)) (hrest : NoMnemonic rest) :
    ∀ s ∈ ss, MadeOf ls s := by
  obtain ⟨second, hcommand, rfl⟩ := line_eq_ok_iff.1 h
  intro s hs
  rcases List.mem_append.1 hs with hs | hs
  · have hlabel : label ls = (some s, (label ls).2) := by
      rw [← Option.mem_toList.1 hs]
    exact madeOf_of_label hlabel
  · rw [Option.mem_toList.1 hs] at hcommand
    exact (madeOf_of_command hcommand hrest).of_suffix (label_suffix ls)

theorem madeOf_of_program {ss : List Statement} (h : program ls = .ok (ss, rest))
    (hrest : NoMnemonic rest) : ∀ s ∈ ss, MadeOf ls s := by
  fun_induction program ls generalizing ss with
  | case1 | case3 => cases h
  | case2 ls ss' hline =>
    cases h
    exact madeOf_of_line hline .nil
  | case4 ls ss' next more hline hnewline tail behind htail ih =>
    cases h
    intro s hs
    rcases List.mem_append.1 hs with hs | hs
    · exact madeOf_of_line hline (noMnemonic_cons (by simp [hnewline])) s hs
    · have hsuffix := line_suffix ls
      rw [hline] at hsuffix
      exact (ih htail s hs).of_suffix ((List.suffix_cons next more).trans hsuffix)
  | case5 ls ss' next more hline hnewline =>
    cases h
    exact madeOf_of_line hline hrest

end Phrases

theorem sound_of_parse {source : String} {ss : List Statement} (h : parse source = .ok ss) :
    ∀ s ∈ ss, (∀ x, s.Mentions x → IsName x) ∧ ∀ vs, s.command = .data vs → vs ≠ [] := by
  rw [parse, parseIn_eq, statements_eq_ok_iff] at h
  obtain ⟨hprogram, hatEnd⟩ := h
  intro s hs
  have hmade := madeOf_of_program hprogram .nil s hs
  refine ⟨?_, hmade.filled⟩
  intro x hx
  obtain ⟨l, after, hl, hlx, hafter⟩ := hmade.named x hx
  rcases isName_of_lex Opcode.mem_all hl hlx with hname | ⟨-, hstuck⟩ | ⟨next, more, op, rfl, hop⟩
  · exact hname
  · rw [hatEnd] at hstuck
    cases hstuck
  · exact absurd hop (hafter next op rfl)

/-! ### Keywords that are read as names -/

section Sticks
variable {letters : List Char} {op : Opcode} {d : Char}

/-- In front of a character that sticks to keywords, only a keyword that goes on with its capital is
read from letters. -/
theorem prefix_of_startsWith_sticks (hletters : ∀ c ∈ letters, isNameChar c = true) (hd : Sticks d)
    {word rest : List Char} (h : startsWith word (letters ++ d :: rest) = true) :
    letters.map Char.toUpper ++ [capital d] <+: word := by
  induction letters generalizing word with
  | nil =>
    cases word with
    | nil => simp [startsWith, afterLetters?, goesOn, hd.isKeywordChar] at h
    | cons w word =>
      obtain ⟨rfl, -⟩ := startsWith_cons.1 h
      exact ⟨word, rfl⟩
  | cons c letters ih =>
    rw [List.forall_mem_cons] at hletters
    cases word with
    | nil =>
      simp [startsWith, afterLetters?, goesOn, isKeywordChar_of_isNameChar hletters.1] at h
    | cons w word =>
      obtain ⟨hc, hword⟩ := startsWith_cons.1 h
      rw [capital_of_isNameChar hletters.1] at hc
      rw [List.map_cons, List.cons_append, hc, List.cons_prefix_cons]
      exact ⟨rfl, ih hletters.2 hword⟩

/-- No mnemonic is the beginning of another one. -/
theorem eq_of_name_prefix {op op' : Opcode} (h : op.name.toList <+: op'.name.toList) : op = op' := by
  have each : ∀ a ∈ Opcode.all, ∀ b ∈ Opcode.all,
      a.name.toList.isPrefixOf b.name.toList = true → a = b := by decide +kernel
  exact each op op.mem_all op' op'.mem_all (List.isPrefixOf_iff_prefix.2 h)

theorem mnemonic?_of_sticks (h : Spells letters op.name.toList) (hd : Sticks d) (rest : List Char) :
    mnemonic? Opcode.all (letters ++ d :: rest) = none := by
  have hletters : ∀ c ∈ letters, isNameChar c = true :=
    fun c hc => isNameChar_of_isAlpha (h.isAlpha (isUpper_of_mem_name op) c hc)
  refine List.find?_eq_none.2 ?_
  intro op' _ hstarts
  have hprefix := prefix_of_startsWith_sticks hletters hd hstarts
  rw [show letters.map Char.toUpper = op.name.toList from h] at hprefix
  obtain rfl := eq_of_name_prefix ((List.prefix_append _ _).trans hprefix)
  have hlength := hprefix.length_le
  rw [List.length_append] at hlength
  exact Nat.not_succ_le_self _ hlength

/-- The letters of a mnemonic, in front of a character that sticks to keywords, are read as a name. -/
theorem read?_of_sticks (h : Spells letters op.name.toList) (hd : Sticks d) (rest : List Char) :
    ∃ c tail, letters = c :: tail ∧ isNameStart c = true ∧
      Token.read? Opcode.all c (tail ++ d :: rest) =
        some (.name (String.ofList letters), tail.length) := by
  have halpha := h.isAlpha (isUpper_of_mem_name op)
  have htwo : ∀ op : Opcode, 2 ≤ op.name.toList.length := by
    intro op
    cases op <;> decide
  have hlength : 2 ≤ letters.length := by
    have := htwo op
    rwa [← h, List.length_map] at this
  rcases letters with _ | ⟨c, _ | ⟨e, tail⟩⟩
  · simp at hlength
  · simp at hlength
  have hstart : isNameStart c = true := by
    rw [isNameStart, halpha c List.mem_cons_self, Bool.true_or]
  have hname : ∀ a ∈ e :: tail, isNameChar a = true :=
    fun a ha => isNameChar_of_isAlpha (halpha a (List.mem_cons_of_mem c ha))
  have hregister : register? c (e :: tail ++ d :: rest) = none :=
    register?_of_isAlpha (halpha e (by simp)) _
  have hmnemonic : mnemonic? Opcode.all (c :: (e :: tail ++ d :: rest)) = none :=
    mnemonic?_of_sticks h hd rest
  have htake : (e :: tail ++ d :: rest).takeWhile isNameChar = e :: tail := by
    rw [List.takeWhile_append_of_pos hname, List.takeWhile_cons_of_neg (by simp [hd.isNameChar]),
      List.append_nil]
  refine ⟨c, e :: tail, rfl, hstart, ?_⟩
  rw [Token.read?_of_isNameStart hstart, hregister, hmnemonic, htake]

theorem identifier_of_sticks (h : Spells letters op.name.toList) (hd : Sticks d) (rest : List Char) :
    ∃ more, Rule.identifier.read (lex Opcode.all 0 (letters ++ d :: rest)).lexemes =
      .ok (some ([.name (String.ofList letters)], more)) := by
  obtain ⟨c, tail, rfl, hstart, hread⟩ := read?_of_sticks h hd rest
  have hblank := isBlank_of_isNameChar (isNameChar_of_isNameStart hstart)
  have hlex := @lex_token Opcode.all 0 0 c tail _ _ hblank.1 hblank.2 hread
  change ∃ more, Rule.identifier.read
    (lex Opcode.all 0 (blanks 0 ++ (c :: tail ++ d :: rest))).lexemes = _
  rw [hlex]
  exact ⟨_, rfl⟩

end Sticks

/-! ### Programs -/

/-- The names of the statement are no keywords, its values are what they are meant to be, and a row of
data is not empty. -/
structure Statement.Regular (s : Statement) : Prop where
  names : ∀ x, s.Mentions x → IsName x
  registers : ∀ o ∈ s.command.operands, ∀ r, o.value = .register r → r.val ≤ 7
  numbers : ∀ o ∈ s.command.operands, ∀ n, o.value = .number n → (0 : Int) ≤ n
  filled : ∀ vs, s.command = .data vs → vs ≠ []

/-- Names and keywords are never mixed up in a program, although the letters of a mnemonic are read
as a name in front of a character that sticks to keywords. -/
theorem names_are_no_keywords :
    (∀ source nodes, Rule.program.parse source = .ok nodes →
      ∀ node ∈ nodes, ∃ s, node = .statement s ∧ s.Regular) ∧
    (∀ (op : Opcode) (letters : List Char) (d : Char) (rest : List Char),
      Spells letters op.name.toList → Sticks d →
      ∃ more, Rule.identifier.read (lex Opcode.all 0 (letters ++ d :: rest)).lexemes =
        .ok (some ([.name (String.ofList letters)], more))) := by
  refine ⟨?_, fun op letters d rest h hd => identifier_of_sticks h hd rest⟩
  intro source nodes h node hnode
  rw [Rule.parse_program] at h
  cases hparse : parse source with
  | error e =>
    rw [hparse] at h
    cases h
  | ok ss =>
    rw [hparse] at h
    cases h
    obtain ⟨s, hs, rfl⟩ := List.mem_map.1 hnode
    obtain ⟨hnames, hfilled⟩ := sound_of_parse hparse s hs
    exact ⟨s, rfl, hnames, fun _ _ r _ => Nat.le_of_lt_succ r.isLt, fun _ _ n _ => Int.natCast_nonneg n,
      hfilled⟩

/-- A label that is jumped to, and a keyword in front of a dollar sign. -/
theorem names_are_no_keywords_of_loop :
    Rule.program.parse "a: jmp a" =
      .ok [.statement ⟨0, .label "a"⟩, .statement ⟨3, .instruction .jmp [⟨7, .label "a"⟩]⟩] ∧
    Statement.Regular ⟨0, .label "a"⟩ ∧ Statement.Regular ⟨3, .instruction .jmp [⟨7, .label "a"⟩]⟩ ∧
    ∃ more, Rule.identifier.read (lex Opcode.all 0 "Set$".toList).lexemes =
      .ok (some ([.name "Set"], more)) := by
  have hset : "Set".toList.map Char.toUpper = Opcode.set.name.toList := by decide
  have hread : Rule.program.parse "a: jmp a" =
      .ok [.statement ⟨0, .label "a"⟩, .statement ⟨3, .instruction .jmp [⟨7, .label "a"⟩]⟩] := by
    decide +kernel
  obtain ⟨label, hlabel, hregular⟩ := names_are_no_keywords.1 _ _ hread (.statement ⟨0, .label "a"⟩) (by simp)
  obtain ⟨jump, hjump, hregular'⟩ :=
    names_are_no_keywords.1 _ _ hread (.statement ⟨3, .instruction .jmp [⟨7, .label "a"⟩]⟩) (by simp)
  cases hlabel
  cases hjump
  exact ⟨hread, hregular, hregular',
    names_are_no_keywords.2 .set "Set".toList '$' [] hset (.inl rfl)⟩

end WordMachine.Asm
