import WordMachine.Asm.Token

/-! Where tokens end. A newline, a blank, a comma, a colon and a semicolon end every token but a quoted
text, and a newline ends that as well. So a token is read alike whatever stands behind such a
character. -/

namespace WordMachine.Asm

/-- The characters that no word, number or keyword goes on with. -/
def isBreak (c : Char) : Bool := c == '\n' || isBlank c || c == ',' || c == ':' || c == ';'

/-- A text in front of which every word, number or keyword ends. -/
def Breaks (rest : List Char) : Prop := ∀ c, rest.head? = some c → isBreak c = true

theorem breaks_nil : Breaks [] := nofun

theorem breaks_cons {c : Char} {cs : List Char} : Breaks (c :: cs) ↔ isBreak c = true := by
  simp [Breaks]

theorem breaks_newline (cs : List Char) : Breaks ('\n' :: cs) := breaks_cons.2 rfl

/-- The breaks, one by one. -/
def breakChars : List Char := ['\n', ' ', '\t', '\r', ',', ':', ';']

theorem isBreak_iff {c : Char} : isBreak c = true ↔ c ∈ breakChars := by
  simp only [isBreak, isBlank, breakChars, Bool.or_eq_true, beq_iff_eq, List.mem_cons, List.not_mem_nil,
    or_false, or_assoc]

/-- A class of characters that all breaks are outside of. -/
def Unbroken (p : Char → Bool) : Prop := ∀ c, isBreak c = true → p c = false

theorem unbroken_of_checks {p : Char → Bool} (h : breakChars.any p = false) : Unbroken p := by
  intro c hc
  exact eq_false_of_ne_true (List.any_eq_false.1 h c (isBreak_iff.1 hc))

theorem unbroken_isNameChar : Unbroken isNameChar := unbroken_of_checks (by decide)

theorem unbroken_isDigit : Unbroken Char.isDigit := unbroken_of_checks (by decide)

theorem unbroken_isHexDigit : Unbroken isHexDigit := unbroken_of_checks (by decide)

theorem unbroken_isWordChar : Unbroken isWordChar := unbroken_of_checks (by decide)

theorem unbroken_isKeywordChar : Unbroken isKeywordChar := unbroken_of_checks (by decide)

theorem takeWhile_append_boundary {p : Char → Bool} {rest : List Char}
    (hrest : ∀ c, rest.head? = some c → p c = false) (cs : List Char) :
    (cs ++ rest).takeWhile p = cs.takeWhile p := by
  have hnil : rest.takeWhile p = [] := by
    cases rest with
    | nil => rfl
    | cons d ds => rw [List.takeWhile_cons, hrest d rfl, if_neg Bool.false_ne_true]
  rw [List.takeWhile_append, hnil]
  split
  · rename_i h
    rw [List.append_nil, (List.takeWhile_prefix p).eq_of_length h]
  · rfl

theorem takeWhile_append_breaks {p : Char → Bool} {rest : List Char} (hrest : Breaks rest)
    (hp : Unbroken p) (cs : List Char) : (cs ++ rest).takeWhile p = cs.takeWhile p :=
  takeWhile_append_boundary (fun c hc => hp c (hrest c hc)) cs

theorem length_takeWhile_le (p : Char → Bool) (cs : List Char) : (cs.takeWhile p).length ≤ cs.length :=
  (List.takeWhile_prefix p).length_le

theorem drop_length_takeWhile (p : Char → Bool) (cs : List Char) :
    cs.drop (cs.takeWhile p).length = cs.dropWhile p := by
  have hsplit : cs.takeWhile p ++ cs.dropWhile p = cs := List.takeWhile_append_dropWhile
  exact (congrArg (List.drop _) hsplit.symm).trans List.drop_left

/-! ### Keywords -/

/-- A keyword whose letters are no breaks. -/
def IsWord (word : List Char) : Prop := ∀ c, isBreak c = true → capital c ∉ word

theorem isWord_of_checks {word : List Char}
    (h : (breakChars.any fun c => word.contains (capital c)) = false) : IsWord word := by
  intro c hc hmem
  exact List.any_eq_false.1 h c (isBreak_iff.1 hc) (List.contains_iff_mem.2 hmem)

theorem isWord_data : IsWord dataWord := isWord_of_checks (by decide)

theorem isWord_name (op : Opcode) : IsWord op.name.toList := by
  apply isWord_of_checks
  cases op <;> decide

theorem afterLetters?_append {word rest : List Char} (hrest : Breaks rest) (hword : IsWord word)
    (cs : List Char) :
    afterLetters? word (cs ++ rest) = (afterLetters? word cs).map (· ++ rest) := by
  induction word generalizing cs with
  | nil => rfl
  | cons w word ih =>
    have hword' : IsWord word := fun c hc hmem => hword c hc (List.mem_cons_of_mem w hmem)
    cases cs with
    | cons c cs =>
      simp only [List.cons_append, afterLetters?]
      split
      · exact ih hword' cs
      · rfl
    | nil =>
      cases rest with
      | nil => rfl
      | cons d ds =>
        have hne : capital d ≠ w := by
          rintro rfl
          exact hword d (hrest d rfl) List.mem_cons_self
        change afterLetters? (w :: word) (d :: ds) = none
        rw [afterLetters?, if_neg hne]

theorem length_afterLetters? {word cs rest : List Char} (h : afterLetters? word cs = some rest) :
    cs.length = word.length + rest.length := by
  induction word generalizing cs with
  | nil =>
    cases h
    exact (Nat.zero_add _).symm
  | cons w word ih =>
    cases cs with
    | nil => cases h
    | cons c cs =>
      rw [afterLetters?] at h
      split at h
      · rw [List.length_cons, List.length_cons, ih h]
        omega
      · cases h

theorem goesOn_append {rest : List Char} (hrest : Breaks rest) (cs : List Char) :
    goesOn (cs ++ rest) = goesOn cs := by
  cases cs with
  | cons c cs => rfl
  | nil =>
    cases rest with
    | nil => rfl
    | cons d ds => exact unbroken_isKeywordChar d (hrest d rfl)

theorem startsWith_append {word rest : List Char} (hrest : Breaks rest) (hword : IsWord word)
    (cs : List Char) : startsWith word (cs ++ rest) = startsWith word cs := by
  rw [startsWith, startsWith, afterLetters?_append hrest hword]
  cases afterLetters? word cs with
  | none => rfl
  | some more => simp only [Option.map_some, goesOn_append hrest]

theorem length_of_startsWith {word cs : List Char} (h : startsWith word cs = true) :
    word.length ≤ cs.length := by
  unfold startsWith at h
  split at h
  · rename_i rest heq
    rw [length_afterLetters? heq]
    omega
  · cases h

theorem mnemonic?_append {rest : List Char} (hrest : Breaks rest) (order : List Opcode)
    (cs : List Char) : mnemonic? order (cs ++ rest) = mnemonic? order cs := by
  simp only [mnemonic?, startsWith_append hrest (isWord_name _)]

/-! ### Registers and numbers -/

theorem register?_append {rest : List Char} (hrest : Breaks rest) (c : Char) (cs : List Char) :
    register? c (cs ++ rest) = register? c cs := by
  unfold register?
  split
  · cases cs with
    | nil =>
      cases rest with
      | nil => rfl
      | cons d ds =>
        have hd : Register.ofInt? (d.toNat - 48 : Int) = none := by
          have each : Unbroken fun c => (Register.ofInt? (c.toNat - 48 : Int)).isSome :=
            unbroken_of_checks (by decide)
          have hnone := Option.isSome_eq_false_iff.1 (each d (hrest d rfl))
          exact Option.isNone_iff_eq_none.1 hnone
        simp only [List.nil_append, hd, ite_self]
    | cons d ds =>
      cases ds with
      | cons e es => rfl
      | nil =>
        cases rest with
        | nil => rfl
        | cons e es =>
          have he := unbroken_isNameChar e (hrest e rfl)
          simp [he]
  · rfl

theorem hexadecimal?_of_ne {c : Char} (h : c ≠ '0') (cs : List Char) :
    hexadecimal? (c :: cs) = none := by
  unfold hexadecimal?
  split
  · rename_i heq
    cases heq
    exact absurd rfl h
  · rfl

theorem hexadecimal?_append {rest : List Char} (hrest : Breaks rest) (cs : List Char) :
    hexadecimal? (cs ++ rest) = hexadecimal? cs := by
  cases cs with
  | nil =>
    cases rest with
    | nil => rfl
    | cons d ds =>
      refine hexadecimal?_of_ne ?_ ds
      rintro rfl
      exact absurd (hrest _ rfl) (by decide)
  | cons c cs =>
    by_cases hc : c = '0'
    · subst hc
      cases cs with
      | cons x cs =>
        simp only [List.cons_append, hexadecimal?, takeWhile_append_breaks hrest unbroken_isHexDigit]
      | nil =>
        cases rest with
        | nil => rfl
        | cons d ds =>
          have hd : ¬ (d = 'x' ∨ d = 'X') := by
            have each : Unbroken fun c => decide (c = 'x' ∨ c = 'X') := unbroken_of_checks (by decide)
            exact of_decide_eq_false (each d (hrest d rfl))
          simp only [List.cons_append, List.nil_append, hexadecimal?, hd, false_and, if_false]
    · rw [List.cons_append, hexadecimal?_of_ne hc, hexadecimal?_of_ne hc]

theorem decimal?_append {rest : List Char} (hrest : Breaks rest) (cs : List Char) :
    decimal? (cs ++ rest) = decimal? cs := by
  simp only [decimal?, takeWhile_append_breaks hrest unbroken_isDigit]

theorem length_of_hexadecimal? {cs : List Char} {n length : Nat}
    (h : hexadecimal? cs = some (n, length)) : 0 < length ∧ length ≤ cs.length := by
  unfold hexadecimal? at h
  split at h
  · rename_i x cs
    obtain ⟨-, heq⟩ := Option.ite_none_right_eq_some.1 h
    cases heq
    have := length_takeWhile_le isHexDigit cs
    simp only [List.length_cons]
    omega
  · cases h

theorem length_of_decimal? {cs : List Char} {n length : Nat} (h : decimal? cs = some (n, length)) :
    0 < length ∧ length ≤ cs.length := by
  simp only [decimal?] at h
  split at h
  · cases h
  · rename_i hne
    cases h
    exact ⟨List.length_pos_iff.2 hne, length_takeWhile_le _ _⟩

theorem numeral?_append {rest : List Char} (hrest : Breaks rest) (cs : List Char) :
    numeral? (cs ++ rest) = numeral? cs := by
  rw [numeral?, numeral?, hexadecimal?_append hrest, decimal?_append hrest]

theorem length_of_numeral? {cs : List Char} {n : Except Nat Nat} {length : Nat}
    (h : numeral? cs = some (n, length)) : 0 < length ∧ length ≤ cs.length := by
  unfold numeral? at h
  split at h
  · rename_i hhex
    cases h
    exact length_of_hexadecimal? hhex
  · obtain ⟨⟨value, digits⟩, hdec, heq⟩ := Option.map_eq_some_iff.1 h
    cases heq
    exact length_of_decimal? hdec

theorem wordGoesOn_append {rest : List Char} (hrest : Breaks rest) (cs : List Char) :
    wordGoesOn (cs ++ rest) = wordGoesOn cs := by
  cases cs with
  | cons c cs => rfl
  | nil =>
    cases rest with
    | nil => rfl
    | cons d ds => exact unbroken_isWordChar d (hrest d rfl)

theorem number?_append {rest : List Char} (hrest : Breaks rest) (cs : List Char) :
    number? (cs ++ rest) = number? cs := by
  rw [number?, number?, numeral?_append hrest]
  match h : numeral? cs with
  | none => rfl
  | some (n, length) =>
    simp only [List.drop_append_of_le_length (length_of_numeral? h).2, wordGoesOn_append hrest]

theorem length_of_number? {cs : List Char} {n : Except Nat Nat} {length : Nat}
    (h : number? cs = some (n, length)) : 0 < length ∧ length ≤ cs.length := by
  unfold number? at h
  split at h
  · rename_i heq
    split at h
    · cases h
    · cases h
      exact length_of_numeral? heq
  · cases h

/-! ### Quoted texts -/

theorem quotedBody?_close (quote : Char) (cs : List Char) :
    quotedBody? quote (quote :: cs) = some [] := by
  unfold quotedBody?
  rw [if_pos rfl]

theorem quotedBody?_lineEnd {quote c : Char} (hc : c ≠ quote) (hend : c = '\n' ∨ c = '\r')
    (cs : List Char) : quotedBody? quote (c :: cs) = none := by
  unfold quotedBody?
  rw [if_neg hc, if_pos hend]

theorem quotedBody?_plain {quote c : Char} (hc : c ≠ quote) (hend : ¬ (c = '\n' ∨ c = '\r'))
    (hescape : c ≠ '\\') (cs : List Char) :
    quotedBody? quote (c :: cs) = (quotedBody? quote cs).map (c :: ·) := by
  rw [quotedBody?.eq_def]
  simp only [if_neg hc, if_neg hend, if_neg hescape]

theorem quotedBody?_escaped {quote d : Char} (hquote : '\\' ≠ quote) (hd : d ≠ '\n') (cs : List Char) :
    quotedBody? quote ('\\' :: d :: cs) = (quotedBody? quote cs).map fun body => '\\' :: d :: body := by
  rw [quotedBody?.eq_def]
  simp [hquote, hd]

/-- A quoted text is closed in the same place whatever is behind it. -/
theorem quotedBody?_append {quote : Char} {cs body : List Char} (h : quotedBody? quote cs = some body)
    (rest : List Char) : quotedBody? quote (cs ++ rest) = some body := by
  fun_induction quotedBody? quote cs generalizing body with
  | case1 | case3 | case4 | case5 => cases h
  | case2 cs =>
    rw [List.cons_append, quotedBody?_close]
    exact h
  | case6 d cs hd hquote hend ih =>
    obtain ⟨inner, hinner, rfl⟩ := Option.map_eq_some_iff.1 h
    simp only [List.cons_append]
    rw [quotedBody?_escaped hquote hd, ih hinner, Option.map_some]
  | case7 c cs hc hend hescape ih =>
    obtain ⟨inner, hinner, rfl⟩ := Option.map_eq_some_iff.1 h
    rw [List.cons_append, quotedBody?_plain hc hend hescape, ih hinner, Option.map_some]

theorem quotedBody?_newline {quote : Char} (hquote : '\n' ≠ quote) {cs : List Char} (hcs : '\n' ∉ cs)
    (rest : List Char) : quotedBody? quote (cs ++ '\n' :: rest) = quotedBody? quote cs := by
  fun_induction quotedBody? quote cs with
  | case1 => exact quotedBody?_lineEnd hquote (.inl rfl) rest
  | case2 cs => exact quotedBody?_close quote _
  | case3 c cs hc hend => exact quotedBody?_lineEnd hc hend _
  | case4 hquote' =>
    rw [quotedBody?.eq_def]
    simp [hquote']
  | case5 => simp at hcs
  | case6 d cs hd hquote' hend ih =>
    simp only [List.mem_cons, not_or] at hcs
    simp only [List.cons_append]
    rw [quotedBody?_escaped hquote' hd, ih hcs.2.2]
  | case7 c cs hc hend hescape ih =>
    rw [List.cons_append, quotedBody?_plain hc hend hescape, ih (List.not_mem_of_not_mem_cons hcs)]

theorem length_of_quotedBody? {quote : Char} {cs body : List Char}
    (h : quotedBody? quote cs = some body) : body.length + 1 ≤ cs.length := by
  fun_induction quotedBody? quote cs generalizing body with
  | case1 | case3 | case4 | case5 => cases h
  | case2 cs =>
    cases h
    simp
  | case6 d cs hd hquote hend ih | case7 c cs hc hend hescape ih =>
    obtain ⟨inner, hinner, rfl⟩ := Option.map_eq_some_iff.1 h
    have := ih hinner
    simp only [List.length_cons]
    omega

/-! ### Tokens -/

section Read
variable {order : List Opcode} {c : Char} {cs rest : List Char}

/-- All tokens but quoted texts end in front of a break. -/
theorem Token.read?_append (hrest : Breaks rest) (hdouble : c ≠ '"') (hsingle : c ≠ '\'') :
    Token.read? order c (cs ++ rest) = Token.read? order c cs := by
  have hnumber := number?_append hrest (c :: cs)
  have hdata := startsWith_append hrest isWord_data (c :: cs)
  have hmnemonic := mnemonic?_append hrest order (c :: cs)
  rw [List.cons_append] at hnumber hdata hmnemonic
  simp only [Token.read?, hdouble, hsingle, if_false, hnumber, hdata, hmnemonic,
    register?_append hrest, takeWhile_append_breaks hrest unbroken_isNameChar]

/-- A quoted text that is closed ends there. -/
theorem Token.read?_append_of_eq_some {token : Token} {n : Nat}
    (h : Token.read? order c cs = some (token, n)) (hrest : Breaks rest) :
    Token.read? order c (cs ++ rest) = some (token, n) := by
  by_cases hquote : c = '"' ∨ c = '\''
  · rcases hquote with rfl | rfl
    all_goals
      simp only [Token.read?] at h ⊢
      simp only [Option.map_eq_some_iff, reduceIte, Char.reduceEq] at h ⊢
      obtain ⟨body, hbody, hread⟩ := h
      exact ⟨body, quotedBody?_append hbody rest, hread⟩
  · rw [not_or] at hquote
    rw [Token.read?_append hrest hquote.1 hquote.2, h]

/-- Within a line every token is read as if the line were the whole text. -/
theorem Token.read?_newline (hcs : '\n' ∉ cs) :
    Token.read? order c (cs ++ '\n' :: rest) = Token.read? order c cs := by
  by_cases hquote : c = '"' ∨ c = '\''
  · rcases hquote with rfl | rfl
    all_goals
      simp only [Token.read?, reduceIte, Char.reduceEq]
      rw [quotedBody?_newline (by decide) hcs]
  · rw [not_or] at hquote
    exact Token.read?_append (breaks_newline rest) hquote.1 hquote.2

/-- What a token is read from: its first character, the text behind that, and how many characters of
this belong to the token. -/
inductive Token.Taken (order : List Opcode) (c : Char) (cs : List Char) : Token → Nat → Prop
  | newline (hc : c = '\n') : Taken order c cs .newline 0
  | colon (hc : c = ':') : Taken order c cs .colon 0
  | comma (hc : c = ',') : Taken order c cs .comma 0
  | text {body : List Char} (hc : c = '"') (h : quotedBody? c cs = some body) :
      Taken order c cs (.text (String.ofList (unescape body))) (body.length + 1)
  | char {body : List Char} (hc : c = '\'') (h : quotedBody? c cs = some body) :
      Taken order c cs (.char (String.ofList (unescape body))) (body.length + 1)
  | number {n length : Nat} (h : number? (c :: cs) = some (.ok n, length)) :
      Taken order c cs (.number n) (length - 1)
  | overlong {digits length : Nat} (h : number? (c :: cs) = some (.error digits, length)) :
      Taken order c cs (.overlong digits) (length - 1)
  | data (h : startsWith dataWord (c :: cs) = true) : Taken order c cs .data (dataWord.length - 1)
  | register {r : Register} (h : register? c cs = some r) : Taken order c cs (.register r) 1
  | mnemonic {op : Opcode} (h : mnemonic? order (c :: cs) = some op) :
      Taken order c cs (.mnemonic op) (op.name.length - 1)
  | name (hc : isNameStart c = true) (hregister : register? c cs = none)
      (hmnemonic : mnemonic? order (c :: cs) = none) :
      Taken order c cs (.name (String.ofList (c :: cs.takeWhile isNameChar)))
        (cs.takeWhile isNameChar).length

theorem Token.taken_of_read? {token : Token} {n : Nat}
    (h : Token.read? order c cs = some (token, n)) : Token.Taken order c cs token n := by
  unfold Token.read? at h
  split at h
  · rename_i hc
    cases h
    exact .newline hc
  split at h
  · rename_i hc
    cases h
    exact .colon hc
  split at h
  · rename_i hc
    cases h
    exact .comma hc
  split at h
  · rename_i hc
    obtain ⟨body, hbody, heq⟩ := Option.map_eq_some_iff.1 h
    cases heq
    exact .text hc hbody
  split at h
  · rename_i hc
    obtain ⟨body, hbody, heq⟩ := Option.map_eq_some_iff.1 h
    cases heq
    exact .char hc hbody
  split at h
  · obtain ⟨⟨value, length⟩, hnumber, heq⟩ := Option.map_eq_some_iff.1 h
    cases heq
    cases value with
    | ok n => exact .number hnumber
    | error digits => exact .overlong hnumber
  split at h
  · obtain ⟨hdata, heq⟩ := Option.ite_none_right_eq_some.1 h
    cases heq
    exact .data hdata
  split at h
  · rename_i hregister
    cases h
    exact .register hregister
  rename_i hregister
  split at h
  · rename_i hmnemonic
    cases h
    exact .mnemonic hmnemonic
  rename_i hmnemonic
  obtain ⟨hc, heq⟩ := Option.ite_none_right_eq_some.1 h
  cases heq
  exact .name hc hregister hmnemonic

theorem length_of_register? {r : Register} (h : register? c cs = some r) : 1 ≤ cs.length := by
  unfold register? at h
  split at h
  · cases cs with
    | nil => cases h
    | cons d ds => simp
  · cases h

theorem length_of_mnemonic? {op : Opcode} (h : mnemonic? order cs = some op) :
    op.name.toList.length ≤ cs.length := by
  have hstarts := List.find?_some h
  exact length_of_startsWith hstarts

/-- A token does not reach beyond the text. -/
theorem Token.length_of_read? {token : Token} {n : Nat}
    (h : Token.read? order c cs = some (token, n)) : n ≤ cs.length := by
  cases Token.taken_of_read? h with
  | newline | colon | comma => exact Nat.zero_le _
  | text hc hbody | char hc hbody => exact length_of_quotedBody? hbody
  | number hnumber | overlong hnumber =>
    have := length_of_number? hnumber
    simp only [List.length_cons] at this
    omega
  | data hdata =>
    have := length_of_startsWith hdata
    simp only [List.length_cons] at this
    omega
  | register hregister => exact length_of_register? hregister
  | mnemonic hmnemonic =>
    have := length_of_mnemonic? hmnemonic
    simp only [List.length_cons, String.length_toList] at this
    omega
  | name => exact length_takeWhile_le _ _

theorem Token.read?_newlineChar : Token.read? order '\n' cs = some (.newline, 0) := by
  rw [Token.read?, if_pos rfl]

theorem Token.read?_comma (cs : List Char) : Token.read? order ',' cs = some (.comma, 0) := rfl

theorem Token.read?_colon (cs : List Char) : Token.read? order ':' cs = some (.colon, 0) := rfl

/-- Only a newline is read as one. -/
theorem Token.ne_newline_of_read? {token : Token} {n : Nat}
    (h : Token.read? order c cs = some (token, n)) (hc : c ≠ '\n') : token ≠ .newline := by
  rintro rfl
  cases Token.taken_of_read? h with
  | newline hnewline => exact hc hnewline

end Read

end WordMachine.Asm
