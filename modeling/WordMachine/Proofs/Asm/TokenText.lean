import WordMachine.Proofs.Asm.Names

/-! The texts of tokens. What a token is read from is a text that writes it, and the token ends where
that text does: a word before a character that words do not go on with, a quoted text at its quote. -/

namespace WordMachine.Asm

/-- The text is empty, or starts with a character outside of the class. -/
def Ends (p : Char → Bool) (rest : List Char) : Prop := ∀ c, rest.head? = some c → p c = false

theorem ends_cons {p : Char → Bool} {c : Char} {cs : List Char} : Ends p (c :: cs) ↔ p c = false := by
  simp [Ends]

/-- The characters between two quotes: a backslash takes the next one with it, and no quote and no end
of a line is among the others. -/
inductive Enclosed (quote : Char) : List Char → Prop
  | nil : Enclosed quote []
  | plain {c : Char} {cs : List Char} (hquote : c ≠ quote) (hend : ¬ (c = '\n' ∨ c = '\r'))
      (hescape : c ≠ '\\') (h : Enclosed quote cs) : Enclosed quote (c :: cs)
  | escaped {d : Char} {cs : List Char} (hd : d ≠ '\n') (h : Enclosed quote cs) :
      Enclosed quote ('\\' :: d :: cs)

/-- The text begins with what writes the value. -/
inductive Value.Begins : Value → List Char → Prop
  | register {r : Register} {letter : Char} {rest : List Char} (h : letter = 'r' ∨ letter = 'R')
      (hrest : Ends isNameChar rest) : Begins (.register r) (letter :: r.val.digitChar :: rest)
  | number {n : Nat} {digits rest : List Char} (h : ValueWritten (.number n) digits none)
      (hrest : Ends isWordChar rest) : Begins (.number n) (digits ++ rest)
  | char {s : String} {body rest : List Char} (h : Enclosed '\'' body)
      (hs : unescape body = s.toList) : Begins (.char s) ('\'' :: (body ++ '\'' :: rest))
  | text {s : String} {body rest : List Char} (h : Enclosed '"' body)
      (hs : unescape body = s.toList) : Begins (.text s) ('"' :: (body ++ '"' :: rest))
  | label {x : String} {rest : List Char} (hx : x ≠ "") (h : ∀ c ∈ x.toList, isNameChar c = true)
      (hrest : Ends isNameChar rest) : Begins (.label x) (x.toList ++ rest)

/-- The text begins with what writes the command: the name of a label with its colon, or the keyword. -/
inductive Command.Begins : Command → List Char → Prop
  | label {x : String} {between rest : List Char} (hx : x ≠ "")
      (h : ∀ c ∈ x.toList, isNameChar c = true) (hbetween : ∀ b ∈ between, isBlank b = true) :
      Begins (.label x) (x.toList ++ (between ++ ':' :: rest))
  | instruction {op : Opcode} {os : List Operand} {letters rest : List Char}
      (h : letters.map capital = op.name.toList) (hrest : Ends isKeywordChar rest) :
      Begins (.instruction op os) (letters ++ rest)
  | data {vs : List Operand} {letters rest : List Char} (h : letters.map capital = dataWord)
      (hrest : Ends isKeywordChar rest) : Begins (.data vs) (letters ++ rest)

/-! ### Digits -/

theorem exists_digit_of_isDigit {d : Char} (h : d.isDigit = true) : ∃ k < 10, d = k.digitChar := by
  have halnum : d.isAlphanum = true := by rw [Char.isAlphanum, h, Bool.or_true]
  exact forall_ascii (fun d => d.isDigit = true → ∃ k < 10, d = k.digitChar) (by decide +kernel)
    (toNat_lt_of_isAlphanum halnum) h

theorem toNat_lt_of_isHexDigit {d : Char} (h : isHexDigit d = true) : d.toNat < 128 := by
  have hle {c : Char} (hd : d ≤ c) (hc : c.toNat < 128) : d.toNat < 128 := Nat.lt_of_le_of_lt hd hc
  unfold isHexDigit Hex.digit? at h
  split at h
  · rename_i hd
    exact hle hd.2 (by decide)
  split at h
  · rename_i hd
    exact hle hd.2 (by decide)
  split at h
  · rename_i hd
    exact hle hd.2 (by decide)
  · cases h

theorem exists_digit_of_isHexDigit {d : Char} (h : isHexDigit d = true) :
    ∃ k < 16, d.toLower = k.digitChar :=
  forall_ascii (fun d => isHexDigit d = true → ∃ k < 16, d.toLower = k.digitChar) (by decide +kernel)
    (toNat_lt_of_isHexDigit h) h

/-- Digits are those of their value, with zeros in front. -/
theorem exists_zeros_of_digits {base : Nat} (hlo : 1 < base) (hhi : base ≤ 16) {ds : List Char}
    (hne : ds ≠ []) (h : ∀ d ∈ ds, ∃ k < base, d = k.digitChar) :
    ∃ zeros, ds = List.replicate zeros '0' ++ Nat.toDigits base (digitsValue base ds) := by
  induction ds using List.reverseRecOn with
  | nil => exact absurd rfl hne
  | append_singleton ds d ih =>
    rw [List.forall_mem_append] at h
    obtain ⟨k, hk, rfl⟩ := h.2 d List.mem_cons_self
    rw [digitsValue_concat, Hex.digit?_digitChar (by omega), Option.getD_some]
    by_cases hds : ds = []
    · subst hds
      refine ⟨0, ?_⟩
      simp [digitsValue, Nat.toDigits_of_lt_base hk]
    · obtain ⟨zeros, hzeros⟩ := ih hds h.1
      rcases Nat.eq_zero_or_pos (digitsValue base ds) with hzero | hpos
      · rw [hzero] at hzeros ⊢
        refine ⟨zeros + 1, ?_⟩
        rw [Nat.zero_mul, Nat.zero_add, Nat.toDigits_of_lt_base hk, List.replicate_succ', ← Nat.toDigits_zero base, ← hzeros]
      · refine ⟨zeros, ?_⟩
        rw [Nat.mul_comm, ← Nat.toDigits_append_toDigits hlo hpos hk, ← List.append_assoc, ← hzeros, Nat.toDigits_of_lt_base hk]

theorem valueWritten_of_hexadecimal? {cs : List Char} {n length : Nat}
    (h : hexadecimal? cs = some (n, length)) :
    ∃ digits rest, cs = digits ++ rest ∧ length = digits.length ∧
      ValueWritten (.number n) digits none := by
  unfold hexadecimal? at h
  split at h
  · rename_i x cs
    obtain ⟨⟨hx, hne⟩, heq⟩ := Option.ite_none_right_eq_some.1 h
    cases heq
    have hlower : ∀ d ∈ (cs.takeWhile isHexDigit).map Char.toLower, ∃ k < 16, d = k.digitChar := by
      intro d hd
      obtain ⟨e, he, rfl⟩ := List.mem_map.1 hd
      exact exists_digit_of_isHexDigit (List.mem_takeWhile_imp he)
    obtain ⟨zeros, hzeros⟩ := exists_zeros_of_digits (by decide) (by decide)
      (fun hnil => hne (List.map_eq_nil_iff.1 hnil)) hlower
    rw [digitsValue_map_toLower] at hzeros
    refine ⟨'0' :: x :: cs.takeWhile isHexDigit, cs.dropWhile isHexDigit, ?_, rfl, .hexadecimal hx hzeros⟩
    rw [List.cons_append, List.cons_append, List.takeWhile_append_dropWhile]
  · cases h

theorem valueWritten_of_decimal? {cs : List Char} {n length : Nat}
    (h : decimal? cs = some (n, length)) :
    ∃ digits rest, cs = digits ++ rest ∧ length = digits.length ∧
      ValueWritten (.number n) digits (unread? length) := by
  simp only [decimal?] at h
  split at h
  · cases h
  · rename_i hne
    cases h
    have hdigits : ∀ d ∈ cs.takeWhile Char.isDigit, ∃ k < 10, d = k.digitChar :=
      fun d hd => exists_digit_of_isDigit (List.mem_takeWhile_imp hd)
    obtain ⟨zeros, hzeros⟩ := exists_zeros_of_digits (by decide) (by decide) hne hdigits
    refine ⟨cs.takeWhile Char.isDigit, cs.dropWhile Char.isDigit,
      List.takeWhile_append_dropWhile.symm, rfl, ?_⟩
    have hwritten := ValueWritten.decimal zeros (digitsValue 10 (cs.takeWhile Char.isDigit))
    rwa [← hzeros] at hwritten

theorem ends_of_wordGoesOn {rest : List Char} (h : wordGoesOn rest = false) : Ends isWordChar rest := by
  cases rest with
  | nil => exact nofun
  | cons c cs => exact ends_cons.2 h

theorem valueWritten_of_numeral? {cs : List Char} {n length : Nat}
    (h : numeral? cs = some (.ok n, length)) :
    ∃ digits rest, cs = digits ++ rest ∧ length = digits.length ∧
      ValueWritten (.number n) digits none := by
  unfold numeral? at h
  split at h
  · rename_i hhex
    cases h
    exact valueWritten_of_hexadecimal? hhex
  · obtain ⟨⟨value, count⟩, hdec, heq⟩ := Option.map_eq_some_iff.1 h
    obtain ⟨digits, rest, hcs, hlength, hwritten⟩ := valueWritten_of_decimal? hdec
    dsimp only at heq
    split at heq
    · rename_i hle
      cases heq
      rw [unread?, if_neg (Nat.not_lt.2 hle)] at hwritten
      exact ⟨digits, rest, hcs, hlength, hwritten⟩
    · cases heq

/-- A number is read from digits that write it, and that are few enough. -/
theorem begins_of_number? {cs : List Char} {n length : Nat} (h : number? cs = some (.ok n, length)) :
    (Value.number n).Begins cs := by
  unfold number? at h
  split at h
  · rename_i m k heq
    split at h
    · cases h
    · rename_i hends
      cases h
      obtain ⟨digits, rest, rfl, rfl, hwritten⟩ := valueWritten_of_numeral? heq
      rw [List.drop_left, Bool.not_eq_true] at hends
      exact .number hwritten (ends_of_wordGoesOn hends)
  · cases h

/-! ### Quoted texts -/

theorem enclosed_of_quotedBody? {quote : Char} {cs body : List Char}
    (h : quotedBody? quote cs = some body) : Enclosed quote body ∧ ∃ rest, cs = body ++ quote :: rest := by
  fun_induction quotedBody? quote cs generalizing body with
  | case1 | case3 | case4 | case5 => cases h
  | case2 cs =>
    cases h
    exact ⟨.nil, cs, rfl⟩
  | case6 d cs hd hquote hend ih =>
    obtain ⟨inner, hinner, rfl⟩ := Option.map_eq_some_iff.1 h
    obtain ⟨henclosed, rest, rfl⟩ := ih hinner
    exact ⟨.escaped hd henclosed, rest, rfl⟩
  | case7 c cs hc hend hescape ih =>
    obtain ⟨inner, hinner, rfl⟩ := Option.map_eq_some_iff.1 h
    obtain ⟨henclosed, rest, rfl⟩ := ih hinner
    exact ⟨.plain hc hend hescape henclosed, rest, rfl⟩

/-! ### Words -/

theorem begins_of_register? {c : Char} {cs : List Char} {r : Register} (h : register? c cs = some r) :
    (Value.register r).Begins (c :: cs) := by
  obtain ⟨hc, ds, rfl, hds⟩ := exists_digit_of_register? h
  exact .register hc hds

theorem ReadName.ne_empty {order : List Opcode} {c : Char} {tail : List Char} {x : String} {n : Nat}
    (h : ReadName order c tail x n) : x ≠ "" := by
  rintro rfl
  exact List.cons_ne_nil _ _ h.letters.symm

theorem ReadName.begins {order : List Opcode} {c : Char} {tail : List Char} {x : String} {n : Nat}
    (h : ReadName order c tail x n) : (Value.label x).Begins (c :: tail) := by
  have hrest : Ends Asm.isNameChar (tail.drop n) := by
    intro d hd
    rw [h.drop] at hd
    have hhead := List.head?_dropWhile_not Asm.isNameChar tail
    rw [hd] at hhead
    exact hhead
  rw [← h.append]
  exact .label h.ne_empty h.isNameChar hrest

theorem exists_letters_of_afterLetters? {word cs rest : List Char}
    (h : afterLetters? word cs = some rest) : ∃ letters, cs = letters ++ rest ∧ letters.map capital = word := by
  induction word generalizing cs with
  | nil =>
    cases h
    exact ⟨[], rfl, rfl⟩
  | cons w word ih =>
    cases cs with
    | nil => cases h
    | cons c cs =>
      rw [afterLetters?] at h
      obtain ⟨hc, h⟩ := Option.ite_none_right_eq_some.1 h
      obtain ⟨letters, rfl, rfl⟩ := ih h
      exact ⟨c :: letters, rfl, by rw [List.map_cons, hc]⟩

/-- A keyword is read from letters that have its capitals. -/
theorem exists_letters_of_startsWith {word cs : List Char} (h : startsWith word cs = true) :
    ∃ letters rest, cs = letters ++ rest ∧ letters.map capital = word ∧ Ends isKeywordChar rest := by
  unfold startsWith at h
  split at h
  · rename_i rest heq
    obtain ⟨letters, hcs, hword⟩ := exists_letters_of_afterLetters? heq
    refine ⟨letters, rest, hcs, hword, ?_⟩
    cases rest with
    | nil => exact nofun
    | cons c rest => exact ends_cons.2 (by simpa [goesOn] using h)
  · cases h

/-! ### Tokens -/

section Taken
variable {order : List Opcode} {c : Char} {tail : List Char} {n : Nat}

theorem Value.begins_of_read? {v : Value} (h : Token.read? order c tail = some (v.token, n)) :
    v.Begins (c :: tail) := by
  have htaken := Token.taken_of_read? h
  cases v with
  | register r =>
    cases htaken with
    | register hregister => exact begins_of_register? hregister
  | number m =>
    cases htaken with
    | number hnumber => exact begins_of_number? hnumber
  | char s =>
    cases htaken with
    | char hc hbody =>
      subst hc
      obtain ⟨henclosed, rest, rfl⟩ := enclosed_of_quotedBody? hbody
      exact .char henclosed String.toList_ofList.symm
  | text s =>
    cases htaken with
    | text hc hbody =>
      subst hc
      obtain ⟨henclosed, rest, rfl⟩ := enclosed_of_quotedBody? hbody
      exact .text henclosed String.toList_ofList.symm
  | label x => exact (readName_of_read? h).begins

theorem begins_of_read?_mnemonic {op : Opcode} (h : Token.read? order c tail = some (.mnemonic op, n))
    (os : List Operand) : (Command.instruction op os).Begins (c :: tail) := by
  cases Token.taken_of_read? h with
  | mnemonic hmnemonic =>
    have hstarts := List.find?_some hmnemonic
    obtain ⟨letters, rest, hcs, hletters, hrest⟩ := exists_letters_of_startsWith hstarts
    rw [hcs]
    exact .instruction hletters hrest

theorem begins_of_read?_data (h : Token.read? order c tail = some (.data, n)) (vs : List Operand) :
    (Command.data vs).Begins (c :: tail) := by
  cases Token.taken_of_read? h with
  | data hdata =>
    obtain ⟨letters, rest, hcs, hletters, hrest⟩ := exists_letters_of_startsWith hdata
    rw [hcs]
    exact .data hletters hrest

theorem begins_of_read?_label {x : String} {bs rest : List Char}
    (h : Token.read? order c tail = some (.name x, n)) (hcolon : tail.drop n = bs ++ ':' :: rest)
    (hbs : ∀ b ∈ bs, isBlank b = true) : (Command.label x).Begins (c :: tail) := by
  have hname := readName_of_read? h
  rw [← hname.append, hcolon]
  exact .label hname.ne_empty hname.isNameChar hbs

end Taken

end WordMachine.Asm
