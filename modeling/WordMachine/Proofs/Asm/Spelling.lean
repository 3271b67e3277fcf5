import Mathlib
import WordMachine.Asm.Parse
import WordMachine.Proofs.Asm.Phrases
import WordMachine.Proofs.Asm.Tokens
import WordMachine.Proofs.Asm.Written

/-! Each value that is written is one token, and so is each keyword; a number that has too many digits is
one as well, but not a value. -/

namespace WordMachine.Asm

/-! ### Digits -/

theorem digitsValue_concat (base : Nat) (ds : List Char) (d : Char) :
    digitsValue base (ds ++ [d]) = digitsValue base ds * base + (Hex.digit? d).getD 0 := by
  rw [digitsValue, List.foldl_append]
  rfl

theorem digitsValue_zeros (base zeros : Nat) (ds : List Char) :
    digitsValue base (List.replicate zeros '0' ++ ds) = digitsValue base ds := by
  induction zeros with
  | zero => rfl
  | succ zeros ih =>
    rw [List.replicate_succ, List.cons_append, ← ih, digitsValue, List.foldl_cons, Nat.zero_mul]
    rfl

theorem digitsValue_toDigits {base : Nat} (hlo : 1 < base) (hhi : base ≤ 16) (n : Nat) :
    digitsValue base (Nat.toDigits base n) = n := by
  induction n using Nat.strongRecOn with
  | ind n ih =>
    rw [Nat.toDigits_eq_if hlo]
    split
    · rename_i hn
      rw [← List.nil_append [n.digitChar], digitsValue_concat, Hex.digit?_digitChar (by omega)]
      exact (Nat.zero_mul base ▸ Nat.zero_add n)
    · rename_i hn
      have hmod := Nat.mod_lt n (Nat.zero_lt_of_lt hlo)
      have hdiv : n / base < n := Nat.div_lt_self (by omega) hlo
      rw [digitsValue_concat, Hex.digit?_digitChar (by omega), ih _ hdiv, Nat.mul_comm]
      exact Nat.div_add_mod n base

theorem digitsValue_map_toLower (base : Nat) (ds : List Char) :
    digitsValue base (ds.map Char.toLower) = digitsValue base ds := by
  simp only [digitsValue, List.foldl_map, Hex.digit?_toLower]

theorem isHexDigit_of_mem_toDigits (n : Nat) : ∀ c ∈ Nat.toDigits 16 n, isHexDigit c = true := by
  intro c hc
  obtain ⟨d, hd, rfl⟩ := exists_digit_of_mem_toDigits (by decide) n c hc
  rw [isHexDigit, Hex.digit?_digitChar hd]
  rfl

/-- What the digits of a number are read as. -/
def readAs (n digits : Nat) : Except Nat Nat := if digits ≤ maxDigits then .ok n else .error digits

theorem number?_of_digits {ds : List Char} (hne : ds ≠ []) (h : ∀ c ∈ ds, c.isDigit = true) :
    number? ds = some (readAs (digitsValue 10 ds) ds.length, ds.length) := by
  have hhex : hexadecimal? ds = none := by
    unfold hexadecimal?
    split
    · rename_i x cs
      have hx : x.isDigit = true := h x (by simp)
      refine if_neg fun hcond => ?_
      rcases hcond.1 with rfl | rfl <;> cases hx
    · rfl
  have hdec : decimal? ds = some (digitsValue 10 ds, ds.length) := by
    simp only [decimal?, List.takeWhile_eq_self_iff.2 h, hne, if_false]
  rw [number?, numeral?, hhex, hdec]
  simp [wordGoesOn, readAs]

theorem number?_of_hexDigits {x : Char} {ds : List Char} (hx : x = 'x' ∨ x = 'X') (hne : ds ≠ [])
    (h : ∀ c ∈ ds, isHexDigit c = true) :
    number? ('0' :: x :: ds) = some (.ok (digitsValue 16 ds), ds.length + 2) := by
  have hhex : hexadecimal? ('0' :: x :: ds) = some (digitsValue 16 ds, ds.length + 2) := by
    simp only [hexadecimal?, List.takeWhile_eq_self_iff.2 h]
    rw [if_pos ⟨hx, hne⟩]
  rw [number?, numeral?, hhex]
  simp [wordGoesOn]

theorem mem_zeros_append {p : Char → Bool} {zeros : Nat} {ds : List Char} (hzero : p '0' = true)
    (hds : ∀ c ∈ ds, p c = true) : ∀ c ∈ List.replicate zeros '0' ++ ds, p c = true := by
  intro c hc
  rcases List.mem_append.1 hc with hc | hc
  · rwa [(List.mem_replicate.1 hc).2]
  · exact hds c hc

theorem isDigit_of_mem_decimal (zeros n : Nat) :
    ∀ c ∈ List.replicate zeros '0' ++ Nat.toDigits 10 n, c.isDigit = true :=
  mem_zeros_append rfl fun c hc => Nat.isDigit_of_mem_toDigits (by decide) (by decide) hc

theorem isHexDigit_of_mem_hexadecimal {zeros n : Nat} {digits : List Char}
    (h : digits.map Char.toLower = List.replicate zeros '0' ++ Nat.toDigits 16 n) :
    ∀ c ∈ digits, isHexDigit c = true := by
  intro c hc
  have hmem : c.toLower ∈ List.replicate zeros '0' ++ Nat.toDigits 16 n := h ▸ List.mem_map_of_mem hc
  have hhex := mem_zeros_append (by decide) (isHexDigit_of_mem_toDigits n) c.toLower hmem
  rwa [isHexDigit, Hex.digit?_toLower] at hhex

theorem exists_decimal (zeros n : Nat) :
    ∃ c tail, List.replicate zeros '0' ++ Nat.toDigits 10 n = c :: tail ∧
    c.isDigit = true ∧ number? (c :: tail) = some (readAs n (c :: tail).length, tail.length + 1) := by
  have hdigits := isDigit_of_mem_decimal zeros n
  have hvalue : digitsValue 10 (List.replicate zeros '0' ++ Nat.toDigits 10 n) = n := by
    rw [digitsValue_zeros, digitsValue_toDigits (by decide) (by decide)]
  match hds : List.replicate zeros '0' ++ Nat.toDigits 10 n with
  | [] => exact absurd hds (List.append_ne_nil_of_right_ne_nil _ Nat.toDigits_ne_nil)
  | c :: tail =>
    rw [hds] at hdigits hvalue
    refine ⟨c, tail, rfl, hdigits c List.mem_cons_self, ?_⟩
    rw [number?_of_digits (List.cons_ne_nil c tail) hdigits, hvalue]
    rfl

theorem number?_hexadecimal {zeros n : Nat} {x : Char} {digits : List Char} (hx : x = 'x' ∨ x = 'X')
    (h : digits.map Char.toLower = List.replicate zeros '0' ++ Nat.toDigits 16 n) :
    number? ('0' :: x :: digits) = some (.ok n, digits.length + 2) := by
  have hne : digits ≠ [] := by
    rintro rfl
    exact List.append_ne_nil_of_right_ne_nil _ Nat.toDigits_ne_nil h.symm
  rw [number?_of_hexDigits hx hne (isHexDigit_of_mem_hexadecimal h), ← digitsValue_map_toLower, h,
    digitsValue_zeros, digitsValue_toDigits (by decide) (by decide)]

/-! ### Quoted texts -/

theorem unescape_plain {c : Char} (h : c ≠ '\\') (cs : List Char) :
    unescape (c :: cs) = c :: unescape cs := by
  rw [unescape.eq_def]
  simp only [h, ne_eq, not_false_eq_true, if_true]

theorem escapeOf_next {d : Char} (h : d ≠ '0') (next : Option Char) :
    escapeOf d next = escapeOf d none := by
  simp only [escapeOf, h, false_and]

theorem codeEscape?_eq_none {d : Char} (hx : d ≠ 'x') (hu : d ≠ 'u') (e f : Char) :
    codeEscape? d e f = none := by
  simp only [codeEscape?, hx, hu, false_and, if_false]

/-- Where no code is written, a backslash takes one character with it. -/
theorem unescape_backslash {d : Char} (hx : d ≠ 'x') (hu : d ≠ 'u') (hzero : d ≠ '0') (cs : List Char) :
    unescape ('\\' :: d :: cs) = escapeOf d none :: unescape cs := by
  rw [unescape.eq_def]
  match cs with
  | [] => rfl
  | [e] =>
    simp only [ne_eq, not_true_eq_false, if_false, escapeOf_next hzero]
  | e :: f :: cs =>
    simp only [ne_eq, not_true_eq_false, if_false, codeEscape?_eq_none hx hu, escapeOf_next hzero]

section Quoted
variable {quote : Char} (hquote : quote = '"' ∨ quote = '\'') (c : Char) (cs : List Char)
include hquote

theorem quotedBody?_escapedChar :
    quotedBody? quote (escaped quote c ++ cs) = (quotedBody? quote cs).map (escaped quote c ++ ·) := by
  have hbackslash : '\\' ≠ quote := by
    rcases hquote with rfl | rfl <;> decide
  have hnewline : quote ≠ '\n' := by
    rcases hquote with rfl | rfl <;> decide
  unfold escaped
  split
  · rename_i hc
    have hne : c ≠ '\n' := by
      rcases hc with rfl | rfl
      · decide
      · exact hnewline
    exact quotedBody?_escaped hbackslash hne cs
  · rename_i hc
    rw [not_or] at hc
    split
    · exact quotedBody?_escaped hbackslash (by decide) cs
    · rename_i hn
      split
      · exact quotedBody?_escaped hbackslash (by decide) cs
      · rename_i hr
        split
        · exact quotedBody?_escaped hbackslash (by decide) cs
        · exact quotedBody?_plain hc.2 (not_or.2 ⟨hn, hr⟩) hc.1 cs

theorem quotedBody?_quoted (s : List Char) :
    quotedBody? quote (s.flatMap (escaped quote) ++ [quote]) = some (s.flatMap (escaped quote)) := by
  induction s with
  | nil => exact quotedBody?_close quote []
  | cons c s ih =>
    rw [List.flatMap_cons, List.append_assoc, quotedBody?_escapedChar hquote, ih, Option.map_some]

theorem unescape_escapedChar : unescape (escaped quote c ++ cs) = c :: unescape cs := by
  unfold escaped
  split
  · rename_i hc
    obtain rfl | rfl | rfl : c = '\\' ∨ c = '"' ∨ c = '\'' := by
      rcases hc with rfl | rfl
      · exact .inl rfl
      · exact .inr hquote
    all_goals exact unescape_backslash (by decide) (by decide) (by decide) cs
  · rename_i hc
    rw [not_or] at hc
    split
    · rename_i hn
      exact hn ▸ unescape_backslash (by decide) (by decide) (by decide) cs
    · split
      · rename_i hr
        exact hr ▸ unescape_backslash (by decide) (by decide) (by decide) cs
      · split
        · rename_i ht
          exact ht ▸ unescape_backslash (by decide) (by decide) (by decide) cs
        · exact unescape_plain hc.1 cs

theorem unescape_quoted (s : List Char) : unescape (s.flatMap (escaped quote)) = s := by
  induction s with
  | nil => rfl
  | cons c s ih => rw [List.flatMap_cons, unescape_escapedChar hquote, ih]

end Quoted

/-! ### Words -/

theorem toNat_lt_of_isNameChar {c : Char} (h : isNameChar c = true) : c.toNat < 128 := by
  rw [isNameChar, Bool.or_eq_true, beq_iff_eq] at h
  rcases h with h | rfl
  · exact toNat_lt_of_isAlphanum h
  · decide

theorem capital_of_isNameChar {c : Char} (h : isNameChar c = true) : capital c = c.toUpper :=
  forall_ascii (fun c => isNameChar c = true → capital c = c.toUpper) (by decide +kernel)
    (toNat_lt_of_isNameChar h) h

theorem isKeywordChar_of_isNameChar {c : Char} (h : isNameChar c = true) : isKeywordChar c = true :=
  forall_ascii (fun c => isNameChar c = true → isKeywordChar c = true) (by decide +kernel)
    (toNat_lt_of_isNameChar h) h

theorem isNameChar_of_isNameStart {c : Char} (h : isNameStart c = true) : isNameChar c = true := by
  rw [isNameStart, Bool.or_eq_true] at h
  rw [isNameChar, Char.isAlphanum, Bool.or_eq_true, Bool.or_eq_true]
  exact h.imp_left .inl

theorem isDigit_of_isNameStart {c : Char} (h : isNameStart c = true) : c.isDigit = false :=
  forall_ascii (fun c => isNameStart c = true → c.isDigit = false) (by decide +kernel)
    (toNat_lt_of_isNameChar (isNameChar_of_isNameStart h)) h

theorem eq_dot_of_toUpper {c : Char} (h : c.toUpper = '.') : c = '.' := by
  have halpha : c.isAlpha = false := by
    rw [← Char.isUpper_toUpper_eq_isAlpha, h]
    rfl
  have hlower : c.isLower = false := (Bool.or_eq_false_iff.1 halpha).2
  rwa [Char.toUpper_eq_of_not_isLower (Bool.eq_false_iff.1 hlower)] at h

/-- A character that starts a word starts nothing else. -/
theorem Token.read?_of_isNameStart {c : Char} (hc : isNameStart c = true) (order : List Opcode)
    (cs : List Char) :
    Token.read? order c cs =
      match register? c cs with
      | some r => some (.register r, 1)
      | none =>
        match mnemonic? order (c :: cs) with
        | some op => some (.mnemonic op, op.name.length - 1)
        | none =>
          some (.name (String.ofList (c :: cs.takeWhile isNameChar)),
            (cs.takeWhile isNameChar).length) := by
  have hne (d : Char) (hd : isNameStart d = false) : c ≠ d := by
    rintro rfl
    rw [hc] at hd
    cases hd
  rw [Token.read?, if_neg (hne _ (by decide)), if_neg (hne _ (by decide)), if_neg (hne _ (by decide)),
    if_neg (hne _ (by decide)), if_neg (hne _ (by decide)), isDigit_of_isNameStart hc,
    if_neg Bool.false_ne_true, if_neg (hne _ (by decide))]
  cases register? c cs with
  | some r => rfl
  | none =>
    cases mnemonic? order (c :: cs) with
    | some op => rfl
    | none => exact if_pos hc

/-! ### Keywords -/

theorem startsWith_cons {w c : Char} {word cs : List Char} :
    startsWith (w :: word) (c :: cs) = true ↔ capital c = w ∧ startsWith word cs = true := by
  rw [startsWith, startsWith, afterLetters?]
  split <;> simp_all

/-- A keyword is read where a word spells it. -/
theorem startsWith_iff_spells {word letters : List Char} (h : ∀ c ∈ letters, isNameChar c = true) :
    startsWith word letters = true ↔ Spells letters word := by
  induction word generalizing letters with
  | nil =>
    cases letters with
    | nil => exact iff_of_true rfl rfl
    | cons c cs =>
      have hc := isKeywordChar_of_isNameChar (h c List.mem_cons_self)
      simp [startsWith, afterLetters?, goesOn, hc, Spells]
  | cons w word ih =>
    cases letters with
    | nil => simp [startsWith, afterLetters?, Spells]
    | cons c cs =>
      rw [startsWith_cons, capital_of_isNameChar (h c List.mem_cons_self),
        ih fun d hd => h d (List.mem_cons_of_mem c hd), Spells, Spells, List.map_cons,
        List.cons.injEq]

theorem isUpper_of_mem_name (op : Opcode) : ∀ c ∈ op.name.toList, c.isUpper = true := by
  refine List.all_eq_true.1 ?_
  cases op <;> decide

theorem name_ne_nil (op : Opcode) : op.name.toList ≠ [] := by
  cases op <;> decide

theorem eq_of_name_eq {op op' : Opcode} (h : op.name = op'.name) : op = op' := by
  have each : ∀ a ∈ Opcode.all, ∀ b ∈ Opcode.all, a.name = b.name → a = b := by decide +kernel
  exact each op op.mem_all op' op'.mem_all h

theorem Spells.isAlpha {letters word : List Char} (h : Spells letters word)
    (hword : ∀ c ∈ word, c.isUpper = true) : ∀ c ∈ letters, c.isAlpha = true := by
  intro c hc
  rw [← Char.isUpper_toUpper_eq_isAlpha]
  exact hword _ (h ▸ List.mem_map_of_mem hc)

theorem isNameChar_of_isAlpha {c : Char} (h : c.isAlpha = true) : isNameChar c = true := by
  rw [isNameChar, Char.isAlphanum, h]
  rfl

section Mnemonic
variable {order : List Opcode} {letters : List Char} {op : Opcode}

/-- The word that a mnemonic is read from spells it. -/
theorem spells_of_mnemonic? (hletters : ∀ c ∈ letters, isNameChar c = true)
    (h : mnemonic? order letters = some op) : Spells letters op.name.toList := by
  have hstarts := List.find?_some h
  exact (startsWith_iff_spells hletters).1 hstarts

theorem mnemonic?_of_spells (hop : op ∈ order) (h : Spells letters op.name.toList) :
    mnemonic? order letters = some op := by
  have hletters : ∀ c ∈ letters, isNameChar c = true :=
    fun c hc => isNameChar_of_isAlpha (h.isAlpha (isUpper_of_mem_name op) c hc)
  cases hread : mnemonic? order letters with
  | none =>
    have hnone := List.find?_eq_none.1 hread op hop
    exact absurd ((startsWith_iff_spells hletters).2 h) hnone
  | some op' =>
    have hname : op.name.toList = op'.name.toList := h.symm.trans (spells_of_mnemonic? hletters hread)
    rw [eq_of_name_eq (String.toList_inj.1 hname)]

end Mnemonic

/-! ### Tokens -/

/-- The text is one token. It starts neither with a blank nor with a comment. -/
def Reads (order : List Opcode) (token : Token) (cs : List Char) : Prop :=
  ∃ c tail, cs = c :: tail ∧ isBlank c = false ∧ c ≠ ';' ∧
    Token.read? order c tail = some (token, tail.length)

theorem isBlank_of_isNameChar {c : Char} (h : isNameChar c = true) : isBlank c = false ∧ c ≠ ';' :=
  forall_ascii (fun c => isNameChar c = true → isBlank c = false ∧ c ≠ ';') (by decide +kernel)
    (toNat_lt_of_isNameChar h) h

section Reads
variable (order : List Opcode)

theorem reads_number {c : Char} {tail : List Char} {n : Except Nat Nat} (hc : c.isDigit = true)
    (h : number? (c :: tail) = some (n, tail.length + 1)) : Reads order (.ofNumber n) (c :: tail) := by
  have hne (d : Char) (hd : d.isDigit = false) : c ≠ d := by
    rintro rfl
    rw [hc] at hd
    cases hd
  have hname : isNameChar c = true := by
    rw [isNameChar, Char.isAlphanum, hc, Bool.or_true]
    rfl
  have hblank := isBlank_of_isNameChar hname
  refine ⟨c, tail, rfl, hblank.1, hblank.2, ?_⟩
  rw [Token.read?, if_neg (hne _ (by decide)), if_neg (hne _ (by decide)), if_neg (hne _ (by decide)),
    if_neg (hne _ (by decide)), if_neg (hne _ (by decide)), if_pos hc, h]
  rfl

theorem reads_char (s : String) : Reads order (.char s) (quotedWith '\'' s) := by
  refine ⟨'\'', _, rfl, by decide, by decide, ?_⟩
  simp only [Token.read?, Char.reduceEq, if_false, if_true]
  rw [quotedBody?_quoted (.inr rfl), Option.map_some, unescape_quoted (.inr rfl), String.ofList_toList,
    List.length_append]
  rfl

theorem reads_text (s : String) : Reads order (.text s) (quotedWith '"' s) := by
  refine ⟨'"', _, rfl, by decide, by decide, ?_⟩
  simp only [Token.read?, Char.reduceEq, if_false, if_true]
  rw [quotedBody?_quoted (.inl rfl), Option.map_some, unescape_quoted (.inl rfl), String.ofList_toList,
    List.length_append]
  rfl

theorem reads_register {r : Register} {letter : Char} (h : letter = 'r' ∨ letter = 'R') :
    Reads order (.register r) [letter, r.val.digitChar] := by
  have hdigit : (r.val.digitChar.toNat - 48 : Int) = r.val := by
    have := r.isLt
    rw [Nat.toNat_digitChar_of_lt_ten (by omega)]
    omega
  have hread : register? letter [r.val.digitChar] = some r := by
    rw [register?, if_pos h]
    exact Register.ofInt?_eq_some_iff.2 hdigit
  have hstart : isNameStart letter = true := by
    rcases h with rfl | rfl <;> decide
  have hblank := isBlank_of_isNameChar (isNameChar_of_isNameStart hstart)
  refine ⟨letter, _, rfl, hblank.1, hblank.2, ?_⟩
  rw [Token.read?_of_isNameStart hstart, hread]
  rfl

/-- A register is read from its letter and its digit, and the word ends there. -/
theorem exists_digit_of_register? {c : Char} {cs : List Char} {r : Register}
    (h : register? c cs = some r) : (c = 'r' ∨ c = 'R') ∧
      ∃ ds, cs = r.val.digitChar :: ds ∧ ∀ e, ds.head? = some e → isNameChar e = false := by
  unfold register? at h
  obtain ⟨hc, h⟩ := Option.ite_none_right_eq_some.1 h
  refine ⟨hc, ?_⟩
  cases cs with
  | nil => cases h
  | cons d ds =>
    simp only at h
    split at h
    · cases h
    · rename_i hends
      have hd : (d.toNat - 48 : Int) = r.val := Register.ofInt?_eq_some_iff.1 h
      have hlt := r.isLt
      have hdigit : d = r.val.digitChar := by
        rw [← Char.toNat_inj, Nat.toNat_digitChar_of_lt_ten (by omega)]
        omega
      refine ⟨ds, by rw [hdigit], fun e he => ?_⟩
      rw [he] at hends
      exact Bool.eq_false_iff.2 hends

/-- The word that a register is read from spells it. -/
theorem spells_of_register? {c : Char} {cs : List Char} {r : Register}
    (hcs : ∀ d ∈ cs, isNameChar d = true) (h : register? c cs = some r) :
    Spells (c :: cs) ['R', r.val.digitChar] := by
  obtain ⟨hc, ds, rfl, hends⟩ := exists_digit_of_register? h
  have hds : ds = [] := by
    cases ds with
    | nil => rfl
    | cons e es =>
      have he := hcs e (by simp)
      rw [hends e rfl] at he
      cases he
  have hupper : ∀ r : Register, r.val.digitChar.toUpper = r.val.digitChar := by decide
  rw [Spells, hds, List.map_cons, List.map_cons, List.map_nil, hupper]
  rcases hc with rfl | rfl <;> rfl

theorem register?_of_isAlpha {c d : Char} (hd : d.isAlpha = true) (ds : List Char) :
    register? c (d :: ds) = none := by
  have hrange : 65 ≤ d.toNat :=
    forall_ascii (fun d => d.isAlpha = true → 65 ≤ d.toNat) (by decide +kernel)
      (toNat_lt_of_isNameChar (isNameChar_of_isAlpha hd)) hd
  have hnone : Register.ofInt? (d.toNat - 48 : Int) = none := by
    rw [Register.ofInt?_eq_none_iff]
    omega
  simp only [register?, hnone, ite_self]

theorem reads_name {x : String} (h : IsName x) : Reads order (.name x) x.toList := by
  obtain ⟨c, cs, hx, hc, hcs⟩ := h.word
  have hall : ∀ d ∈ c :: cs, isNameChar d = true :=
    List.forall_mem_cons.2 ⟨isNameChar_of_isNameStart hc, hcs⟩
  have hregister : register? c cs = none := by
    cases hread : register? c cs with
    | none => rfl
    | some r => exact absurd (hx ▸ spells_of_register? hcs hread) (h.noRegister r)
  have hmnemonic : mnemonic? order (c :: cs) = none := by
    cases hread : mnemonic? order (c :: cs) with
    | none => rfl
    | some op => exact absurd (hx ▸ spells_of_mnemonic? hall hread) (h.noMnemonic op)
  have hblank := isBlank_of_isNameChar (isNameChar_of_isNameStart hc)
  refine ⟨c, cs, hx, hblank.1, hblank.2, ?_⟩
  rw [Token.read?_of_isNameStart hc, hregister, hmnemonic, List.takeWhile_eq_self_iff.2 hcs, ← hx,
    String.ofList_toList]

theorem reads_mnemonic {op : Opcode} {letters : List Char} (hop : op ∈ order)
    (h : Spells letters op.name.toList) : Reads order (.mnemonic op) letters := by
  have halpha := h.isAlpha (isUpper_of_mem_name op)
  have hlength : letters.length = op.name.length := by
    rw [← String.length_toList, ← h, List.length_map]
  match letters with
  | [] => exact absurd h.symm (name_ne_nil op)
  | c :: tail =>
    have hstart : isNameStart c = true := by
      rw [isNameStart, halpha c List.mem_cons_self, Bool.true_or]
    have hblank := isBlank_of_isNameChar (isNameChar_of_isNameStart hstart)
    have hregister : register? c tail = none := by
      cases tail with
      | nil => simp only [register?, ite_self]
      | cons d ds => exact register?_of_isAlpha (halpha d (by simp)) ds
    refine ⟨c, tail, rfl, hblank.1, hblank.2, ?_⟩
    rw [Token.read?_of_isNameStart hstart, hregister, mnemonic?_of_spells hop h]
    change some (Token.mnemonic op, op.name.length - 1) = _
    rw [← hlength]
    rfl

theorem reads_data {letters : List Char} (h : Spells letters dataWord) : Reads order .data letters := by
  match letters with
  | [] => cases h
  | c :: tail =>
    have hword : dataWord = '.' :: "DATA".toList := by decide
    rw [Spells, hword, List.map_cons] at h
    obtain ⟨hc, htail⟩ := List.cons.inj h
    obtain rfl := eq_dot_of_toUpper hc
    have halpha : ∀ d ∈ tail, d.isAlpha = true := Spells.isAlpha htail (List.all_eq_true.1 (by decide))
    have hstarts : startsWith "DATA".toList tail = true :=
      (startsWith_iff_spells fun d hd => isNameChar_of_isAlpha (halpha d hd)).2 htail
    have hlength : tail.length = 4 := by
      rw [← List.length_map, htail]
      decide
    have hdata : startsWith dataWord ('.' :: tail) = true := by
      rw [hword]
      exact hstarts
    refine ⟨'.', tail, rfl, by decide, by decide, ?_⟩
    simp only [Token.read?, Char.reduceEq, if_false, if_true, hdata, hlength]
    rfl

/-- The token of a value that is written, where it may have too many digits. -/
def Value.tokenRead (v : Value) : Option Nat → Token
  | none => v.token
  | some digits => .overlong digits

theorem ofNumber_readAs (n digits : Nat) :
    Token.ofNumber (readAs n digits) = (Value.number n).tokenRead (unread? digits) := by
  unfold readAs unread?
  by_cases h : digits ≤ maxDigits
  · rw [if_pos h, if_neg (Nat.not_lt.2 h)]
    rfl
  · rw [if_neg h, if_pos (Nat.not_le.1 h)]
    rfl

/-- What a written value is read as. -/
theorem ValueWritten.reads {v : Value} {cs : List Char} {digits : Option Nat}
    (h : ValueWritten v cs digits) : Reads order (v.tokenRead digits) cs := by
  cases h with
  | register h => exact reads_register order h
  | decimal zeros n =>
    obtain ⟨c, tail, hds, hc, hnumber⟩ := exists_decimal zeros n
    rw [hds, ← ofNumber_readAs]
    exact reads_number order hc hnumber
  | hexadecimal hx h => exact reads_number order rfl (number?_hexadecimal hx h)
  | char s => exact reads_char order s
  | text s => exact reads_text order s
  | label h => exact reads_name order h

end Reads

end WordMachine.Asm
