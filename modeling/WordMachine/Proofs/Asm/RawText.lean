import WordMachine.Asm.Code
import WordMachine.Proofs.Asm.Backpatch
import WordMachine.Proofs.Asm.ReadBack

/-! Rows of data that are one text, written without escapes. Blanks, commas and semicolons between
the quotes are characters like any others, and each gives one word, wherever the row starts. A tab
does not: it has been replaced by the blanks up to the next tab stop before the text is read, so it
gives as many words as there are columns up to there. -/

namespace WordMachine.Asm

/-- A row of data with one text, as it stands behind `k` blanks. -/
def textRow (k : Nat) (s : String) : String := String.ofList (blanks k) ++ ".data \"" ++ s ++ "\""

/-- A character that can stand in a text as it is, and that fits in a word. -/
structure IsPlain (c : Char) : Prop where
  quote : c ≠ '"'
  backslash : c ≠ '\\'
  newline : c ≠ '\n'
  carriage : c ≠ '\r'
  narrow : c.toNat ≤ 32767

instance (c : Char) : Decidable (IsPlain c) :=
  decidable_of_iff (c ≠ '"' ∧ c ≠ '\\' ∧ c ≠ '\n' ∧ c ≠ '\r' ∧ c.toNat ≤ 32767)
    ⟨fun ⟨hquote, hbackslash, hnewline, hreturn, hnarrow⟩ =>
      ⟨hquote, hbackslash, hnewline, hreturn, hnarrow⟩,
    fun h => ⟨h.quote, h.backslash, h.newline, h.carriage, h.narrow⟩⟩

/-- The text that is read in the place of `s`, whose first character has the given column. -/
def untabbed (column : Nat) (s : String) : String := String.ofList (expandTabsFrom column s.toList)

@[simp] theorem toList_untabbed (column : Nat) (s : String) :
    (untabbed column s).toList = expandTabsFrom column s.toList := String.toList_ofList

section Row
variable {k : Nat} {s : String}

theorem isPlain_of_mem_untabbed (hs : ∀ c ∈ s.toList, IsPlain c) {column : Nat} :
    ∀ c ∈ (untabbed column s).toList, IsPlain c ∧ c ≠ '\t' := by
  intro c hc
  rw [toList_untabbed] at hc
  refine ⟨?_, fun htab => tab_not_mem_expandTabsFrom column s.toList (htab ▸ hc)⟩
  rcases mem_expandTabsFrom hc with hmem | rfl
  · exact hs c hmem
  · exact ⟨by decide, by decide, by decide, by decide, by decide⟩

/-- What stands for itself is written as it is. -/
theorem quotedWith_of_plain (hs : ∀ c ∈ s.toList, IsPlain c ∧ c ≠ '\t') :
    quotedWith '"' s = '"' :: (s.toList ++ ['"']) := by
  have hescaped : s.toList.flatMap (escaped '"') = s.toList.flatMap fun c => [c] := by
    refine List.flatMap_congr ?_
    intro c hc
    obtain ⟨hplain, htab⟩ := hs c hc
    rw [escaped, if_neg (not_or.2 ⟨hplain.backslash, hplain.quote⟩), if_neg hplain.newline,
      if_neg hplain.carriage, if_neg htab]
  rw [quotedWith, hescaped, List.flatMap_singleton']

theorem toList_textRow (k : Nat) (s : String) :
    (textRow k s).toList = (blanks k ++ ".data \"".toList) ++ (s.toList ++ ['"']) := by
  simp [textRow]

/-- The blanks and the seven characters in front of a text put it into its column. -/
theorem expandTabs_textRow (k : Nat) (s : String) :
    expandTabs (textRow k s).toList =
      blanks k ++ (".data".toList ++ (blanks 1 ++ '"' :: ((untabbed (k + 7) s).toList ++ ['"']))) := by
  have hfront : ∀ c ∈ blanks k ++ ".data \"".toList, c ≠ '\t' ∧ c ≠ '\n' ∧ c ≠ '\r' := by
    intro c hc
    rcases List.mem_append.1 hc with hc | hc
    · rw [(List.mem_replicate.1 hc).2]
      decide
    · have hrow : ∀ c ∈ ".data \"".toList, c ≠ '\t' ∧ c ≠ '\n' ∧ c ≠ '\r' := by simp
      exact hrow c hc
  have hlength : (blanks k ++ ".data \"".toList).length = k + 7 := by simp [blanks]
  rw [toList_textRow, expandTabs, expandTabsFrom_append 0 _ hfront, hlength, Nat.zero_add,
    expandTabsFrom_concat _ _ (by decide), List.append_assoc, toList_untabbed]
  rfl

theorem parse_textRow (hs : ∀ c ∈ s.toList, IsPlain c) :
    parse (textRow k s) = .ok [⟨k, .data [⟨k + 6, .text (untabbed (k + 7) s)⟩]⟩] := by
  have hspelled : Spells ".data".toList dataWord := by
    unfold Spells
    decide
  have hrow : RowWritten (k + ".data".toList.length + (0 + 1)) _ _ none :=
    .last (.text (untabbed (k + 7) s))
  have hcommand : CommandWritten k _ _ none := .data hspelled hrow
  have hnewline : '\n' ∉ expandTabs (textRow k s).toList := by
    rw [expandTabs_textRow, ← quotedWith_of_plain (isPlain_of_mem_untabbed hs)]
    exact fun hmem => ((oneLine_append.2 ⟨oneLine_blanks k, hcommand.oneLine⟩) _ hmem).1 rfl
  obtain ⟨⟨hread, hend⟩, hlabel⟩ := hcommand.command_eq Opcode.mem_all (Nat.zero_add k)
  rw [quotedWith_of_plain (isPlain_of_mem_untabbed hs), ← expandTabs_textRow] at hread hlabel hend
  rw [parse, parseIn_eq, Lexed.statements, program_eq_line (ne_newline_of_mem_lex hnewline), line,
    hlabel, hread, hend]
  rfl

/-- The program with one text has the characters of the text for its words. -/
theorem assembleProgram_text {loc loc' : Nat} {t : String} (ht : ∀ c ∈ t.toList, c.toNat ≤ 32767) :
    assembleProgram [⟨loc, .data [⟨loc', .text t⟩]⟩] =
      if 32768 < t.toList.length then .error (.tooLong t.toList.length) else .ok (codesOf t) := by
  have hoffence : (Value.text t).offence? = none := by
    rw [Value.offence?, Option.map_eq_none_iff, List.find?_eq_none]
    intro c hc
    simpa using ht c hc
  have hitems : ∀ i ∈ items [⟨loc, .data [⟨loc', .text t⟩]⟩], i.offence? = none := by
    intro i hi
    obtain rfl : i = .value ⟨loc', .text t⟩ := List.mem_singleton.1 hi
    rw [Item.offence?, hoffence, Option.map_none]
  have hmissing (p : List Statement) : ∀ o ∈ operands [⟨loc, .data [⟨loc', .text t⟩]⟩],
      o.missing? (address? p) = none := by
    intro o ho
    obtain rfl : o = ⟨loc', .text t⟩ := List.mem_singleton.1 ho
    rfl
  have hwords (address : String → Nat) :
      words address [⟨loc, .data [⟨loc', .text t⟩]⟩] = codesOf t := by
    simp [words, Command.words, rowWords, Value.words]
  rw [assembleProgram_eq, twoPass, check_eq_of_forall hitems, check_eq_of_forall (hmissing _), hwords]
  rfl

/-- The words of a row are the characters of what is read in the place of its text. -/
theorem assemble_textRow (hs : ∀ c ∈ s.toList, IsPlain c) (k : Nat) :
    assemble (textRow k s) =
      if 32768 < (untabbed (k + 7) s).toList.length
      then .error (.tooLong (untabbed (k + 7) s).toList.length)
      else .ok (codesOf (untabbed (k + 7) s)) := by
  simp only [assemble, parse_textRow hs]
  exact assembleProgram_text fun c hc => (isPlain_of_mem_untabbed hs c hc).1.narrow

end Row

/-- Texts with the same codes are the same. -/
theorem codesOf_injective : Function.Injective codesOf := by
  intro s t h
  have hinjective : Function.Injective fun c : Char => (c.toNat : Int) :=
    fun c d hcd => Char.toNat_inj.1 (Int.ofNat.inj hcd)
  exact String.toList_inj.1 (List.map_injective_iff.2 hinjective h)

theorem untabbed_eq_iff (column : Nat) (s : String) : untabbed column s = s ↔ '\t' ∉ s.toList := by
  constructor
  · intro h
    rw [← h, toList_untabbed]
    exact tab_not_mem_expandTabsFrom column s.toList
  · intro h
    rw [untabbed, expandTabsFrom_of_no_tab column h, String.ofList_toList]

/-- A row with a text of plain characters gives one word for each character of the text, once its tabs
have been replaced, if these words fit in memory. So it gives the characters of the text itself, and
the same ones behind any number of blanks, exactly if there is no tab among them. -/
theorem text_is_assembled {s : String} (hs : ∀ c ∈ s.toList, IsPlain c) :
    (∀ k, assemble (textRow k s) =
      if 32768 < (untabbed (k + 7) s).toList.length
      then .error (.tooLong (untabbed (k + 7) s).toList.length)
      else .ok (codesOf (untabbed (k + 7) s))) ∧
    (s.toList.length ≤ 32768 → ∀ k, assemble (textRow k s) = .ok (codesOf s) ↔ '\t' ∉ s.toList) := by
  refine ⟨assemble_textRow hs, ?_⟩
  intro hlength k
  rw [assemble_textRow hs, ← untabbed_eq_iff (k + 7)]
  constructor
  · intro h
    split at h
    · cases h
    · exact codesOf_injective (Except.ok.inj h)
  · intro h
    rw [h, if_neg (Nat.not_lt.2 hlength)]

theorem isPlain_tabbed : ∀ c ∈ "a\tb".toList, IsPlain c := by
  have hall : ("a\tb".toList.all fun c => decide (IsPlain c)) = true := by decide
  intro c hc
  exact of_decide_eq_true (List.all_eq_true.1 hall c hc)

/-- A tab between two letters gives eight blanks, and seven if the row starts one column further on. -/
theorem text_is_assembled_of_tab :
    (∀ c ∈ "a\tb".toList, IsPlain c) ∧
      assemble (textRow 0 "a\tb") = .ok [97, 32, 32, 32, 32, 32, 32, 32, 32, 98] ∧
      assemble (textRow 1 "a\tb") = .ok [97, 32, 32, 32, 32, 32, 32, 32, 98] ∧
      ∀ k, assemble (textRow k "a\tb") ≠ .ok [97, 9, 98] := by
  have htab : '\t' ∈ "a\tb".toList := by decide
  obtain ⟨hwords, hfaithful⟩ := text_is_assembled isPlain_tabbed
  refine ⟨isPlain_tabbed, (hwords 0).trans (by decide +kernel), (hwords 1).trans (by decide +kernel), ?_⟩
  intro k h
  exact (hfaithful (by decide) k).1 h htab

/-- Not every text of plain characters gives its own characters. -/
theorem text_is_not_faithful :
    ¬ ∀ (k : Nat) (s : String), s.toList.length ≤ 32768 → (∀ c ∈ s.toList, IsPlain c) →
      assemble (textRow k s) = .ok (codesOf s) := by
  intro h
  have hfaithful := h 0 "a\tb" (by decide) isPlain_tabbed
  rw [assemble_textRow isPlain_tabbed] at hfaithful
  revert hfaithful
  decide +kernel

end WordMachine.Asm
