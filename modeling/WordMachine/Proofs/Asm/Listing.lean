import WordMachine.Proofs.Asm.ReadBack
import WordMachine.Proofs.Asm.Sequence
import WordMachine.Proofs.Image

/-! Listings. Any words that an image may hold can be written as a row of data: those below 32768 as
numbers, in either base and with any zeros in front, and the eight above as the registers that they
stand for. However they are written, the assembler gives the same words, and so the image again; unless
a number is written with more decimal digits than are read. -/

namespace WordMachine.Asm

/-- The value that is written for a word: the register that it stands for, or else a number. -/
def Value.ofWord (w : Int) : Value :=
  match Register.ofWord? w with
  | some r => .register r
  | none => .number w.toNat

/-- The text is a listing of the words: one row of data with a value for each of them. Where there are
no words there is no row. The first number with too many digits is given, if there is one. -/
inductive Lists : List Int → List Char → Unread → Prop
  | empty : Lists [] [] none
  | row {ws : List Int} {os : List Operand} {cs : List Char} {unread : Unread}
      (h : CommandWritten 0 (.data os) cs unread) (hos : os.map Operand.value = ws.map Value.ofWord) :
      Lists ws cs unread

/-! ### The value for a word -/

section Word
variable {w : Int}

theorem Value.ofWord_cases (hw : 0 ≤ w ∧ w ≤ 32775) :
    (∃ r : Register, Value.ofWord w = .register r ∧ r.word = w) ∨
      ∃ n : Nat, Value.ofWord w = .number n ∧ n ≤ 32767 ∧ (n : Int) = w := by
  unfold Value.ofWord
  match h : Register.ofWord? w with
  | some r => exact .inl ⟨r, rfl, (Register.ofWord?_eq_some_iff.1 h).symm⟩
  | none =>
    rw [Register.ofWord?_eq_none_iff] at h
    simp only [modulus, maxOperand] at h
    exact .inr ⟨w.toNat, rfl, by omega, by omega⟩

theorem Value.ofWord_ne_label (w : Int) (x : String) : Value.ofWord w ≠ .label x := by
  unfold Value.ofWord
  split <;> nofun

theorem Value.words_ofWord (hw : 0 ≤ w ∧ w ≤ 32775) (address : String → Nat) :
    (Value.ofWord w).words address = [w] := by
  rcases Value.ofWord_cases hw with ⟨r, hr, rfl⟩ | ⟨n, hn, -, rfl⟩
  · rw [hr]
    rfl
  · rw [hn]
    rfl

theorem Value.offence?_ofWord (hw : 0 ≤ w ∧ w ≤ 32775) : (Value.ofWord w).offence? = none := by
  rcases Value.ofWord_cases hw with ⟨r, hr, -⟩ | ⟨n, hn, hle, -⟩
  · rw [hr]
    rfl
  · rw [hn]
    exact if_pos hle

end Word

/-! ### A row of values -/

/-- A row without labels whose values fit is a program of its own. -/
theorem sound_data {loc : Nat} {os : List Operand} (hoffence : ∀ o ∈ os, o.value.offence? = none)
    (hlabel : ∀ o ∈ os, ∀ x, o.value ≠ .label x) (hfits : rowSize os ≤ 32768) :
    Sound [⟨loc, .data os⟩] := by
  have hoperands : operands [⟨loc, .data os⟩] = os := List.append_nil os
  refine sound_iff.2 ⟨?_, ?_, hfits⟩
  · exact (@clean_concat [] ⟨loc, .data os⟩).2 ⟨nofun, (clean_data rfl).2 hoffence⟩
  · intro o ho
    rw [hoperands] at ho
    exact Operand.missing?_eq_none_iff.2 fun x hx => absurd hx (hlabel o ho x)

section Row
variable {ws : List Int} {os : List Operand}

theorem forall_mem_of_map_ofWord (hos : os.map Operand.value = ws.map Value.ofWord)
    {P : Value → Prop} (h : ∀ w ∈ ws, P (Value.ofWord w)) : ∀ o ∈ os, P o.value := by
  rw [← List.forall_mem_map (f := Operand.value), hos, List.forall_mem_map]
  exact h

theorem rowWords_of_map_ofWord (hos : os.map Operand.value = ws.map Value.ofWord)
    (hws : ∀ w ∈ ws, 0 ≤ w ∧ w ≤ 32775) (address : String → Nat) : rowWords address os = ws := by
  calc rowWords address os
      = (os.map Operand.value).flatMap (Value.words address) := (List.flatMap_map ..).symm
    _ = ws.flatMap fun w => (Value.ofWord w).words address := by rw [hos, List.flatMap_map]
    _ = ws.flatMap fun w => [w] :=
        List.flatMap_congr fun w hw => Value.words_ofWord (hws w hw) address
    _ = ws := List.flatMap_singleton' ws

end Row

/-! ### Listings -/

section Listing
variable {ws : List Int} {cs : List Char}

theorem assemble_of_parse_error {source : String} {e : SyntaxError} (h : parse source = .error e) :
    assemble source = .error (.syntaxError e) := by
  rw [assemble, h]

theorem Lists.assemble_eq {unread : Unread} (h : Lists ws cs unread) (hlen : ws.length ≤ 32768)
    (hws : ∀ w ∈ ws, 0 ≤ w ∧ w ≤ 32775) :
    assemble (String.ofList cs) = (readOf unread ws).mapError AsmError.syntaxError := by
  cases h with
  | empty =>
    have hparse := ProgramWritten.parse_eq (.last .empty)
    exact (assemble_eq_ok_iff hparse).2 ⟨sound_iff.2 ⟨nofun, nofun, Nat.zero_le _⟩, rfl⟩
  | @row _ os _ _ hcommand hos =>
    have hparse := ProgramWritten.parse_eq (.last (.command hcommand))
    cases unread with
    | some => exact assemble_of_parse_error hparse
    | none =>
      have hoffence := forall_mem_of_map_ofWord (P := fun v => v.offence? = none) hos
        fun w hw => Value.offence?_ofWord (hws w hw)
      have hlabel := forall_mem_of_map_ofWord (P := fun v => ∀ x, v ≠ .label x) hos
        fun w _ => Value.ofWord_ne_label w
      have hwords := rowWords_of_map_ofWord hos hws (addressOf [⟨0, .data os⟩])
      have hsize : rowSize os = ws.length := by
        rw [← length_rowWords hoffence (addressOf [⟨0, .data os⟩]), hwords]
      refine (assemble_eq_ok_iff hparse).2 ⟨sound_data hoffence hlabel (hsize ▸ hlen), ?_⟩
      exact hwords.symm.trans (List.append_nil _).symm

theorem exists_lists (ws : List Int) : ∃ cs, Lists ws cs none := by
  by_cases hne : ws = []
  · exact ⟨[], hne ▸ .empty⟩
  · have hnameable : Nameable (ws.map Value.ofWord) := by
      intro x hx
      obtain ⟨w, -, hw⟩ := List.mem_map.1 hx
      exact absurd hw (Value.ofWord_ne_label w x)
    have hphrase : CommandPhrase (.data (ws.map Value.ofWord)) := .data (by simpa using hne) hnameable
    obtain ⟨c, cs, hcommand, hc⟩ := exists_commandWritten hphrase 0
    cases c with
    | data os =>
      injection hc with hos
      exact ⟨cs, .row hcommand hos⟩
    | label | instruction => cases hc

end Listing

/-- Words that an image may hold have a listing that can be read, and whichever of these is assembled,
the words come back; a listing with a number of too many digits is refused where the first such number
stands. So an image comes back from every listing of its words that can be read. -/
theorem images_can_be_listed (ws : List Int) :
    (ws.length ≤ 32768 → (∀ w ∈ ws, 0 ≤ w ∧ w ≤ 32775) →
      (∃ cs, Lists ws cs none) ∧
        ∀ cs unread, Lists ws cs unread →
          assemble (String.ofList cs) = (readOf unread ws).mapError AsmError.syntaxError) ∧
    ∀ bytes, Image.load bytes = .ok ws →
      (∃ cs, Lists ws cs none) ∧ ∀ cs, Lists ws cs none →
        ∃ words, assemble (String.ofList cs) = .ok words ∧ Image.dump words = .ok bytes := by
  constructor
  · intro hlen hws
    exact ⟨exists_lists ws, fun cs unread hcs => hcs.assemble_eq hlen hws⟩
  · intro bytes hload
    have hdump := Image.load_eq_ok_iff_dump.1 hload
    obtain ⟨⟨hlen, hws⟩, -⟩ := Image.dump_eq_ok_iff.1 hdump
    exact ⟨exists_lists ws, fun cs hcs => ⟨ws, hcs.assemble_eq hlen hws, hdump⟩⟩

/-- Both bases, zeros in front, a register, and each kind of separator. -/
theorem images_can_be_listed_of_row :
    Image.load [7, 0, 255, 127, 7, 128, 0, 0] = .ok [7, 32767, 32775, 0] ∧
    assemble ".Data 007,0X7FfF R7 , 0x0" = .ok [7, 32767, 32775, 0] ∧
    ∃ words, assemble ".Data 007,0X7FfF R7 , 0x0" = .ok words ∧
      Image.dump words = .ok [7, 0, 255, 127, 7, 128, 0, 0] := by
  have hseven : ValueWritten (.number 7) ['0', '0', '7'] none := .decimal 2 7
  have hwide : ValueWritten (.number 32767) ['0', 'X', '7', 'F', 'f', 'F'] none :=
    @ValueWritten.hexadecimal 0 32767 'X' ['7', 'F', 'f', 'F'] (.inr rfl) (by decide)
  have hzero : ValueWritten (.number 0) ['0', 'x', '0'] none :=
    @ValueWritten.hexadecimal 0 0 'x' ['0'] (.inl rfl) (by decide)
  have hrow : RowWritten 6
      [⟨6, .number 7⟩, ⟨10, .number 32767⟩, ⟨17, .register 7⟩, ⟨22, .number 0⟩] _ none :=
    .more hseven (.comma 0 0) (.more hwide (.spaces 0)
      (.more (.register (.inr rfl)) (.comma 1 1) (.last hzero)))
  have hword : Spells ['.', 'D', 'a', 't', 'a'] dataWord := by
    unfold Spells
    decide
  have hlists : Lists [7, 32767, 32775, 0] ".Data 007,0X7FfF R7 , 0x0".toList none :=
    .row (.data (n := 0) hword hrow) rfl
  have hload : Image.load [7, 0, 255, 127, 7, 128, 0, 0] = .ok [7, 32767, 32775, 0] := rfl
  obtain ⟨hwords, himages⟩ := images_can_be_listed [7, 32767, 32775, 0]
  have hassembled := (hwords (by decide) (by decide)).2 _ none hlists
  have hdumped := (himages _ hload).2 _ hlists
  rw [String.ofList_toList] at hassembled hdumped
  exact ⟨hload, hassembled, hdumped⟩

/-- A listing of one word that is refused, for the zeros in front of it. -/
theorem listing_with_zeros_is_refused :
    (∃ unread, Lists [7] manyZeros unread) ∧
      assemble (String.ofList manyZeros) = .error (.syntaxError (.overlong 6 4301)) :=
  ⟨⟨_, .row manyZeros_row rfl⟩, assemble_of_parse_error parse_manyZeros⟩

end WordMachine.Asm
