import WordMachine.Proofs.Asm.Sound

/-! The assembler, which goes over the statements once and patches the references to labels into the
words afterwards, gives what assembling in two passes gives: the same words, or the same error. While
the statements are gone over, the draft is the layout of those that are through, with zeros where
addresses are missing, and its fixups are the places of these zeros. -/

namespace WordMachine.Asm

/-! ### The draft of a layout -/

/-- where addresses are not known yet, every label stands for zero -/
def unknown : String → Nat := fun _ => 0

/-- The reference that an operand makes, if its word has the address `a`. -/
def Operand.fixups (a : Nat) (o : Operand) : List Fixup :=
  match o.value with
  | .label x => [⟨a, o.loc, x⟩]
  | _ => []

/-- The references in a row of operands whose first word has the address `a`. -/
def rowFixups (a : Nat) : List Operand → List Fixup
  | [] => []
  | o :: os => o.fixups a ++ rowFixups (a + (o.value.words unknown).length) os

def Command.fixups (a : Nat) : Command → List Fixup
  | .label _ => []
  | .instruction _ os => rowFixups (a + 1) os
  | .data vs => rowFixups a vs

/-- The references of a program whose first word has the address `a`. -/
def fixupsFrom (a : Nat) : List Statement → List Fixup
  | [] => []
  | s :: rest => s.command.fixups a ++ fixupsFrom (a + (s.command.words unknown).length) rest

/-- The draft as it stands behind the statements of a program. -/
def Draft.of (program : List Statement) : Draft :=
  ⟨(Asm.words unknown program).toArray, (labelsFrom 0 program).reverse, (fixupsFrom 0 program).reverse⟩

/-- A draft with more words and more references. -/
def Draft.extend (d : Draft) (ws : List Int) (fs : List Fixup) : Draft :=
  ⟨d.words ++ ws.toArray, d.labels, fs.reverse ++ d.fixups⟩

theorem Value.length_words_unknown (v : Value) (address : String → Nat) :
    (v.words unknown).length = (v.words address).length := by
  cases v <;> rfl

theorem length_rowWords_unknown (os : List Operand) (address : String → Nat) :
    (rowWords unknown os).length = (rowWords address os).length := by
  induction os with
  | nil => rfl
  | cons o os ih =>
    rw [rowWords_cons, rowWords_cons, List.length_append, List.length_append, ih,
      o.value.length_words_unknown address]

theorem Command.length_words_unknown (c : Command) (address : String → Nat) :
    (c.words unknown).length = (c.words address).length := by
  cases c with
  | label x => rfl
  | instruction op os => simp only [words, List.length_cons, length_rowWords_unknown os address]
  | data vs => exact length_rowWords_unknown vs address

theorem fixupsFrom_append (a : Nat) (p q : List Statement) :
    fixupsFrom a (p ++ q) = fixupsFrom a p ++ fixupsFrom (a + (words unknown p).length) q := by
  induction p generalizing a with
  | nil => rfl
  | cons s p ih =>
    simp only [List.cons_append, fixupsFrom, ih, List.append_assoc, words_cons, List.length_append,
      Nat.add_assoc]

namespace Draft

@[simp] theorem extend_nil (d : Draft) : d.extend [] [] = d := by
  simp [extend]

theorem extend_extend (d : Draft) (ws ws' : List Int) (fs fs' : List Fixup) :
    (d.extend ws fs).extend ws' fs' = d.extend (ws ++ ws') (fs ++ fs') := by
  simp [extend]

@[simp] theorem size_extend (d : Draft) (ws : List Int) (fs : List Fixup) :
    (d.extend ws fs).words.size = d.words.size + ws.length := by
  simp [extend]

theorem emit_eq (d : Draft) (w : Int) : d.emit w = d.extend [w] [] := by
  simp [emit, extend]

/-! ### Emitting -/

theorem emitChar_eq (d : Draft) (loc : Nat) (c : Char) :
    d.emitChar loc c =
      if 32767 < c.toNat then .error (.code loc (.charTooWide c))
      else .ok (d.extend [(c.toNat : Int)] []) := by
  unfold emitChar
  rw [emit_eq]
  by_cases h : 32767 < c.toNat
  · rw [if_pos h, if_neg (by simp only [modulus]; omega)]
  · rw [if_neg h, if_pos (by simp only [modulus]; omega)]

/-- An operand that is no text gives its word. -/
theorem emitOperand_eq (d : Draft) {o : Operand} (ht : ∀ t, o.value ≠ .text t) :
    d.emitOperand o =
      match o.value.offence? with
      | some e => .error (.code o.loc e)
      | none => .ok (d.extend (o.value.words unknown) (o.fixups d.words.size)) := by
  obtain ⟨loc, v⟩ := o
  cases v with
  | register r => rw [emitOperand, emit_eq]; rfl
  | number n =>
    simp only [emitOperand, emit_eq, Value.offence?, modulus]
    by_cases hn : n ≤ 32767
    · rw [if_pos (by omega), if_pos hn]; rfl
    · rw [if_neg (by omega), if_neg hn]
  | char s =>
    simp only [emitOperand, Value.offence?, Value.words, codesOf]
    cases s.toList with
    | nil => rfl
    | cons c cs =>
      cases cs with
      | cons => rfl
      | nil =>
        simp only [emitChar_eq]
        by_cases hc : c.toNat ≤ 32767
        · rw [if_neg (by omega), if_pos hc]; rfl
        · rw [if_pos (by omega), if_neg hc]
  | text t => exact absurd rfl (ht t)
  | label x => simp only [emitOperand, emit, Value.offence?]; rfl

theorem emitInRole_eq (d : Draft) (op : Opcode) (role : Role) (o : Operand) :
    d.emitInRole op role o =
      match o.value.offenceAs? op role with
      | some e => .error (.code o.loc e)
      | none => .ok (d.extend (o.value.words unknown) (o.fixups d.words.size)) := by
  obtain ⟨loc, v⟩ := o
  have hemit := fun ht => @emitOperand_eq d ⟨loc, v⟩ ht
  cases role with
  | write =>
    cases v with
    | register r =>
      apply hemit
      intro t h
      cases h
    | _ => rfl
  | read =>
    cases v with
    | text t => rfl
    | _ =>
      apply hemit
      intro t h
      cases h

theorem emitOperands_eq (d : Draft) (op : Opcode) (ps : List (Role × Operand)) :
    d.emitOperands op ps = check (fun p => Item.offence? (.operand op p.1 p.2)) ps
      (.ok (d.extend (rowWords unknown (ps.map Prod.snd))
        (rowFixups d.words.size (ps.map Prod.snd)))) := by
  induction ps generalizing d with
  | nil => rw [check_nil, emitOperands]; exact congrArg _ d.extend_nil.symm
  | cons p ps ih =>
    rw [emitOperands, emitInRole_eq, check_cons, Item.offence?]
    cases p.2.value.offenceAs? op p.1 with
    | some e => rfl
    | none =>
      simp only [Option.map_none, ih, extend_extend, size_extend]
      rfl

theorem emitChars_eq (d : Draft) (loc : Nat) (cs : List Char) :
    d.emitChars loc cs =
      match (cs.find? fun c => 32767 < c.toNat).map CodeError.charTooWide with
      | some e => .error (.code loc e)
      | none => .ok (d.extend (cs.map fun c => (c.toNat : Int)) []) := by
  induction cs generalizing d with
  | nil => rw [emitChars]; exact congrArg _ d.extend_nil.symm
  | cons c cs ih =>
    rw [emitChars, emitChar_eq, List.find?_cons]
    by_cases hc : 32767 < c.toNat
    · simp [hc]
    · simp only [hc, decide_false, if_false, ih, extend_extend]
      rfl

/-- Emits one value in a row of data. -/
def emitValue (d : Draft) (o : Operand) : Except AsmError Draft :=
  match o.value with
  | .text s => d.emitChars o.loc s.toList
  | _ => d.emitOperand o

theorem emitValues_cons (d : Draft) (o : Operand) (vs : List Operand) :
    d.emitValues (o :: vs) =
      match d.emitValue o with
      | .error e => .error e
      | .ok d => d.emitValues vs := rfl

theorem emitValue_eq (d : Draft) (o : Operand) :
    d.emitValue o =
      match o.value.offence? with
      | some e => .error (.code o.loc e)
      | none => .ok (d.extend (o.value.words unknown) (o.fixups d.words.size)) := by
  unfold emitValue
  split
  · rename_i s hs
    rw [emitChars_eq, Operand.fixups, hs]
    rfl
  · rename_i ht
    exact d.emitOperand_eq ht

theorem emitValues_eq (d : Draft) (vs : List Operand) :
    d.emitValues vs = check (fun o => Item.offence? (.value o)) vs
      (.ok (d.extend (rowWords unknown vs) (rowFixups d.words.size vs))) := by
  induction vs generalizing d with
  | nil => rw [check_nil, emitValues]; exact congrArg _ d.extend_nil.symm
  | cons o vs ih =>
    rw [emitValues_cons, emitValue_eq, check_cons, Item.offence?]
    cases o.value.offence? with
    | some e => rfl
    | none =>
      simp only [Option.map_none, ih, extend_extend, size_extend]
      rfl

theorem of_concat (before : List Statement) (s : Statement) :
    Draft.of (before ++ [s]) =
      ⟨(Draft.of before).words ++ (s.command.words unknown).toArray,
        s.command.label?.toList.map (fun x => (x, size before)) ++ (Draft.of before).labels,
        (s.command.fixups (Draft.of before).words.size).reverse ++ (Draft.of before).fixups⟩ := by
  simp only [Draft.of, words_append, labelsFrom_append, fixupsFrom_append, labelsFrom, fixupsFrom]
  cases s.command.label? <;> simp [Asm.words]

/-- What stands behind a statement, if nothing in it is wrong. -/
theorem emitStatement_eq {before : List Statement} (h : Clean before) (s : Statement) :
    (Draft.of before).emitStatement s =
      check Item.offence? (s.items before) (.ok (Draft.of (before ++ [s]))) := by
  have hsize : (Draft.of before).words.size = size before := by
    rw [Draft.of, List.size_toArray, h.length_words]
  rw [of_concat]
  unfold emitStatement Statement.items
  match hc : s.command with
  | .label x =>
    have hdefined : ((Draft.of before).labels.lookup x).isSome = true ↔ x ∈ labelNames before := by
      rw [Draft.of, List.lookup_isSome_iff, ← fst_labelsFrom 0 before]
      simp
    simp only [check_cons, check_nil, Item.offence?, define, hsize, hdefined]
    by_cases hx : x ∈ labelNames before
    · rw [if_pos hx, if_pos hx]
    · rw [if_neg hx, if_neg hx]
      by_cases hin : 32767 < size before
      · rw [if_pos hin, if_pos (by simp only [memorySize]; omega)]
      · rw [if_neg hin, if_neg (by simp only [memorySize]; omega)]
        simp [Command.words, Command.fixups, Command.label?]
  | .instruction op os =>
    simp only [check_cons, check_map, Item.offence?]
    by_cases harity : os.length = op.arity
    · rw [if_pos harity, if_pos harity, emit_eq, emitOperands_eq,
        List.map_snd_zip (Nat.le_of_eq harity), extend_extend, size_extend]
      rfl
    · rw [if_neg harity, if_neg harity]
  | .data vs =>
    simp only [emitValues_eq, check_map]
    rfl

theorem emitStatements_eq {before : List Statement} (h : Clean before) (p : List Statement) :
    (Draft.of before).emitStatements p =
      check Item.offence? (itemsAfter before p) (.ok (Draft.of (before ++ p))) := by
  induction p generalizing before with
  | nil => rw [List.append_nil]; rfl
  | cons s p ih =>
    rw [emitStatements, emitStatement_eq h, itemsAfter, check_append]
    cases hi : (s.items before).findSome? Item.offence? with
    | some e => simp only [check, hi]
    | none =>
      have hs := List.findSome?_eq_none_iff.1 hi
      simp only [check_eq_of_forall hs]
      rw [ih (clean_concat.2 ⟨h, hs⟩), ← List.append_cons]

end Draft

/-! ### Patching -/

section Patch
variable {labels : List (String × Nat)} {program : List Statement}
  (h : ∀ x, labels.lookup x = address? program x)
include h

theorem patch_operand (o : Operand) (pre post : List Int) (rest : List Fixup) :
    Draft.patch labels (pre ++ (o.value.words unknown ++ post)).toArray
        (o.fixups pre.length ++ rest) =
      match o.missing? (address? program) with
      | some e => .error e
      | none =>
        Draft.patch labels (pre ++ (o.value.words (addressOf program) ++ post)).toArray rest := by
  obtain ⟨loc, v⟩ := o
  cases v with
  | label x =>
    simp only [Operand.fixups, Operand.missing?, List.singleton_append, Draft.patch, Value.words,
      addressOf, h]
    cases address? program x with
    | none => rfl
    | some a => simp [unknown]
  | _ => rfl

theorem patch_row (os : List Operand) (pre post : List Int) (rest : List Fixup) :
    Draft.patch labels (pre ++ (rowWords unknown os ++ post)).toArray
        (rowFixups pre.length os ++ rest) =
      check (Operand.missing? (address? program)) os
        (Draft.patch labels (pre ++ (rowWords (addressOf program) os ++ post)).toArray rest) := by
  induction os generalizing pre with
  | nil => rfl
  | cons o os ih =>
    -- what is patched already belongs to the words in front
    have ih := ih (pre ++ o.value.words (addressOf program))
    rw [List.length_append, ← o.value.length_words_unknown] at ih
    rw [rowWords_cons, rowFixups, List.append_assoc, List.append_assoc, patch_operand h, check_cons]
    cases o.missing? (address? program) with
    | some e => rfl
    | none =>
      simp only [List.append_assoc] at ih
      simp only [ih, rowWords_cons, List.append_assoc]

theorem patch_command (c : Command) (pre post : List Int) (rest : List Fixup) :
    Draft.patch labels (pre ++ (c.words unknown ++ post)).toArray (c.fixups pre.length ++ rest) =
      check (Operand.missing? (address? program)) c.operands
        (Draft.patch labels (pre ++ (c.words (addressOf program) ++ post)).toArray rest) := by
  cases c with
  | label x => rfl
  | instruction op os =>
    have hrow := patch_row h os (pre ++ [(op.code : Int)]) post rest
    rw [List.append_assoc, List.append_assoc, List.length_append] at hrow
    exact hrow
  | data vs => exact patch_row h vs pre post rest

theorem patch_program (p : List Statement) (pre : List Int) :
    Draft.patch labels (pre ++ words unknown p).toArray (fixupsFrom pre.length p) =
      check (Operand.missing? (address? program)) (operands p)
        (.ok (pre ++ words (addressOf program) p).toArray) := by
  induction p generalizing pre with
  | nil => rfl
  | cons s p ih =>
    have ih := ih (pre ++ s.command.words (addressOf program))
    rw [List.length_append, ← s.command.length_words_unknown] at ih
    rw [words_cons, fixupsFrom, patch_command h, operands, List.flatMap_cons, check_append,
      ← List.append_assoc, ih, List.append_assoc]
    rfl

end Patch

/-- Labels that are distinct are found from either end. -/
theorem lookup_reverse {l : List (String × Nat)} (h : (l.map Prod.fst).Nodup) (x : String) :
    l.reverse.lookup x = l.lookup x := by
  induction l with
  | nil => rfl
  | cons p l ih =>
    obtain ⟨y, a⟩ := p
    rw [List.map_cons, List.nodup_cons] at h
    rw [List.reverse_cons, List.lookup_append, ih h.2, List.lookup_cons, List.lookup_cons]
    by_cases hx : x = y
    · subst hx
      have hl : l.lookup x = none := by
        rw [List.lookup_eq_none_iff]
        intro p hp
        rw [bne_iff_ne]
        intro hxp
        exact h.1 (List.mem_map.2 ⟨p, hp, hxp.symm⟩)
      simp [hl]
    · simp [beq_false_of_ne hx]

theorem Clean.lookup_labels {p : List Statement} (h : Clean p) (x : String) :
    (Draft.of p).labels.lookup x = address? p x := by
  refine lookup_reverse ?_ x
  rw [fst_labelsFrom]
  exact h.nodup

/-- What is behind the last statement is finished by patching the draft of the whole program. -/
theorem finish_eq {p : List Statement} (h : Clean p) :
    (Draft.of p).finish = check (Operand.missing? (address? p)) (operands p)
      (if 32768 < size p then .error (.tooLong (size p)) else .ok (words (addressOf p) p)) := by
  have hpatch := patch_program h.lookup_labels p []
  rw [List.nil_append, List.nil_append, List.length_nil] at hpatch
  have hfixups : (Draft.of p).fixups.reverse = fixupsFrom 0 p := List.reverse_reverse _
  have hwords : (Draft.of p).words = (words unknown p).toArray := rfl
  rw [Draft.finish, hfixups, hwords, hpatch]
  unfold check
  split
  · rename_i e he
    split at he <;> cases he
    rfl
  · rename_i ws hws
    split at hws <;> cases hws
    simp only [List.size_toArray, h.length_words, memorySize]

theorem assembleProgram_eq (p : List Statement) : assembleProgram p = twoPass p := by
  have hempty : Draft.empty = Draft.of [] := rfl
  have hclean : Clean [] := nofun
  rw [assembleProgram, hempty, Draft.emitStatements_eq hclean, List.nil_append, twoPass, items]
  cases hi : (itemsAfter [] p).findSome? Item.offence? with
  | some e => simp only [check, hi]
  | none =>
    have hs := List.findSome?_eq_none_iff.1 hi
    have hp : Clean p := hs
    simp only [check_eq_of_forall hs, finish_eq hp]

/-- The assembler gives what assembling in two passes gives, and it gives words exactly if nothing
is wrong with the program. -/
theorem backpatching_is_two_pass (p : List Statement) :
    assembleProgram p = twoPass p ∧ ((∃ ws, assembleProgram p = .ok ws) ↔ Sound p) := by
  refine ⟨assembleProgram_eq p, ?_⟩
  simp only [assembleProgram_eq, twoPass_eq_ok_iff, exists_and_left, exists_eq, and_true]

example : assembleProgram [⟨0, .instruction .jmp [⟨4, .label "a"⟩]⟩, ⟨6, .label "a"⟩] = .ok [6, 2] := by
  rfl

end WordMachine.Asm
