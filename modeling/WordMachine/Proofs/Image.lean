import WordMachine.Image

/-! Images and words. Two bytes hold any word of sixteen bits, so the words that an image may hold
come back from the bytes that are written for them, and the bytes from the words. All other bytes and
words are refused, for the first of their defects. -/

namespace WordMachine.Image

theorem check_eq_ok_iff {words ws : List Int} :
    check words = .ok ws ↔
      (words.length ≤ memorySize ∧ ∀ w ∈ words, 0 ≤ w ∧ w ≤ (maxOperand : Int)) ∧ ws = words := by
  rw [← firstOutside_eq_none_iff, check]
  split
  · simp only [reduceCtorEq, false_iff, not_and]
    omega
  · cases firstOutside maxOperand words with
    | none => simp only [Except.ok.injEq, and_true, eq_comm, iff_and_self]; omega
    | some p => simp

theorem word_of_bytes {w : Int} (h : 0 ≤ w ∧ w ≤ 0xffff) :
    (((UInt8.ofNat w.toNat).toNat + 256 * (UInt8.ofNat (w.toNat / 256)).toNat : Nat) : Int) = w := by
  simp only [UInt8.toNat_ofNat']
  omega

theorem pairs_flatMap_bytesOf {words : List Int} (h : ∀ w ∈ words, 0 ≤ w ∧ w ≤ 0xffff) :
    pairs (words.flatMap bytesOf) = words := by
  induction words with
  | nil => rfl
  | cons w words ih =>
    rw [List.forall_mem_cons] at h
    simp only [List.flatMap_cons, bytesOf, List.cons_append, List.nil_append, pairs]
    rw [word_of_bytes h.1]
    exact congrArg (w :: ·) (ih h.2)

theorem length_flatMap_bytesOf (words : List Int) :
    (words.flatMap bytesOf).length = 2 * words.length := by
  induction words with
  | nil => rfl
  | cons w words ih =>
    simp only [List.flatMap_cons, List.length_append, ih, bytesOf, List.length_cons, List.length_nil]
    omega

theorem dump_of_range {words : List Int} (hlen : words.length ≤ memorySize)
    (hw : ∀ w ∈ words, 0 ≤ w ∧ w ≤ (maxOperand : Int)) :
    dump words = .ok (words.flatMap bytesOf) := by
  rw [dump, check_eq_ok_iff.2 ⟨⟨hlen, hw⟩, rfl⟩]
  rfl

/-- The words that are written to an image are read back from it. -/
theorem load_flatMap_bytesOf {words : List Int} (hlen : words.length ≤ memorySize)
    (hw : ∀ w ∈ words, 0 ≤ w ∧ w ≤ (maxOperand : Int)) :
    load (words.flatMap bytesOf) = .ok words := by
  have hwide : ∀ w ∈ words, 0 ≤ w ∧ w ≤ 0xffff := by
    intro w h
    have := hw w h
    simp only [maxOperand, modulus] at this
    omega
  have heven : ¬ (words.flatMap bytesOf).length % 2 = 1 := by
    rw [length_flatMap_bytesOf]
    omega
  rw [load, if_neg heven, pairs_flatMap_bytesOf hwide, check_eq_ok_iff]
  exact ⟨⟨hlen, hw⟩, rfl⟩

/-! ### Bytes -/

/-- The word at an address of an image, its low byte first. -/
def wordAt (bytes : List UInt8) (i : Nat) : Int :=
  ((bytes.getD (2 * i) 0).toNat + 256 * (bytes.getD (2 * i + 1) 0).toNat : Nat)

/-- The words of an image, in the order of their addresses. -/
def wordsOf (bytes : List UInt8) : List Int := (List.range (bytes.length / 2)).map (wordAt bytes)

theorem pairs_eq_wordsOf (bytes : List UInt8) : pairs bytes = wordsOf bytes := by
  fun_induction pairs bytes with
  | case1 lo hi rest ih =>
    have hlen : (lo :: hi :: rest).length / 2 = rest.length / 2 + 1 := by
      simp only [List.length_cons]
      omega
    have hlater : wordAt (lo :: hi :: rest) ∘ Nat.succ = wordAt rest := by
      funext i
      simp only [Function.comp_apply, wordAt, Nat.succ_eq_add_one, Nat.mul_add, Nat.mul_one,
        List.getD_cons_succ, Nat.add_right_comm _ 2 1]
    rw [ih, wordsOf, wordsOf, hlen, List.range_succ_eq_map, List.map_cons, List.map_map, hlater]
    rfl
  | case2 bytes h =>
    match bytes with
    | [] => rfl
    | [_] => simp [wordsOf]
    | lo :: hi :: rest => exact absurd rfl (h lo hi rest)

theorem bytesOf_pair (lo hi : UInt8) : bytesOf (lo.toNat + 256 * hi.toNat : Nat) = [lo, hi] := by
  have hlo := lo.toNat_lt
  have hhi := hi.toNat_lt
  simp only [bytesOf, Int.toNat_natCast, List.cons.injEq, and_true, ← UInt8.toNat_inj,
    UInt8.toNat_ofNat']
  omega

/-- Bytes that pair up are the bytes of their words. -/
theorem flatMap_bytesOf_pairs {bytes : List UInt8} (h : bytes.length % 2 = 0) :
    (pairs bytes).flatMap bytesOf = bytes := by
  fun_induction pairs bytes with
  | case1 lo hi rest ih =>
    have hrest : rest.length % 2 = 0 := by
      simp only [List.length_cons] at h
      omega
    rw [List.flatMap_cons, bytesOf_pair, ih hrest]
    rfl
  | case2 bytes hbytes =>
    match bytes with
    | [] => rfl
    | [_] => cases h
    | lo :: hi :: rest => exact absurd rfl (hbytes lo hi rest)

theorem length_wordsOf (bytes : List UInt8) : (wordsOf bytes).length = bytes.length / 2 := by
  rw [wordsOf, List.length_map, List.length_range]

theorem wordAt_nonneg (bytes : List UInt8) (i : Nat) : 0 ≤ wordAt bytes i := Int.natCast_nonneg _

theorem forall_mem_wordsOf {P : Int → Prop} {bytes : List UInt8} :
    (∀ w ∈ wordsOf bytes, P w) ↔ ∀ i, i < bytes.length / 2 → P (wordAt bytes i) := by
  rw [wordsOf, List.forall_mem_map]
  simp only [List.mem_range]

/-! ### Refusals -/

/-- The word at the address is the first that an image may not hold. -/
structure FirstOffence (words : List Int) (addr : Nat) (word : Int) : Prop where
  found : words[addr]? = some word
  offends : ¬ (0 ≤ word ∧ word ≤ 32775)
  first : ∀ w ∈ words.take addr, 0 ≤ w ∧ w ≤ 32775

/-- Why words make no image: there are too many of them, or else one of them offends. It is named, if it
has a numeral. -/
inductive Refuses (words : List Int) : LoadError → Prop
  | tooLong : 32768 < words.length → Refuses words (.imageTooLong words.length)
  | offends (addr : Nat) (word : Int) : words.length ≤ 32768 → FirstOffence words addr word →
      HasNumeral word → Refuses words (.notAnOperand addr word)
  | untold (addr : Nat) (word : Int) : words.length ≤ 32768 → FirstOffence words addr word →
      ¬ HasNumeral word → Refuses words (.untold addr word)

theorem firstOutside_eq_some_iff {words : List Int} {addr : Nat} {word : Int} :
    firstOutside maxOperand words = some (addr, word) ↔ FirstOffence words addr word := by
  have hstored (w : Int) : (decide (0 ≤ w) && decide (w ≤ (maxOperand : Int))) = true ↔
      0 ≤ w ∧ w ≤ 32775 := by
    rw [Bool.and_eq_true, decide_eq_true_eq, decide_eq_true_eq]
    rfl
  rw [firstOutside, Option.map_eq_some_iff]
  constructor
  · rintro ⟨⟨w, a⟩, hfind, heq⟩
    cases heq
    obtain ⟨hoffends, i, hi, hat, hbefore⟩ := List.find?_eq_some_iff_getElem.1 hfind
    rw [List.length_zipIdx] at hi
    simp only [List.getElem_zipIdx, Nat.zero_add, Prod.mk.injEq] at hat
    obtain ⟨rfl, rfl⟩ := hat
    rw [Bool.not_eq_true', ← Bool.not_eq_true, hstored] at hoffends
    refine ⟨List.getElem?_eq_getElem hi, hoffends, ?_⟩
    intro v hv
    obtain ⟨j, hj, rfl⟩ := List.mem_take_iff_getElem.1 hv
    have := hbefore j (by omega)
    rwa [Bool.not_not, List.getElem_zipIdx, hstored] at this
  · rintro ⟨hfound, hoffends, hfirst⟩
    obtain ⟨haddr, rfl⟩ := List.getElem?_eq_some_iff.1 hfound
    refine ⟨(words[addr], addr), ?_, rfl⟩
    rw [List.find?_eq_some_iff_getElem, Bool.not_eq_true', ← Bool.not_eq_true, hstored]
    refine ⟨hoffends, addr, by rwa [List.length_zipIdx], by simp, ?_⟩
    intro j hj
    rw [Bool.not_not, List.getElem_zipIdx, hstored]
    exact hfirst _ (List.mem_take_iff_getElem.2 ⟨j, by omega, rfl⟩)

theorem check_eq_error_iff {words : List Int} {e : LoadError} :
    check words = .error e ↔ Refuses words e := by
  unfold check
  constructor
  · intro h
    split at h
    · rename_i hlong
      obtain rfl := Except.error.inj h
      exact .tooLong hlong
    · rename_i hlong
      split at h
      · rename_i addr word hword
        have hlen := Nat.not_lt.1 hlong
        have hfirst := firstOutside_eq_some_iff.1 hword
        obtain rfl := Except.error.inj h
        by_cases hnumeral : HasNumeral word
        · rw [LoadError.naming, if_pos hnumeral]
          exact .offends addr word hlen hfirst hnumeral
        · rw [LoadError.naming, if_neg hnumeral]
          exact .untold addr word hlen hfirst hnumeral
      · cases h
  · intro h
    cases h with
    | tooLong hlong => exact if_pos hlong
    | offends addr word hlen hword hnumeral =>
      have hshort : ¬ memorySize < words.length := Nat.not_lt.2 hlen
      rw [if_neg hshort, firstOutside_eq_some_iff.2 hword]
      exact congrArg Except.error (if_pos hnumeral)
    | untold addr word hlen hword hnumeral =>
      have hshort : ¬ memorySize < words.length := Nat.not_lt.2 hlen
      rw [if_neg hshort, firstOutside_eq_some_iff.2 hword]
      exact congrArg Except.error (if_neg hnumeral)

theorem load_eq_error_iff {bytes : List UInt8} {e : LoadError} :
    load bytes = .error e ↔ bytes.length % 2 = 1 ∧ e = .oddLength bytes.length ∨
      bytes.length % 2 = 0 ∧ Refuses (wordsOf bytes) e := by
  unfold load
  by_cases hodd : bytes.length % 2 = 1
  · simp [hodd, eq_comm]
  · rw [if_neg hodd, pairs_eq_wordsOf, check_eq_error_iff]
    simp [Nat.mod_two_ne_one.1 hodd]

/-- Two bytes make a word that has a numeral. -/
theorem hasNumeral_wordAt (bytes : List UInt8) (i : Nat) : HasNumeral (wordAt bytes i) := by
  have hlo := (bytes.getD (2 * i) 0).toNat_lt
  have hhi := (bytes.getD (2 * i + 1) 0).toNat_lt
  refine hasNumeral_of_range (wordAt_nonneg bytes i) ?_
  rw [wordAt]
  omega

theorem load_ne_untold (bytes : List UInt8) (addr : Nat) (word : Int) :
    load bytes ≠ .error (.untold addr word) := by
  intro h
  rcases load_eq_error_iff.1 h with ⟨-, heq⟩ | ⟨-, hrefuses⟩
  · cases heq
  · cases hrefuses with
    | untold _ _ hlen hword hnumeral =>
      have hmem := List.mem_of_getElem? hword.found
      exact hnumeral (forall_mem_wordsOf.2 (fun i _ => hasNumeral_wordAt bytes i) word hmem)

theorem dump_eq_error_iff {words : List Int} {e : LoadError} :
    dump words = .error e ↔ Refuses words e := by
  rw [← check_eq_error_iff, dump]
  cases check words <;> simp [Except.map]

theorem load_eq_ok_iff {bytes : List UInt8} {words : List Int} :
    load bytes = .ok words ↔ (bytes.length % 2 = 0 ∧ bytes.length ≤ 65536 ∧
      ∀ i, i < bytes.length / 2 → wordAt bytes i ≤ 32775) ∧ words = wordsOf bytes := by
  unfold load
  by_cases hodd : bytes.length % 2 = 1
  · simp [hodd]
  · have hlen : bytes.length / 2 ≤ memorySize ↔ bytes.length ≤ 65536 := by
      simp only [memorySize]
      omega
    have hwords : (∀ w ∈ wordsOf bytes, 0 ≤ w ∧ w ≤ (maxOperand : Int)) ↔
        ∀ i, i < bytes.length / 2 → wordAt bytes i ≤ 32775 := by
      rw [forall_mem_wordsOf]
      exact forall₂_congr fun i _ => and_iff_right (wordAt_nonneg bytes i)
    rw [if_neg hodd, pairs_eq_wordsOf, check_eq_ok_iff, length_wordsOf, hlen, hwords,
      and_iff_right (Nat.mod_two_ne_one.1 hodd)]

theorem dump_eq_ok_iff {words : List Int} {bytes : List UInt8} :
    dump words = .ok bytes ↔ (words.length ≤ 32768 ∧ ∀ w ∈ words, 0 ≤ w ∧ w ≤ 32775) ∧
      bytes = words.flatMap bytesOf := by
  constructor
  · intro h
    match hcheck : check words with
    | .error e =>
      rw [dump, hcheck] at h
      cases h
    | .ok ws =>
      obtain ⟨hwords, rfl⟩ := check_eq_ok_iff.1 hcheck
      rw [dump, hcheck] at h
      cases h
      exact ⟨hwords, rfl⟩
  · rintro ⟨⟨hlen, hwords⟩, rfl⟩
    exact dump_of_range hlen hwords

/-- Loading and dumping undo each other. -/
theorem load_eq_ok_iff_dump {bytes : List UInt8} {words : List Int} :
    load bytes = .ok words ↔ dump words = .ok bytes := by
  rw [dump_eq_ok_iff]
  constructor
  · intro h
    obtain ⟨⟨heven, hlen, hwords⟩, rfl⟩ := load_eq_ok_iff.1 h
    refine ⟨⟨?_, ?_⟩, ?_⟩
    · rw [length_wordsOf]
      omega
    · exact forall_mem_wordsOf.2 fun i hi => ⟨wordAt_nonneg bytes i, hwords i hi⟩
    · rw [← pairs_eq_wordsOf, flatMap_bytesOf_pairs heven]
  · rintro ⟨⟨hlen, hwords⟩, rfl⟩
    exact load_flatMap_bytesOf hlen hwords

/-- Bytes and words with several defects. -/
example : load [0x08, 0x80, 0x00] = .error (.oddLength 3) ∧
    dump [5, -1, 32776] = .error (.notAnOperand 1 (-1)) := by
  have hfirst : FirstOffence [5, -1, 32776] 1 (-1) := ⟨rfl, by decide, by decide⟩
  have hnumeral : HasNumeral (-1) := hasNumeral_of_natAbs_lt (by decide)
  exact ⟨rfl, dump_eq_error_iff.2 (.offends 1 (-1) (by decide) hfirst hnumeral)⟩

end WordMachine.Image
