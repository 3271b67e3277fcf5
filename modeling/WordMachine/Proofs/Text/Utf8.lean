import WordMachine.Text.Utf8

/-! Decoding and encoding. A text is decoded exactly if it is made up of the shortest forms of
characters, and then these characters are what it gives. -/

namespace WordMachine.Utf8

/-- Whether bytes are the characters of some text, each in its shortest form. -/
def Valid (bytes : List UInt8) : Prop := ∃ cs : List Char, bytes = cs.flatMap String.utf8EncodeChar

theorem continuation_zero_eq_ok {low high : UInt8} {bits code : Nat} {bytes : List UInt8} :
    continuation 0 low high bits bytes = .ok code ↔ code = bits := by
  rw [continuation, Except.ok.injEq, eq_comm]

theorem continuation_succ_eq_ok {n : Nat} {low high : UInt8} {bits code : Nat} {bytes : List UInt8} :
    continuation (n + 1) low high bits bytes = .ok code ↔
      ∃ b rest, bytes = b :: rest ∧ low ≤ b ∧ b ≤ high ∧
        continuation n 0x80 0xBF (bits * 64 + (b.toNat - 0x80)) rest = .ok code := by
  match bytes with
  | [] => simp [continuation]
  | b :: rest =>
    simp only [continuation, List.cons.injEq]
    constructor
    · intro h
      split at h
      · rename_i hrange
        split at h
        · rename_i bits' hbits
          cases h
          exact ⟨b, rest, ⟨rfl, rfl⟩, hrange.1, hrange.2, hbits⟩
        · cases h
      · cases h
    · rintro ⟨_, _, ⟨rfl, rfl⟩, hlow, hhigh, hrest⟩
      rw [if_pos ⟨hlow, hhigh⟩, hrest]

/-- The leads of characters of one, two, three and four bytes. -/
theorem lead_eq_some_iff {b : UInt8} {lead : Lead} :
    Lead.ofByte? b = some lead ↔
      b.toNat < 0x80 ∧ lead = ⟨0, 0x80, 0xBF, b.toNat⟩ ∨
      0xC2 ≤ b.toNat ∧ b.toNat < 0xE0 ∧ lead = ⟨1, 0x80, 0xBF, b.toNat - 0xC0⟩ ∨
      0xE0 ≤ b.toNat ∧ b.toNat < 0xF0 ∧ lead = ⟨2, if b = 0xE0 then 0xA0 else 0x80,
        if b = 0xED then 0x9F else 0xBF, b.toNat - 0xE0⟩ ∨
      0xF0 ≤ b.toNat ∧ b.toNat < 0xF5 ∧ lead = ⟨3, if b = 0xF0 then 0x90 else 0x80,
        if b = 0xF4 then 0x8F else 0xBF, b.toNat - 0xF0⟩ := by
  unfold Lead.ofByte?
  simp only [UInt8.lt_iff_toNat_lt, UInt8.reduceToNat]
  constructor
  · intro h
    split at h
    · cases h
      exact .inl ⟨‹_›, rfl⟩
    · split at h
      · cases h
      · split at h
        · cases h
          exact .inr (.inl ⟨by omega, ‹_›, rfl⟩)
        · split at h
          · cases h
            exact .inr (.inr (.inl ⟨by omega, ‹_›, rfl⟩))
          · split at h
            · cases h
              exact .inr (.inr (.inr ⟨by omega, ‹_›, rfl⟩))
            · cases h
  · rintro (⟨h, rfl⟩ | ⟨hlow, hhigh, rfl⟩ | ⟨hlow, hhigh, rfl⟩ | ⟨hlow, hhigh, rfl⟩)
    · rw [if_pos h]
    · rw [if_neg (by omega), if_neg (by omega), if_pos hhigh]
    · rw [if_neg (by omega), if_neg (by omega), if_neg (by omega), if_pos hhigh]
    · rw [if_neg (by omega), if_neg (by omega), if_neg (by omega), if_neg (by omega), if_pos hhigh]

theorem toNat_ofNat {n : Nat} (h : n.isValidChar) : (Char.ofNat n).toNat = n := by
  rw [Char.ofNat, dif_pos h]
  rfl

/-- The shortest forms, by the code point. -/
theorem encode_ofNat {n : Nat} (h : n.isValidChar) :
    String.utf8EncodeChar (Char.ofNat n) =
      if n ≤ 0x7F then [UInt8.ofNat n]
      else if n ≤ 0x7FF then [UInt8.ofNat (n / 64 % 32 + 0xC0), UInt8.ofNat (n % 64 + 0x80)]
      else if n ≤ 0xFFFF then [UInt8.ofNat (n / 4096 % 16 + 0xE0), UInt8.ofNat (n / 64 % 64 + 0x80),
        UInt8.ofNat (n % 64 + 0x80)]
      else [UInt8.ofNat (n / 262144 % 8 + 0xF0), UInt8.ofNat (n / 4096 % 64 + 0x80),
        UInt8.ofNat (n / 64 % 64 + 0x80), UInt8.ofNat (n % 64 + 0x80)] := by
  simp only [String.utf8EncodeChar, Char.toNat_val, toNat_ofNat h]

/-- What is read from the front of some bytes is a character in its shortest form. -/
theorem encode_of_lead {b : UInt8} {rest : List UInt8} {lead : Lead} {code : Nat}
    (hlead : Lead.ofByte? b = some lead)
    (hcode : continuation lead.count lead.low lead.high lead.bits rest = .ok code) :
    b :: rest = String.utf8EncodeChar (Char.ofNat code) ++ rest.drop lead.count := by
  rcases lead_eq_some_iff.1 hlead with ⟨hb, rfl⟩ | ⟨hlow, hhigh, rfl⟩ | ⟨hlow, hhigh, rfl⟩ | ⟨hlow, hhigh, rfl⟩
  all_goals
    simp only [continuation_succ_eq_ok, continuation_zero_eq_ok] at hcode
  · subst hcode
    rw [encode_ofNat (by unfold Nat.isValidChar; omega), if_pos (by omega), UInt8.ofNat_toNat]
    rfl
  · obtain ⟨b₁, rest, rfl, hlow₁, hhigh₁, hcode⟩ := hcode
    simp only [UInt8.le_iff_toNat_le, UInt8.reduceToNat] at hlow₁ hhigh₁
    rw [encode_ofNat (by unfold Nat.isValidChar; omega), if_neg (by omega), if_pos (by omega)]
    simp only [List.cons_append, List.nil_append, List.drop_succ_cons, List.drop_zero, List.cons.injEq,
      ← UInt8.toNat_inj, UInt8.toNat_ofNat', and_true]
    omega
  · obtain ⟨b₁, rest, rfl, hlow₁, hhigh₁, b₂, rest, rfl, hlow₂, hhigh₂, hcode⟩ := hcode
    simp only [UInt8.le_iff_toNat_le, ← UInt8.toNat_inj, apply_ite UInt8.toNat,
      UInt8.reduceToNat] at hlow₁ hhigh₁ hlow₂ hhigh₂
    have hleast : 0x80 ≤ b₁.toNat ∧ (b.toNat = 0xE0 → 0xA0 ≤ b₁.toNat) := by
      split at hlow₁ <;> omega
    have hgreatest : b₁.toNat ≤ 0xBF ∧ (b.toNat = 0xED → b₁.toNat ≤ 0x9F) := by
      split at hhigh₁ <;> omega
    rw [encode_ofNat (by unfold Nat.isValidChar; omega), if_neg (by omega), if_neg (by omega),
      if_pos (by omega)]
    simp only [List.cons_append, List.nil_append, List.drop_succ_cons, List.drop_zero, List.cons.injEq,
      ← UInt8.toNat_inj, UInt8.toNat_ofNat', and_true]
    omega
  · obtain ⟨b₁, rest, rfl, hlow₁, hhigh₁, b₂, rest, rfl, hlow₂, hhigh₂, b₃, rest, rfl, hlow₃, hhigh₃,
      hcode⟩ := hcode
    simp only [UInt8.le_iff_toNat_le, ← UInt8.toNat_inj, apply_ite UInt8.toNat,
      UInt8.reduceToNat] at hlow₁ hhigh₁ hlow₂ hhigh₂ hlow₃ hhigh₃
    have hleast : 0x80 ≤ b₁.toNat ∧ (b.toNat = 0xF0 → 0x90 ≤ b₁.toNat) := by
      split at hlow₁ <;> omega
    have hgreatest : b₁.toNat ≤ 0xBF ∧ (b.toNat = 0xF4 → b₁.toNat ≤ 0x8F) := by
      split at hhigh₁ <;> omega
    rw [encode_ofNat (by unfold Nat.isValidChar; omega), if_neg (by omega), if_neg (by omega),
      if_neg (by omega)]
    simp only [List.cons_append, List.nil_append, List.drop_succ_cons, List.drop_zero, List.cons.injEq,
      ← UInt8.toNat_inj, UInt8.toNat_ofNat', and_true]
    omega

/-- A byte with six bits of the code point is read if it lies within the bounds. -/
theorem continuation_bits {n m bits code : Nat} {low high : UInt8} {rest : List UInt8}
    (hlow : low.toNat ≤ m % 64 + 0x80) (hhigh : m % 64 + 0x80 ≤ high.toNat)
    (h : continuation n 0x80 0xBF (bits * 64 + m % 64) rest = .ok code) :
    continuation (n + 1) low high bits (UInt8.ofNat (m % 64 + 0x80) :: rest) = .ok code := by
  have hbyte : (UInt8.ofNat (m % 64 + 0x80)).toNat = m % 64 + 0x80 := by
    rw [UInt8.toNat_ofNat']
    omega
  refine continuation_succ_eq_ok.2 ⟨_, _, rfl, ?_, ?_, ?_⟩
  · rwa [UInt8.le_iff_toNat_le, hbyte]
  · rwa [UInt8.le_iff_toNat_le, hbyte]
  · rwa [hbyte, Nat.add_sub_cancel]

/-- The first byte of a character's shortest form says how many follow, and these give the rest of its
code point. -/
theorem exists_lead (c : Char) :
    ∃ b more lead, String.utf8EncodeChar c = b :: more ∧ Lead.ofByte? b = some lead ∧
      more.length = lead.count ∧
      ∀ rest, continuation lead.count lead.low lead.high lead.bits (more ++ rest) = .ok c.toNat := by
  have hvalid : c.toNat.isValidChar := c.valid
  have hencode := encode_ofNat hvalid
  rw [Char.ofNat_toNat] at hencode
  unfold Nat.isValidChar at hvalid
  generalize c.toNat = n at hvalid hencode ⊢
  simp only [lead_eq_some_iff]
  -- by the number of bytes; what is left each time is that the bits of the code point are in their places
  split at hencode
  · refine ⟨_, _, _, hencode, .inl ⟨?_, rfl⟩, rfl, fun rest => continuation_zero_eq_ok.2 ?_⟩
    all_goals
      simp only [UInt8.toNat_ofNat']
      omega
  · split at hencode
    · refine ⟨_, _, _, hencode, .inr (.inl ⟨?_, ?_, rfl⟩), rfl, fun rest =>
        continuation_bits ?_ ?_ (continuation_zero_eq_ok.2 ?_)⟩
      all_goals
        simp only [UInt8.toNat_ofNat', UInt8.reduceToNat]
        omega
    · split at hencode
      · refine ⟨_, _, _, hencode, .inr (.inr (.inl ⟨?_, ?_, rfl⟩)), rfl, fun rest =>
          continuation_bits ?_ ?_ (continuation_bits ?_ ?_ (continuation_zero_eq_ok.2 ?_))⟩
        all_goals
          simp only [← UInt8.toNat_inj, apply_ite UInt8.toNat, UInt8.toNat_ofNat', UInt8.reduceToNat]
          try split
          all_goals omega
      · refine ⟨_, _, _, hencode, .inr (.inr (.inr ⟨?_, ?_, rfl⟩)), rfl, fun rest =>
          continuation_bits ?_ ?_ (continuation_bits ?_ ?_ (continuation_bits ?_ ?_
            (continuation_zero_eq_ok.2 ?_)))⟩
        all_goals
          simp only [← UInt8.toNat_inj, apply_ite UInt8.toNat, UInt8.toNat_ofNat', UInt8.reduceToNat]
          try split
          all_goals omega

/-- A character's shortest form gives this character, and leaves what stands behind it. -/
theorem decodeFrom_encode (start : Nat) (c : Char) (rest : List UInt8) :
    ∃ next, ∀ cs, decodeFrom next rest = .ok cs →
      decodeFrom start (String.utf8EncodeChar c ++ rest) = .ok (c :: cs) := by
  obtain ⟨b, more, lead, hencode, hlead, hlength, hmore⟩ := exists_lead c
  refine ⟨start + 1 + lead.count, fun cs hcs => ?_⟩
  rw [hencode, List.cons_append, decodeFrom]
  simp only [hlead, hmore, Char.ofNat_toNat, List.drop_left' hlength, hcs]

theorem decodeFrom_eq_ok_iff {start : Nat} {bytes : List UInt8} {cs : List Char} :
    decodeFrom start bytes = .ok cs ↔ bytes = cs.flatMap String.utf8EncodeChar := by
  constructor
  · intro h
    fun_induction decodeFrom start bytes generalizing cs with
    | case1 start =>
      cases h
      rfl
    | case2 | case3 | case4 => cases h
    | case5 start b rest lead hlead code hcode rest' hrest ih =>
      cases h
      rw [encode_of_lead hlead hcode, ih hrest, List.flatMap_cons]
  · rintro rfl
    induction cs generalizing start with
    | nil => rw [List.flatMap_nil, decodeFrom]
    | cons c cs ih =>
      obtain ⟨next, hnext⟩ := decodeFrom_encode start c (cs.flatMap String.utf8EncodeChar)
      rw [List.flatMap_cons, hnext cs ih]

/-- Decoding gives the characters that the bytes are made up of, and it fails if there are none. -/
theorem decode_eq_ok_iff {bytes : List UInt8} {cs : List Char} :
    decode bytes = .ok cs ↔ bytes = cs.flatMap String.utf8EncodeChar :=
  decodeFrom_eq_ok_iff

theorem exists_decode_eq_error_iff {bytes : List UInt8} :
    (∃ e, decode bytes = .error e) ↔ ¬ Valid bytes := by
  simp only [Valid, ← decode_eq_ok_iff]
  cases decode bytes <;> simp

end WordMachine.Utf8
