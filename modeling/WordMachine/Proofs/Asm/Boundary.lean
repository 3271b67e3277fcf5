import WordMachine.Proofs.Asm.Backpatch

/-! Where the statements of a program begin. In a sound program every label names such an address, an
address behind a statement is one as well, and none lies within a statement. -/

namespace WordMachine.Asm

/-- A statement begins at the address, or the program ends there. -/
def Boundary (program : List Statement) (a : Nat) : Prop :=
  ∃ before after, program = before ++ after ∧ a = size before

/-- The instruction begins at the address. -/
def StandsAt (program : List Statement) (a : Nat) (op : Opcode) (os : List Operand) : Prop :=
  ∃ before loc after, program = before ++ ⟨loc, .instruction op os⟩ :: after ∧ a = size before

theorem boundary_zero (p : List Statement) : Boundary p 0 := ⟨[], p, rfl, rfl⟩

theorem StandsAt.boundary_next {p : List Statement} {a : Nat} {op : Opcode} {os : List Operand}
    (h : StandsAt p a op os) : Boundary p (a + 1 + op.arity) := by
  obtain ⟨before, loc, after, rfl, rfl⟩ := h
  refine ⟨before ++ [⟨loc, .instruction op os⟩], after, List.append_cons .., ?_⟩
  simp only [size_append, size_cons, size_nil, Command.size, Nat.add_zero, Nat.add_assoc]

theorem StandsAt.mem {p : List Statement} {a : Nat} {op : Opcode} {os : List Operand}
    (h : StandsAt p a op os) : ∃ s ∈ p, s.command = .instruction op os := by
  obtain ⟨before, loc, after, rfl, rfl⟩ := h
  exact ⟨⟨loc, .instruction op os⟩, by simp, rfl⟩

theorem StandsAt.next_le {p : List Statement} {a : Nat} {op : Opcode} {os : List Operand}
    (h : StandsAt p a op os) : a + 1 + op.arity ≤ size p := by
  obtain ⟨before, loc, after, rfl, rfl⟩ := h
  rw [size_append, size_cons, Command.size]
  omega

theorem Boundary.not_within {before after : List Statement} {s : Statement} {a : Nat}
    (h : Boundary (before ++ s :: after) a) :
    ¬ (size before < a ∧ a < size before + s.command.size) := by
  obtain ⟨b, c, heq, rfl⟩ := h
  -- both are beginnings of one program, so one of them goes on from the other
  rcases List.append_eq_append_iff.1 heq with ⟨t, rfl, ht⟩ | ⟨t, rfl, ht⟩
  · cases t with
    | nil => simp
    | cons u t =>
      obtain ⟨rfl, rfl⟩ := List.cons.inj ht
      rw [size_append, size_cons]
      omega
  · rw [size_append]
    omega

/-- Labels take no room, so where a program without data has not ended an instruction begins. -/
theorem Boundary.exists_standsAt {p : List Statement} {a : Nat} (h : Boundary p a)
    (ha : a < size p) (hdata : ∀ s ∈ p, ∀ vs, s.command ≠ .data vs) :
    ∃ op os, StandsAt p a op os := by
  obtain ⟨before, after, rfl, rfl⟩ := h
  induction after generalizing before with
  | nil => simp at ha
  | cons s after ih =>
    match hc : s.command with
    | .instruction op os =>
      refine ⟨op, os, before, s.loc, after, ?_, rfl⟩
      rw [← hc]
    | .data vs => exact absurd hc (hdata s (by simp) vs)
    | .label x =>
      have hsize : size (before ++ [s]) = size before := by
        simp only [size_append, size_cons, size_nil, hc, Command.size, Nat.add_zero]
      rw [List.append_cons] at ha hdata ⊢
      rw [← hsize] at ha ⊢
      exact ih _ hdata ha

theorem addressOf_mem_labelsFrom {p : List Statement} {x : String} (hx : x ∈ labelNames p) :
    (x, addressOf p x) ∈ labelsFrom 0 p := by
  obtain ⟨a, ha⟩ := Option.isSome_iff_exists.1 (isSome_address?.2 hx)
  obtain ⟨l, r, heq, -⟩ := List.lookup_eq_some_iff.1 ha
  rw [addressOf, ha, Option.getD_some, heq]
  simp

theorem boundary_addressOf {p : List Statement} {x : String} (hx : x ∈ labelNames p) :
    Boundary p (addressOf p x) := by
  obtain ⟨before, s, after, hp, -, ha⟩ := mem_labelsFrom.1 (addressOf_mem_labelsFrom hx)
  exact ⟨before, s :: after, hp, ha.trans (Nat.zero_add _)⟩

theorem Sound.addressOf_le {p : List Statement} (h : Sound p) (x : String) : addressOf p x ≤ 32767 := by
  by_cases hx : x ∈ labelNames p
  · exact h.inside x _ (addressOf_mem_labelsFrom hx)
  · rw [← isSome_address?, Option.isSome_iff_ne_none, Decidable.not_not] at hx
    rw [addressOf, hx]
    exact Nat.zero_le _

theorem Sound.value_words_range {p : List Statement} (h : Sound p) {o : Operand}
    (ho : o ∈ operands p) : ∀ w ∈ o.value.words (addressOf p), 0 ≤ w ∧ w ≤ (maxOperand : Int) := by
  have hcodes : ∀ s, o.value = .char s ∨ o.value = .text s →
      ∀ w ∈ codesOf s, 0 ≤ w ∧ w ≤ (maxOperand : Int) := by
    intro s hs w hw
    obtain ⟨c, hc, rfl⟩ := List.mem_map.1 hw
    have := h.narrow o ho s hs c hc
    simp only [maxOperand, modulus]
    omega
  intro w hw
  cases hv : o.value with
  | register r =>
    rw [hv, Value.words, List.mem_singleton] at hw
    have := r.isLt
    simp only [hw, Register.word, maxOperand, modulus]
    omega
  | number n =>
    rw [hv, Value.words, List.mem_singleton] at hw
    have := h.number o ho n hv
    simp only [hw, maxOperand, modulus]
    omega
  | char s | text s =>
    rw [hv] at hw
    exact hcodes s (by simp [hv]) w hw
  | label x =>
    rw [hv, Value.words, List.mem_singleton] at hw
    have := h.addressOf_le x
    simp only [hw, maxOperand, modulus]
    omega

/-- The words of a sound program can be loaded. -/
theorem Sound.words_range {p : List Statement} (h : Sound p) :
    ∀ w ∈ words (addressOf p) p, 0 ≤ w ∧ w ≤ (maxOperand : Int) := by
  intro w hw
  obtain ⟨s, hs, hw⟩ := List.mem_flatMap.1 hw
  have hrow : ∀ os, (∀ o ∈ os, o ∈ s.command.operands) → w ∈ rowWords (addressOf p) os →
      0 ≤ w ∧ w ≤ (maxOperand : Int) := by
    intro os hos hw
    obtain ⟨o, ho, hw⟩ := List.mem_flatMap.1 hw
    exact h.value_words_range (List.mem_flatMap.2 ⟨s, hs, hos o ho⟩) w hw
  match hc : s.command with
  | .label x =>
    rw [hc] at hw
    cases hw
  | .instruction op os =>
    rw [hc] at hw hrow
    rcases List.mem_cons.1 hw with rfl | hw
    · have := op.code_lt
      simp only [maxOperand, modulus]
      omega
    · exact hrow os (fun o ho => ho) hw
  | .data vs =>
    rw [hc] at hw hrow
    exact hrow vs (fun o ho => ho) hw

/-- What is assembled can be loaded. -/
theorem assemble_range {source : String} {words : List Int} (h : assemble source = .ok words) :
    words.length ≤ memorySize ∧ ∀ w ∈ words, 0 ≤ w ∧ w ≤ (maxOperand : Int) := by
  unfold assemble at h
  split at h
  · cases h
  · rw [assembleProgram_eq, twoPass_eq_ok_iff] at h
    obtain ⟨hp, rfl⟩ := h
    refine ⟨?_, hp.words_range⟩
    rw [hp.clean.length_words]
    exact hp.fits

end WordMachine.Asm
