import WordMachine.Image
import WordMachine.Proofs.Machine.Failing

/-! The values in the machine. An instruction either copies a value as it is or makes one of fifteen
bits, so a property of all numbers of fifteen bits that holds of everything in the machine, and of
everything the host writes to memory, goes on holding of everything in it. To lie in a range is such
a property, and so are the code points that a program can send out kept in that range; to have a numeral
is another, and so the faults of the machine can be told. -/

namespace WordMachine

/-- a property that every number of fifteen bits has -/
def HoldsOfLiterals (P : Int → Prop) : Prop := ∀ v, 0 ≤ v → v < 32768 → P v

def InRange (bound v : Int) : Prop := 0 ≤ v ∧ v ≤ bound

theorem holdsOfLiterals_hasNumeral : HoldsOfLiterals HasNumeral :=
  fun _ h0 hv => hasNumeral_of_range h0 (by omega)

theorem holdsOfLiterals_inRange {bound : Int} (h : 32767 ≤ bound) : HoldsOfLiterals (InRange bound) :=
  fun _ h0 hv => ⟨h0, by omega⟩

namespace Machine

/-- Every value in the machine has the property, and every value that it has sent out. -/
structure Every (P : Int → Prop) (m : Machine) : Prop where
  cells : ∀ a, P (m.memory.peek a)
  registers : ∀ r : Register, P (m.registers.get r)
  stack : ∀ v ∈ m.stack, P v
  emitted : ∀ c ∈ m.emitted, P (c : Nat)

variable {P : Int → Prop} {m m' : Machine}

theorem Every.of_control (h : m.Every P) (pc : Nat) (s : Status) :
    { m with pc := pc, status := s }.Every P :=
  ⟨h.cells, h.registers, h.stack, h.emitted⟩

theorem Every.setReg (h : m.Every P) (r : Register) {v : Int} (hv : P v) :
    (m.setReg r v).Every P := by
  refine ⟨h.cells, ?_, h.stack, h.emitted⟩
  intro s
  rw [setReg_registers]
  split
  · exact hv
  · exact h.registers s

theorem Every.poke (h : m.Every P) (a : Address) {v : Int} (hv : P v) :
    { m with memory := m.memory.poke a v }.Every P := by
  refine ⟨?_, h.registers, h.stack, h.emitted⟩
  intro b
  simp only [Memory.peek_poke]
  split
  · exact hv
  · exact h.cells b

theorem Every.push (h : m.Every P) {v : Int} (hv : P v) :
    { m with stack := v :: m.stack }.Every P := by
  refine ⟨h.cells, h.registers, ?_, h.emitted⟩
  intro w hw
  rcases List.mem_cons.1 hw with rfl | hw
  · exact hv
  · exact h.stack w hw

theorem Every.tail (h : m.Every P) : { m with stack := m.stack.tail }.Every P :=
  ⟨h.cells, h.registers, fun w hw => h.stack w (List.mem_of_mem_tail hw), h.emitted⟩

theorem Every.emit (h : m.Every P) {c : Nat} (hc : P c) :
    { m with emitted := c :: m.emitted }.Every P := by
  refine ⟨h.cells, h.registers, h.stack, ?_⟩
  intro d hd
  rcases List.mem_cons.1 hd with rfl | hd
  · exact hc
  · exact h.emitted d hd

theorem Every.resolve (hP : HoldsOfLiterals P) (h : m.Every P) {word v : Int}
    (hv : m.resolve word = .ok v) : P v := by
  unfold Machine.resolve at hv
  split at hv
  · rename_i hlit
    cases hv
    obtain ⟨h0, h1⟩ := isLiteral_iff.1 hlit
    exact hP _ h0 h1
  · split at hv
    · cases hv
      exact h.registers _
    · cases hv

theorem Every.perform (hP : HoldsOfLiterals P) (h : m.Every P) {p : Plan} (hp : m.plan = .ok p) :
    (m.perform p).Every P := by
  have h' := h.of_control p.pc .running
  have hc := m.plan_cases
  rw [hp] at hc
  cases hc with
  | exhausted => exact h'.of_control _ _
  | made op args c pc hf hargs heff =>
    have hvalue {k : Nat} {v : Int} (hv : args.value? op.signature k = some v) : P v :=
      h.resolve hP (resolve_of_operands _ hargs hv)
    have hcases := effect_cases m (m.pc + 1 + op.arity) op args
    rw [heff] at hcases
    cases hcases with
    | assigns r v _ hv =>
      apply h'.setReg r
      cases hv with
      | copied _ _ hv => exact hvalue hv
      | loaded a => exact h.cells a
      | computed _ h0 hlt => exact hP v h0 hlt
    | stores a v _ _ hv => exact h'.poke a (hvalue hv)
    | pushes v _ hv => exact h'.push (hvalue hv)
    | calls =>
      apply h'.push
      apply hP _ (by omega)
      simp only [modulus]
      omega
    | pops r v rest _ _ hs => exact (h'.setReg r (h.stack v (by simp [hs]))).tail
    | returns => exact h'.tail
    | sends c _ hv => exact h'.emit (hvalue hv)
    | awaits | halts => exact h'.of_control _ _
    | passes | jumps => exact h'

theorem every_step (hP : HoldsOfLiterals P) (m : Machine) (h : m.Every P) : m.step.2.Every P := by
  rcases hs : m.step with ⟨res, m'⟩
  have hc := m.step_cases
  rw [hs] at hc
  cases hc with
  | halted | awaiting => exact h
  | executed p _ hp => exact h.perform hP hp
  | trapped | untold | unsent => exact h.of_control _ _

theorem every_supply (hP : HoldsOfLiterals P) {text : String} (h : m.Every P)
    (hs : m.supply text = .ok m') : m'.Every P := by
  obtain ⟨dest, c, -, -, hc, rfl⟩ := supply_eq_ok hs
  simp only [modulus] at hc
  exact (h.setReg dest (hP _ (by omega) (by omega))).of_control _ _

theorem every_setRegister (hP : HoldsOfLiterals P) {index value : Int} (h : m.Every P)
    (hs : m.setRegister index value = .ok m') : m'.Every P := by
  obtain ⟨r, -, h0, hlt, rfl⟩ := setRegister_eq_ok hs
  exact h.setReg r (hP _ h0 hlt)

theorem every_writeMemory {addr value : Int} (hv : P value) (h : m.Every P)
    (hs : m.writeMemory addr value = .ok m') : m'.Every P := by
  obtain ⟨a, -, rfl⟩ := writeMemory_eq_ok hs
  exact h.poke a hv

theorem every_afterCalls (hP : HoldsOfLiterals P) (h : m.Every P) {calls : List Call}
    (hw : ∀ addr value, Call.writeMemory addr value ∈ calls → P value) :
    (m.afterCalls calls).Every P := by
  apply afterCalls_induction calls (every_step hP) _ _ _ h
  · intro m m' text _ hm
    exact every_supply hP hm
  · intro m m' index value _ hm
    exact every_setRegister hP hm
  · intro m m' addr value hmem hm
    exact every_writeMemory (hw addr value hmem) hm

theorem every_start (hP : HoldsOfLiterals P) {program : List Int} (h : ∀ w ∈ program, P w) :
    (start program).Every P := by
  have h0 : P 0 := hP 0 (by omega) (by omega)
  refine ⟨?_, ?_, nofun, nofun⟩
  · intro a
    by_cases ha : a < memorySize
    · have := Memory.peek_ofList program ⟨a, ha⟩
      simp only [start, this, List.getD_eq_getElem?_getD]
      cases hw : program[a]? with
      | none => exact h0
      | some w => exact h w (List.mem_of_getElem? hw)
    · rw [Memory.peek_of_le _ (Nat.not_lt.1 ha)]
      exact h0
  · intro r
    change P (Vector.replicate 8 0)[r.val]
    rwa [Vector.getElem_replicate]

/-! ### Faults -/

theorem Every.operandValue (hP : HoldsOfLiterals P) (h : m.Every P) (k : Nat) :
    P (m.operandValue k) := by
  unfold Machine.operandValue
  split
  · exact h.cells _
  · cases hr : m.registers[(m.operandWord k - 32768).toNat]? with
    | none => exact hP 0 (Int.le_refl 0) (by decide)
    | some v =>
      obtain ⟨hlt, rfl⟩ := Vector.getElem?_eq_some_iff.1 hr
      exact h.registers ⟨_, hlt⟩

theorem Every.goesTo (hP : HoldsOfLiterals P) (h : m.Every P) {op : Opcode} {v : Int}
    (hv : m.goesTo? op = some v) : P v := by
  cases op with
  | jmp | call =>
    cases hv
    exact h.operandValue hP 0
  | jt | jf =>
    obtain ⟨-, heq⟩ := Option.ite_none_right_eq_some.1 hv
    cases heq
    exact h.operandValue hP 1
  | ret => exact h.stack v (List.mem_of_mem_head? hv)
  | _ => cases hv

theorem Every.reaches (hP : HoldsOfLiterals P) (h : m.Every P) {op : Opcode} {v : Int}
    (hv : m.reaches? op = some v) : P v := by
  cases op with
  | rmem | wmem =>
    cases hv
    exact h.operandValue hP _
  | _ => cases hv

/-- The number that a fault names is one of those in the machine. -/
theorem Every.named (hP : HoldsOfLiterals P) (h : m.Every P) {f : Fault}
    (hf : m.plan = .error (.fault f)) : ∀ v ∈ f.named?, P v := by
  have hplan := m.plan_cases
  rw [hf] at hplan
  cases hplan with
  | unsupported =>
    rintro v ⟨⟩
    exact h.cells _
  | pastEnd => exact nofun
  | operand op f hfetched hargs =>
    obtain ⟨k, role, -, hmisfit, -⟩ := operands_eq_error_iff.1 hargs
    cases hmisfit with
    | literal | invalid =>
      rintro v ⟨⟩
      exact h.cells _
  | failed op args e hfetched hargs heff =>
    cases (effect_eq_error_iff args hargs).1 heff with
    | underflow => exact nofun
    | division =>
      rintro v ⟨⟩
      exact h.operandValue hP 1
    | jump _ w hgoes =>
      rintro v ⟨⟩
      exact h.goesTo hP hgoes
    | cell _ w hreaches =>
      rintro v ⟨⟩
      exact h.reaches hP hreaches

/-- Where every number has a numeral, every fault can be told. -/
theorem Every.isTold (h : m.Every HasNumeral) {f : Fault} (hf : m.plan = .error (.fault f)) :
    f.IsTold := h.named holdsOfLiterals_hasNumeral hf

theorem step_ne_untold (h : m.Every HasNumeral) (f : Fault) : m.step.1 ≠ .error (.untold f) := by
  intro he
  have hc := m.step_cases
  rw [he] at hc
  generalize m.step.2 = m' at hc
  cases hc with
  | untold f _ hf huntold => exact huntold (h.isTold hf)

theorem Every.imp {Q : Int → Prop} (h : m.Every P) (hPQ : ∀ v, P v → Q v) : m.Every Q :=
  ⟨fun a => hPQ _ (h.cells a), fun r => hPQ _ (h.registers r), fun v hv => hPQ v (h.stack v hv),
    fun c hc => hPQ _ (h.emitted c hc)⟩

/-! ### Sending out -/

theorem step_ne_output (hP : HoldsOfLiterals P) (hcode : ∀ v, P v → 0 ≤ v ∧ v < 0x110000)
    (h : m.Every P) (e : OutputError) : m.step.1 ≠ .error (.output e) := by
  intro he
  have hc := m.step_cases
  rw [he] at hc
  generalize m.step.2 = m' at hc
  cases hc with
  | unsent e _ hplan =>
    obtain ⟨-, v, hv, hout⟩ := plan_eq_output_error hplan
    exact codePoint_eq_error hout (hcode v (h.resolve hP hv))

/-- A machine whose values are all code points never fails to send one out. -/
theorem run_ne_output (hP : HoldsOfLiterals P) (hcode : ∀ v, P v → 0 ≤ v ∧ v < 0x110000)
    (e : OutputError) (limit : Nat) :
    ∀ m : Machine, m.Every P → (m.run limit).1 ≠ .error (.output e) := by
  induction limit with
  | zero =>
    intro m _ h
    cases h
  | succ limit ih =>
    intro m hm
    unfold run
    split
    · have hs := every_step hP m hm
      have hne := step_ne_output hP hcode hm e
      split <;> rename_i heq <;> rw [heq] at hs hne
      · exact ih _ hs
      · simpa using hne
    · intro h
      cases h

theorem call_ne_output (hP : HoldsOfLiterals P) (hcode : ∀ v, P v → 0 ≤ v ∧ v < 0x110000)
    (h : m.Every P) (c : Call) (e : OutputError) : (m.call c).1 ≠ .error (.step (.output e)) := by
  intro he
  rcases call_eq_step_error he with ⟨-, hs⟩ | ⟨limit, -, hr⟩
  · exact step_ne_output hP hcode h e hs
  · exact run_ne_output hP hcode e limit m h hr

theorem load_of_words {program : List Int} (hlen : program.length ≤ memorySize)
    (hw : ∀ w ∈ program, InRange 0xffff w) : load program = .ok (start program) := by
  rw [load, if_neg (Nat.not_lt.2 hlen), firstOutside_eq_none_iff.2 hw]

theorem words_of_image {bytes : List UInt8} {words : List Int} (h : Image.load bytes = .ok words) :
    words.length ≤ memorySize ∧ ∀ w ∈ words, InRange maxOperand w := by
  unfold Image.load at h
  split at h
  · cases h
  · unfold Image.check at h
    split at h
    · cases h
    · split at h
      · cases h
      · rename_i hlen _ hnone
        cases h
        exact ⟨Nat.not_lt.1 hlen, firstOutside_eq_none_iff.1 hnone⟩

section Range
variable {bound : Int} {program : List Int}

theorem load_of_range (hhi : bound ≤ 65535) (hlen : program.length ≤ memorySize)
    (hw : ∀ w ∈ program, InRange bound w) : load program = .ok (start program) := by
  apply load_of_words hlen
  intro w h
  exact ⟨(hw w h).1, Int.le_trans (hw w h).2 hhi⟩

theorem every_session (hlo : 32767 ≤ bound) (hw : ∀ w ∈ program, InRange bound w) {calls : List Call}
    (hwrites : ∀ addr value, Call.writeMemory addr value ∈ calls → InRange bound value) :
    ((start program).afterCalls calls).Every (InRange bound) := by
  have hP := holdsOfLiterals_inRange hlo
  exact every_afterCalls hP (every_start hP hw) hwrites

theorem Every.output {m : Machine} (h : m.Every (InRange bound)) :
    ∀ c ∈ m.output, (c : Int) ≤ bound := by
  intro c hc
  rw [Machine.output, List.mem_reverse] at hc
  exact (h.emitted c hc).2

end Range

/-- Whatever the host does with a machine whose program lies in a range, as long as it writes only
values of that range to memory: all values stay in the range, and nothing that is sent out is
refused. So the program of an image never sends out a surrogate. -/
theorem values_stay_in_range :
    (∀ (bound : Int) (program : List Int), 32767 ≤ bound → bound ≤ 65535 →
      program.length ≤ memorySize → (∀ w ∈ program, InRange bound w) →
      ∃ m, load program = .ok m ∧ ∀ calls : List Call,
        (∀ addr value, Call.writeMemory addr value ∈ calls → InRange bound value) →
        (m.afterCalls calls).Every (InRange bound) ∧
        (∀ c ∈ (m.afterCalls calls).output, (c : Int) ≤ bound) ∧
        ∀ c e, ((m.afterCalls calls).call c).1 ≠ .error (.step (.output e))) ∧
    ∀ (bytes : List UInt8) (words : List Int), Image.load bytes = .ok words →
      ∃ m, load words = .ok m ∧ ∀ calls : List Call,
        (∀ addr value, Call.writeMemory addr value ∈ calls → InRange maxOperand value) →
        ∀ c ∈ (m.afterCalls calls).output, ¬ (0xd800 ≤ c ∧ c ≤ 0xdfff) := by
  constructor
  · intro bound program hlo hhi hlen hw
    refine ⟨_, load_of_range hhi hlen hw, ?_⟩
    intro calls hwrites
    have hevery := every_session hlo hw hwrites
    refine ⟨hevery, hevery.output, ?_⟩
    apply call_ne_output (holdsOfLiterals_inRange hlo) _ hevery
    intro v hv
    have := hv.2
    exact ⟨hv.1, by omega⟩
  · intro bytes words himage
    obtain ⟨hlen, hw⟩ := words_of_image himage
    refine ⟨_, load_of_range (by decide) hlen hw, ?_⟩
    intro calls hwrites c hc hsurrogate
    have := (every_session (by decide) hw hwrites).output c hc
    simp only [maxOperand, modulus] at this
    omega

/-- A program that loads the word of the last register from memory and sends it out, with the host
writing the largest value that is allowed. -/
theorem values_stay_in_range_of_image :
    let program := [15, 32768, 5, 19, 32768, 32775]
    (∃ m, load program = .ok m ∧
      (m.afterCalls [.step, .step, .writeMemory 5 32775]).Every (InRange 32775)) ∧
    ∃ words m, Image.load (program.flatMap Image.bytesOf) = .ok words ∧ load words = .ok m ∧
      ∀ c ∈ (m.afterCalls [.run 2]).output, ¬ (0xd800 ≤ c ∧ c ≤ 0xdfff) := by
  refine ⟨?_, ?_⟩
  · obtain ⟨m, hload, h⟩ := values_stay_in_range.1 32775 [15, 32768, 5, 19, 32768, 32775]
      (by decide) (by decide) (by decide) (by simp [InRange])
    exact ⟨m, hload, (h [.step, .step, .writeMemory 5 32775] (by simp [InRange])).1⟩
  · have himage : Image.load (([15, 32768, 5, 19, 32768, 32775] : List Int).flatMap Image.bytesOf) =
        .ok [15, 32768, 5, 19, 32768, 32775] := by rfl
    obtain ⟨m, hload, h⟩ := values_stay_in_range.2 _ _ himage
    exact ⟨_, m, himage, hload, h [.run 2] (by simp)⟩

end Machine
end WordMachine
