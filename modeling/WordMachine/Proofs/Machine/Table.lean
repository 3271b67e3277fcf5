import Mathlib.Data.Int.Bitwise
import WordMachine.Proofs.Machine.Faulting

/-! The table of the instructions: what an instruction that succeeds leaves behind, read off the state
before it, and that it leaves everything else as it was. The values are exact integers that are
reduced to fifteen bits at the end, however large the operands are. -/

namespace WordMachine

/-! ### Exact values -/

theorem testBit_lowBits (v : Int) (i : Nat) :
    (lowBits v).testBit i = (decide (i < 15) && v.testBit i) := by
  cases v with
  | ofNat n =>
    have hlow : lowBits (Int.ofNat n) = n % 2 ^ 15 := rfl
    rw [hlow, Nat.testBit_mod_two_pow]
    rfl
  | negSucc n =>
    have hlow : lowBits (Int.negSucc n) = 2 ^ 15 - (n % 2 ^ 15 + 1) := by
      simp only [lowBits, reduce, modulus]
      omega
    rw [hlow, Nat.testBit_two_pow_sub_succ (Nat.mod_lt n (by decide)), Nat.testBit_mod_two_pow]
    change _ = (decide (i < 15) && !n.testBit i)
    cases decide (i < 15) <;> simp

theorem lowBits_land (b c : Int) : lowBits b &&& lowBits c = lowBits (b.land c) := by
  apply Nat.eq_of_testBit_eq
  intro i
  simp only [Nat.testBit_and, testBit_lowBits, Int.testBit_land]
  cases decide (i < 15) <;> simp

theorem lowBits_lor (b c : Int) : lowBits b ||| lowBits c = lowBits (b.lor c) := by
  apply Nat.eq_of_testBit_eq
  intro i
  simp only [Nat.testBit_or, testBit_lowBits, Int.testBit_lor]
  cases decide (i < 15) <;> simp

theorem cast_lowBits (v : Int) : (lowBits v : Int) = v % 32768 := by
  simp only [lowBits, reduce, modulus]
  omega

theorem lnot_eq (v : Int) : v.lnot = -v - 1 := by
  cases v with
  | ofNat n => change Int.negSucc n = -(n : Int) - 1; omega
  | negSucc n => change (n : Int) = -Int.negSucc n - 1; omega

namespace Machine

/-- The value that the instruction leaves in its destination. Remainders take the sign of the
divisor, and the bits of a negative number go on for ever. -/
def result? (m : Machine) : Opcode → Option Int
  | .set => some (m.operandValue 1)
  | .pop => m.stack.head?
  | .eq => some (if m.operandValue 1 = m.operandValue 2 then 1 else 0)
  | .gt => some (if m.operandValue 1 > m.operandValue 2 then 1 else 0)
  | .add => some ((m.operandValue 1 + m.operandValue 2) % 32768)
  | .mult => some ((m.operandValue 1 * m.operandValue 2) % 32768)
  | .mod => some ((m.operandValue 1).fmod (m.operandValue 2) % 32768)
  | .and => some ((m.operandValue 1).land (m.operandValue 2) % 32768)
  | .or => some ((m.operandValue 1).lor (m.operandValue 2) % 32768)
  | .not => some ((m.operandValue 1).lnot % 32768)
  | .rmem => some (m.memory.peek (m.operandValue 1).toNat)
  | _ => none

/-- a cell behind the instruction, which is another than before only if it is stored to -/
def cellAfter (m : Machine) : Opcode → Nat → Int
  | .wmem, a => if (a : Int) = m.operandValue 0 then m.operandValue 1 else m.memory.peek a
  | _, a => m.memory.peek a

/-- the stack behind the instruction -/
def stackAfter (m : Machine) : Opcode → List Int
  | .push => m.operandValue 0 :: m.stack
  | .call => ((m.pc + 2) % 32768 : Nat) :: m.stack
  | .pop | .ret => m.stack.tail
  | _ => m.stack

/-- the code points that the instruction sends out -/
def sent (m : Machine) : Opcode → List Nat
  | .out => [(m.operandValue 0).toNat]
  | _ => []

/-- the status behind the instruction -/
def statusAfter (m : Machine) : Opcode → Status
  | .halt => .halted none
  | .ret => if m.stack = [] then .halted none else .running
  | .input => .awaiting m.dest
  | _ => .running

/-- The line of the table for an instruction: what it leaves behind, and that nothing else is
different. -/
structure Tabled (m : Machine) (op : Opcode) (m' : Machine) : Prop where
  code : m.memory.peek m.pc = op.code
  legible : m.Legible op
  /-- the destination is the register that the first operand names -/
  named : op.signature[0]? = some .write → m.operandWord 0 = m.dest.word
  writes : ∀ v, m.result? op = some v → op.signature[0]? = some .write
  registers : ∀ r, m'.registers.get r =
    if r = m.dest then (m.result? op).getD (m.registers.get r) else m.registers.get r
  cells : ∀ a, m'.memory.peek a = m.cellAfter op a
  stack : m'.stack = m.stackAfter op
  popped : op = .pop → m.stack ≠ []
  output : m'.output = m.output ++ m.sent op
  sendable : op = .out → 0 ≤ m.operandValue 0 ∧ m.operandValue 0 ≤ 0x10ffff
  pc : (m'.pc : Int) = (m.goesTo? op).getD (m.pc + 1 + op.arity)
  addressed : ∀ v, m.goesTo? op = some v ∨ m.reaches? op = some v → 0 ≤ v ∧ v ≤ 32767
  status : m'.status = m.statusAfter op
  /-- the character that is waited for gets into the destination, and the machine goes on -/
  supplied : op = .input → ∀ text c, text.toList = [c] → c.toNat < 32768 →
    m'.supply text = .ok { m' with registers := m'.registers.set m.dest.val c.toNat, status := .running }

variable {m m' : Machine} {op : Opcode}

/-- the registers behind the instruction -/
def registersAfter (m : Machine) (op : Opcode) : Vector Int 8 :=
  match m.result? op with
  | some v => m.registers.set m.dest.val v m.dest.isLt
  | none => m.registers

/-- Every part of the machine behind the instruction. -/
structure Row (m : Machine) (op : Opcode) (m' : Machine) : Prop where
  registers : m'.registers = m.registersAfter op
  cells : ∀ a, m'.memory.peek a = m.cellAfter op a
  stack : m'.stack = m.stackAfter op
  emitted : m'.emitted = m.sent op ++ m.emitted
  pc : (m'.pc : Int) = (m.goesTo? op).getD (m.pc + 1 + op.arity)
  status : m'.status = m.statusAfter op

theorem registersAfter_of_result {v : Int} (h : m.result? op = some v) :
    m.registers.set m.dest.val v m.dest.isLt = m.registersAfter op := by
  rw [registersAfter, h]

theorem map_jumpTarget_eq_ok {v : Int} {f : Nat → Change × Nat} {r : Change × Nat}
    (h : (jumpTarget v).map f = .ok r) : ∃ t : Nat, v = t ∧ f t = r := by
  cases ht : jumpTarget v with
  | error e =>
    rw [ht] at h
    cases h
  | ok t =>
    rw [ht] at h
    exact ⟨t, (jumpTarget_eq_ok.1 ht).1, Except.ok.inj h⟩

section Row
variable {c : Change} {pc : Nat}

theorem row_of_pop {args : Operands Opcode.pop.signature}
    (hargs : m.operands Opcode.pop.signature (m.pc + 1) = .ok args)
    (heff : m.effect (m.pc + 1 + Opcode.pop.arity) .pop args = .ok (c, pc)) :
    m.Row .pop (m.perform ⟨.pop, c, pc⟩) := by
  obtain ⟨r, ⟨⟩⟩ := args
  obtain rfl := dest_of_operands hargs rfl
  simp only [effect] at heff
  cases hs : m.stack with
  | nil =>
    rw [hs] at heff
    cases heff
  | cons v rest =>
    rw [hs] at heff
    cases heff
    have hresult : m.result? .pop = some v := by rw [result?, hs, List.head?_cons]
    exact ⟨registersAfter_of_result hresult, fun _ => rfl, rfl, rfl, rfl, rfl⟩

theorem row_of_rmem {args : Operands Opcode.rmem.signature}
    (hargs : m.operands Opcode.rmem.signature (m.pc + 1) = .ok args)
    (heff : m.effect (m.pc + 1 + Opcode.rmem.arity) .rmem args = .ok (c, pc)) :
    m.Row .rmem (m.perform ⟨.rmem, c, pc⟩) := by
  obtain rfl := operands_of_unary hargs
  simp only [effect] at heff
  cases ha : cellAddress (m.operandValue 1) with
  | error e =>
    rw [ha] at heff
    cases heff
  | ok a =>
    rw [ha] at heff
    cases heff
    have hresult : m.result? .rmem = some (m.memory.peek a) := by
      rw [result?, cellAddress_eq_ok.1 ha]
      rfl
    exact ⟨registersAfter_of_result hresult, fun _ => rfl, rfl, rfl, rfl, rfl⟩

theorem row_of_wmem {args : Operands Opcode.wmem.signature}
    (hargs : m.operands Opcode.wmem.signature (m.pc + 1) = .ok args)
    (heff : m.effect (m.pc + 1 + Opcode.wmem.arity) .wmem args = .ok (c, pc)) :
    m.Row .wmem (m.perform ⟨.wmem, c, pc⟩) := by
  obtain rfl := operands_of_pair hargs
  simp only [effect] at heff
  cases ha : cellAddress (m.operandValue 0) with
  | error e =>
    rw [ha] at heff
    cases heff
  | ok addr =>
    rw [ha] at heff
    cases heff
    refine ⟨rfl, ?_, rfl, rfl, rfl, rfl⟩
    intro a
    simp only [cellAfter, cellAddress_eq_ok.1 ha, Int.natCast_inj]
    exact m.memory.peek_poke addr _ a

theorem row_of_ret {args : Operands Opcode.ret.signature}
    (heff : m.effect (m.pc + 1 + Opcode.ret.arity) .ret args = .ok (c, pc)) :
    m.Row .ret (m.perform ⟨.ret, c, pc⟩) := by
  simp only [effect] at heff
  cases hs : m.stack with
  | nil =>
    rw [hs] at heff
    cases heff
    refine ⟨rfl, fun _ => rfl, ?_, rfl, ?_, ?_⟩
    · rw [stackAfter, hs]
      exact hs
    · rw [goesTo?, hs]
      rfl
    · rw [statusAfter, if_pos hs]
      rfl
  | cons v rest =>
    rw [hs] at heff
    obtain ⟨t, rfl, heq⟩ := map_jumpTarget_eq_ok heff
    cases heq
    refine ⟨rfl, fun _ => rfl, rfl, rfl, ?_, ?_⟩
    · rw [goesTo?, hs]
      rfl
    · rw [statusAfter, hs]
      rfl

/-- An instruction that changes nothing but the program counter. -/
theorem row_of_nothing {t : Nat} (hop : op = .jmp ∨ op = .jt ∨ op = .jf)
    (ht : (t : Int) = (m.goesTo? op).getD (m.pc + 1 + op.arity)) :
    m.Row op (m.perform ⟨op, .nothing, t⟩) := by
  rcases hop with rfl | rfl | rfl <;> exact ⟨rfl, fun _ => rfl, rfl, rfl, ht, rfl⟩

theorem row_of_conditional {cond : Prop} [Decidable cond] {k : Nat}
    (hop : op = .jmp ∨ op = .jt ∨ op = .jf)
    (hgoes : m.goesTo? op = if cond then some (m.operandValue k) else none)
    (heff : (if cond then (jumpTarget (m.operandValue k)).map fun pc => (Change.nothing, pc)
      else .ok (.nothing, m.pc + 1 + op.arity)) = .ok (c, pc)) :
    m.Row op (m.perform ⟨op, c, pc⟩) := by
  by_cases htaken : cond
  · rw [if_pos htaken] at heff hgoes
    obtain ⟨t, ht, heq⟩ := map_jumpTarget_eq_ok heff
    cases heq
    refine row_of_nothing hop ?_
    rw [hgoes, Option.getD_some, ht]
  · rw [if_neg htaken] at heff hgoes
    cases heff
    refine row_of_nothing hop ?_
    rw [hgoes]
    rfl

theorem row_of_effect {args : Operands op.signature}
    (hargs : m.operands op.signature (m.pc + 1) = .ok args)
    (heff : m.effect (m.pc + 1 + op.arity) op args = .ok (c, pc)) :
    m.Row op (m.perform ⟨op, c, pc⟩) := by
  cases op with
  | halt | noop =>
    cases heff
    exact ⟨rfl, fun _ => rfl, rfl, rfl, rfl, rfl⟩
  | set =>
    obtain rfl := operands_of_unary hargs
    cases heff
    exact ⟨rfl, fun _ => rfl, rfl, rfl, rfl, rfl⟩
  | eq | gt | add | mult =>
    obtain rfl := operands_of_binary hargs
    cases heff
    exact ⟨rfl, fun _ => rfl, rfl, rfl, rfl, rfl⟩
  | mod =>
    obtain rfl := operands_of_binary hargs
    simp only [effect] at heff
    split at heff
    · cases heff
    · cases heff
      exact ⟨rfl, fun _ => rfl, rfl, rfl, rfl, rfl⟩
  | and =>
    obtain rfl := operands_of_binary hargs
    simp only [effect, lowBits_land, cast_lowBits] at heff
    cases heff
    exact ⟨rfl, fun _ => rfl, rfl, rfl, rfl, rfl⟩
  | or =>
    obtain rfl := operands_of_binary hargs
    simp only [effect, lowBits_lor, cast_lowBits] at heff
    cases heff
    exact ⟨rfl, fun _ => rfl, rfl, rfl, rfl, rfl⟩
  | not =>
    obtain rfl := operands_of_unary hargs
    simp only [effect, ← lnot_eq] at heff
    cases heff
    exact ⟨rfl, fun _ => rfl, rfl, rfl, rfl, rfl⟩
  | pop => exact row_of_pop hargs heff
  | rmem => exact row_of_rmem hargs heff
  | wmem => exact row_of_wmem hargs heff
  | ret => exact row_of_ret heff
  | push =>
    obtain rfl := operands_of_value hargs
    cases heff
    exact ⟨rfl, fun _ => rfl, rfl, rfl, rfl, rfl⟩
  | jmp =>
    obtain rfl := operands_of_value hargs
    obtain ⟨t, ht, heq⟩ := map_jumpTarget_eq_ok heff
    cases heq
    exact row_of_nothing (.inl rfl) ht.symm
  | jt =>
    obtain rfl := operands_of_pair hargs
    exact row_of_conditional (.inr (.inl rfl)) rfl heff
  | jf =>
    obtain rfl := operands_of_pair hargs
    exact row_of_conditional (.inr (.inr rfl)) rfl heff
  | call =>
    obtain rfl := operands_of_value hargs
    obtain ⟨t, ht, heq⟩ := map_jumpTarget_eq_ok heff
    cases heq
    exact ⟨rfl, fun _ => rfl, rfl, rfl, ht.symm, rfl⟩
  | out =>
    obtain rfl := operands_of_value hargs
    simp only [effect] at heff
    cases hc : codePoint (m.operandValue 0) with
    | error e =>
      rw [hc] at heff
      cases heff
    | ok n =>
      rw [hc] at heff
      cases heff
      have hn : n = (m.operandValue 0).toNat := by
        have := codePoint_eq_ok hc
        omega
      exact ⟨rfl, fun _ => rfl, rfl, congrArg (· :: m.emitted) hn, rfl, rfl⟩
  | input =>
    obtain ⟨r, ⟨⟩⟩ := args
    obtain rfl := dest_of_operands hargs rfl
    cases heff
    exact ⟨rfl, fun _ => rfl, rfl, rfl, rfl, rfl⟩

end Row

theorem writes_of_result? {v : Int} (h : m.result? op = some v) : op.signature[0]? = some .write := by
  cases op with
  | set | pop | eq | gt | add | mult | mod | and | or | not | rmem => rfl
  | _ => cases h

theorem Legible.word_eq (h : m.Legible op) (hrole : op.signature[0]? = some .write) :
    m.operandWord 0 = m.dest.word := by
  obtain ⟨h0, hle, hwrite⟩ := h.fits 0 .write hrole
  have hreg := hwrite rfl
  rcases word_cases (m.operandWord 0) with hlit | ⟨r, hr⟩ | hout
  · omega
  · rw [dest, hr, Register.ofWord?_word, Option.getD_some]
  · exact absurd ⟨h0, hle⟩ hout

theorem get_registersAfter (m : Machine) (op : Opcode) (r : Register) :
    (m.registersAfter op).get r =
      if r = m.dest then (m.result? op).getD (m.registers.get r) else m.registers.get r := by
  unfold registersAfter
  cases m.result? op with
  | none => simp
  | some v => exact m.setReg_registers m.dest v r

theorem reverse_sent (m : Machine) (op : Opcode) : (m.sent op).reverse = m.sent op := by
  cases op <;> rfl

theorem supply_of_awaiting {r : Register} {text : String} {c : Char} (hs : m.status = .awaiting r)
    (htext : text.toList = [c]) (hc : c.toNat < 32768) :
    m.supply text =
      .ok { m with registers := m.registers.set r.val c.toNat, status := .running } := by
  simp only [supply, hs, htext, if_pos (show c.toNat < modulus from hc)]
  rfl

/-- A step that succeeds before the end of memory does what the table says, and nothing else. -/
theorem step_follows_table (m m' : Machine) (op : Opcode) (hpc : m.pc < memorySize)
    (h : m.step = (.ok op, m')) : m.Tabled op m' := by
  obtain ⟨hactive, p, hp, rfl, rfl⟩ := step_eq_ok h
  have hplan := m.plan_cases
  rw [hp] at hplan
  cases hplan with
  | exhausted hend => exact absurd hpc (Nat.not_lt.2 hend)
  | made op args c pc hf hargs heff =>
    have hrow := row_of_effect hargs heff
    obtain ⟨hlegible, hsound⟩ := (step_succeeds_iff hactive hpc hf.code).1 (congrArg Prod.fst h)
    obtain ⟨haddr, hpop, -, hout⟩ := never_fails_iff.1 hsound
    exact {
      code := Opcode.code_of_ofCode? hf.code
      legible := hlegible
      named := hlegible.word_eq
      writes := fun v => writes_of_result?
      registers := by
        intro r
        rw [hrow.registers, get_registersAfter]
      cells := hrow.cells
      stack := hrow.stack
      popped := fun hop hs => hpop ⟨hop, hs⟩
      output := by
        rw [output, hrow.emitted, List.reverse_append, reverse_sent]
        rfl
      sendable := fun hop => Decidable.not_not.1 fun hrange => hout ⟨hop, hrange⟩
      pc := hrow.pc
      addressed := fun v hv => Decidable.not_not.1 fun hrange => haddr ⟨v, hv, hrange⟩
      status := hrow.status
      supplied := by
        rintro rfl text c' htext hc'
        exact supply_of_awaiting hrow.status htext hc' }

theorem product_operands {memory : Memory}
    (hpeek : ∀ a, memory.peek a = [10, 32768, 32768, 7].getD a 0) {regs : Vector Int 8} {v : Int}
    (hregs : regs.get 0 = v) :
    (⟨memory, regs, [], 0, .ready, []⟩ : Machine).Fetched .mult ∧
      (⟨memory, regs, [], 0, .ready, []⟩ : Machine).operands Opcode.mult.signature (0 + 1) =
        .ok (0, v, 7, ()) := by
  refine ⟨⟨by simp only [hpeek]; rfl, Nat.le_of_ble_eq_true rfl⟩, ?_⟩
  have hword : memory.peek (0 + 1) = Register.word 0 := hpeek 1
  have hfirst : memory.peek (0 + 1 + 1) = Register.word 0 := hpeek 2
  have hsecond : memory.peek (0 + 1 + 1 + 1) = 7 := hpeek 3
  have hliteral : (0 : Int) ≤ 7 ∧ (7 : Int) ≤ 32767 := by decide
  simp only [Opcode.signature, operands, hword, hfirst, hsecond, target_register, resolve_register,
    resolve_literal hliteral, hregs]

/-- A product takes the place of one of its factors, which is negative. -/
theorem step_follows_table_of_product :
    ∃ m' : Machine,
      { start [10, 32768, 32768, 7] with registers := Vector.replicate 8 (-5) }.step =
        (.ok .mult, m') ∧ m'.registers.get 0 = 32733 ∧ m'.registers.get 1 = -5 := by
  obtain ⟨memory, hmemory⟩ : ∃ memory, Memory.ofList [10, 32768, 32768, 7] = memory := ⟨_, rfl⟩
  have hpeek (a : Nat) : memory.peek a = [10, 32768, 32768, 7].getD a 0 :=
    hmemory ▸ Memory.peek_ofList_of_le (by decide) a
  rw [start, hmemory]
  obtain ⟨hf, hargs⟩ := @product_operands memory hpeek (Vector.replicate 8 (-5)) (-5) rfl
  have hstep := step_of_fetched rfl hf hargs rfl
  have htable := step_follows_table _ _ .mult (Nat.le_of_ble_eq_true rfl) hstep
  have hdest : Machine.dest ⟨memory, Vector.replicate 8 (-5), [], 0, .ready, []⟩ = 0 :=
    dest_of_operands hargs rfl
  have hresult : Machine.result? ⟨memory, Vector.replicate 8 (-5), [], 0, .ready, []⟩ .mult =
      some 32733 := by
    rw [result?, ← value_of_operands hargs (k := 1) rfl, ← value_of_operands hargs (k := 2) rfl]
    rfl
  refine ⟨_, hstep, ?_, ?_⟩
  · rw [htable.registers, hdest, hresult]
    rfl
  · rw [htable.registers, hdest]
    rfl

end Machine
end WordMachine
