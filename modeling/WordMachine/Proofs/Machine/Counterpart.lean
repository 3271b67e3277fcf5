import WordMachine.Proofs.Machine.Bare

/-! The bare counterpart of a machine. What the host reads and changes on it is what the machine
shows and takes: every index lies inside of its list, and every answer is the same. -/

namespace WordMachine

def Status.phase : Status → Phase
  | .ready => .ready
  | .running => .running
  | .awaiting _ => .awaiting
  | .halted _ => .halted

/-- The machine as a bare one. -/
def Machine.bare (m : Machine) (cursor : Int) : Bare where
  memory := m.memory.cells.toList
  registers := m.registers.toList
  stack := m.stack
  pc := m.pc
  phase := m.status.phase
  fault := m.trap?.map fun t => (t.fault, (t.pc : Int))
  pending := m.awaited?.map fun r => (r.val : Int)
  cursor
  emitted := m.emitted

/-- The operands as plain numbers, registers by their numbers. -/
def Operands.numbers : (roles : List Role) → Operands roles → List Int
  | [], () => []
  | .write :: roles, (r, rest) => r.val :: Operands.numbers roles rest
  | .read :: roles, (v, rest) => v :: Operands.numbers roles rest

def Failure.raised : Failure → Trouble
  | .fault f => f.raised
  | .output e => .output e

def StepError.raised : StepError → Trouble
  | .refused why => .refused why
  | .trapped t => .fault t.fault (some t.pc)
  | .output e => .output e
  | .untold f => .untold f

def CallError.raised : CallError → Trouble
  | .step why => why.raised
  | .refused why => .refused why
  | .fault why => .fault why none
  | .untold why => .untold why

theorem CallError.raised_ofFault (f : Fault) : (CallError.ofFault f).raised = f.raised := by
  rw [CallError.ofFault, Fault.raised]
  split <;> rfl

def Answer.reply : Answer → Reply
  | .executed op => .executed op
  | .rested s => .rested s.phase
  | .value v => .value v
  | .done => .done

/-! ### What acts do -/

namespace Bare

section Acts
variable {α β : Type} {b : Bare}

theorem does_pure (x : α) : b.does (pure x) = (.ok x, b) := rfl

theorem does_throw (e : Trouble) : b.does (throw e : Act α) = (.error e, b) := rfl

theorem does_get : b.does (get : Act Bare) = (.ok b, b) := rfl

theorem does_modify (f : Bare → Bare) : b.does (modify f : Act Unit) = (.ok (), f b) := rfl

theorem does_bind (act : Act α) (f : α → Act β) :
    b.does (act >>= f) = match b.does act with
      | (.ok x, b') => b'.does (f x)
      | (.error e, b') => (.error e, b') := by
  change ExceptT.bindCont f (b.does act).1 (b.does act).2 = _
  rcases b.does act with ⟨_ | _, _⟩ <;> rfl

theorem does_tryCatch (act : Act α) (f : Trouble → Act α) :
    b.does (tryCatch act f) = match b.does act with
      | (.ok x, b') => (.ok x, b')
      | (.error e, b') => b'.does (f e) := by
  simp only [does, tryCatch, tryCatchThe, MonadExceptOf.tryCatch, ExceptT.tryCatch, ExceptT.run_mk,
    StateT.run_bind]
  rcases hr : StateT.run (ExceptT.run act) b with ⟨r, b'⟩
  rw [show StateT.run act b = (r, b') from hr]
  cases r <;> rfl

theorem does_item {xs : List α} {i : Nat} {v : α} (h : xs[i]? = some v) :
    b.does (item xs i) = (.ok v, b) := by
  obtain ⟨hlt, rfl⟩ := List.getElem?_eq_some_iff.1 h
  rw [item, dif_pos ⟨by omega, by omega⟩]
  rfl

theorem does_replaced {xs : List α} {i : Nat} (h : i < xs.length) (v : α) :
    b.does (replaced xs i v) = (.ok (xs.set i v), b) := by
  rw [replaced, if_pos ⟨by omega, by omega⟩]
  rfl

theorem does_part {xs : List α} {a k : Nat} (h : a + k ≤ xs.length) :
    b.does (part xs a (a + k : Nat)) = (.ok ((xs.drop a).take k), b) := by
  have hk : ((a + k : Nat) - (a : Int)).toNat = k := by omega
  rw [part, if_pos ⟨by omega, by omega, by omega⟩, hk]
  rfl

/-- Every instruction has its body in its place. -/
theorem does_item_table (op : Opcode) : b.does (item table op.code) = (.ok op, b) :=
  does_item (by cases op <;> rfl)

end Acts

/-! ### What acts do on the counterpart of a machine -/

/-- An answer that changes nothing, as a bare machine gives it. -/
def answered {ε α : Type} (b : Bare) (raised : ε → Trouble) :
    Except ε α → Except Trouble α × Bare
  | .ok x => (.ok x, b)
  | .error e => (.error (raised e), b)

/-- A change of the machine that has come about or not, as the bare one shows it. -/
def adopted {ε : Type} (m : Machine) (n : Int) (raised : ε → Trouble) :
    Except ε Machine → Except Trouble Unit × Bare
  | .ok m' => (.ok (), m'.bare n)
  | .error e => (.error (raised e), m.bare n)

section Machines
variable {m : Machine} {n : Int}

theorem getElem?_registers (r : Register) :
    (m.bare n).registers[r.val]? = some (m.registers.get r) := by
  rw [Machine.bare, Vector.getElem?_toList, Vector.getElem?_eq_getElem r.isLt]
  rfl

theorem getElem?_cells (memory : Memory) (a : Address) :
    memory.cells.toList[a.val]? = some (memory.peek a) := by
  simp [Memory.peek]

theorem getElem?_memory (a : Address) : (m.bare n).memory[a.val]? = some (m.memory.peek a) :=
  getElem?_cells m.memory a

theorem bare_setReg (r : Register) (v : Int) :
    (m.setReg r v).bare n = { m.bare n with registers := (m.bare n).registers.set r.val v } := by
  simp only [Machine.bare, ← Vector.toList_set r.isLt]
  rfl

theorem bare_poke (a : Address) (v : Int) :
    { m with memory := m.memory.poke a v }.bare n =
      { m.bare n with memory := (m.bare n).memory.set a.val v } := by
  simp only [Machine.bare, ← Vector.toList_set a.isLt]
  rfl

theorem does_putRegister (r : Register) (v : Int) :
    (m.bare n).does (putRegister r.val v) = (.ok (), (m.setReg r v).bare n) := by
  have hlt := (List.getElem?_eq_some_iff.1 (@getElem?_registers m n r)).1
  simp only [putRegister, does_bind, does_get, does_replaced hlt, does_modify, bare_setReg]

theorem does_resolve (word : Int) :
    (m.bare n).does (resolve word) = answered (m.bare n) Fault.raised (m.resolve word) := by
  by_cases hlit : 0 ≤ word ∧ word < modulus
  · rw [resolve, if_pos hlit, Machine.resolve, if_pos (isLiteral_iff.2 hlit)]
    rfl
  · rw [resolve, if_neg hlit, Machine.resolve, if_neg fun h => hlit (isLiteral_iff.1 h)]
    cases hr : Register.ofWord? word with
    | none =>
      rw [if_neg (Register.ofWord?_eq_none_iff.1 hr)]
      rfl
    | some r =>
      obtain rfl := Register.ofWord?_eq_some_iff.1 hr
      rw [if_pos r.word_range, does_bind, does_get, r.word_sub]
      exact does_item (getElem?_registers r)

theorem does_target {b : Bare} (word : Int) :
    b.does (target word) =
      answered b Fault.raised ((Machine.target word).map fun r => (r.val : Int)) := by
  unfold target Machine.target
  cases hr : Register.ofWord? word with
  | none =>
    rw [if_neg (Register.ofWord?_eq_none_iff.1 hr)]
    by_cases hlit : 0 ≤ word ∧ word < modulus
    · simp only [if_pos hlit, if_pos (isLiteral_iff.2 hlit)]
      rfl
    · simp only [if_neg hlit, if_neg fun h => hlit (isLiteral_iff.1 h)]
      rfl
  | some r =>
    obtain rfl := Register.ofWord?_eq_some_iff.1 hr
    rw [if_pos r.word_range, r.word_sub]
    rfl

theorem does_register (index : Int) :
    (m.bare n).does (register index) = answered (m.bare n) Fault.raised (m.register index) := by
  unfold register Machine.register
  cases hr : Register.ofInt? index with
  | none =>
    rw [if_neg (Register.ofInt?_eq_none_iff.1 hr)]
    rfl
  | some r =>
    obtain rfl := Register.ofInt?_eq_some_iff.1 hr
    rw [if_pos (by omega), does_bind, does_get]
    exact does_item (getElem?_registers r)

theorem does_setRegister (index value : Int) :
    (m.bare n).does (setRegister index value) =
      adopted m n Fault.raised (m.setRegister index value) := by
  unfold setRegister Machine.setRegister
  cases hr : Register.ofInt? index with
  | none =>
    rw [if_neg (Register.ofInt?_eq_none_iff.1 hr)]
    rfl
  | some r =>
    obtain rfl := Register.ofInt?_eq_some_iff.1 hr
    rw [if_pos (by omega)]
    by_cases hlit : 0 ≤ value ∧ value < modulus
    · simp only [if_pos hlit, if_pos (isLiteral_iff.2 hlit), does_putRegister, adopted]
    · simp only [if_neg hlit, if_neg fun h => hlit (isLiteral_iff.1 h)]
      rfl

theorem does_readMemory (addr : Int) :
    (m.bare n).does (readMemory addr) = answered (m.bare n) Fault.raised (m.readMemory addr) := by
  unfold readMemory Machine.readMemory
  cases ha : Address.ofInt? addr with
  | none =>
    rw [if_neg (Address.ofInt?_eq_none_iff.1 ha)]
    rfl
  | some a =>
    obtain rfl := Address.ofInt?_eq_some_iff.1 ha
    rw [if_pos (by omega), does_bind, does_get]
    exact does_item (getElem?_memory a)

theorem does_writeMemory (addr value : Int) :
    (m.bare n).does (writeMemory addr value) =
      adopted m n Fault.raised (m.writeMemory addr value) := by
  unfold writeMemory Machine.writeMemory
  cases ha : Address.ofInt? addr with
  | none =>
    rw [if_neg (Address.ofInt?_eq_none_iff.1 ha)]
    rfl
  | some a =>
    obtain rfl := Address.ofInt?_eq_some_iff.1 ha
    have hlt := (List.getElem?_eq_some_iff.1 (@getElem?_memory m n a)).1
    rw [if_pos (by omega)]
    simp only [does_bind, does_get, does_replaced hlt, does_modify, adopted, bare_poke]

theorem does_deliver {r : Register} (hs : m.status = .awaiting r) (c : Char) :
    (m.bare n).does (deliver c) =
      (.ok (), { m.setReg r c.toNat with status := .running }.bare n) := by
  have hpending : (m.bare n).pending = some (r.val : Int) := by
    simp [Machine.bare, Machine.awaited?, hs]
  simp only [deliver, does_bind, does_get, hpending, does_putRegister, does_modify]
  simp [Machine.bare, Machine.setReg, Machine.trap?, Machine.awaited?, Status.phase, hs]

theorem does_supply (text : String) :
    (m.bare n).does (supply text) = adopted m n .refused (m.supply text) := by
  have hphase : (m.bare n).phase = m.status.phase := rfl
  simp only [supply, Machine.supply, does_bind, does_get, hphase]
  cases hs : m.status with
  | ready | running | halted => rfl
  | awaiting r =>
    simp only [Status.phase]
    rcases text.toList with _ | ⟨c, _ | ⟨d, rest⟩⟩
    · rfl
    · by_cases hc : c.toNat < modulus
      · simp only [if_pos hc, does_deliver hs, adopted]
      · simp only [if_neg hc, does_throw, adopted]
    · rfl

end Machines
end Bare
end WordMachine
