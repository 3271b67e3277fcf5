import WordMachine.Proofs.Machine.Transition

/-! What an instruction can do and why it can fail, sorted into a few kinds once for all twenty-two
of them. -/

namespace WordMachine

/-- which operand of an instruction says where the program goes on -/
def Opcode.targetIndex? : Opcode → Option Nat
  | .jmp | .call => some 0
  | .jt | .jf => some 1
  | _ => none

/-- the value of the operand at a place, if one is read there -/
def Operands.value? : (roles : List Role) → Operands roles → Nat → Option Int
  | [], (), _ => none
  | .write :: _, _, 0 => none
  | .read :: _, (v, _), 0 => some v
  | .write :: roles, (_, rest), k + 1 => Operands.value? roles rest k
  | .read :: roles, (_, rest), k + 1 => Operands.value? roles rest k

/-- the register that the first operand names, if it is written -/
def Operands.dest? : (roles : List Role) → Operands roles → Option Register
  | .write :: _, (r, _) => some r
  | .read :: _, _ | [], _ => none

theorem jumpTarget_eq_ok {v : Int} {t : Nat} :
    jumpTarget v = .ok t ↔ v = t ∧ t < memorySize := by
  unfold jumpTarget
  split <;> rename_i h
  · rename_i a
    rw [Address.ofInt?_eq_some_iff] at h
    have := a.isLt
    simp only [Except.ok.injEq]
    omega
  · simp only [reduceCtorEq, false_iff, not_and]
    intro hv ht
    rw [(@Address.ofInt?_eq_some_iff v ⟨t, ht⟩).2 hv] at h
    cases h

theorem jumpTarget_eq_error {v : Int} {e : Failure} (h : jumpTarget v = .error e) :
    e = .fault (.jumpOutOfRange v) ∧ ∀ t : Nat, t < memorySize → v ≠ t := by
  constructor
  · unfold jumpTarget at h
    split at h <;> cases h
    rfl
  · intro t ht hv
    rw [jumpTarget_eq_ok.2 ⟨hv, ht⟩] at h
    cases h

theorem cellAddress_eq_ok {v : Int} {a : Address} : cellAddress v = .ok a ↔ v = a.val := by
  unfold cellAddress
  split <;> rename_i h
  · rw [← Address.ofInt?_eq_some_iff, h, Except.ok.injEq, Option.some.injEq]
  · rw [← Address.ofInt?_eq_some_iff, h]
    simp

theorem cellAddress_eq_error {v : Int} {e : Failure} (h : cellAddress v = .error e) :
    e = .fault (.addressOutOfRange v) := by
  unfold cellAddress at h
  split at h <;> cases h
  rfl

theorem codePoint_eq_ok {v : Int} {c : Nat} (h : codePoint v = .ok c) :
    v = c ∧ c < 0x110000 := by
  unfold codePoint at h
  split at h
  · cases h
    omega
  · split at h <;> cases h

theorem codePoint_of_range {v : Int} (h : 0 ≤ v ∧ v < 0x110000) : codePoint v = .ok v.toNat :=
  if_pos h

theorem codePoint_eq_error {v : Int} {e : OutputError} (h : codePoint v = .error e) :
    ¬ (0 ≤ v ∧ v < 0x110000) := by
  intro hv
  rw [codePoint_of_range hv] at h
  cases h

theorem codePoint_of_not_range {v : Int} (h : ¬ (0 ≤ v ∧ v < 0x110000)) :
    ∃ why, codePoint v = .error why := by
  rw [codePoint, if_neg h]
  split <;> exact ⟨_, rfl⟩

theorem reduce_range (v : Int) : 0 ≤ reduce v ∧ reduce v < 32768 := by
  simp only [reduce, modulus]
  omega

theorem lowBits_lt (v : Int) : lowBits v < 32768 := by
  have := reduce_range v
  simp only [lowBits]
  omega

namespace Machine

/-- What an instruction can leave in a register: its operand or a cell, as they are, or a number of
fifteen bits. -/
inductive Assigned (m : Machine) (op : Opcode) (args : Operands op.signature) : Int → Prop
  | copied (v : Int) : op = .set → args.value? op.signature 1 = some v → Assigned m op args v
  | loaded (a : Address) : op = .rmem → args.value? op.signature 1 = some (a.val : Int) →
      Assigned m op args (m.memory.peek a)
  | computed (v : Int) : 0 ≤ v → v < 32768 → Assigned m op args v

/-- The kinds of result that an instruction can have: the changes behind which the program goes on,
the stops, the jumps, and the failures. -/
inductive Effected (m : Machine) (next : Nat) (op : Opcode) (args : Operands op.signature) :
    Except Failure (Change × Nat) → Prop
  | assigns (r : Register) (v : Int) : args.dest? op.signature = some r → Assigned m op args v →
      Effected m next op args (.ok (.setReg r v, next))
  | stores (a : Address) (v : Int) : op = .wmem → args.value? op.signature 0 = some (a.val : Int) →
      args.value? op.signature 1 = some v → Effected m next op args (.ok (.setCell a v, next))
  | pushes (v : Int) : op = .push → args.value? op.signature 0 = some v →
      Effected m next op args (.ok (.push v, next))
  | pops (r : Register) (v : Int) (rest : List Int) : op = .pop → args.dest? op.signature = some r →
      m.stack = v :: rest → Effected m next op args (.ok (.popInto r v, next))
  | sends (c : Nat) : op = .out → args.value? op.signature 0 = some (c : Int) → c < 0x110000 →
      Effected m next op args (.ok (.emit c, next))
  | awaits (r : Register) : op = .input → args.dest? op.signature = some r →
      Effected m next op args (.ok (.await r, next))
  | halts : op = .halt ∨ op = .ret ∧ m.stack = [] → Effected m next op args (.ok (.halt, next))
  | passes : op = .noop ∨ op = .jt ∨ op = .jf → Effected m next op args (.ok (.nothing, next))
  | jumps (k t : Nat) : op = .jmp ∨ op = .jt ∨ op = .jf → op.targetIndex? = some k →
      args.value? op.signature k = some (t : Int) → t < memorySize →
      Effected m next op args (.ok (.nothing, t))
  | calls (t : Nat) : op = .call → args.value? op.signature 0 = some (t : Int) → t < memorySize →
      Effected m next op args (.ok (.push (next % modulus : Nat), t))
  | returns (t : Nat) (rest : List Int) : op = .ret → m.stack = (t : Int) :: rest → t < memorySize →
      Effected m next op args (.ok (.drop, t))
  | underflows : op = .pop → m.stack = [] → Effected m next op args (.error (.fault .emptyStack))
  | divides (b : Int) : op = .mod → Effected m next op args (.error (.fault (.divisionByZero b)))
  | misses (v : Int) : op = .rmem ∨ op = .wmem →
      Effected m next op args (.error (.fault (.addressOutOfRange v)))
  | strays (k : Nat) (v : Int) : op.targetIndex? = some k → args.value? op.signature k = some v →
      (∀ t : Nat, t < memorySize → v ≠ t) → Effected m next op args (.error (.fault (.jumpOutOfRange v)))
  | straysBack (v : Int) (rest : List Int) : op = .ret → m.stack = v :: rest →
      (∀ t : Nat, t < memorySize → v ≠ t) → Effected m next op args (.error (.fault (.jumpOutOfRange v)))
  | unsent (v : Int) (e : OutputError) : op = .out → args.value? op.signature 0 = some v →
      codePoint v = .error e → Effected m next op args (.error (.output e))

variable {m : Machine} {next : Nat}

theorem operands_write_eq_ok {roles : List Role} {a : Nat} {r : Register} {rest : Operands roles}
    (h : m.operands (.write :: roles) a = .ok (r, rest)) :
    target (m.memory.peek a) = .ok r ∧ m.operands roles (a + 1) = .ok rest := by
  simp only [operands] at h
  split at h
  · cases h
  · rename_i hr
    split at h
    · cases h
    · rename_i hrest
      cases h
      exact ⟨hr, hrest⟩

theorem operands_read_eq_ok {roles : List Role} {a : Nat} {v : Int} {rest : Operands roles}
    (h : m.operands (.read :: roles) a = .ok (v, rest)) :
    m.resolve (m.memory.peek a) = .ok v ∧ m.operands roles (a + 1) = .ok rest := by
  simp only [operands] at h
  split at h
  · cases h
  · rename_i hv
    split at h
    · cases h
    · rename_i hrest
      cases h
      exact ⟨hv, hrest⟩

theorem resolve_of_operands (roles : List Role) {a : Nat} {args : Operands roles}
    (h : m.operands roles a = .ok args) {k : Nat} {v : Int} (hv : args.value? roles k = some v) :
    m.resolve (m.memory.peek (a + k)) = .ok v := by
  induction roles generalizing a k with
  | nil => cases hv
  | cons role roles ih =>
    cases role with
    | write =>
      obtain ⟨r, rest⟩ := args
      cases k with
      | zero => cases hv
      | succ k =>
        rw [show a + (k + 1) = a + 1 + k by omega]
        exact ih (operands_write_eq_ok h).2 hv
    | read =>
      obtain ⟨w, rest⟩ := args
      cases k with
      | zero =>
        cases hv
        exact (operands_read_eq_ok h).1
      | succ k =>
        rw [show a + (k + 1) = a + 1 + k by omega]
        exact ih (operands_read_eq_ok h).2 hv

theorem target_of_operands {roles : List Role} {a : Nat} {args : Operands roles}
    (h : m.operands roles a = .ok args) {r : Register} (hr : args.dest? roles = some r) :
    target (m.memory.peek a) = .ok r := by
  cases roles with
  | nil => cases hr
  | cons role roles =>
    cases role with
    | read => cases hr
    | write =>
      obtain ⟨s, rest⟩ := args
      obtain rfl : s = r := Option.some.inj hr
      exact (operands_write_eq_ok h).1

theorem effected_jump {op : Opcode} {args : Operands op.signature} {k : Nat} {v : Int}
    (hop : op = .jmp ∨ op = .jt ∨ op = .jf) (hk : op.targetIndex? = some k)
    (hv : args.value? op.signature k = some v) :
    m.Effected next op args ((jumpTarget v).map fun pc => (.nothing, pc)) := by
  match ht : jumpTarget v with
  | .ok t =>
    obtain ⟨rfl, hlt⟩ := jumpTarget_eq_ok.1 ht
    exact .jumps k t hop hk hv hlt
  | .error e =>
    obtain ⟨rfl, hout⟩ := jumpTarget_eq_error ht
    exact .strays k v hk hv hout

theorem effected_call (args : Operands Opcode.call.signature) :
    m.Effected next .call args (m.effect next .call args) := by
  obtain ⟨v, ⟨⟩⟩ := args
  simp only [effect]
  match ht : jumpTarget v with
  | .ok t =>
    obtain ⟨rfl, hlt⟩ := jumpTarget_eq_ok.1 ht
    exact .calls t rfl rfl hlt
  | .error e =>
    obtain ⟨rfl, hout⟩ := jumpTarget_eq_error ht
    exact .strays 0 v rfl rfl hout

theorem effected_ret (args : Operands Opcode.ret.signature) :
    m.Effected next .ret args (m.effect next .ret args) := by
  obtain ⟨⟩ := args
  match hs : m.stack with
  | [] =>
    simp only [effect, hs]
    exact .halts (.inr ⟨rfl, hs⟩)
  | v :: rest =>
    simp only [effect, hs]
    match ht : jumpTarget v with
    | .ok t =>
      obtain ⟨rfl, hlt⟩ := jumpTarget_eq_ok.1 ht
      exact .returns t rest rfl hs hlt
    | .error e =>
      obtain ⟨rfl, hout⟩ := jumpTarget_eq_error ht
      exact .straysBack v rest rfl hs hout

theorem effected_computed {op : Opcode} {args : Operands op.signature} {r : Register} {v : Int}
    (hr : args.dest? op.signature = some r) (h : 0 ≤ v ∧ v < 32768) :
    m.Effected next op args (.ok (.setReg r v, next)) :=
  .assigns r v hr (.computed v h.1 h.2)

theorem effected_bits {op : Opcode} {args : Operands op.signature} {r : Register} {n : Nat}
    (hr : args.dest? op.signature = some r) (h : n < 32768) :
    m.Effected next op args (.ok (.setReg r n, next)) :=
  effected_computed hr (by omega)

theorem effect_cases (m : Machine) (next : Nat) (op : Opcode) (args : Operands op.signature) :
    m.Effected next op args (m.effect next op args) := by
  cases op with
  | halt => exact .halts (.inl rfl)
  | noop => exact .passes (.inl rfl)
  | push => exact .pushes args.1 rfl rfl
  | input => exact .awaits args.1 rfl rfl
  | set => exact .assigns args.1 args.2.1 rfl (.copied _ rfl rfl)
  | eq | gt =>
    refine effected_computed rfl ?_
    split <;> omega
  | add | mult | not => exact effected_computed rfl (reduce_range _)
  | and => exact effected_bits rfl (@Nat.and_lt_two_pow _ _ 15 (lowBits_lt _))
  | or => exact effected_bits rfl (@Nat.or_lt_two_pow _ _ 15 (lowBits_lt _) (lowBits_lt _))
  | pop =>
    obtain ⟨r, ⟨⟩⟩ := args
    simp only [effect]
    match hs : m.stack with
    | [] => exact .underflows rfl hs
    | v :: rest => exact .pops r v rest rfl rfl hs
  | mod =>
    obtain ⟨r, b, c, ⟨⟩⟩ := args
    simp only [effect]
    split
    · exact .divides b rfl
    · exact effected_computed rfl (reduce_range _)
  | rmem =>
    obtain ⟨r, b, ⟨⟩⟩ := args
    simp only [effect]
    match ha : cellAddress b with
    | .ok a =>
      obtain rfl := cellAddress_eq_ok.1 ha
      exact .assigns r _ rfl (.loaded a rfl rfl)
    | .error e =>
      obtain rfl := cellAddress_eq_error ha
      exact .misses b (.inl rfl)
  | wmem =>
    obtain ⟨a, b, ⟨⟩⟩ := args
    simp only [effect]
    match ha : cellAddress a with
    | .ok addr =>
      obtain rfl := cellAddress_eq_ok.1 ha
      exact .stores addr b rfl rfl rfl
    | .error e =>
      obtain rfl := cellAddress_eq_error ha
      exact .misses a (.inr rfl)
  | jmp => exact effected_jump (.inl rfl) rfl rfl
  | jt =>
    obtain ⟨a, b, ⟨⟩⟩ := args
    simp only [effect]
    split
    · exact effected_jump (.inr (.inl rfl)) rfl rfl
    · exact .passes (.inr (.inl rfl))
  | jf =>
    obtain ⟨a, b, ⟨⟩⟩ := args
    simp only [effect]
    split
    · exact effected_jump (.inr (.inr rfl)) rfl rfl
    · exact .passes (.inr (.inr rfl))
  | call => exact effected_call args
  | ret => exact effected_ret args
  | out =>
    obtain ⟨v, ⟨⟩⟩ := args
    simp only [effect]
    match hc : codePoint v with
    | .ok c =>
      obtain ⟨rfl, hlt⟩ := codePoint_eq_ok hc
      exact .sends c rfl rfl hlt
    | .error e => exact .unsent v e rfl rfl hc

/-- Only an instruction that sends out can fail without a fault, and only before a value that is no
code point. -/
theorem plan_eq_output_error {m : Machine} {e : OutputError} (h : m.plan = .error (.output e)) :
    m.Fetched .out ∧ ∃ v, m.resolve (m.memory.peek (m.pc + 1)) = .ok v ∧ codePoint v = .error e := by
  have hp := m.plan_cases
  rw [h] at hp
  cases hp with
  | failed op args _ hf hargs heff =>
    have hc := effect_cases m (m.pc + 1 + op.arity) op args
    rw [heff] at hc
    cases hc with
    | unsent v _ hop hv hout =>
      subst hop
      exact ⟨hf, v, resolve_of_operands _ hargs hv, hout⟩

end Machine
end WordMachine
