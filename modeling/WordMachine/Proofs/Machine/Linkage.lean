import WordMachine.Proofs.Machine.Cells
import WordMachine.Proofs.Machine.Stack

/-! Calls and returns. A call saves the address behind it on the stack. While the program stays above
the stack that the call found, that stack and the saved address are out of its reach, so the return
that comes back to it goes on behind the call. An address is a word: a call in the last two cells of
memory saves zero, and returning to it starts memory over. -/

namespace WordMachine
namespace Machine

/-- What a call saves, and the stack that it saves it on. -/
theorem stack_of_call {m m₁ : Machine} (h : m.step = (.ok .call, m₁)) :
    m.pc + 2 ≤ memorySize ∧ m₁.stack = (((m.pc + 2) % modulus : Nat) : Int) :: m.stack := by
  have hmoved := m.step_stack
  rw [h] at hmoved
  cases hmoved with
  | kept _ hne => exact absurd rfl hne
  | called hroom hs => exact ⟨hroom, hs⟩

/-- Where a return goes on, and the stack that it leaves. -/
theorem stack_of_ret {m m' : Machine} (h : m.step = (.ok .ret, m')) (hs : m.stack ≠ []) :
    m.stack = (m'.pc : Int) :: m'.stack := by
  have hmoved := m.step_stack
  rw [h] at hmoved
  cases hmoved with
  | kept _ _ hempty => exact absurd (hempty rfl) hs
  | returned heq => exact heq

/-- A call, any steps and supplies that keep the stack higher than it was before the call, and the
return that brings it back to that height: the stack is then the one before the call, and the program
goes on at the address behind the call, which is zero if the call ends at the last cell. -/
theorem return_goes_behind_call {m m₁ m₂ : Machine} {calls : List Call}
    (hcall : m.step = (.ok .call, m₁))
    (hcalls : ∀ c ∈ calls, c = .step ∨ ∃ text, c = .supply text)
    (habove : ∀ cs, cs <+: calls → m.stack.length < (m₁.afterCalls cs).stack.length)
    (hret : (m₁.afterCalls calls).step = (.ok .ret, m₂))
    (hback : m₂.stack.length = m.stack.length) :
    m₂.stack = m.stack ∧ m.pc + 2 ≤ 32768 ∧
      m₂.pc = if m.pc + 2 = 32768 then 0 else m.pc + 2 := by
  obtain ⟨hroom, hsaved⟩ := stack_of_call hcall
  have hsuffix : m₁.stack <:+ (m₁.afterCalls calls).stack := by
    refine suffix_afterCalls hcalls List.suffix_rfl ?_
    intro cs hcs
    rw [hsaved, List.length_cons]
    exact habove cs hcs
  have hne : (m₁.afterCalls calls).stack ≠ [] := by
    have := habove calls (List.prefix_refl calls)
    exact List.ne_nil_of_length_pos (by omega)
  -- the saved address is all that is left above the stack before the call
  rw [stack_of_ret hret hne, hsaved] at hsuffix
  have heq := hsuffix.eq_of_length (by simp [hback])
  obtain ⟨hpc, hstack⟩ := List.cons.inj heq
  refine ⟨hstack.symm, hroom, ?_⟩
  rw [← Int.ofNat.inj hpc]
  simp only [memorySize, modulus] at hroom ⊢
  split <;> omega

/-- A call of a subroutine that saves a value of its own, asks for a character and takes its value
back before it returns. -/
def subroutine : List Int := [17, 3, 0, 2, 7, 20, 32768, 3, 32769, 18]

def withinSubroutine : List Call := [.step, .step, .supply "A", .step]

theorem subroutine_runs {memory : Memory} (hpeek : ∀ a, memory.peek a = subroutine.getD a 0)
    (regs : Vector Int 8) :
    ∃ m₁ m₂, (⟨memory, regs, [], 0, .ready, []⟩ : Machine).step = (.ok .call, m₁) ∧
      (∀ cs, cs <+: withinSubroutine → 0 < (m₁.afterCalls cs).stack.length) ∧
      (m₁.afterCalls withinSubroutine).step = (.ok .ret, m₂) ∧ m₂.stack.length = 0 := by
  have hcall : (⟨memory, regs, [], 0, .ready, []⟩ : Machine).step =
      (.ok .call, ⟨memory, regs, [2], 3, .running, []⟩) :=
    @step_of_fetched ⟨memory, regs, [], 0, .ready, []⟩ .call (3, ()) _ _ rfl
      ⟨by simp only [hpeek]; rfl, Nat.le_of_ble_eq_true rfl⟩
      (by simp only [Opcode.signature, operands, hpeek]; rfl) rfl
  have hpush : (⟨memory, regs, [2], 3, .running, []⟩ : Machine).step =
      (.ok .push, ⟨memory, regs, [7, 2], 5, .running, []⟩) :=
    @step_of_fetched ⟨memory, regs, [2], 3, .running, []⟩ .push (7, ()) _ _ rfl
      ⟨by simp only [hpeek]; rfl, Nat.le_of_ble_eq_true rfl⟩
      (by simp only [Opcode.signature, operands, hpeek]; rfl) rfl
  have hin : (⟨memory, regs, [7, 2], 5, .running, []⟩ : Machine).step =
      (.ok .input, ⟨memory, regs, [7, 2], 7, .awaiting 0, []⟩) :=
    @step_of_fetched ⟨memory, regs, [7, 2], 5, .running, []⟩ .input (0, ()) _ _ rfl
      ⟨by simp only [hpeek]; rfl, Nat.le_of_ble_eq_true rfl⟩
      (by simp only [Opcode.signature, operands, hpeek]; rfl) rfl
  have hsupply : ((⟨memory, regs, [7, 2], 7, .awaiting 0, []⟩ : Machine).call (.supply "A")).2 =
      ⟨memory, regs.set 0 65, [7, 2], 7, .running, []⟩ := rfl
  have hpop (regs : Vector Int 8) : (⟨memory, regs, [7, 2], 7, .running, []⟩ : Machine).step =
      (.ok .pop, ⟨memory, regs.set 1 7, [2], 9, .running, []⟩) :=
    @step_of_fetched ⟨memory, regs, [7, 2], 7, .running, []⟩ .pop (1, ()) _ _ rfl
      ⟨by simp only [hpeek]; rfl, Nat.le_of_ble_eq_true rfl⟩
      (by simp only [Opcode.signature, operands, hpeek]; rfl) rfl
  have hret (regs : Vector Int 8) : (⟨memory, regs, [2], 9, .running, []⟩ : Machine).step =
      (.ok .ret, ⟨memory, regs, [], 2, .running, []⟩) :=
    @step_of_fetched ⟨memory, regs, [2], 9, .running, []⟩ .ret () _ _ rfl
      ⟨by simp only [hpeek]; rfl, Nat.le_of_ble_eq_true rfl⟩ rfl rfl
  refine ⟨_, ⟨memory, (regs.set 0 65).set 1 7, [], 2, .running, []⟩, hcall, ?_, ?_, rfl⟩
  · intro cs hcs
    simp only [withinSubroutine, List.prefix_cons_iff, List.prefix_nil] at hcs
    rcases hcs with rfl | ⟨_, rfl, rfl | ⟨_, rfl, rfl | ⟨_, rfl, rfl | ⟨_, rfl, rfl⟩⟩⟩⟩ <;>
      simp [afterCalls, call_step, hpush, hin, hsupply, hpop]
  · simp only [withinSubroutine, afterCalls, call_step, hpush, hin, hsupply, hpop, hret]

theorem return_goes_behind_call_of_subroutine :
    ∃ m₁ m₂, (start subroutine).step = (.ok .call, m₁) ∧
      (m₁.afterCalls withinSubroutine).step = (.ok .ret, m₂) ∧ m₂.stack = [] ∧ m₂.pc = 2 := by
  obtain ⟨m₁, m₂, hcall, habove, hret, hback⟩ :=
    subroutine_runs (Memory.peek_ofList_of_le (by decide)) (Vector.replicate 8 0)
  obtain ⟨hstack, -, hpc⟩ := @return_goes_behind_call (start subroutine) m₁ m₂ _ hcall
    (by simp [withinSubroutine]) habove hret hback
  exact ⟨m₁, m₂, hcall, hret, hstack, hpc⟩

/-- A jump to a call in the last two cells of memory, and the return that it calls. -/
theorem topmost_call_runs {memory : Memory} (hjump : memory.Holds 0 [6, 32766, 18])
    (hcall : memory.Holds 32766 [17, 2]) (regs : Vector Int 8) :
    (⟨memory, regs, [], 0, .ready, []⟩ : Machine).step.2 =
        ⟨memory, regs, [], 32766, .running, []⟩ ∧
      (⟨memory, regs, [], 32766, .running, []⟩ : Machine).step =
        (.ok .call, ⟨memory, regs, [0], 2, .running, []⟩) ∧
      (⟨memory, regs, [0], 2, .running, []⟩ : Machine).step =
        (.ok .ret, ⟨memory, regs, [], 0, .running, []⟩) := by
  simp only [Memory.holds_cons, Nat.reduceAdd] at hjump hcall
  obtain ⟨h0, h1, h2, -⟩ := hjump
  obtain ⟨hop, htarget, -⟩ := hcall
  refine ⟨?_, ?_, ?_⟩
  · have h := @step_of_fetched ⟨memory, regs, [], 0, .ready, []⟩ .jmp (32766, ()) _ _ rfl
      ⟨by simp only [h0]; rfl, Nat.le_of_ble_eq_true rfl⟩
      (by simp only [Opcode.signature, operands, h1]; rfl) rfl
    rw [h]
    rfl
  · have heff : (⟨memory, regs, [], 32766, .running, []⟩ : Machine).effect 32768 .call (2, ()) =
        .ok (.push 0, 2) := rfl
    exact @step_of_fetched ⟨memory, regs, [], 32766, .running, []⟩ .call (2, ()) _ _ rfl
      ⟨by simp only [hop]; rfl, Nat.le_refl _⟩
      (by simp only [Opcode.signature, operands, htarget]; rfl) heff
  · exact @step_of_fetched ⟨memory, regs, [0], 2, .running, []⟩ .ret () _ _ rfl
      ⟨by simp only [h2]; rfl, Nat.le_of_ble_eq_true rfl⟩ rfl rfl

/-- A call in the last two cells of memory: after its return the program does not go on at the
address behind the call, where it would halt, but at zero. -/
theorem return_to_the_end_of_memory :
    let m := (start [6, 32766, 18]).afterCalls [.writeMemory 32766 17, .writeMemory 32767 2, .step]
    load [6, 32766, 18] = .ok (start [6, 32766, 18]) ∧
    ∃ m₁ m₂, m.step = (.ok .call, m₁) ∧ m.stack.length < m₁.stack.length ∧
      m₁.step = (.ok .ret, m₂) ∧ m₂.stack.length = m.stack.length ∧
      m.pc = 32766 ∧ m₂.pc = 0 ∧ ¬ (m₂.stack = m.stack ∧ m₂.pc = m.pc + 2) := by
  intro m
  refine ⟨rfl, ?_⟩
  let memory := ((Memory.ofList [6, 32766, 18]).poke ⟨32766, by decide⟩ 17).poke ⟨32767, by decide⟩ 2
  have hpeek (a : Nat) : memory.peek a =
      if a = 32767 then 2 else if a = 32766 then 17 else [6, 32766, 18].getD a 0 := by
    simp only [memory, Memory.peek_poke]
    rw [Memory.peek_ofList_of_le (by decide)]
  obtain ⟨hjump, hcall, hret⟩ := @topmost_call_runs memory
    (by simp [Memory.holds_cons, Memory.Holds.nil, hpeek])
    (by simp [Memory.holds_cons, Memory.Holds.nil, hpeek]) (Vector.replicate 8 0)
  have hm : m = ⟨memory, Vector.replicate 8 0, [], 32766, .running, []⟩ := by
    have hwrite (m : Machine) := @call_writeMemory m 32766 ⟨32766, by decide⟩ rfl 17
    have hwrite' (m : Machine) := @call_writeMemory m 32767 ⟨32767, by decide⟩ rfl 2
    rw [← hjump]
    change afterCalls _ _ = _
    rw [afterCalls, hwrite, afterCalls, hwrite', afterCalls, call_step, afterCalls]
    -- both sides step the same machine, which is not to be evaluated
    exact congrArg (fun m : Machine => m.step.2) rfl
  rw [hm]
  exact ⟨_, _, hcall, by simp, hret, rfl, rfl, rfl, by simp⟩

end Machine
end WordMachine
