import WordMachine.Proofs.Machine.Linkage

/-! Values on the stack and where they go. What a step puts on the stack stays there, and so does all
that lies below it, until the stack is as high again as it was before. It gets there by taking that
value off: into a register, or as the address to go on at. So saved values and return addresses can
be mixed on one stack, and each comes back to the instruction that takes it. -/

namespace WordMachine
namespace Machine

/-- A step of the machine saves the value: its operand, or the address behind a call. -/
def Saves (m : Machine) (op : Opcode) (v : Int) : Prop :=
  op = .push ∧ m.resolve (m.memory.peek (m.pc + 1)) = .ok v ∨
    op = .call ∧ v = ((m.pc + 2) % modulus : Nat)

/-- A step of the machine takes the value off the stack and hands it on: to the register that its
operand names, or to the program counter. -/
def HandsOn (m m' : Machine) (v : Int) : Prop :=
  m.step = (.ok .pop, m') ∧
      (∃ r, target (m.memory.peek (m.pc + 1)) = .ok r ∧ m'.registers.get r = v) ∨
    m.step = (.ok .ret, m') ∧ (m'.pc : Int) = v

theorem saves_of_push {m m' : Machine} (h : m.step = (.ok .push, m')) :
    ∃ v, m.Saves .push v ∧ m'.stack = v :: m.stack := by
  obtain ⟨args, c, pc, -, hargs, heff, rfl⟩ := step_eq_ok_of_ne_halt h nofun
  obtain ⟨v, ⟨⟩⟩ := args
  simp only [effect, Except.ok.injEq, Prod.mk.injEq] at heff
  obtain ⟨rfl, -⟩ := heff
  exact ⟨v, .inl ⟨rfl, (operands_read_eq_ok hargs).1⟩, rfl⟩

theorem handsOn_of_pop {m m' : Machine} (h : m.step = (.ok .pop, m')) :
    ∃ v, m.stack = v :: m'.stack ∧ m.HandsOn m' v := by
  obtain ⟨args, c, pc, -, hargs, heff, rfl⟩ := step_eq_ok_of_ne_halt h nofun
  obtain ⟨r, ⟨⟩⟩ := args
  simp only [effect] at heff
  split at heff
  · cases heff
  · rename_i v rest hs
    simp only [Except.ok.injEq, Prod.mk.injEq] at heff
    obtain ⟨rfl, -⟩ := heff
    refine ⟨v, by simp [perform, hs], .inl ⟨h, r, target_of_operands hargs rfl, ?_⟩⟩
    simp [perform, setReg_registers]

theorem stack_of_saves {m m' : Machine} {op : Opcode} (h : m.step = (.ok op, m'))
    (hop : op = .push ∨ op = .call) : ∃ v, m.Saves op v ∧ m'.stack = v :: m.stack := by
  rcases hop with rfl | rfl
  · exact saves_of_push h
  · exact ⟨_, .inr ⟨rfl, rfl⟩, (stack_of_call h).2⟩

/-- Only a value that is handed on leaves the stack lower. -/
theorem handsOn_of_lower {m : Machine} (h : m.step.2.stack.length < m.stack.length) :
    ∃ v, m.stack = v :: m.step.2.stack ∧ m.HandsOn m.step.2 v := by
  have hmoved := m.step_stack
  rcases hs : m.step with ⟨answer, m'⟩
  rw [hs] at h hmoved
  cases hmoved with
  | kept _ _ _ heq =>
    rw [heq] at h
    omega
  | pushed v heq | called _ heq =>
    rw [heq, List.length_cons] at h
    omega
  | popped => exact handsOn_of_pop hs
  | returned heq => exact ⟨_, heq, .inr ⟨hs, rfl⟩⟩

/-- A call lowers the stack by one value at most. -/
theorem length_stack_le_call {m : Machine} {c : Call} (hrun : c.isRun = false) :
    m.stack.length ≤ (m.call c).2.stack.length + 1 := by
  by_cases hc : c = .step
  · subst hc
    rw [call_step]
    by_cases h : m.step.2.stack.length < m.stack.length
    · obtain ⟨v, hs, -⟩ := handsOn_of_lower h
      have hlen := congrArg List.length hs
      rw [List.length_cons] at hlen
      omega
    · omega
  · rw [stack_of_call_ne_step hrun hc]
    omega

/-- So a stack that is never of some height, and higher at first, stays higher. -/
theorem lt_length_stack_of_ne {h : Nat} {m : Machine} {calls : List Call}
    (hcalls : ∀ c ∈ calls, c.isRun = false) (hlt : h < m.stack.length)
    (hne : ∀ cs, cs <+: calls → (m.afterCalls cs).stack.length ≠ h) :
    ∀ cs, cs <+: calls → h < (m.afterCalls cs).stack.length := by
  induction calls generalizing m with
  | nil =>
    intro cs hcs
    rwa [List.prefix_nil.1 hcs]
  | cons c calls ih =>
    rw [List.forall_mem_cons] at hcalls
    intro cs hcs
    rcases List.prefix_cons_iff.1 hcs with rfl | ⟨ds, rfl, hds⟩
    · exact hlt
    · have hle := length_stack_le_call (m := m) hcalls.1
      have hne' := hne [c] ((List.prefix_cons_inj c).2 List.nil_prefix)
      rw [afterCalls, afterCalls] at hne'
      refine ih hcalls.2 (by omega) ?_ ds hds
      intro es hes
      exact hne (c :: es) ((List.prefix_cons_inj c).2 hes)

/-- In a session that is taken apart into single calls: a step puts a value on the stack, and some
calls later the stack is for the first time as high again as before. In between, that value and the
stack below it are as they were. The call that brings the stack back is a step that hands on this
value, and it leaves the stack that was there before. -/
theorem saved_value_is_handed_on {m₀ m₁ : Machine} {calls before within after : List Call}
    {last : Call} {op : Opcode} {S : List Int}
    (hsession : m₀.unrolled calls = before ++ .step :: (within ++ last :: after))
    (hS : (m₀.afterCalls before).stack = S)
    (hstep : (m₀.afterCalls before).step = (.ok op, m₁)) (hop : op = .push ∨ op = .call)
    (hfirst : ∀ cs, cs <+: within → (m₁.afterCalls cs).stack.length ≠ S.length)
    (hback : ((m₁.afterCalls within).call last).2.stack.length = S.length) :
    ∃ v, (m₀.afterCalls before).Saves op v ∧ m₁.stack = v :: S ∧
      (∀ cs, cs <+: within → v :: S <:+ (m₁.afterCalls cs).stack) ∧
      (m₁.afterCalls within).stack = v :: S ∧ last = .step ∧
      ∃ m₂, (m₁.afterCalls within).HandsOn m₂ v ∧ m₂.stack = S := by
  have hmove (c : Call) (hc : c ∈ within ++ last :: after) : c.isRun = false :=
    (of_mem_unrolled (hsession ▸ List.mem_append_right before (.tail _ hc))).1
  have hwithin (c : Call) (hc : c ∈ within) := hmove c (List.mem_append_left _ hc)
  obtain ⟨v, hsaves, hsaved⟩ := stack_of_saves hstep hop
  rw [hS] at hsaved
  have habove := lt_length_stack_of_ne hwithin (by simp [hsaved]) hfirst
  have hsuffix : ∀ cs, cs <+: within → v :: S <:+ (m₁.afterCalls cs).stack := by
    intro cs hcs
    refine suffix_afterMoves (fun c hc => hwithin c (hcs.subset hc)) (hsaved ▸ List.suffix_rfl) ?_
    intro ds hds
    exact habove ds (hds.trans hcs)
  have hlower := habove within (List.prefix_refl _)
  have hlast : last = .step := by
    apply Decidable.byContradiction
    intro hne
    rw [stack_of_call_ne_step (hmove last (by simp)) hne] at hback
    omega
  subst hlast
  rw [call_step] at hback
  obtain ⟨w, hstack, hhands⟩ := handsOn_of_lower (hback ▸ hlower)
  -- the value and the stack below it are all that is left
  have heq : v :: S = w :: (m₁.afterCalls within).step.2.stack := by
    rw [← hstack]
    refine (hsuffix within (List.prefix_refl _)).eq_of_length ?_
    rw [hstack, List.length_cons, List.length_cons, hback]
  obtain ⟨rfl, hrest⟩ := List.cons.inj heq
  exact ⟨v, hsaves, hsaved, hsuffix, hstack.trans heq.symm, rfl, _, hhands, hrest.symm⟩

/-- A value is saved, a subroutine that returns at once is called, and the value is taken back. The
steps are taken in two runs, between which the host sets a register. -/
def savedAcrossCall : List Int := [2, 7, 17, 6, 3, 32768, 18]

def twoRuns : List Call := [.run 2, .setRegister 1 5, .run 2]

def betweenSaveAndPop : List Call := [.step, .setRegister 1 5, .step]

theorem savedAcrossCall_runs {memory : Memory}
    (hpeek : ∀ a, memory.peek a = savedAcrossCall.getD a 0) (regs : Vector Int 8) :
    ∃ m₁, (⟨memory, regs, [], 0, .ready, []⟩ : Machine).step = (.ok .push, m₁) ∧ m₁.stack = [7] ∧
      (⟨memory, regs, [], 0, .ready, []⟩ : Machine).unrolled twoRuns =
        .step :: (betweenSaveAndPop ++ [.step]) ∧
      (∀ cs, cs <+: betweenSaveAndPop → (m₁.afterCalls cs).stack.length ≠ 0) ∧
      ((m₁.afterCalls betweenSaveAndPop).call .step).2.stack.length = 0 := by
  have hpush : (⟨memory, regs, [], 0, .ready, []⟩ : Machine).step =
      (.ok .push, ⟨memory, regs, [7], 2, .running, []⟩) :=
    @step_of_fetched ⟨memory, regs, [], 0, .ready, []⟩ .push (7, ()) _ _ rfl
      ⟨by simp only [hpeek]; rfl, Nat.le_of_ble_eq_true rfl⟩
      (by simp only [Opcode.signature, operands, hpeek]; rfl) rfl
  have hcall : (⟨memory, regs, [7], 2, .running, []⟩ : Machine).step =
      (.ok .call, ⟨memory, regs, [4, 7], 6, .running, []⟩) :=
    @step_of_fetched ⟨memory, regs, [7], 2, .running, []⟩ .call (6, ()) _ _ rfl
      ⟨by simp only [hpeek]; rfl, Nat.le_of_ble_eq_true rfl⟩
      (by simp only [Opcode.signature, operands, hpeek]; rfl) rfl
  have hset : ((⟨memory, regs, [4, 7], 6, .running, []⟩ : Machine).call (.setRegister 1 5)).2 =
      ⟨memory, regs.set 1 5, [4, 7], 6, .running, []⟩ := rfl
  have hret (regs : Vector Int 8) : (⟨memory, regs, [4, 7], 6, .running, []⟩ : Machine).step =
      (.ok .ret, ⟨memory, regs, [7], 4, .running, []⟩) :=
    @step_of_fetched ⟨memory, regs, [4, 7], 6, .running, []⟩ .ret () _ _ rfl
      ⟨by simp only [hpeek]; rfl, Nat.le_of_ble_eq_true rfl⟩ rfl rfl
  have hpop (regs : Vector Int 8) : (⟨memory, regs, [7], 4, .running, []⟩ : Machine).step =
      (.ok .pop, ⟨memory, regs.set 0 7, [], 6, .running, []⟩) :=
    @step_of_fetched ⟨memory, regs, [7], 4, .running, []⟩ .pop (0, ()) _ _ rfl
      ⟨by simp only [hpeek]; rfl, Nat.le_of_ble_eq_true rfl⟩
      (by simp only [Opcode.signature, operands, hpeek]; rfl) rfl
  refine ⟨_, hpush, rfl, ?_, ?_, ?_⟩
  · simp [twoRuns, betweenSaveAndPop, unrolled, moves, call_run, stepsTaken, run, isActive, hpush,
      hcall, hset, hret, hpop, List.replicate]
  · intro cs hcs
    simp only [betweenSaveAndPop, List.prefix_cons_iff, List.prefix_nil] at hcs
    rcases hcs with rfl | ⟨_, rfl, rfl | ⟨_, rfl, rfl | ⟨_, rfl, rfl⟩⟩⟩ <;>
      simp [afterCalls, call_step, hcall, hset, hret]
  · simp [betweenSaveAndPop, afterCalls, call_step, hcall, hset, hret, hpop]

theorem saved_value_is_handed_on_of_call :
    (start savedAcrossCall).unrolled twoRuns = .step :: (betweenSaveAndPop ++ [.step]) ∧
      ∃ m₁ m₂, (start savedAcrossCall).step = (.ok .push, m₁) ∧
        (m₁.afterCalls betweenSaveAndPop).HandsOn m₂ 7 ∧ m₂.stack = [] := by
  obtain ⟨m₁, hpush, hsaved, hsession, hfirst, hback⟩ :=
    savedAcrossCall_runs (Memory.peek_ofList_of_le (by decide)) (Vector.replicate 8 0)
  obtain ⟨v, -, hstack, -, -, -, m₂, hhands, hrest⟩ :=
    @saved_value_is_handed_on (start savedAcrossCall) m₁ twoRuns [] betweenSaveAndPop [] .step .push []
      hsession rfl hpush (.inl rfl) hfirst hback
  obtain rfl : 7 = v := List.head_eq_of_cons_eq (hsaved.symm.trans hstack)
  exact ⟨hsession, m₁, m₂, hpush, hhands, hrest⟩

end Machine
end WordMachine
