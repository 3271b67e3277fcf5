import WordMachine.Proofs.Machine.Effect
import WordMachine.Proofs.Machine.Session

/-! What becomes of the stack. A step leaves the stack alone, puts one value on top of it or takes the
top off. So as long as the stack stays at least as high as some lower part of it, that part stays as
it is, whatever the program does above it. -/

namespace WordMachine
namespace Machine

/-- What a step does to the stack, by its answer. -/
inductive StackMoved (m m' : Machine) : Except StepError Opcode → Prop
  | kept (answer : Except StepError Opcode) : answer ≠ .ok .call →
      (answer = .ok .ret → m.stack = []) → m'.stack = m.stack → StackMoved m m' answer
  | pushed (v : Int) : m'.stack = v :: m.stack → StackMoved m m' (.ok .push)
  | called : m.pc + 2 ≤ memorySize → m'.stack = (((m.pc + 2) % modulus : Nat) : Int) :: m.stack →
      StackMoved m m' (.ok .call)
  | popped (r : Register) (v : Int) : m.stack = v :: m'.stack → m'.registers.get r = v →
      StackMoved m m' (.ok .pop)
  | returned : m.stack = (m'.pc : Int) :: m'.stack → StackMoved m m' (.ok .ret)

theorem stackMoved_of_plan {m : Machine} {p : Plan} (hp : m.plan = .ok p) :
    m.StackMoved (m.perform p) (.ok p.op) := by
  have hplan := m.plan_cases
  rw [hp] at hplan
  cases hplan with
  | exhausted => exact .kept _ nofun nofun rfl
  | made op args c pc hf _ heff =>
    have hcases := m.effect_cases (m.pc + 1 + op.arity) op args
    rw [heff] at hcases
    cases hcases with
    | assigns r v hr =>
      -- neither a call nor a return has a register to write
      refine .kept _ ?_ ?_ rfl <;> rintro ⟨⟩ <;> cases hr
    | pushes v hop =>
      subst hop
      exact .pushed v rfl
    | calls t hop =>
      subst hop
      exact .called hf.room rfl
    | pops r v rest hop _ hs =>
      subst hop
      refine .popped r v ?_ ?_
      · simp [perform, hs]
      · simp [perform, setReg_registers]
    | returns t rest hop hs =>
      subst hop
      refine .returned ?_
      simp [perform, hs]
    | halts hop =>
      rcases hop with rfl | ⟨rfl, hs⟩
      · exact .kept _ nofun nofun rfl
      · exact .kept _ nofun (fun _ => hs) rfl
    | stores _ _ hop | sends _ hop | awaits _ hop =>
      subst hop
      exact .kept _ nofun nofun rfl
    | passes hop | jumps _ _ hop =>
      rcases hop with rfl | rfl | rfl <;> exact .kept _ nofun nofun rfl

/-- What a step does to the stack. -/
theorem step_stack (m : Machine) : m.StackMoved m.step.2 m.step.1 := by
  have hs := m.step_cases
  generalize m.step.1 = answer, m.step.2 = m' at hs ⊢
  cases hs with
  | executed p _ hp => exact stackMoved_of_plan hp
  | halted | awaiting | trapped | untold | unsent => exact .kept _ nofun nofun rfl

/-- Only steps move the stack. -/
theorem stack_of_call_ne_step {m : Machine} {c : Call} (hrun : c.isRun = false) (hc : c ≠ .step) :
    (m.call c).2.stack = m.stack := by
  have hh := m.call_cases hrun
  generalize (m.call c).1 = answer, (m.call c).2 = m' at hh ⊢
  cases hh with
  | stepped | failed => exact absurd rfl hc
  | supplied | refused | assigned | unassigned | stored | unstored | looked => rfl

/-- The lower part of a stack, as long as a step does not go below it. -/
theorem suffix_step {S : List Int} {m : Machine} (h : S <:+ m.stack)
    (hge : S.length ≤ m.step.2.stack.length) : S <:+ m.step.2.stack := by
  have hmoved := m.step_stack
  generalize m.step.1 = answer, m.step.2 = m' at hmoved hge ⊢
  have htail {v : Int} (hs : m.stack = v :: m'.stack) : S <:+ m'.stack := by
    rw [hs, List.suffix_cons_iff] at h
    rcases h with rfl | h
    · rw [List.length_cons] at hge
      omega
    · exact h
  cases hmoved with
  | kept _ _ _ hs => rwa [hs]
  | pushed v hs =>
    rw [hs]
    exact h.trans (List.suffix_cons v _)
  | called _ hs =>
    rw [hs]
    exact h.trans (List.suffix_cons _ _)
  | popped r v hs => exact htail hs
  | returned hs => exact htail hs

theorem suffix_call {S : List Int} {m : Machine} {c : Call} (hrun : c.isRun = false)
    (h : S <:+ m.stack) (hge : S.length ≤ (m.call c).2.stack.length) : S <:+ (m.call c).2.stack := by
  by_cases hc : c = .step
  · subst hc
    rw [call_step] at hge ⊢
    exact suffix_step h hge
  · rwa [stack_of_call_ne_step hrun hc]

/-- The lower part of a stack, as long as single calls do not go below it. -/
theorem suffix_afterMoves {S : List Int} {m : Machine} {calls : List Call}
    (hcalls : ∀ c ∈ calls, c.isRun = false) (h : S <:+ m.stack)
    (hge : ∀ cs, cs <+: calls → S.length ≤ (m.afterCalls cs).stack.length) :
    S <:+ (m.afterCalls calls).stack := by
  induction calls generalizing m with
  | nil => exact h
  | cons c calls ih =>
    rw [List.forall_mem_cons] at hcalls
    have hge' : ∀ cs, cs <+: calls → S.length ≤ ((m.call c).2.afterCalls cs).stack.length := by
      intro cs hcs
      exact hge (c :: cs) ((List.prefix_cons_inj c).2 hcs)
    exact ih hcalls.2 (suffix_call hcalls.1 h (hge' [] List.nil_prefix)) hge'

/-- The lower part of a stack, as long as the steps of a session do not go below it. -/
theorem suffix_afterCalls {S : List Int} {m : Machine} {calls : List Call}
    (hcalls : ∀ c ∈ calls, c = .step ∨ ∃ text, c = .supply text) (h : S <:+ m.stack)
    (hge : ∀ cs, cs <+: calls → S.length ≤ (m.afterCalls cs).stack.length) :
    S <:+ (m.afterCalls calls).stack := by
  refine suffix_afterMoves ?_ h hge
  intro c hc
  rcases hcalls c hc with rfl | ⟨text, rfl⟩ <;> rfl

end Machine
end WordMachine
