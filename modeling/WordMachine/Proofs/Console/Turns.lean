import Mathlib.Algebra.GroupWithZero.Nat
import WordMachine.Machine.Console
import WordMachine.Proofs.Machine.Running

/-! The console turn by turn. At a turn the machine is handed the next character, if it waits for
one, or executes an instruction, if the limit allows one more. A run is turns up to the moment at
which there is none to take, if there is such a moment. The machine, the feed and the limit settle
everything that happens, and a limit that does not cut the run off does not matter. -/

namespace WordMachine

namespace Console

/-- What happens at the console. -/
inductive Event where
  | executed (op : Opcode)
  | failed (why : StepError)
  | handed (c : Char)
  deriving DecidableEq, Repr

/-- the instructions that an event counts for -/
def Event.cost : Event → Nat
  | .executed _ | .failed _ => 1
  | .handed _ => 0

/-- the characters that an event takes from the feed -/
def Event.taken : Event → List Char
  | .executed _ | .failed _ => []
  | .handed c => [c]

/-- the number of instructions, the one that fails among them -/
def instructions (es : List Event) : Nat := (es.map Event.cost).sum

/-- the characters taken from the feed, in order -/
def characters (es : List Event) : List Char := es.flatMap Event.taken

section Events
variable (e : Event) (es : List Event)

@[simp]
theorem instructions_nil : instructions [] = 0 := rfl

@[simp]
theorem instructions_cons : instructions (e :: es) = e.cost + instructions es := by
  simp [instructions]

@[simp]
theorem characters_nil : characters [] = [] := rfl

@[simp]
theorem characters_cons : characters (e :: es) = e.taken ++ characters es := List.flatMap_cons

end Events

/-- Whether the limit allows one more instruction after `n` of them. -/
def Allows : Option Int → Nat → Prop
  | none, _ => True
  | some limit, n => n < limit

theorem allows_some {limit : Int} {n : Nat} : Allows (some limit) n ↔ n < limit := Iff.rfl

instance (limit : Option Int) (n : Nat) : Decidable (Allows limit n) :=
  match limit with
  | none => .isTrue trivial
  | some limit => inferInstanceAs (Decidable ((n : Int) < limit))

structure Moment where
  /-- the number of instructions executed so far -/
  executed : Nat
  machine : Machine
  feed : Feed
  deriving DecidableEq

/-- The outcome of a run that comes to rest at this moment. -/
def Moment.rest (s : Moment) (ending : Ending) : Outcome := ⟨ending, s.machine, s.feed⟩

inductive Turn where
  /-- something happens, and the run goes on -/
  | goes (e : Event) (next : Moment)
  /-- the run ends, after what still happens -/
  | ends (last : List Event) (outcome : Outcome)
  deriving DecidableEq

/-- The turn at a moment. A stop is seen first, then a wait for a character, then the limit. -/
def Moment.turn (limit : Option Int) (s : Moment) : Turn :=
  match s.machine.status with
  | .halted _ => .ends [] (s.rest .halted)
  | .awaiting _ =>
    match s.feed.next? with
    | none => .ends [] (s.rest .endOfInput)
    | some (c, feed) =>
      match s.machine.supply (String.singleton c) with
      | .ok m => .goes (.handed c) ⟨s.executed, m, feed⟩
      | .error why => .ends [.handed c] ⟨.refused why, s.machine, feed⟩
  | .ready | .running =>
    if Allows limit s.executed then
      match s.machine.step with
      | (.ok op, m) => .goes (.executed op) ⟨s.executed + 1, m, s.feed⟩
      | (.error why, m) => .ends [.failed why] ⟨.failed why, m, s.feed⟩
    else .ends [] (s.rest .outOfSteps)

/-- What happens from one moment to another. -/
inductive Proceeds (limit : Option Int) : Moment → List Event → Moment → Prop
  | rests (s : Moment) : Proceeds limit s [] s
  | goes {s s' s'' : Moment} {e : Event} {es : List Event} : s.turn limit = .goes e s' →
      Proceeds limit s' es s'' → Proceeds limit s (e :: es) s''

/-- What happens from a moment to the end of the run, and the outcome. -/
inductive Concludes (limit : Option Int) : Moment → List Event → Outcome → Prop
  | ends {s : Moment} {es : List Event} {o : Outcome} : s.turn limit = .ends es o →
      Concludes limit s es o
  | goes {s s' : Moment} {e : Event} {es : List Event} {o : Outcome} : s.turn limit = .goes e s' →
      Concludes limit s' es o → Concludes limit s (e :: es) o

/-- A program is loaded and run: what happens, and the outcome. -/
inductive Execution (words : List Int) (limit : Option Int) (feed : Feed) :
    List Event → Except LoadError Outcome → Prop
  | unloaded {why : LoadError} : Machine.load words = .error why →
      Execution words limit feed [] (.error why)
  | concluded {m : Machine} {es : List Event} {o : Outcome} : Machine.load words = .ok m →
      Concludes limit ⟨0, m, feed⟩ es o → Execution words limit feed es (.ok o)

/-- A moment of the run of a program, and what happens up to it. -/
def Reaches (words : List Int) (limit : Option Int) (feed : Feed) (es : List Event) (s : Moment) :
    Prop :=
  ∃ m, Machine.load words = .ok m ∧ Proceeds limit ⟨0, m, feed⟩ es s

variable {limit limit' : Option Int} {s s' s₁ s₂ : Moment} {e : Event} {es es' : List Event}
  {o o' : Outcome}

/-! ### One turn -/

/-- How a turn comes about. -/
inductive Turned (limit : Option Int) (s : Moment) : Turn → Prop
  | halted : s.machine.isHalted = true → Turned limit s (.ends [] (s.rest .halted))
  | endOfInput (dest : Register) : s.machine.status = .awaiting dest → s.feed.next? = none →
      Turned limit s (.ends [] (s.rest .endOfInput))
  | refused (dest : Register) (c : Char) (feed : Feed) (why : Refusal) :
      s.machine.status = .awaiting dest → s.feed.next? = some (c, feed) →
      s.machine.supply (String.singleton c) = .error why →
      Turned limit s (.ends [.handed c] ⟨.refused why, s.machine, feed⟩)
  | handed (dest : Register) (c : Char) (feed : Feed) (m : Machine) :
      s.machine.status = .awaiting dest → s.feed.next? = some (c, feed) →
      s.machine.supply (String.singleton c) = .ok m →
      Turned limit s (.goes (.handed c) ⟨s.executed, m, feed⟩)
  | executed (op : Opcode) (m : Machine) : s.machine.isActive = true → Allows limit s.executed →
      s.machine.step = (.ok op, m) → Turned limit s (.goes (.executed op) ⟨s.executed + 1, m, s.feed⟩)
  | failed (why : StepError) (m : Machine) : s.machine.isActive = true → Allows limit s.executed →
      s.machine.step = (.error why, m) →
      Turned limit s (.ends [.failed why] ⟨.failed why, m, s.feed⟩)
  | outOfSteps : s.machine.isActive = true → ¬ Allows limit s.executed →
      Turned limit s (.ends [] (s.rest .outOfSteps))

theorem turn_of_halted (h : s.machine.isHalted = true) : s.turn limit = .ends [] (s.rest .halted) := by
  unfold Machine.isHalted at h
  split at h
  · rename_i hs
    simp only [Moment.turn, hs]
  · cases h

theorem turn_of_awaiting {dest : Register} (h : s.machine.status = .awaiting dest) :
    s.turn limit = match s.feed.next? with
      | none => .ends [] (s.rest .endOfInput)
      | some (c, feed) =>
        match s.machine.supply (String.singleton c) with
        | .ok m => .goes (.handed c) ⟨s.executed, m, feed⟩
        | .error why => .ends [.handed c] ⟨.refused why, s.machine, feed⟩ := by
  simp only [Moment.turn, h]

theorem turn_of_isActive (h : s.machine.isActive = true) :
    s.turn limit = if Allows limit s.executed then
      match s.machine.step with
      | (.ok op, m) => .goes (.executed op) ⟨s.executed + 1, m, s.feed⟩
      | (.error why, m) => .ends [.failed why] ⟨.failed why, m, s.feed⟩
      else .ends [] (s.rest .outOfSteps) := by
  rcases Machine.isActive_iff.1 h with hs | hs <;> simp only [Moment.turn, hs]

theorem turn_of_step {op : Opcode} {m : Machine} (hallows : Allows limit s.executed)
    (hstep : s.machine.step = (.ok op, m)) :
    s.turn limit = .goes (.executed op) ⟨s.executed + 1, m, s.feed⟩ := by
  simp only [turn_of_isActive (Machine.step_eq_ok hstep).1, if_pos hallows, hstep]

theorem turn_of_fails {why : StepError} {m : Machine} (hactive : s.machine.isActive = true)
    (hallows : Allows limit s.executed) (hstep : s.machine.step = (.error why, m)) :
    s.turn limit = .ends [.failed why] ⟨.failed why, m, s.feed⟩ := by
  simp only [turn_of_isActive hactive, if_pos hallows, hstep]

theorem turn_of_supply {c : Char} {feed : Feed} {m : Machine} (hnext : s.feed.next? = some (c, feed))
    (hsupply : s.machine.supply (String.singleton c) = .ok m) :
    s.turn limit = .goes (.handed c) ⟨s.executed, m, feed⟩ := by
  obtain ⟨dest, -, hs, -⟩ := Machine.supply_eq_ok hsupply
  simp only [turn_of_awaiting hs, hnext, hsupply]

theorem turn_cases (limit : Option Int) (s : Moment) : Turned limit s (s.turn limit) := by
  rcases s.machine.status_cases with hactive | ⟨dest, hs⟩ | hhalted
  · rw [turn_of_isActive hactive]
    by_cases hallows : Allows limit s.executed
    · rw [if_pos hallows]
      match hstep : s.machine.step with
      | (.ok op, m) => exact .executed op m hactive hallows hstep
      | (.error why, m) => exact .failed why m hactive hallows hstep
    · rw [if_neg hallows]
      exact .outOfSteps hactive hallows
  · match hnext : s.feed.next? with
    | none =>
      simp only [turn_of_awaiting hs, hnext]
      exact .endOfInput dest hs hnext
    | some (c, feed) =>
      match hsupply : s.machine.supply (String.singleton c) with
      | .ok m =>
        simp only [turn_of_awaiting hs, hnext, hsupply]
        exact .handed dest c feed m hs hnext hsupply
      | .error why =>
        simp only [turn_of_awaiting hs, hnext, hsupply]
        exact .refused dest c feed why hs hnext hsupply
  · rw [turn_of_halted hhalted]
    exact .halted hhalted

theorem turned_of_eq {t : Turn} (h : s.turn limit = t) : Turned limit s t :=
  h ▸ turn_cases limit s

/-- A limit matters only to a machine that can be stepped. -/
theorem turn_congr
    (h : s.machine.isActive = true → (Allows limit s.executed ↔ Allows limit' s.executed)) :
    s.turn limit = s.turn limit' := by
  rcases s.machine.status_cases with hactive | ⟨dest, hs⟩ | hhalted
  · simp only [turn_of_isActive hactive, h hactive]
  · rw [turn_of_awaiting hs, turn_of_awaiting hs]
  · rw [turn_of_halted hhalted, turn_of_halted hhalted]

theorem allows_of_goes (h : s.turn limit = .goes e s') (hactive : s.machine.isActive = true) :
    Allows limit s.executed ∧ e.cost = 1 := by
  rw [turn_of_isActive hactive] at h
  split at h
  · rename_i hallows
    split at h <;> cases h
    exact ⟨hallows, rfl⟩
  · cases h

theorem allows_of_ends (h : s.turn limit = .ends es o) (hcut : o.ending ≠ .outOfSteps)
    (hactive : s.machine.isActive = true) : Allows limit s.executed ∧ instructions es = 1 := by
  rw [turn_of_isActive hactive] at h
  split at h
  · rename_i hallows
    split at h <;> cases h
    exact ⟨hallows, rfl⟩
  · cases h
    exact absurd rfl hcut

theorem executed_of_goes (h : s.turn limit = .goes e s') : s'.executed = s.executed + e.cost := by
  cases turned_of_eq h <;> rfl

/-! ### What is sent out -/

theorem output_of_goes (h : s.turn limit = .goes e s') : s.machine.output <+: s'.machine.output := by
  cases turned_of_eq h with
  | handed _ _ _ _ _ _ hsupply => exact (Machine.output_of_supply hsupply) ▸ List.prefix_rfl
  | executed _ _ _ _ hstep => exact Machine.output_of_step hstep

theorem output_of_ends (h : s.turn limit = .ends es o) : s.machine.output <+: o.machine.output := by
  cases turned_of_eq h with
  | failed _ _ _ _ hstep => exact Machine.output_of_step hstep
  | halted | endOfInput | refused | outOfSteps => exact List.prefix_rfl

/-! ### Runs -/

namespace Proceeds

theorem append (h : Proceeds limit s es s₁) (h' : Proceeds limit s₁ es' s₂) :
    Proceeds limit s (es ++ es') s₂ := by
  induction h with
  | rests => exact h'
  | goes hgoes _ ih => exact .goes hgoes (ih h')

theorem executed_eq (h : Proceeds limit s es s') : s'.executed = s.executed + instructions es := by
  induction h with
  | rests => rfl
  | goes hgoes _ ih => rw [ih, executed_of_goes hgoes, instructions_cons, Nat.add_assoc]

theorem output (h : Proceeds limit s es s') : s.machine.output <+: s'.machine.output := by
  induction h with
  | rests => exact List.prefix_rfl
  | goes hgoes _ ih => exact (output_of_goes hgoes).trans ih

theorem mono (h : Proceeds limit s es s') (hlimit : ∀ n, Allows limit n → Allows limit' n) :
    Proceeds limit' s es s' := by
  induction h with
  | rests => exact .rests _
  | goes hgoes _ ih =>
    refine .goes (hgoes ▸ turn_congr fun hactive => ?_) ih
    have hallows := (allows_of_goes hgoes hactive).1
    exact iff_of_true (hlimit _ hallows) hallows

theorem of_goes (hgoes : s.turn limit = .goes e s') (h : Proceeds limit s es s₁) :
    es = [] ∧ s₁ = s ∨ ∃ t, es = e :: t ∧ Proceeds limit s' t s₁ := by
  induction h with
  | rests => exact .inl ⟨rfl, rfl⟩
  | goes hgoes' hrest =>
    rw [hgoes] at hgoes'
    cases hgoes'
    exact .inr ⟨_, rfl, hrest⟩

/-- Of two moments of a run one comes first. -/
theorem comparable (h : Proceeds limit s es s₁) (h' : Proceeds limit s es' s₂) :
    (∃ t, es' = es ++ t ∧ Proceeds limit s₁ t s₂) ∨ ∃ t, es = es' ++ t ∧ Proceeds limit s₂ t s₁ := by
  -- both take the same turn first, unless one of them takes none
  induction h generalizing es' with
  | rests => exact .inl ⟨es', rfl, h'⟩
  | goes hgoes hrest ih =>
    rcases of_goes hgoes h' with ⟨rfl, rfl⟩ | ⟨t, rfl, ht⟩
    · exact .inr ⟨_, rfl, .goes hgoes hrest⟩
    · rcases ih ht with ⟨u, rfl, hu⟩ | ⟨u, rfl, hu⟩
      · exact .inl ⟨u, rfl, hu⟩
      · exact .inr ⟨u, rfl, hu⟩

end Proceeds

namespace Concludes

theorem after (h : Proceeds limit s es s') (h' : Concludes limit s' es' o) :
    Concludes limit s (es ++ es') o := by
  induction h with
  | rests => exact h'
  | goes hgoes _ ih => exact .goes hgoes (ih h')

theorem of_goes (hgoes : s.turn limit = .goes e s') (h : Concludes limit s es o) :
    ∃ t, es = e :: t ∧ Concludes limit s' t o := by
  induction h with
  | ends hends =>
    rw [hgoes] at hends
    cases hends
  | goes hgoes' hrest =>
    rw [hgoes] at hgoes'
    cases hgoes'
    exact ⟨_, rfl, hrest⟩

theorem of_ends (hends : s.turn limit = .ends es o) (h : Concludes limit s es' o') :
    es' = es ∧ o' = o := by
  induction h with
  | ends hends' =>
    rw [hends] at hends'
    cases hends'
    exact ⟨rfl, rfl⟩
  | goes hgoes =>
    rw [hends] at hgoes
    cases hgoes

theorem unique (h : Concludes limit s es o) (h' : Concludes limit s es' o') :
    es' = es ∧ o' = o := by
  induction h generalizing es' with
  | ends hends => exact of_ends hends h'
  | goes hgoes _ ih =>
    obtain ⟨t, rfl, ht⟩ := of_goes hgoes h'
    obtain ⟨rfl, rfl⟩ := ih ht
    exact ⟨rfl, rfl⟩

/-- A run that ends does so from each of its moments. -/
theorem rest (h : Proceeds limit s es s') (h' : Concludes limit s es' o) :
    ∃ t, es' = es ++ t ∧ Concludes limit s' t o := by
  induction h generalizing es' with
  | rests => exact ⟨es', rfl, h'⟩
  | goes hgoes _ ih =>
    obtain ⟨t, rfl, ht⟩ := of_goes hgoes h'
    obtain ⟨u, rfl, hu⟩ := ih ht
    exact ⟨u, rfl, hu⟩

theorem output (h : Concludes limit s es o) : s.machine.output <+: o.machine.output := by
  induction h with
  | ends hends => exact output_of_ends hends
  | goes hgoes _ ih => exact (output_of_goes hgoes).trans ih

/-- A run that is not cut off is the same with a limit that allows more. -/
theorem mono (h : Concludes limit s es o) (hcut : o.ending ≠ .outOfSteps)
    (hlimit : ∀ n, Allows limit n → Allows limit' n) : Concludes limit' s es o := by
  induction h with
  | ends hends =>
    refine .ends (hends ▸ turn_congr fun hactive => ?_)
    have hallows := (allows_of_ends hends hcut hactive).1
    exact iff_of_true (hlimit _ hallows) hallows
  | goes hgoes _ ih =>
    refine .goes (hgoes ▸ turn_congr fun hactive => ?_) (ih hcut)
    have hallows := (allows_of_goes hgoes hactive).1
    exact iff_of_true (hlimit _ hallows) hallows

/-- It is the same with each limit that allows its instructions. -/
theorem within {N : Int} (h : Concludes limit s es o) (hcut : o.ending ≠ .outOfSteps)
    (hN : s.executed + instructions es ≤ N) : Concludes (some N) s es o := by
  induction h with
  | ends hends =>
    refine .ends (hends ▸ turn_congr fun hactive => ?_)
    obtain ⟨hallows, hcost⟩ := allows_of_ends hends hcut hactive
    refine iff_of_true (allows_some.2 ?_) hallows
    omega
  | goes hgoes _ ih =>
    have hexecuted := executed_of_goes hgoes
    rw [instructions_cons] at hN
    refine .goes (hgoes ▸ turn_congr fun hactive => ?_) (ih hcut (by omega))
    obtain ⟨hallows, hcost⟩ := allows_of_goes hgoes hactive
    refine iff_of_true (allows_some.2 ?_) hallows
    omega

/-- A run that is cut off stops at a moment at which the machine could be stepped and the limit does
not allow it. -/
theorem of_outOfSteps (h : Concludes limit s es o) (hcut : o.ending = .outOfSteps) :
    o.machine.isActive = true ∧ ¬ Allows limit (s.executed + instructions es) ∧
      Proceeds limit s es ⟨s.executed + instructions es, o.machine, o.feed⟩ := by
  induction h with
  | @ends s _ _ hends =>
    cases turned_of_eq hends with
    | outOfSteps hactive hallows => exact ⟨hactive, hallows, .rests s⟩
    | halted | endOfInput | refused | failed => cases hcut
  | goes hgoes _ ih =>
    obtain ⟨hactive, hallows, hrun⟩ := ih hcut
    rw [executed_of_goes hgoes, Nat.add_assoc, ← instructions_cons] at hallows hrun
    exact ⟨hactive, hallows, .goes hgoes hrun⟩

end Concludes

section Programs
variable {words : List Int} {feed : Feed} {m : Machine}

theorem Execution.loaded (h : Execution words limit feed es (.ok o)) :
    ∃ m, Machine.load words = .ok m ∧ Concludes limit ⟨0, m, feed⟩ es o := by
  cases h with
  | concluded hload hrun => exact ⟨_, hload, hrun⟩

theorem Execution.concludes (h : Execution words limit feed es (.ok o))
    (hload : Machine.load words = .ok m) : Concludes limit ⟨0, m, feed⟩ es o := by
  obtain ⟨m', hload', hrun⟩ := h.loaded
  rw [hload] at hload'
  cases hload'
  exact hrun

theorem Reaches.proceeds (h : Reaches words limit feed es s) (hload : Machine.load words = .ok m) :
    Proceeds limit ⟨0, m, feed⟩ es s := by
  obtain ⟨m', hload', hrun⟩ := h
  rw [hload] at hload'
  cases hload'
  exact hrun

theorem Execution.unique {r r' : Except LoadError Outcome}
    (h : Execution words limit feed es r) (h' : Execution words limit feed es' r') :
    es' = es ∧ r' = r := by
  cases h with
  | unloaded hload =>
    rcases h' with hload' | ⟨hload', -⟩ <;> rw [hload] at hload' <;> cases hload'
    exact ⟨rfl, rfl⟩
  | concluded hload hrun =>
    rcases h' with hload' | ⟨hload', hrun'⟩ <;> rw [hload] at hload' <;> cases hload'
    obtain ⟨rfl, rfl⟩ := hrun.unique hrun'
    exact ⟨rfl, rfl⟩

/-- The run of a program: it has these events and this outcome, and no others. -/
def Runs (words : List Int) (limit : Option Int) (feed : Feed) (es : List Event)
    (r : Except LoadError Outcome) : Prop :=
  ∀ es' r', Execution words limit feed es' r' ↔ es' = es ∧ r' = r

theorem Execution.runs {r : Except LoadError Outcome} (h : Execution words limit feed es r) :
    Runs words limit feed es r := by
  refine fun es' r' => ⟨h.unique, ?_⟩
  rintro ⟨rfl, rfl⟩
  exact h

end Programs

end Console
end WordMachine
