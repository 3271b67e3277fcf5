import WordMachine.Proofs.Console.Converse

/-! Hosts that run the machine in pieces. Such a host runs the machine for some steps, supplies the next
character if the machine waits for one, and starts again. Whatever the sizes of the pieces, it gets
done what the console does without a limit: it ends as the console does, and where neither of them
ends, neither gets ahead of the other for good. -/

namespace WordMachine.Console

/-- What a round of the host comes to. -/
inductive Round where
  | goes (m : Machine) (feed : Feed)
  | ends (o : Outcome)
  deriving DecidableEq

/-- A round of the host. It runs the machine for at most `limit` steps, and if the machine waits for a
character then, supplies it with the next one. -/
def round (limit : Nat) (m : Machine) (feed : Feed) : Round :=
  match m.run limit with
  | (.error why, m) => .ends ⟨.failed why, m, feed⟩
  | (.ok _, m) =>
    match m.status with
    | .halted _ => .ends ⟨.halted, m, feed⟩
    | .awaiting _ =>
      match feed.next? with
      | none => .ends ⟨.endOfInput, m, feed⟩
      | some (c, feed) =>
        match m.supply (String.singleton c) with
        | .ok m => .goes m feed
        | .error why => .ends ⟨.refused why, m, feed⟩
    | .ready | .running => .goes m feed

/-- A host that goes on round after round, each with a limit of its own. -/
def rounds : List Nat → Machine → Feed → Round
  | [], m, feed => .goes m feed
  | limit :: limits, m, feed =>
    match round limit m feed with
    | .goes m feed => rounds limits m feed
    | .ends o => .ends o

variable {m m' : Machine} {feed feed' : Feed} {n k : Nat} {limits : List Nat} {es : List Event}
  {s : Moment} {o : Outcome} {words : List Int}

/-! ### One round -/

/-- The steps of a run, as turns. It leaves steps over only where the machine cannot be stepped. -/
theorem proceeds_of_run {left : Nat} (h : m.run k = (.ok left, m')) (n : Nat) (feed : Feed) :
    (m'.isActive = true → left = 0) ∧ ∃ es n', es.length + left = k ∧
      Proceeds none ⟨n, m, feed⟩ es ⟨n', m', feed⟩ := by
  induction k generalizing m n with
  | zero =>
    cases h
    exact ⟨fun _ => rfl, [], n, rfl, .rests _⟩
  | succ k ih =>
    rcases m.run_cases with hactive | ⟨op, m₁, hstep⟩ | ⟨hactive, why, m₁, hstep⟩
    · rw [Machine.run_of_not_isActive hactive] at h
      cases h
      exact ⟨by simp [hactive], [], n, Nat.zero_add _, .rests _⟩
    · rw [Machine.run_succ_of_step hstep] at h
      obtain ⟨hleft, es, n', hlength, hrun⟩ := ih h (n + 1)
      refine ⟨hleft, .executed op :: es, n', ?_, .goes (turn_of_step trivial hstep) hrun⟩
      rw [List.length_cons, Nat.add_right_comm, hlength]
    · rw [Machine.run_succ_of_fails hactive hstep] at h
      cases h

/-- The steps of a run that fails, as turns. -/
theorem concludes_of_run {why : StepError} (h : m.run k = (.error why, m')) (n : Nat) (feed : Feed) :
    ∃ es, Concludes none ⟨n, m, feed⟩ es ⟨.failed why, m', feed⟩ := by
  induction k generalizing m n with
  | zero => cases h
  | succ k ih =>
    rcases m.run_cases with hactive | ⟨op, m₁, hstep⟩ | ⟨hactive, why', m₁, hstep⟩
    · rw [Machine.run_of_not_isActive hactive] at h
      cases h
    · rw [Machine.run_succ_of_step hstep] at h
      obtain ⟨es, hrun⟩ := ih h (n + 1)
      exact ⟨.executed op :: es, .goes (turn_of_step trivial hstep) hrun⟩
    · rw [Machine.run_succ_of_fails hactive hstep] at h
      cases h
      exact ⟨[.failed why], .ends (turn_of_fails hactive trivial hstep)⟩

/-- Behind its run the host takes the turn of the console, unless the machine can still be stepped. -/
theorem round_of_run {left : Nat} (h : m.run k = (.ok left, m')) (n : Nat) (feed : Feed) :
    round k m feed = if m'.isActive then .goes m' feed
      else match (⟨n, m', feed⟩ : Moment).turn none with
        | .goes _ s => .goes s.machine s.feed
        | .ends _ o => .ends o := by
  unfold round Machine.isActive Moment.turn
  rw [h]
  cases hs : m'.status with
  | ready | running => simp only [hs, if_true]
  | halted => simp [hs, Moment.rest]
  | awaiting =>
    simp only [hs, Bool.false_eq_true, if_false]
    cases feed.next? with
    | none => rfl
    | some next => cases hsupply : m'.supply (String.singleton next.1) <;> simp [hsupply]

theorem concludes_of_round (h : round k m feed = .ends o) (n : Nat) :
    ∃ es, Concludes none ⟨n, m, feed⟩ es o := by
  rcases hrun : m.run k with ⟨why | left, m₁⟩
  · simp only [round, hrun] at h
    cases h
    exact concludes_of_run hrun n feed
  · obtain ⟨-, es, n', -, hproceeds⟩ := proceeds_of_run hrun n feed
    rw [round_of_run hrun n'] at h
    split at h
    · cases h
    · split at h
      · cases h
      · rename_i hturn
        cases h
        exact ⟨_, .after hproceeds (.ends hturn)⟩

theorem proceeds_of_round (hk : 0 < k) (h : round k m feed = .goes m' feed') (n : Nat) :
    ∃ es n', 0 < es.length ∧ Proceeds none ⟨n, m, feed⟩ es ⟨n', m', feed'⟩ := by
  rcases hrun : m.run k with ⟨why | left, m₁⟩
  · simp only [round, hrun] at h
    cases h
  · obtain ⟨hleft, es, n', hlength, hproceeds⟩ := proceeds_of_run hrun n feed
    rw [round_of_run hrun n'] at h
    split at h
    · rename_i hactive
      cases h
      rw [hleft hactive, Nat.add_zero] at hlength
      exact ⟨es, n', hlength ▸ hk, hproceeds⟩
    · split at h
      · rename_i e s hturn
        cases h
        exact ⟨es ++ [e], s.executed, by simp, hproceeds.append (.goes hturn (.rests s))⟩
      · cases h

/-! ### All rounds -/

theorem proceeds_of_rounds (hpos : ∀ k ∈ limits, 0 < k) (h : rounds limits m feed = .goes m' feed')
    (n : Nat) :
    ∃ es n', limits.length ≤ es.length ∧ Proceeds none ⟨n, m, feed⟩ es ⟨n', m', feed'⟩ := by
  induction limits generalizing m feed n with
  | nil =>
    cases h
    exact ⟨[], n, Nat.le_refl _, .rests _⟩
  | cons k limits ih =>
    rw [List.forall_mem_cons] at hpos
    match hround : round k m feed with
    | .ends o =>
      simp only [rounds, hround] at h
      cases h
    | .goes m₁ feed₁ =>
      simp only [rounds, hround] at h
      obtain ⟨es, n₁, hlength, hproceeds⟩ := proceeds_of_round hpos.1 hround n
      obtain ⟨es', n', hlength', hproceeds'⟩ := ih hpos.2 h n₁
      refine ⟨es ++ es', n', ?_, hproceeds.append hproceeds'⟩
      rw [List.length_cons, List.length_append]
      omega

theorem concludes_of_rounds (hpos : ∀ k ∈ limits, 0 < k) (h : rounds limits m feed = .ends o)
    (n : Nat) : ∃ es, Concludes none ⟨n, m, feed⟩ es o := by
  induction limits generalizing m feed n with
  | nil => cases h
  | cons k limits ih =>
    rw [List.forall_mem_cons] at hpos
    match hround : round k m feed with
    | .ends o' =>
      simp only [rounds, hround] at h
      cases h
      exact concludes_of_round hround n
    | .goes m₁ feed₁ =>
      simp only [rounds, hround] at h
      obtain ⟨es, n₁, -, hproceeds⟩ := proceeds_of_round hpos.1 hround n
      obtain ⟨es', hconcludes⟩ := ih hpos.2 h n₁
      exact ⟨es ++ es', .after hproceeds hconcludes⟩

/-- Within as many rounds as the run of the console has turns, the host ends as the console does. -/
theorem rounds_of_concludes (hpos : ∀ k ∈ limits, 0 < k) (h : Concludes none ⟨n, m, feed⟩ es o)
    (hlength : es.length < limits.length) : rounds limits m feed = .ends o := by
  match hrounds : rounds limits m feed with
  | .goes m' feed' =>
    -- the host would have taken more turns than there are
    obtain ⟨es', n', hle, hproceeds⟩ := proceeds_of_rounds hpos hrounds n
    obtain ⟨t, rfl, -⟩ := h.rest hproceeds
    rw [List.length_append] at hlength
    omega
  | .ends o' =>
    obtain ⟨es', hconcludes⟩ := concludes_of_rounds hpos hrounds n
    rw [(h.unique hconcludes).2]

/-- A program, loaded, and so many rounds of a host with these limits. -/
def hosted (words : List Int) (limits : Nat → Nat) (feed : Feed) (i : Nat) :
    Except LoadError Round :=
  (Machine.load words).map (rounds ((List.range i).map limits) · feed)

/-- How the rounds of a host stand to the run of the console without a limit. -/
structure Hosts (words : List Int) (limits : Nat → Nat) (feed : Feed) : Prop where
  unloaded : ∀ i why, hosted words limits feed i = .error why ↔
    Execution words none feed [] (.error why)
  outcome : ∀ o, (∃ i, hosted words limits feed i = .ok (.ends o)) ↔
    ∃ es, Execution words none feed es (.ok o)
  console : ∀ o, (∃ i, hosted words limits feed i = .ok (.ends o)) ↔
    ∃ budget, (Machine.load words).map (·.converse budget feed) = .ok o ∧ o.ending ≠ .outOfSteps
  /-- Each round has got somewhere on the way of the console. -/
  moments : ∀ i m feed', hosted words limits feed i = .ok (.goes m feed') →
    ∃ es, i ≤ es.length ∧ Reaches words none feed es ⟨instructions es, m, feed'⟩
  /-- Wherever the console gets, the host has got there too after as many rounds. -/
  output : ∀ es s, Reaches words none feed es s → ∀ i, es.length < i →
    (∃ m feed', hosted words limits feed i = .ok (.goes m feed') ∧
      s.machine.output <+: m.output) ∨
    ∃ o, hosted words limits feed i = .ok (.ends o) ∧ s.machine.output <+: o.machine.output

section Hosted
variable {limits : Nat → Nat} {i : Nat}

theorem hosted_eq_ok {r : Round} :
    hosted words limits feed i = .ok r ↔
      ∃ m, Machine.load words = .ok m ∧ rounds ((List.range i).map limits) m feed = r := by
  unfold hosted
  cases Machine.load words <;> simp [Except.map]

theorem hosted_eq_error {why : LoadError} :
    hosted words limits feed i = .error why ↔ Execution words none feed [] (.error why) := by
  unfold hosted
  constructor
  · intro h
    cases hload : Machine.load words with
    | error e =>
      rw [hload] at h
      cases h
      exact .unloaded hload
    | ok m =>
      rw [hload] at h
      cases h
  · rintro ⟨hload⟩
    rw [hload]
    rfl

variable (hpos : ∀ i, 0 < limits i)
include hpos

theorem pos_of_mem (i : Nat) : ∀ k ∈ (List.range i).map limits, 0 < k := by
  intro k hk
  obtain ⟨j, -, rfl⟩ := List.mem_map.1 hk
  exact hpos j

theorem exists_hosted_iff :
    (∃ i, hosted words limits feed i = .ok (.ends o)) ↔
      ∃ es, Execution words none feed es (.ok o) := by
  constructor
  · rintro ⟨i, h⟩
    obtain ⟨m, hload, hrounds⟩ := hosted_eq_ok.1 h
    obtain ⟨es, hrun⟩ := concludes_of_rounds (pos_of_mem hpos i) hrounds 0
    exact ⟨es, .concluded hload hrun⟩
  · rintro ⟨es, h⟩
    obtain ⟨m, hload, hrun⟩ := h.loaded
    have hrounds := rounds_of_concludes (pos_of_mem hpos (es.length + 1)) hrun (by simp)
    exact ⟨es.length + 1, hosted_eq_ok.2 ⟨m, hload, hrounds⟩⟩

theorem reaches_of_hosted (h : hosted words limits feed i = .ok (.goes m feed')) :
    ∃ es, i ≤ es.length ∧ Reaches words none feed es ⟨instructions es, m, feed'⟩ := by
  obtain ⟨m₀, hload, hrounds⟩ := hosted_eq_ok.1 h
  obtain ⟨es, n', hlength, hproceeds⟩ := proceeds_of_rounds (pos_of_mem hpos i) hrounds 0
  obtain rfl := hproceeds.executed_eq
  rw [Nat.zero_add] at hproceeds
  exact ⟨es, by simpa using hlength, m₀, hload, hproceeds⟩

theorem output_of_reaches (h : Reaches words none feed es s) (hi : es.length < i) :
    (∃ m feed', hosted words limits feed i = .ok (.goes m feed') ∧ s.machine.output <+: m.output) ∨
      ∃ o, hosted words limits feed i = .ok (.ends o) ∧ s.machine.output <+: o.machine.output := by
  obtain ⟨m, hload, hproceeds⟩ := h
  match hrounds : rounds ((List.range i).map limits) m feed with
  | .goes m' feed' =>
    obtain ⟨es', n', hlength, hproceeds'⟩ := proceeds_of_rounds (pos_of_mem hpos i) hrounds 0
    refine .inl ⟨m', feed', hosted_eq_ok.2 ⟨m, hload, hrounds⟩, ?_⟩
    rcases hproceeds.comparable hproceeds' with ⟨t, -, ht⟩ | ⟨t, rfl, -⟩
    · exact ht.output
    · rw [List.length_map, List.length_range] at hlength
      rw [List.length_append] at hi
      omega
  | .ends o =>
    obtain ⟨es', hconcludes⟩ := concludes_of_rounds (pos_of_mem hpos i) hrounds 0
    obtain ⟨t, -, ht⟩ := hconcludes.rest hproceeds
    exact .inr ⟨o, hosted_eq_ok.2 ⟨m, hload, hrounds⟩, ht.output⟩

end Hosted

/-- A run of more steps goes on where the run of fewer has stopped, or has failed with it. A run
without a limit is the run that comes to rest or fails, if there is one. And whatever positive limits
a host sets for its rounds, it ends as the console does, with the same machine, and otherwise keeps up
with it. -/
theorem pieces_make_one_run :
    (∀ (m : Machine) (k n : Nat), m.call (.run (k + n)) =
      match m.call (.run k) with
      | (.ok _, m') => m'.call (.run n)
      | (.error e, m') => (.error e, m')) ∧
    (∀ (m m' : Machine) (n : Nat) (answer : Except CallError Answer),
      m.call (.run n) = (answer, m') → (m'.isActive = false ∨ ∃ e, answer = .error e) →
      ∀ answer' m'', m.RunsOut answer' m'' ↔ answer' = answer ∧ m'' = m') ∧
    ∀ words feed (limits : Nat → Nat), (∀ i, 0 < limits i) → Hosts words limits feed := by
  refine ⟨Machine.call_run_add, ?_, ?_⟩
  · intro m m' n answer hcall hrest answer' m''
    have hout : m.RunsOut answer m' := Machine.runsOut_of_call hcall hrest
    refine ⟨hout.unique, ?_⟩
    rintro ⟨rfl, rfl⟩
    exact hout
  · intro words feed limits hpos
    refine ⟨fun i why => hosted_eq_error, fun o => exists_hosted_iff hpos, ?_, ?_, ?_⟩
    · intro o
      rw [exists_hosted_iff hpos, execution_none_iff]
    · intro i m feed' h
      exact reaches_of_hosted hpos h
    · intro es s h i hi
      exact output_of_reaches hpos h hi

/-- A host that takes single steps. -/
theorem pieces_make_one_run_of_reply :
    (∀ i : Nat, 0 < (fun _ => 1) i) ∧ ∃ i m,
      hosted reply (fun _ => 1) ⟨['!'], []⟩ i = .ok (.ends ⟨.halted, m, ⟨[], []⟩⟩) := by
  have hpos (i : Nat) : 0 < (fun _ => 1) i := Nat.one_pos
  obtain ⟨m, hrun⟩ := @reply_runs ⟨['!'], []⟩ ⟨[], []⟩ '!' rfl (by decide)
  have hhosts := pieces_make_one_run.2.2 reply ⟨['!'], []⟩ (fun _ => 1) hpos
  obtain ⟨i, h⟩ := (hhosts.outcome _).2 ⟨_, hrun⟩
  exact ⟨hpos, i, m, h⟩

end WordMachine.Console
