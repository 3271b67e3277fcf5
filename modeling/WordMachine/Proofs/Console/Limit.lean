import WordMachine.Proofs.Console.Converse

/-! The limit on instructions. A run that it does not cut off is the run with any other limit that
allows as much, and with none. A run that it cuts off has executed as many instructions as it allows,
could have gone on, and is the beginning of the run with any limit that allows more. -/

namespace WordMachine.Console

/-- The limit `M` allows whatever the limit `N` does. -/
def AllowsMore (N : Int) (M : Option Int) : Prop := ∀ l, M = some l → N ≤ l

/-- The run has come to the end of its steps. -/
def CutOff (r : Except LoadError Outcome) : Prop := ∃ o, r = .ok o ∧ o.ending = .outOfSteps

variable {limit limit' M : Option Int} {N : Int} {s : Moment} {es es' : List Event} {o : Outcome}
  {words : List Int} {feed : Feed} {r : Except LoadError Outcome}

theorem AllowsMore.allows (h : AllowsMore N M) (n : Nat) (hn : Allows (some N) n) : Allows M n := by
  rw [allows_some] at hn
  match M, h with
  | none, _ => exact trivial
  | some l, h => exact allows_some.2 (Int.lt_of_lt_of_le hn (h l rfl))

/-- No run has more instructions than its limit allows. -/
theorem instructions_le (h : Concludes (some N) s es o) :
    instructions es ≤ (N - s.executed).toNat := by
  induction h with
  | @ends s _ _ hends =>
    cases turned_of_eq hends with
    | failed _ _ _ hallows =>
      rw [allows_some] at hallows
      simp only [instructions_cons, instructions_nil, Event.cost]
      omega
    | halted | endOfInput | refused | outOfSteps => exact Nat.zero_le _
  | @goes s _ _ _ _ hgoes _ ih =>
    rw [instructions_cons]
    cases turned_of_eq hgoes with
    | handed => rwa [Event.cost, Nat.zero_add]
    | executed _ _ _ hallows =>
      rw [allows_some] at hallows
      simp only [Event.cost] at ih ⊢
      omega

theorem Execution.mono (h : Execution words limit feed es r) (hcut : ¬ CutOff r)
    (hlimit : ∀ n, Allows limit n → Allows limit' n) : Execution words limit' feed es r := by
  rcases h with hload | ⟨hload, hrun⟩
  · exact .unloaded hload
  · exact .concluded hload (hrun.mono (fun hending => hcut ⟨_, rfl, hending⟩) hlimit)

/-- What a run that is cut off shows of the run of the same program with the limit `M`. -/
structure Begins (words : List Int) (M : Option Int) (feed : Feed) (es : List Event) (o : Outcome) :
    Prop where
  /-- The machine has neither halted nor waits for a character. -/
  active : o.machine.isActive = true
  reached : Reaches words M feed es ⟨instructions es, o.machine, o.feed⟩
  moments : ∀ es' s, Reaches words M feed es' s →
    es' <+: es ∨ es <+: es' ∧ o.machine.output <+: s.machine.output
  outcome : ∀ es' o', Execution words M feed es' (.ok o') →
    es <+: es' ∧ o.machine.output <+: o'.machine.output

theorem begins (h : Execution words limit feed es (.ok o)) (hcut : o.ending = .outOfSteps)
    (hlimit : ∀ n, Allows limit n → Allows M n) : Begins words M feed es o := by
  obtain ⟨m, hload, hrun⟩ := h.loaded
  obtain ⟨hactive, -, hproceeds⟩ := hrun.of_outOfSteps hcut
  have hreached := hproceeds.mono hlimit
  rw [Nat.zero_add] at hreached
  refine ⟨hactive, ⟨m, hload, hreached⟩, ?_, ?_⟩
  · intro es' s h'
    rcases hreached.comparable (h'.proceeds hload) with ⟨t, rfl, ht⟩ | ⟨t, rfl, -⟩
    · exact .inr ⟨List.prefix_append _ _, ht.output⟩
    · exact .inl (List.prefix_append _ _)
  · intro es' o' h'
    obtain ⟨t, rfl, ht⟩ := (h'.concludes hload).rest hreached
    exact ⟨List.prefix_append _ _, ht.output⟩

/-- A run that is cut off has executed as many instructions as its limit allows. -/
theorem instructions_of_outOfSteps (h : Execution words (some N) feed es (.ok o))
    (hcut : o.ending = .outOfSteps) : instructions es = N.toNat := by
  obtain ⟨m, -, hrun⟩ := h.loaded
  have hle := instructions_le hrun
  have hge := (hrun.of_outOfSteps hcut).2.1
  rw [allows_some] at hge
  simp only at hle hge
  omega

/-! ### The command -/

/-- The limit is told only to a run that it cuts off. -/
theorem report_of_ne_outOfSteps (file : String) {e : Ending} (h : e ≠ .outOfSteps) :
    Cli.Ending.report file limit e = Cli.Ending.report file limit' e := by
  match e with
  | .outOfSteps => exact absurd rfl h
  | .halted | .endOfInput | .refused _ => rfl
  | .failed (.refused _) | .failed (.trapped _) | .failed (.output _) | .failed (.untold _) => rfl

theorem report_of_not_cutOff (file : String) (files : Cli.Files) (hcut : ¬ CutOff r) :
    report file limit files r = report file limit' files r := by
  match r with
  | .error e => rfl
  | .ok o =>
    have hending : o.ending ≠ .outOfSteps := fun h => hcut ⟨o, rfl, h⟩
    simp only [report, @report_of_ne_outOfSteps limit limit' file o.ending hending]

/-- A run that is not cut off is what the console finds with any limit that allows more. -/
theorem converse_of_not_cutOff (h : Execution words (some N) feed es r) (hcut : ¬ CutOff r)
    (hM : AllowsMore N M) {budget : Nat} (hbudget : N.toNat ≤ budget) :
    (Machine.load words).map (·.converse (stepsOf budget M) feed) = r := by
  -- with a limit or without one, the console is given some number of steps
  have hsteps : ∃ K : Int, K.toNat = stepsOf budget M ∧ N ≤ K := by
    match M, hM with
    | none, _ => exact ⟨budget, Int.toNat_natCast budget, by omega⟩
    | some l, hM => exact ⟨l, rfl, hM l rfl⟩
  obtain ⟨K, hK, hle⟩ := hsteps
  have hrun : Execution words (some K) feed es r := by
    refine h.mono hcut fun n hn => ?_
    rw [allows_some] at hn ⊢
    omega
  rw [hrun.eq_converse, hK]

/-- The run of a program with a limit, beside its run with any limit that allows more. If the first is
not cut off, they are the same run, and the command leaves the same behind. If it is, it has executed
as many instructions as its limit allows and is how the other run begins. And it is not, if the other
run ends with no more instructions than that. -/
theorem limit_only_cuts (hM : AllowsMore N M) (words : List Int) (queued stdin : List Char) :
    let feed : Feed := ⟨queued, stdin⟩
    let r := (Machine.load words).map (·.converse N.toNat feed)
    ∃ es, Runs words (some N) feed es r ∧
      (¬ CutOff r → Runs words M feed es r ∧
        ∀ file files (budget : Nat), N.toNat ≤ budget →
          (Cli.Job.executing file words queued (some N)).run budget files stdin =
            (Cli.Job.executing file words queued M).run budget files stdin) ∧
      (∀ o, r = .ok o → o.ending = .outOfSteps →
        instructions es = N.toNat ∧ Begins words M feed es o) ∧
      ∀ es' o', Execution words M feed es' (.ok o') → o'.ending ≠ .outOfSteps →
        instructions es' ≤ N → r = .ok o' := by
  intro feed r
  obtain ⟨es, hrun⟩ := exists_execution words N feed
  refine ⟨es, hrun.runs, ?_, ?_, ?_⟩
  · intro hcut
    refine ⟨(hrun.mono hcut hM.allows).runs, ?_⟩
    intro file files budget hbudget
    rw [run_executing, run_executing, converse_of_not_cutOff hrun hcut hM hbudget]
    exact report_of_not_cutOff file files hcut
  · intro o hr hcut
    rw [show (Machine.load words).map _ = .ok o from hr] at hrun
    exact ⟨instructions_of_outOfSteps hrun hcut, begins hrun hcut hM.allows⟩
  · intro es' o' hrun' hending hN
    obtain ⟨m, hload, hconcludes⟩ := hrun'.loaded
    have hwithin : Concludes (some N) ⟨0, m, feed⟩ es' o' :=
      hconcludes.within hending (by simpa using hN)
    exact (Execution.concluded hload hwithin).eq_converse.symm

theorem limit_only_cuts_of_reply :
    AllowsMore 3 none ∧ ∃ o, (Machine.load reply).map (·.converse 3 ⟨['!'], []⟩) = .ok o ∧
      o.ending = .halted := by
  have hM : AllowsMore 3 none := nofun
  obtain ⟨m, hrun⟩ := @reply_runs ⟨['!'], []⟩ ⟨[], []⟩ '!' rfl (by decide)
  obtain ⟨es, -, -, -, hends⟩ := limit_only_cuts hM reply ['!'] []
  exact ⟨hM, _, hends _ _ hrun nofun (by decide), rfl⟩

end WordMachine.Console
