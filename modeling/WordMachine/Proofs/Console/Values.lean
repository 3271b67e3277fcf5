import WordMachine.Proofs.Console.Converse
import WordMachine.Proofs.Machine.Status
import WordMachine.Proofs.Machine.Values

/-! The values of a run at the console. What each turn keeps holds at the last one, where the run ends.
So a program whose words are code points only sends out code points; and a run that ends because the
machine has halted has met no fault, as a fault ends the run by itself. -/

namespace WordMachine.Console

variable {P : Int → Prop} {limit : Option Int} {s s' : Moment} {e : Event} {es : List Event}
  {o : Outcome}

/-- The last turn of a run, at a machine that has what each turn keeps. -/
theorem Concludes.exists_last {Q : Machine → Prop}
    (hturn : ∀ (s s' : Moment) e, s.turn limit = .goes e s' → Q s.machine → Q s'.machine)
    (h : Concludes limit s es o) (hs : Q s.machine) :
    ∃ (s' : Moment) (last : List Event), s'.turn limit = .ends last o ∧ Q s'.machine := by
  induction h with
  | ends hends => exact ⟨_, _, hends, hs⟩
  | goes hgoes _ ih => exact ih (hturn _ _ _ hgoes hs)

/-! ### The values -/

theorem every_of_goes (hP : HoldsOfLiterals P) (h : s.turn limit = .goes e s')
    (hs : s.machine.Every P) : s'.machine.Every P := by
  cases turned_of_eq h with
  | handed dest c feed m _ _ hsupply => exact Machine.every_supply hP hs hsupply
  | executed op m _ _ hstep =>
    have hm := Machine.every_step hP _ hs
    rwa [hstep] at hm

theorem every_of_ends (hP : HoldsOfLiterals P) (h : s.turn limit = .ends es o)
    (hs : s.machine.Every P) : o.machine.Every P := by
  cases turned_of_eq h with
  | failed why m _ _ hstep =>
    have hm := Machine.every_step hP _ hs
    rwa [hstep] at hm
  | halted | endOfInput | refused | outOfSteps => exact hs

theorem ending_ne_output (hP : HoldsOfLiterals P) (hcode : ∀ v, P v → 0 ≤ v ∧ v < 0x110000)
    (h : s.turn limit = .ends es o) (hs : s.machine.Every P) (why : OutputError) :
    o.ending ≠ .failed (.output why) := by
  cases turned_of_eq h with
  | failed why' m _ _ hstep =>
    rintro ⟨⟩
    exact Machine.step_ne_output hP hcode hs why (by rw [hstep])
  | halted | endOfInput | refused | outOfSteps => exact nofun

theorem ending_ne_untold (h : s.turn limit = .ends es o) (hs : s.machine.Every HasNumeral) (f : Fault) :
    o.ending ≠ .failed (.untold f) := by
  cases turned_of_eq h with
  | failed why' m _ _ hstep =>
    rintro ⟨⟩
    exact Machine.step_ne_untold hs f (by rw [hstep])
  | halted | endOfInput | refused | outOfSteps => exact nofun

/-- Every fault of a program whose words have numerals can be told. -/
theorem Execution.told {words : List Int} {feed : Feed} (h : Execution words limit feed es (.ok o))
    (hw : ∀ w ∈ words, HasNumeral w) (f : Fault) : o.ending ≠ .failed (.untold f) := by
  obtain ⟨m, hload, hrun⟩ := h.loaded
  obtain ⟨rfl, -⟩ := Machine.load_eq_ok hload
  obtain ⟨s, last, hends, hs⟩ := hrun.exists_last
    (fun _ _ _ => every_of_goes holdsOfLiterals_hasNumeral)
    (Machine.every_start holdsOfLiterals_hasNumeral hw)
  exact ending_ne_untold hends hs f

/-- The run of a program whose words are literals and registers sends out nothing that is not below the
surrogates, and never fails for it. -/
theorem Execution.sent {words : List Int} {feed : Feed} (h : Execution words limit feed es (.ok o))
    (hw : ∀ w ∈ words, InRange maxOperand w) :
    (∀ c ∈ o.machine.output, c ≤ 0x8007) ∧ ∀ why, o.ending ≠ .failed (.output why) := by
  obtain ⟨m, hload, hrun⟩ := h.loaded
  obtain ⟨rfl, -⟩ := Machine.load_eq_ok hload
  have hP : HoldsOfLiterals (InRange maxOperand) := holdsOfLiterals_inRange (by decide)
  obtain ⟨s, last, hends, hs⟩ :=
    hrun.exists_last (fun _ _ _ => every_of_goes hP) (Machine.every_start hP hw)
  refine ⟨?_, ending_ne_output hP ?_ hends hs⟩
  · intro c hc
    have := (every_of_ends hP hends hs).output c hc
    simp only [maxOperand, modulus] at this
    omega
  · rintro v ⟨hlow, hhigh⟩
    simp only [maxOperand, modulus] at hhigh
    omega

/-! ### The end -/

theorem trap_of_goes (h : s.turn limit = .goes e s') : s'.machine.trap? = none := by
  cases turned_of_eq h with
  | handed dest c feed m _ _ hsupply =>
    obtain ⟨_, _, -, -, -, rfl⟩ := Machine.supply_eq_ok hsupply
    rfl
  | executed op m hactive _ hstep =>
    cases Machine.status_of_step hactive hstep with
    | awaits _ _ _ hstatus | stops _ _ hstatus => simp only [Machine.trap?, hstatus]
    | proceeds _ hstatus => simp only [Machine.trap?, hstatus]

theorem status_of_ends (h : s.turn limit = .ends es o) (hs : s.machine.trap? = none)
    (hending : o.ending = .halted) : o.machine.status = .halted none := by
  cases turned_of_eq h with
  | halted hhalted =>
    unfold Machine.isHalted at hhalted
    split at hhalted
    · rename_i trap hstatus
      rw [Machine.trap?, hstatus] at hs
      rw [Moment.rest, hstatus, show trap = none from hs]
    · cases hhalted
  | endOfInput | refused | failed | outOfSteps => cases hending

/-- A run that ends because the machine has halted has met no fault. -/
theorem Execution.status_of_halted {words : List Int} {feed : Feed}
    (h : Execution words limit feed es (.ok o)) (hending : o.ending = .halted) :
    o.machine.status = .halted none := by
  obtain ⟨m, hload, hrun⟩ := h.loaded
  obtain ⟨rfl, -⟩ := Machine.load_eq_ok hload
  obtain ⟨s, last, hends, hs⟩ :=
    hrun.exists_last (Q := fun m => m.trap? = none) (fun _ _ _ hgoes _ => trap_of_goes hgoes) rfl
  exact status_of_ends hends hs hending

/-- A run that a limit cuts off takes more instructions than that without one, if it ends at all. -/
theorem Execution.lt_instructions {words : List Int} {feed : Feed} {budget : Nat}
    (h : Execution words (some budget) feed es (.ok o)) (hcut : o.ending = .outOfSteps)
    {es' : List Event} {o' : Outcome} (h' : Execution words none feed es' (.ok o')) :
    budget < instructions es' := by
  obtain ⟨m, hload, hrun⟩ := h'.loaded
  have hends : o'.ending ≠ .outOfSteps := fun hcut' => (hrun.of_outOfSteps hcut').2.1 trivial
  apply Nat.lt_of_not_le
  intro hle
  have hwithin : Concludes (some budget) ⟨0, m, feed⟩ es' o' := hrun.within hends (by simpa using hle)
  obtain ⟨-, rfl⟩ := (h.concludes hload).unique hwithin
  exact hends hcut

end WordMachine.Console
