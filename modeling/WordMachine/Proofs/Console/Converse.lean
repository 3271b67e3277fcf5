import WordMachine.Cli.Command
import WordMachine.Proofs.Console.Turns

/-! The turns and the console. With a limit every run has an end, and it is the one that the console
finds. A run without a limit that ends is a run with any limit that does not cut it off. -/

namespace WordMachine

namespace Machine

theorem converse_congr {m m' : Machine} {n n' : Nat} (h : m.run n = m'.run n') (feed : Feed) :
    m.converse n feed = m'.converse n' feed := by
  rw [converse, converse, h]

theorem converse_of_awaiting {m : Machine} {dest : Register} (h : m.status = .awaiting dest) (n : Nat)
    (feed : Feed) :
    m.converse n feed = match feed.next? with
      | none => ⟨.endOfInput, m, feed⟩
      | some (c, feed') =>
        match m.supply (String.singleton c) with
        | .ok m' => m'.converse n feed'
        | .error why => ⟨.refused why, m, feed'⟩ := by
  have hactive : m.isActive = false := by simp [isActive, h]
  have hhalted : m.isHalted = false := by simp [isHalted, h]
  rw [converse, run_of_not_isActive hactive]
  simp only [hactive, hhalted, Bool.false_eq_true, if_false]
  split <;> rename_i hnext <;> simp only [hnext]
  cases m.supply (String.singleton _) <;> rfl

end Machine

namespace Console

variable {limit : Option Int} {N : Int} {s s' : Moment} {e : Event} {es : List Event} {o : Outcome}

/-- What the console makes of a moment, with a limit on the instructions up to the end. -/
def Moment.converse (limit : Int) (s : Moment) : Outcome :=
  s.machine.converse (limit - s.executed).toNat s.feed

theorem converse_of_goes (h : s.turn (some N) = .goes e s') : s.converse N = s'.converse N := by
  unfold Moment.converse
  cases turned_of_eq h with
  | handed dest c feed m hs hnext hsupply =>
    simp only [Machine.converse_of_awaiting hs, hnext, hsupply]
  | executed op m hactive hallows hstep =>
    have hlt := allows_some.1 hallows
    have hleft : (N - s.executed).toNat = (N - (s.executed + 1 : Nat)).toNat + 1 := by omega
    apply Machine.converse_congr
    rw [hleft, Machine.run_succ_of_step hstep]

theorem converse_of_ends (h : s.turn (some N) = .ends es o) : s.converse N = o := by
  unfold Moment.converse
  cases turned_of_eq h with
  | halted hhalted =>
    have hactive := Machine.isActive_of_isHalted hhalted
    rw [Machine.converse, Machine.run_of_not_isActive hactive]
    simp only [hactive, hhalted, Bool.false_eq_true, if_false, if_true, Moment.rest]
  | endOfInput dest hs hnext =>
    simp only [Machine.converse_of_awaiting hs, hnext, Moment.rest]
  | refused dest c feed why hs hnext hsupply =>
    simp only [Machine.converse_of_awaiting hs, hnext, hsupply]
  | failed why m hactive hallows hstep =>
    have hlt := allows_some.1 hallows
    have hleft : (N - s.executed).toNat = (N - (s.executed + 1 : Nat)).toNat + 1 := by omega
    rw [Machine.converse, hleft, Machine.run_succ_of_fails hactive hstep]
  | outOfSteps hactive hallows =>
    rw [allows_some] at hallows
    have hleft : (N - s.executed).toNat = 0 := by omega
    rw [Machine.converse, hleft, Machine.run]
    simp only [hactive, if_true, Moment.rest]

/-- A turn uses up an instruction or a character. -/
theorem left_of_goes (h : s.turn (some N) = .goes e s') :
    (N - s'.executed).toNat + s'.feed.length < (N - s.executed).toNat + s.feed.length := by
  cases turned_of_eq h with
  | handed dest c feed m _ hnext _ =>
    have hlength := Feed.length_of_next? hnext
    simp only
    omega
  | executed op m _ hallows _ =>
    have hlt := allows_some.1 hallows
    simp only
    omega

/-- With a limit every run has an end, the one that the console finds. -/
theorem exists_concludes (N : Int) (s : Moment) : ∃ es, Concludes (some N) s es (s.converse N) := by
  -- each turn uses up some of the limit or of the feed
  induction hleft : (N - s.executed).toNat + s.feed.length using Nat.strongRecOn
    generalizing s with
  | _ left ih =>
    subst hleft
    match hturn : s.turn (some N) with
    | .ends es o =>
      refine ⟨es, ?_⟩
      rw [converse_of_ends hturn]
      exact .ends hturn
    | .goes e s' =>
      obtain ⟨es, hes⟩ := ih _ (left_of_goes hturn) s' rfl
      refine ⟨e :: es, ?_⟩
      rw [converse_of_goes hturn]
      exact .goes hturn hes

theorem converse_start (N : Int) (m : Machine) (feed : Feed) :
    (⟨0, m, feed⟩ : Moment).converse N = m.converse N.toNat feed := by
  simp [Moment.converse]

theorem exists_execution (words : List Int) (N : Int) (feed : Feed) :
    ∃ es, Execution words (some N) feed es
      ((Machine.load words).map (·.converse N.toNat feed)) := by
  match hload : Machine.load words with
  | .error why => exact ⟨[], .unloaded hload⟩
  | .ok m =>
    obtain ⟨es, hes⟩ := exists_concludes N ⟨0, m, feed⟩
    rw [converse_start] at hes
    exact ⟨es, .concluded hload hes⟩

theorem Execution.eq_converse {words : List Int} {feed : Feed} {r : Except LoadError Outcome}
    (h : Execution words (some N) feed es r) :
    r = (Machine.load words).map (·.converse N.toNat feed) := by
  obtain ⟨es', hes'⟩ := exists_execution words N feed
  exact (h.unique hes').2.symm

/-- A run without a limit ends as the console does with any limit that does not cut it off. -/
theorem execution_none_iff {words : List Int} {feed : Feed} :
    (∃ es, Execution words none feed es (.ok o)) ↔
      ∃ budget, (Machine.load words).map (·.converse budget feed) = .ok o ∧
        o.ending ≠ .outOfSteps := by
  constructor
  · rintro ⟨es, h⟩
    obtain ⟨m, hload, hrun⟩ := h.loaded
    have hcut : o.ending ≠ .outOfSteps := fun hcut => (hrun.of_outOfSteps hcut).2.1 trivial
    -- a limit that is just high enough
    have hwithin : Concludes (some (instructions es)) ⟨0, m, feed⟩ es o :=
      hrun.within hcut (by simp)
    have heq := (Execution.concluded hload hwithin).eq_converse
    rw [Int.toNat_natCast] at heq
    exact ⟨instructions es, heq.symm, hcut⟩
  · rintro ⟨budget, heq, hcut⟩
    obtain ⟨es, h⟩ := exists_execution words budget feed
    rw [Int.toNat_natCast, heq] at h
    obtain ⟨m, hload, hrun⟩ := h.loaded
    exact ⟨es, .concluded hload (hrun.mono hcut fun _ _ => trivial)⟩

/-! ### The command -/

/-- What the command leaves behind of a run, or of a program that cannot be loaded. -/
def report (file : String) (limit : Option Int) (files : Cli.Files) :
    Except LoadError Outcome → Cli.Report
  | .error e => (Cli.Job.ofLoadError file e).run 0 files []
  | .ok o =>
    let (exit, stderr) := Cli.Ending.report file limit o.ending
    ⟨exit, Cli.sentText o.machine.output, stderr, files⟩

theorem run_executing (file : String) (words : List Int) (queued stdin : List Char)
    (limit : Option Int) (budget : Nat) (files : Cli.Files) :
    (Cli.Job.executing file words queued limit).run budget files stdin =
      report file limit files
        ((Machine.load words).map (·.converse (stepsOf budget limit) ⟨queued, stdin⟩)) := by
  unfold Cli.Job.executing
  cases Machine.load words with
  | ok m => rfl
  | error e => cases e <;> rfl

/-! ### A program -/

/-- Reads a character, sends it out and stops. -/
def reply : List Int := [20, 32768, 19, 32768, 0]

theorem reply_steps {memory : Memory} (hpeek : ∀ a, memory.peek a = reply.getD a 0)
    (regs : Vector Int 8) {c : Char} (hc : c.toNat < modulus) :
    let waiting : Machine := ⟨memory, regs, [], 2, .awaiting 0, []⟩
    let given : Machine := ⟨memory, regs.set 0 c.toNat, [], 2, .running, []⟩
    let sent : Machine := ⟨memory, regs.set 0 c.toNat, [], 4, .running, [c.toNat]⟩
    (⟨memory, regs, [], 0, .ready, []⟩ : Machine).step = (.ok .input, waiting) ∧
      waiting.supply (String.singleton c) = .ok given ∧ given.step = (.ok .out, sent) ∧
      sent.step = (.ok .halt, { sent with pc := 5, status := .halted none }) := by
  intro waiting given sent
  refine ⟨?_, ?_, ?_, ?_⟩
  · exact @Machine.step_of_fetched ⟨memory, regs, [], 0, .ready, []⟩ .input (0, ()) (.await 0) 2 rfl
      ⟨by simp only [hpeek]; rfl, Nat.le_of_ble_eq_true rfl⟩
      (by simp only [Opcode.signature, Machine.operands, hpeek]; rfl) rfl
  · simp only [Machine.supply, waiting, String.toList_singleton, if_pos hc]
    rfl
  · have hregister : given.registers[(0 : Register)] = (c.toNat : Int) := Vector.getElem_set_self _
    have hvalue : given.resolve (given.memory.peek (given.pc + 1)) = .ok (c.toNat : Int) := by
      simp only [given, hpeek]
      exact congrArg Except.ok hregister
    have hcode : codePoint (c.toNat : Int) = .ok c.toNat := by
      rw [modulus] at hc
      rw [codePoint, if_pos (by omega), Int.toNat_natCast]
    refine @Machine.step_of_fetched given .out (c.toNat, ()) (.emit c.toNat) 4 rfl
      ⟨by simp only [given, hpeek]; rfl, Nat.le_of_ble_eq_true rfl⟩ ?_ ?_
    · simp only [Opcode.signature, Machine.operands, hvalue]
    · rw [Machine.effect, hcode]
      rfl
  · exact @Machine.step_of_fetched sent .halt () .halt 5 rfl
      ⟨by simp only [sent, hpeek]; rfl, Nat.le_of_ble_eq_true rfl⟩ rfl rfl

theorem reply_runs {feed feed' : Feed} {c : Char} (hnext : feed.next? = some (c, feed'))
    (hc : c.toNat < modulus) :
    ∃ m, Execution reply none feed
      [.executed .input, .handed c, .executed .out, .executed .halt] (.ok ⟨.halted, m, feed'⟩) := by
  obtain ⟨hin, hgiven, hout, hhalt⟩ :=
    reply_steps (Memory.peek_ofList_of_le (Nat.le_of_ble_eq_true rfl)) (Vector.replicate 8 0) hc
  exact ⟨_, .concluded rfl <| .goes (turn_of_step trivial hin) <| .goes (turn_of_supply hnext hgiven) <|
    .goes (turn_of_step trivial hout) <| .goes (turn_of_step trivial hhalt) <|
    .ends (turn_of_halted rfl)⟩

end Console
end WordMachine
