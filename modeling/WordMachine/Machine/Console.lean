import WordMachine.Machine.Step

/-! A machine at a console. The console runs the machine until it needs a character, hands over the
next one from the feed, and goes on until the machine halts, something fails, the feed is used up or
the steps are. -/

namespace WordMachine

/-- The characters for the machine: the queued ones first, then those of the stream. -/
structure Feed where
  queued : List Char
  stream : List Char
  deriving DecidableEq, Repr

/-- The next character and the feed without it. The stream is left alone while any are queued. -/
def Feed.next? : Feed → Option (Char × Feed)
  | ⟨c :: queued, stream⟩ => some (c, ⟨queued, stream⟩)
  | ⟨[], c :: stream⟩ => some (c, ⟨[], stream⟩)
  | ⟨[], []⟩ => none

def Feed.length (f : Feed) : Nat := f.queued.length + f.stream.length

theorem Feed.length_of_next? {f f' : Feed} {c : Char} (h : f.next? = some (c, f')) :
    f'.length + 1 = f.length := by
  unfold Feed.next? at h
  split at h <;> simp at h <;> obtain ⟨-, rfl⟩ := h
  · simp only [Feed.length, List.length_cons]
    omega
  · simp [Feed.length]

/-- How a machine at a console comes to rest. -/
inductive Ending where
  | halted
  | endOfInput
  /-- the steps are used up -/
  | outOfSteps
  /-- the machine does not take a character -/
  | refused (why : Refusal)
  | failed (why : StepError)
  deriving DecidableEq, Repr

structure Outcome where
  ending : Ending
  machine : Machine
  /-- what is left of the feed -/
  feed : Feed
  deriving DecidableEq

/-- Runs a machine on a feed for at most `limit` steps. -/
def Machine.converse (limit : Nat) (m : Machine) (feed : Feed) : Outcome :=
  match m.run limit with
  | (.error e, m) => ⟨.failed e, m, feed⟩
  | (.ok left, m) =>
    if m.isActive then ⟨.outOfSteps, m, feed⟩
    else if m.isHalted then ⟨.halted, m, feed⟩
    else match _next : feed.next? with
      | none => ⟨.endOfInput, m, feed⟩
      | some (c, feed') =>
        match m.supply (String.singleton c) with
        | .error r => ⟨.refused r, m, feed'⟩
        | .ok m => m.converse left feed'
termination_by feed.length
decreasing_by
  have := Feed.length_of_next? _next
  omega

end WordMachine
