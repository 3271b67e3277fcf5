import WordMachine.Proofs.Console.Converse

/-! The input as one stream. Queued or not, the characters of a feed are taken one after another, each
for an instruction that asks for it. What a run has done so far depends on those that it has taken, so
feeds that begin alike make it go on alike. -/

namespace WordMachine

/-! ### Feeds -/

namespace Feed

/-- all characters of the feed -/
def text (f : Feed) : List Char := f.queued ++ f.stream

/-- The feed without its first `n` characters. None is taken from the stream while any are queued. -/
def drop (n : Nat) (f : Feed) : Feed := ⟨f.queued.drop n, f.stream.drop (n - f.queued.length)⟩

/-- The same characters, none of them queued. -/
def joined (f : Feed) : Feed := ⟨[], f.text⟩

variable {f f' : Feed} {c : Char}

@[simp]
theorem drop_zero (f : Feed) : f.drop 0 = f := by
  simp [drop]

theorem text_drop (n : Nat) (f : Feed) : (f.drop n).text = f.text.drop n := by
  simp [text, drop, List.drop_append]

theorem drop_drop (k n : Nat) (f : Feed) : (f.drop n).drop k = f.drop (n + k) := by
  simp only [drop, List.drop_drop, List.length_drop]
  congr 2
  omega

theorem joined_drop (n : Nat) (f : Feed) : f.joined.drop n = (f.drop n).joined := by
  rw [joined, joined, text_drop, drop, List.drop_nil]
  rfl

theorem next?_eq_none_iff : f.next? = none ↔ f.text = [] := by
  obtain ⟨_ | ⟨c, queued⟩, _ | ⟨d, stream⟩⟩ := f <;> simp [next?, text]

theorem next?_eq_some_iff : f.next? = some (c, f') ↔ [c] <+: f.text ∧ f' = f.drop 1 := by
  obtain ⟨_ | ⟨d, queued⟩, _ | ⟨d', stream⟩⟩ := f <;> simp [next?, text, drop] <;>
    exact and_congr eq_comm eq_comm

end Feed

namespace Console

variable {limit : Option Int} {s s' : Moment} {e : Event} {es : List Event} {o : Outcome} {f : Feed}

theorem feed_of_goes (h : s.turn limit = .goes e s') :
    e.taken <+: s.feed.text ∧ s'.feed = s.feed.drop e.taken.length := by
  cases turned_of_eq h with
  | handed dest c feed m _ hnext _ => exact Feed.next?_eq_some_iff.1 hnext
  | executed op m => exact ⟨List.nil_prefix, (Feed.drop_zero _).symm⟩

theorem feed_of_ends (h : s.turn limit = .ends es o) :
    characters es <+: s.feed.text ∧ o.feed = s.feed.drop (characters es).length ∧
      (o.ending = .endOfInput → s.feed.text = characters es) := by
  cases turned_of_eq h with
  | refused dest c feed why _ hnext _ =>
    obtain ⟨htaken, hfeed⟩ := Feed.next?_eq_some_iff.1 hnext
    exact ⟨htaken, hfeed, nofun⟩
  | endOfInput dest _ hnext =>
    exact ⟨List.nil_prefix, (Feed.drop_zero _).symm, fun _ => Feed.next?_eq_none_iff.1 hnext⟩
  | halted | outOfSteps | failed => exact ⟨List.nil_prefix, (Feed.drop_zero _).symm, nofun⟩

/-- With another feed the turn is the same, if the feed has the character that the turn takes. -/
theorem goes_refeed (h : s.turn limit = .goes e s') (hf : e.taken <+: f.text) :
    ({ s with feed := f } : Moment).turn limit =
      .goes e { s' with feed := f.drop e.taken.length } := by
  cases turned_of_eq h with
  | handed dest c feed m _ _ hsupply =>
    exact turn_of_supply (Feed.next?_eq_some_iff.2 ⟨hf, rfl⟩) hsupply
  | executed op m _ hallows hstep =>
    rw [Event.taken, List.length_nil, Feed.drop_zero]
    exact turn_of_step hallows hstep

theorem ends_refeed (h : s.turn limit = .ends es o) (hf : characters es <+: f.text)
    (hend : o.ending = .endOfInput → f.text = characters es) :
    ({ s with feed := f } : Moment).turn limit =
      .ends es { o with feed := f.drop (characters es).length } := by
  have hzero : f.drop (characters []).length = f := Feed.drop_zero f
  cases turned_of_eq h with
  | refused dest c feed why hs _ hsupply =>
    have hnext : f.next? = some (c, f.drop 1) := Feed.next?_eq_some_iff.2 ⟨hf, rfl⟩
    rw [turn_of_awaiting (s := { s with feed := f }) hs]
    simp only [hnext, hsupply]
    rfl
  | endOfInput dest hs =>
    have hnext : f.next? = none := Feed.next?_eq_none_iff.2 (hend rfl)
    rw [turn_of_awaiting (s := { s with feed := f }) hs, hzero]
    simp only [hnext]
    rfl
  | halted hhalted =>
    rw [turn_of_halted (s := { s with feed := f }) hhalted, hzero]
    rfl
  | outOfSteps hactive hallows =>
    rw [turn_of_isActive (s := { s with feed := f }) hactive, if_neg hallows, hzero]
    rfl
  | failed why m hactive hallows hstep =>
    rw [turn_of_fails (s := { s with feed := f }) hactive hallows hstep]
    exact congrArg (Turn.ends _) (congrArg _ hzero.symm)

/-! ### What is taken -/

theorem append_prefix_iff {a b t : List Char} :
    a ++ b <+: t ↔ a <+: t ∧ b <+: t.drop a.length := by
  constructor
  · rintro ⟨u, rfl⟩
    simp
  · rintro ⟨⟨u, rfl⟩, h⟩
    simpa using h

theorem Proceeds.feed (h : Proceeds limit s es s') :
    characters es <+: s.feed.text ∧ s'.feed = s.feed.drop (characters es).length := by
  induction h with
  | rests s => exact ⟨List.nil_prefix, (Feed.drop_zero _).symm⟩
  | goes hgoes _ ih =>
    obtain ⟨htaken, hfeed⟩ := feed_of_goes hgoes
    rw [hfeed, Feed.text_drop, Feed.drop_drop] at ih
    rw [characters_cons, List.length_append]
    exact ⟨append_prefix_iff.2 ⟨htaken, ih.1⟩, ih.2⟩

theorem Concludes.feed (h : Concludes limit s es o) :
    characters es <+: s.feed.text ∧ o.feed = s.feed.drop (characters es).length ∧
      (o.ending = .endOfInput → s.feed.text = characters es) := by
  induction h with
  | ends hends => exact feed_of_ends hends
  | goes hgoes _ ih =>
    obtain ⟨htaken, hfeed⟩ := feed_of_goes hgoes
    rw [hfeed, Feed.text_drop, Feed.drop_drop] at ih
    rw [characters_cons, List.length_append]
    refine ⟨append_prefix_iff.2 ⟨htaken, ih.1⟩, ih.2.1, ?_⟩
    intro hend
    obtain ⟨t, ht⟩ := htaken
    have hrest := ih.2.2 hend
    rw [← ht, List.drop_left] at hrest
    rw [← ht, hrest]

/-- With another feed the run is the same as far as the feed has the characters that it takes. -/
theorem Proceeds.refeed (h : Proceeds limit s es s') (hf : characters es <+: f.text) :
    Proceeds limit { s with feed := f } es { s' with feed := f.drop (characters es).length } := by
  induction h generalizing f with
  | rests s =>
    rw [characters_nil, List.length_nil, Feed.drop_zero]
    exact .rests _
  | goes hgoes _ ih =>
    rw [characters_cons, append_prefix_iff, ← Feed.text_drop] at hf
    rw [characters_cons, List.length_append, ← Feed.drop_drop]
    exact .goes (goes_refeed hgoes hf.1) (ih hf.2)

theorem Concludes.refeed (h : Concludes limit s es o) (hf : characters es <+: f.text)
    (hend : o.ending = .endOfInput → f.text = characters es) :
    Concludes limit { s with feed := f } es { o with feed := f.drop (characters es).length } := by
  induction h generalizing f with
  | ends hends => exact .ends (ends_refeed hends hf hend)
  | goes hgoes _ ih =>
    rw [characters_cons, append_prefix_iff, ← Feed.text_drop] at hf
    rw [characters_cons, List.length_append, ← Feed.drop_drop]
    refine .goes (goes_refeed hgoes hf.1) (ih hf.2 ?_)
    intro hending
    rw [Feed.text_drop, hend hending, characters_cons, List.drop_left]

/-! ### Requests and answers -/

/-- Each character is handed over right behind an instruction that asks for one, and each such
instruction is answered at once, unless it is the last event. -/
inductive Answered : List Event → Prop
  | nil : Answered []
  | executed (op : Opcode) (es : List Event) : op ≠ .input → Answered es →
      Answered (.executed op :: es)
  | failed (why : StepError) (es : List Event) : Answered es → Answered (.failed why :: es)
  | asked : Answered [.executed .input]
  | answered (c : Char) (es : List Event) : Answered es →
      Answered (.executed .input :: .handed c :: es)

/-- The same of what happens from a machine on, which may be waiting for a character. -/
def AnsweredFrom (m : Machine) (es : List Event) : Prop :=
  match m.status with
  | .awaiting _ => es = [] ∨ ∃ c t, es = .handed c :: t ∧ Answered t
  | _ => Answered es

theorem answeredFrom_of_awaiting {m : Machine} {dest : Register} (h : m.status = .awaiting dest) :
    AnsweredFrom m es ↔ es = [] ∨ ∃ c t, es = .handed c :: t ∧ Answered t := by
  simp only [AnsweredFrom, h]

theorem answeredFrom_of_ne {m : Machine} (h : ∀ dest, m.status ≠ .awaiting dest) :
    AnsweredFrom m es ↔ Answered es := by
  unfold AnsweredFrom
  split
  · rename_i dest hs
    exact absurd hs (h dest)
  · rfl

theorem answeredFrom_nil (m : Machine) : AnsweredFrom m [] := by
  unfold AnsweredFrom
  split
  · exact .inl rfl
  · exact .nil

/-- A machine waits behind each instruction that asks for a character, and behind no other. -/
theorem awaiting_of_step {m m' : Machine} {op : Opcode} (h : m.step = (.ok op, m')) :
    (∃ dest, m'.status = .awaiting dest) ↔ op = .input := by
  constructor
  · rintro ⟨dest, hs⟩
    have hanswer := (Machine.step_awaits (Machine.step_eq_ok h).1 h hs).1
    exact Except.ok.inj hanswer
  · rintro rfl
    have hhalt : Opcode.input ≠ .halt := by decide
    obtain ⟨⟨dest, ⟨⟩⟩, c, pc, -, -, heff, rfl⟩ := Machine.step_eq_ok_of_ne_halt h hhalt
    cases heff
    exact ⟨dest, rfl⟩

theorem answeredFrom_cons (h : s.turn limit = .goes e s') (hrest : AnsweredFrom s'.machine es) :
    AnsweredFrom s.machine (e :: es) := by
  cases turned_of_eq h with
  | handed dest c feed m hs _ hsupply =>
    obtain ⟨_, _, -, -, -, rfl⟩ := Machine.supply_eq_ok hsupply
    -- with the character the machine runs on
    have hanswered : Answered es := hrest
    exact (answeredFrom_of_awaiting hs).2 (.inr ⟨c, es, rfl, hanswered⟩)
  | executed op m hactive _ hstep =>
    rw [answeredFrom_of_ne (Machine.status_of_isActive hactive).1]
    by_cases hop : op = .input
    · obtain ⟨dest, hs⟩ := (awaiting_of_step hstep).2 hop
      subst hop
      rcases (answeredFrom_of_awaiting hs).1 hrest with rfl | ⟨c, t, rfl, ht⟩
      · exact .asked
      · exact .answered c t ht
    · rw [answeredFrom_of_ne fun dest hs => hop ((awaiting_of_step hstep).1 ⟨dest, hs⟩)] at hrest
      exact .executed op es hop hrest

theorem answeredFrom_of_ends (h : s.turn limit = .ends es o) : AnsweredFrom s.machine es := by
  cases turned_of_eq h with
  | refused dest c feed why hs => exact (answeredFrom_of_awaiting hs).2 (.inr ⟨c, [], rfl, .nil⟩)
  | halted | endOfInput | outOfSteps => exact answeredFrom_nil s.machine
  | failed why m hactive =>
    exact (answeredFrom_of_ne (Machine.status_of_isActive hactive).1).2 (.failed why [] .nil)

theorem Proceeds.answered (h : Proceeds limit s es s') : AnsweredFrom s.machine es := by
  induction h with
  | rests s => exact answeredFrom_nil s.machine
  | goes hgoes _ ih => exact answeredFrom_cons hgoes ih

theorem Concludes.answered (h : Concludes limit s es o) : AnsweredFrom s.machine es := by
  induction h with
  | ends hends => exact answeredFrom_of_ends hends
  | goes hgoes _ ih => exact answeredFrom_cons hgoes ih

/-! ### Programs -/

/-- The same outcome, with nothing left in a queue. -/
def joined (o : Outcome) : Outcome := { o with feed := o.feed.joined }

/-- What a run has taken from its feed, and what is left. -/
structure Takes (feed : Feed) (es : List Event) (left : Feed) : Prop where
  inOrder : characters es <+: feed.text
  left_eq : left = feed.drop (characters es).length
  /-- The stream is left alone while characters are queued. -/
  stream_eq : left.queued ≠ [] → left.stream = feed.stream
  answered : Answered es

section Programs
variable {words : List Int} {feed feed' : Feed} {es' : List Event} {r : Except LoadError Outcome}
  {n : Nat}

theorem takes {m : Machine} (hload : Machine.load words = .ok m) (htaken : characters es <+: feed.text)
    (hanswered : AnsweredFrom m es) : Takes feed es (feed.drop (characters es).length) := by
  obtain ⟨rfl, -⟩ := Machine.load_eq_ok hload
  refine ⟨htaken, rfl, ?_, hanswered⟩
  intro hqueued
  have hlt : (characters es).length < feed.queued.length := by
    simpa [Feed.drop] using hqueued
  rw [Feed.drop, Nat.sub_eq_zero_of_le (Nat.le_of_lt hlt), List.drop_zero]

theorem Reaches.takes (h : Reaches words limit feed es s) : Takes feed es s.feed := by
  obtain ⟨m, hload, hrun⟩ := h
  obtain ⟨htaken, hfeed⟩ := hrun.feed
  rw [hfeed]
  exact Console.takes hload htaken hrun.answered

theorem Execution.takes (h : Execution words limit feed es (.ok o)) : Takes feed es o.feed := by
  obtain ⟨m, hload, hrun⟩ := h.loaded
  obtain ⟨htaken, hfeed, -⟩ := hrun.feed
  rw [hfeed]
  exact Console.takes hload htaken hrun.answered

theorem Reaches.refeed (h : Reaches words limit feed es s) (hf : characters es <+: f.text) :
    Reaches words limit f es { s with feed := f.drop (characters es).length } := by
  obtain ⟨m, hload, hrun⟩ := h
  exact ⟨m, hload, hrun.refeed hf⟩

theorem Execution.refeed (h : Execution words limit feed es (.ok o)) (hf : characters es <+: f.text)
    (hend : o.ending = .endOfInput → f.text = characters es) :
    Execution words limit f es (.ok { o with feed := f.drop (characters es).length }) := by
  obtain ⟨m, hload, hrun⟩ := h.loaded
  exact .concluded hload (hrun.refeed hf hend)

theorem Execution.joined (h : Execution words limit feed es r) :
    Execution words limit feed.joined es (r.map Console.joined) := by
  match r with
  | .error why =>
    cases h with
    | unloaded hload => exact .unloaded hload
  | .ok o =>
    obtain ⟨m, hload, hrun⟩ := h.loaded
    obtain ⟨htaken, hfeed, hend⟩ := hrun.feed
    have hjoined : Execution words limit feed.joined es
        (.ok { o with feed := feed.joined.drop (characters es).length }) :=
      h.refeed htaken hend
    rwa [Feed.joined_drop, ← hfeed] at hjoined

theorem execution_joined_iff :
    Execution words limit feed.joined es r ↔
      ∃ r', Execution words limit feed es r' ∧ r = r'.map Console.joined := by
  constructor
  · intro h
    match r with
    | .error why =>
      cases h with
      | unloaded hload => exact ⟨.error why, .unloaded hload, rfl⟩
    | .ok o =>
      obtain ⟨m, hload, hrun⟩ := h.loaded
      obtain ⟨htaken, hfeed, hend⟩ := hrun.feed
      refine ⟨_, h.refeed htaken hend, ?_⟩
      rw [Feed.joined_drop] at hfeed
      exact congrArg Except.ok (congrArg (Outcome.mk o.ending o.machine) hfeed)
  · rintro ⟨r', h, rfl⟩
    exact h.joined

theorem report_joined (file : String) (files : Cli.Files) :
    report file limit files (r.map Console.joined) = report file limit files r := by
  cases r <;> rfl

/-- The characters taken, as the beginning of another feed that begins alike. -/
theorem prefix_of_agree (htaken : characters es <+: feed.text) (hn : (characters es).length ≤ n)
    (hagree : feed'.text.take n = feed.text.take n) : characters es <+: feed'.text := by
  have htake : characters es <+: feed'.text.take n := by
    rw [hagree]
    exact List.prefix_take_iff.2 ⟨htaken, hn⟩
  exact htake.trans (List.take_prefix n _)

theorem eq_of_take_eq {a b : List Char} (h : a.take n = b.take n) (hn : b.length < n) : a = b := by
  have hall : a.take n = b := by rw [h, List.take_of_length_le (Nat.le_of_lt hn)]
  have hlength : (a.take n).length < n := by rwa [hall]
  rw [List.length_take] at hlength
  rwa [List.take_of_length_le (by omega)] at hall

theorem Reaches.of_agree (h : Reaches words limit feed es s) (hn : (characters es).length ≤ n)
    (hagree : feed'.text.take n = feed.text.take n) :
    Reaches words limit feed' es { s with feed := feed'.drop (characters es).length } :=
  h.refeed (prefix_of_agree h.takes.inOrder hn hagree)

theorem Execution.of_agree (h : Execution words limit feed es (.ok o))
    (hn : (characters es).length ≤ n) (hend : o.ending = .endOfInput → (characters es).length < n)
    (hagree : feed'.text.take n = feed.text.take n) :
    Execution words limit feed' es (.ok { o with feed := feed'.drop (characters es).length }) := by
  obtain ⟨m, hload, hrun⟩ := h.loaded
  obtain ⟨htaken, -, htext⟩ := hrun.feed
  refine h.refeed (prefix_of_agree htaken hn hagree) ?_
  -- a run that asks for more than there is has taken everything, so the other feed has no more
  intro hending
  have hlt := hend hending
  rw [← htext hending] at hlt ⊢
  exact eq_of_take_eq hagree hlt

/-- Of two moments at which the same characters have been taken, one is on the way to the other. -/
theorem Reaches.comparable {s' : Moment} (h : Reaches words limit feed es s)
    (h' : Reaches words limit feed' es' s') (heq : characters es = characters es') :
    es <+: es' ∧ s.machine.output <+: s'.machine.output ∨
      es' <+: es ∧ s'.machine.output <+: s.machine.output := by
  obtain ⟨m, hload, hrun⟩ := h.refeed (heq ▸ h'.takes.inOrder : characters es <+: feed'.text)
  rcases hrun.comparable (h'.proceeds hload) with ⟨t, rfl, ht⟩ | ⟨t, rfl, ht⟩
  · exact .inl ⟨List.prefix_append _ _, ht.output⟩
  · exact .inr ⟨List.prefix_append _ _, ht.output⟩

theorem run_joined (file : String) (words : List Int) (q t : List Char) (limit : Option Int)
    (budget : Nat) (files : Cli.Files) :
    (Cli.Job.executing file words q limit).run budget files t =
      (Cli.Job.executing file words [] limit).run budget files (q ++ t) := by
  obtain ⟨es, h⟩ := exists_execution words (stepsOf budget limit) ⟨q, t⟩
  rw [Int.toNat_natCast] at h
  have hjoined := h.joined.eq_converse
  rw [Int.toNat_natCast] at hjoined
  rw [run_executing, run_executing, ← report_joined, hjoined]
  rfl

end Programs

/-- A program with some characters queued and others in the stream. It runs as with all of them in the
stream. What it has taken is a prefix of them, in order, each character for an instruction that has
just asked for it, and the stream is left alone while any are queued. And what it does up to a request
for a character depends on the characters before it alone. -/
theorem input_is_one_stream (words : List Int) (limit : Option Int) (q t : List Char) :
    (∀ es r, Execution words limit ⟨[], q ++ t⟩ es r ↔
      ∃ r', Execution words limit ⟨q, t⟩ es r' ∧ r = r'.map joined) ∧
    (∀ file budget files, (Cli.Job.executing file words q limit).run budget files t =
      (Cli.Job.executing file words [] limit).run budget files (q ++ t)) ∧
    (∀ es s, Reaches words limit ⟨q, t⟩ es s → Takes ⟨q, t⟩ es s.feed) ∧
    (∀ es o, Execution words limit ⟨q, t⟩ es (.ok o) → Takes ⟨q, t⟩ es o.feed) ∧
    ∀ feed : Feed,
      (∀ n, feed.text.take n = (q ++ t).take n →
        (∀ es s, Reaches words limit ⟨q, t⟩ es s → (characters es).length ≤ n →
          Reaches words limit feed es { s with feed := feed.drop (characters es).length }) ∧
        ∀ es o, Execution words limit ⟨q, t⟩ es (.ok o) → (characters es).length ≤ n →
          (o.ending = .endOfInput → (characters es).length < n) →
          Execution words limit feed es
            (.ok { o with feed := feed.drop (characters es).length })) ∧
      ∀ es es' s s', Reaches words limit ⟨q, t⟩ es s → Reaches words limit feed es' s' →
        characters es = characters es' →
        es <+: es' ∧ s.machine.output <+: s'.machine.output ∨
          es' <+: es ∧ s'.machine.output <+: s.machine.output := by
  refine ⟨?_, ?_, fun es s h => h.takes, fun es o h => h.takes, ?_⟩
  · intro es r
    exact (execution_joined_iff : Execution words limit (Feed.joined ⟨q, t⟩) es r ↔ _)
  · intro file budget files
    exact run_joined file words q t limit budget files
  · intro feed
    refine ⟨fun n hagree => ⟨?_, ?_⟩, fun es es' s s' h h' heq => h.comparable h' heq⟩
    · intro es s h hn
      exact h.of_agree hn hagree
    · intro es o h hn hend
      exact h.of_agree hn hend hagree

/-- The character comes from the stream, or from the queue, whatever is in the stream then. -/
theorem input_is_one_stream_of_reply :
    ∃ m, Execution reply none ⟨[], ['!']⟩ [.executed .input, .handed '!', .executed .out, .executed .halt]
        (.ok ⟨.halted, m, ⟨[], []⟩⟩) ∧
      (⟨['!'], ['?']⟩ : Feed).text.take 1 = ([] ++ ['!']).take 1 ∧
      Execution reply none ⟨['!'], ['?']⟩
        [.executed .input, .handed '!', .executed .out, .executed .halt]
        (.ok ⟨.halted, m, ⟨[], ['?']⟩⟩) := by
  obtain ⟨m, hrun⟩ := @reply_runs ⟨[], ['!']⟩ ⟨[], []⟩ '!' rfl (by decide)
  have hagree : (⟨['!'], ['?']⟩ : Feed).text.take 1 = ([] ++ ['!']).take 1 := rfl
  obtain ⟨-, -, -, -, hcausal⟩ := input_is_one_stream reply none [] ['!']
  have hother := ((hcausal ⟨['!'], ['?']⟩).1 1 hagree).2 _ _ hrun (Nat.le_refl 1) nofun
  exact ⟨m, hrun, hagree, hother⟩

end Console
end WordMachine
