import Mathlib.Data.List.Basic
import WordMachine.Proofs.Console.Stream
import WordMachine.Proofs.Machine.OperandWords

/-! A program that sends out a line. It reads a character, sends it out, and starts over unless it was
a newline. On any input it ends in one of three ways: with the first newline, for want of more input,
or with a character that does not fit in a word. By then it has sent out what stands before. -/

namespace WordMachine

namespace Asm

def lineEchoSource : String :=
  "\nloop:   in r0\n        out r0\n        eq r1 r0 '\\n'\n        jf r1 loop\n        halt\n"

def lineEcho : List Int := [20, 32768, 19, 32768, 4, 32769, 32768, 10, 8, 32769, 0, 0]

theorem lineEcho_parsed : parse lineEchoSource = .ok
    [⟨1, .label "loop"⟩, ⟨9, .instruction .input [⟨12, .register 0⟩]⟩,
     ⟨23, .instruction .out [⟨27, .register 0⟩]⟩,
     ⟨38, .instruction .eq [⟨41, .register 1⟩, ⟨44, .register 0⟩, ⟨47, .char "\n"⟩]⟩,
     ⟨60, .instruction .jf [⟨63, .register 1⟩, ⟨66, .label "loop"⟩]⟩,
     ⟨79, .instruction .halt []⟩] := by
  decide +kernel

theorem lineEcho_assembled : assemble lineEchoSource = .ok lineEcho := by
  rw [assemble, lineEcho_parsed]
  rfl

end Asm

/-! ### Instructions -/

namespace Machine
open Asm

section Steps
variable {memory : Memory} (hcode : memory.Holds 0 lineEcho) {regs : Vector Int 8} {emitted : List Nat}
include hcode

theorem in_of_echo {status : Status} (hstatus : status = .ready ∨ status = .running) :
    (⟨memory, regs, [], 0, status, emitted⟩ : Machine).step =
      (.ok .input, ⟨memory, regs, [], 2, .awaiting 0, emitted⟩) := by
  let m : Machine := ⟨memory, regs, [], 0, status, emitted⟩
  have hargs : m.operands Opcode.input.signature 1 = .ok (0, ()) :=
    operands_write (r := 0) (hcode 1 _ rfl) rfl
  exact step_of_fetched (isActive_iff.2 hstatus) (fetched_of_holds hcode (by decide) rfl) hargs rfl

theorem out_of_echo {c : Char} (hc : regs.get 0 = c.toNat) (hfits : c.toNat ≤ 32767) :
    (⟨memory, regs, [], 2, .running, emitted⟩ : Machine).step =
      (.ok .out, ⟨memory, regs, [], 4, .running, c.toNat :: emitted⟩) := by
  let m : Machine := ⟨memory, regs, [], 2, .running, emitted⟩
  have hargs : m.operands Opcode.out.signature 3 = .ok ((c.toNat : Int), ()) :=
    operands_register (r := 0) (hcode 3 _ rfl) hc rfl
  have heff : m.effect 4 .out ((c.toNat : Int), ()) = .ok (.emit c.toNat, 4) := by
    rw [effect, codePoint_of_range (by omega), Int.toNat_natCast]
  exact step_of_fetched rfl (fetched_of_holds hcode (by decide) rfl) hargs heff

theorem eq_of_echo {v : Int} (hv : regs.get 0 = v) :
    (⟨memory, regs, [], 4, .running, emitted⟩ : Machine).step =
      (.ok .eq, ⟨memory, regs.set 1 (if v = 10 then 1 else 0), [], 8, .running, emitted⟩) := by
  let m : Machine := ⟨memory, regs, [], 4, .running, emitted⟩
  have hargs : m.operands Opcode.eq.signature 5 = .ok (1, v, 10, ()) :=
    operands_write (r := 1) (hcode 5 _ rfl) <| operands_register (r := 0) (hcode 6 _ rfl) hv <|
      operands_literal (hcode 7 _ rfl) (by decide) rfl
  exact step_of_fetched rfl (fetched_of_holds hcode (by decide) rfl) hargs rfl

/-- The program is left if the comparison holds, and starts over if it does not. -/
theorem jf_of_echo {p : Prop} [Decidable p] (emitted : List Nat) (hv : regs.get 1 = if p then 1 else 0) :
    (⟨memory, regs, [], 8, .running, emitted⟩ : Machine).step =
      (.ok .jf, ⟨memory, regs, [], if p then 11 else 0, .running, emitted⟩) := by
  let m : Machine := ⟨memory, regs, [], 8, .running, emitted⟩
  have hargs : m.operands Opcode.jf.signature 9 = .ok (if p then 1 else 0, 0, ()) :=
    operands_register (r := 1) (hcode 9 _ rfl) hv (operands_literal (hcode 10 _ rfl) (by decide) rfl)
  have heff : m.effect 11 .jf (if p then 1 else 0, 0, ()) = .ok (.nothing, if p then 11 else 0) := by
    split <;> rfl
  exact step_of_fetched rfl (fetched_of_holds hcode (by decide) rfl) hargs heff

theorem halt_of_echo (regs : Vector Int 8) (emitted : List Nat) :
    (⟨memory, regs, [], 11, .running, emitted⟩ : Machine).step =
      (.ok .halt, ⟨memory, regs, [], 12, .halted none, emitted⟩) :=
  @step_of_fetched ⟨memory, regs, [], 11, .running, emitted⟩ .halt () .halt 12 rfl
    (fetched_of_holds hcode (by decide) rfl) rfl rfl

end Steps

end Machine

namespace Console
open Asm Machine

/-! ### Turns -/

/-- The characters of a line: none of them ends it, and each fits in a word. -/
def OnALine (cs : List Char) : Prop := ∀ c ∈ cs, c ≠ '\n' ∧ c.toNat ≤ 32767

/-- The program waits for a character, which goes to `dest`. -/
def waiting (dest : Register) (memory : Memory) (regs : Vector Int 8) (emitted : List Nat) : Machine :=
  ⟨memory, regs, [], 2, .awaiting dest, emitted⟩

section Turns
variable {memory : Memory} (hcode : memory.Holds 0 lineEcho) (n : Nat) (regs : Vector Int 8)
  (emitted : List Nat) {feed : Feed} {c : Char}

section Code
include hcode

/-- A character that fits in a word is taken, sent out and compared. -/
theorem proceeds_compared (hnext : [c] <+: feed.text) (hfits : c.toNat ≤ 32767) :
    ∃ regs', regs'.get 1 = (if c = '\n' then 1 else 0) ∧
      Proceeds none ⟨n, waiting 0 memory regs emitted, feed⟩ [.handed c, .executed .out, .executed .eq]
        ⟨n + 2, ⟨memory, regs', [], 8, .running, c.toNat :: emitted⟩, feed.drop 1⟩ := by
  have hsupply : (waiting 0 memory regs emitted).supply (String.singleton c) =
      .ok ⟨memory, regs.set 0 c.toNat, [], 2, .running, emitted⟩ := by
    have hlt : c.toNat < modulus := Nat.lt_succ_of_le hfits
    simp only [supply, waiting, String.toList_singleton, if_pos hlt]
    rfl
  have hchar : (regs.set 0 (c.toNat : Int)).get 0 = c.toNat := Vector.getElem_set_self _
  have hnewline : (c.toNat : Int) = 10 ↔ c = '\n' := by
    rw [← Char.toNat_inj]
    exact ⟨Int.ofNat.inj, congrArg Int.ofNat⟩
  refine ⟨_, ?_, .goes (turn_of_supply (Feed.next?_eq_some_iff.2 ⟨hnext, rfl⟩) hsupply) <|
    .goes (turn_of_step trivial (out_of_echo hcode hchar hfits)) <|
    .goes (turn_of_step trivial (eq_of_echo hcode hchar)) <| .rests _⟩
  exact (Vector.getElem_set_self _).trans (if_congr hnewline rfl rfl)

/-- A character on a line is sent out, and the program waits for the next one. -/
theorem proceeds_plain (hnext : [c] <+: feed.text) (hc : c ≠ '\n' ∧ c.toNat ≤ 32767) :
    ∃ es regs', Proceeds none ⟨n, waiting 0 memory regs emitted, feed⟩ es
      ⟨n + 4, waiting 0 memory regs' (c.toNat :: emitted), feed.drop 1⟩ := by
  obtain ⟨regs', hflag, hrun⟩ := proceeds_compared hcode n regs emitted hnext hc.2
  have hjf := jf_of_echo hcode (c.toNat :: emitted) hflag
  rw [if_neg hc.1] at hjf
  exact ⟨_, regs', hrun.append <| .goes (turn_of_step trivial hjf) <|
    .goes (turn_of_step trivial (in_of_echo hcode (.inr rfl))) (.rests _)⟩

/-- So are all characters of a line, one after another. -/
theorem proceeds_line {a : List Char} (ha : OnALine a) (htext : a <+: feed.text) :
    ∃ es n' regs', Proceeds none ⟨n, waiting 0 memory regs emitted, feed⟩ es
      ⟨n', waiting 0 memory regs' ((a.map Char.toNat).reverse ++ emitted), feed.drop a.length⟩ := by
  -- on what is left of the line, which is what the rest of the feed begins with
  induction a generalizing feed n regs emitted with
  | nil =>
    rw [List.length_nil, Feed.drop_zero]
    exact ⟨_, _, _, .rests _⟩
  | cons c a ih =>
    obtain ⟨hc, ha⟩ := List.forall_mem_cons.1 ha
    obtain ⟨u, hu⟩ := htext
    have hnext : [c] <+: feed.text := ⟨a ++ u, hu⟩
    have hrest : a <+: (feed.drop 1).text := ⟨u, by rw [Feed.text_drop, ← hu]; rfl⟩
    obtain ⟨es, regs₁, hturn⟩ := proceeds_plain hcode n regs emitted hnext hc
    obtain ⟨es', n', regs₂, hrun⟩ := ih (n + 4) regs₁ (c.toNat :: emitted) ha hrest
    rw [Feed.drop_drop, Nat.add_comm 1] at hrun
    refine ⟨es ++ es', n', regs₂, ?_⟩
    rw [List.map_cons, List.reverse_cons, List.append_assoc, List.length_cons]
    exact hturn.append hrun

/-- A newline is sent out as well, and then the program halts. -/
theorem concludes_newline (hnext : ['\n'] <+: feed.text) :
    ∃ es regs', Concludes none ⟨n, waiting 0 memory regs emitted, feed⟩ es
      ⟨.halted, ⟨memory, regs', [], 12, .halted none, 10 :: emitted⟩, feed.drop 1⟩ := by
  obtain ⟨regs', hflag, hrun⟩ := proceeds_compared hcode n regs emitted hnext (by decide)
  have hjf := jf_of_echo hcode (10 :: emitted) hflag
  rw [if_pos rfl] at hjf
  exact ⟨_, regs', Concludes.after hrun <| .goes (turn_of_step trivial hjf) <|
    .goes (turn_of_step trivial (halt_of_echo hcode _ _)) (.ends (turn_of_halted rfl))⟩

end Code

/-- Where the input ends, the program goes on waiting. -/
theorem concludes_endOfInput (memory : Memory) (htext : feed.text = []) :
    Concludes none ⟨n, waiting 0 memory regs emitted, feed⟩ []
      ⟨.endOfInput, waiting 0 memory regs emitted, feed⟩ := by
  have hturn := @turn_of_awaiting none ⟨n, waiting 0 memory regs emitted, feed⟩ 0 rfl
  rw [Feed.next?_eq_none_iff.2 htext] at hturn
  exact .ends hturn

/-- So it does where the next character does not fit in a word, which is refused. -/
theorem concludes_tooWide (memory : Memory) (hnext : [c] <+: feed.text) (hwide : 32767 < c.toNat) :
    Concludes none ⟨n, waiting 0 memory regs emitted, feed⟩ [.handed c]
      ⟨.refused (.tooWide c), waiting 0 memory regs emitted, feed.drop 1⟩ := by
  have hsupply : (waiting 0 memory regs emitted).supply (String.singleton c) = .error (.tooWide c) := by
    have hnot : ¬ c.toNat < modulus := Nat.not_lt.2 hwide
    simp only [supply, waiting, String.toList_singleton, if_neg hnot]
  have hturn := @turn_of_awaiting none ⟨n, waiting 0 memory regs emitted, feed⟩ 0 rfl
  simp only [Feed.next?_eq_some_iff.2 ⟨hnext, rfl⟩, hsupply] at hturn
  exact .ends hturn

end Turns

/-! ### Runs -/

/-- The run of the words on the feed, without a limit, has this outcome; and the command that runs
them leaves this behind, if its budget is large enough. -/
structure Yields (words : List Int) (feed : Feed) (o : Outcome) (exit : Cli.Exit)
    (stdout stderr : String) : Prop where
  runs : ∃ es, Runs words none feed es (.ok o)
  reports : ∃ n, ∀ budget ≥ n, ∀ file files,
    (Cli.Job.executing file words feed.queued none).run budget files feed.stream =
      ⟨exit, stdout, stderr, files⟩

section Runs
variable {words : List Int} {limit : Option Int} {feed : Feed} {es es' : List Event} {s : Moment}
  {o : Outcome}

theorem Reaches.execution (h : Reaches words limit feed es s) (h' : Concludes limit s es' o) :
    Execution words limit feed (es ++ es') (.ok o) := by
  obtain ⟨m, hload, hrun⟩ := h
  exact .concluded hload (.after hrun h')

theorem Execution.run_eq (h : Execution words none feed es (.ok o)) (hcut : o.ending ≠ .outOfSteps)
    {budget : Nat} (hbudget : instructions es ≤ budget) (file : String) (files : Cli.Files) :
    (Cli.Job.executing file words feed.queued none).run budget files feed.stream =
      report file none files (.ok o) := by
  obtain ⟨m, hload, hrun⟩ := h.loaded
  have hwithin : Execution words (some budget) feed es (.ok o) :=
    .concluded hload (hrun.within hcut (by simpa using hbudget))
  rw [run_executing, hwithin.eq_converse, Int.toNat_natCast]
  rfl

theorem sentText_map_toNat (cs : List Char) : Cli.sentText (cs.map Char.toNat) = String.ofList cs := by
  have hchars : Char.ofNat ∘ Char.toNat = id := funext Char.ofNat_toNat
  rw [Cli.sentText, List.map_map, hchars, List.map_id]

theorem Execution.yields {exit : Cli.Exit} {stderr : String} {cs : List Char}
    (h : Execution words none feed es (.ok o)) (hcut : o.ending ≠ .outOfSteps)
    (hout : o.machine.output = cs.map Char.toNat)
    (hreport : ∀ file, Cli.Ending.report file none o.ending = (exit, stderr)) :
    Yields words feed o exit (String.ofList cs) stderr := by
  refine ⟨⟨es, h.runs⟩, instructions es, fun budget hbudget file files => ?_⟩
  rw [h.run_eq hcut hbudget, report, hreport, hout, sentText_map_toNat]

end Runs

theorem holds_lineEcho : (Memory.ofList lineEcho).Holds 0 lineEcho := Memory.holds_ofList (by decide)

section Ends
variable {feed : Feed} {a b : List Char}

/-- What is on a line is sent out, and the program waits for what is behind it. -/
theorem reaches_waiting (ha : OnALine a) (htext : feed.text = a ++ b) :
    ∃ es n regs, Reaches lineEcho none feed es
      ⟨n, waiting 0 (.ofList lineEcho) regs (a.map Char.toNat).reverse, feed.drop a.length⟩ := by
  obtain ⟨es, n, regs, hline⟩ :=
    proceeds_line holds_lineEcho 1 (.replicate 8 0) [] ha ⟨b, htext.symm⟩
  rw [List.append_nil] at hline
  exact ⟨_, n, regs, _, rfl, .goes (turn_of_step trivial (in_of_echo holds_lineEcho (.inl rfl))) hline⟩

theorem text_drop_length (htext : feed.text = a ++ b) : (feed.drop a.length).text = b := by
  rw [Feed.text_drop, htext, List.drop_left' rfl]

theorem yields_of_newline (htext : feed.text = a ++ '\n' :: b) (ha : OnALine a) :
    ∃ m, m.status = .halted none ∧
      Yields lineEcho feed ⟨.halted, m, feed.drop (a.length + 1)⟩ (.code 0)
        (String.ofList (a ++ ['\n'])) "" := by
  have hnext : ['\n'] <+: (feed.drop a.length).text := ⟨b, (text_drop_length htext).symm⟩
  obtain ⟨es, n, regs, hline⟩ := reaches_waiting ha htext
  obtain ⟨es', regs', hend⟩ :=
    concludes_newline holds_lineEcho n regs (a.map Char.toNat).reverse hnext
  rw [Feed.drop_drop] at hend
  refine ⟨_, rfl, (hline.execution hend).yields nofun ?_ fun _ => rfl⟩
  simp [output]

theorem yields_of_endOfInput (ha : OnALine feed.text) :
    ∃ m, m.status = .awaiting 0 ∧
      Yields lineEcho feed ⟨.endOfInput, m, feed.drop feed.text.length⟩ (.code 1)
        (String.ofList feed.text) "error: end of input\n" := by
  have htext : feed.text = feed.text ++ [] := (List.append_nil _).symm
  obtain ⟨es, n, regs, hline⟩ := reaches_waiting ha htext
  have hend := concludes_endOfInput n regs (feed.text.map Char.toNat).reverse (.ofList lineEcho)
    (text_drop_length htext)
  exact ⟨_, rfl, (hline.execution hend).yields nofun (List.reverse_reverse _) fun _ => rfl⟩

theorem yields_of_tooWide {c : Char} (htext : feed.text = a ++ c :: b) (ha : OnALine a)
    (hwide : 32767 < c.toNat) :
    ∃ m, m.status = .awaiting 0 ∧
      Yields lineEcho feed ⟨.refused (.tooWide c), m, feed.drop (a.length + 1)⟩ (.code 1)
        (String.ofList a) ("error: " ++ (Refusal.tooWide c).message ++ "\n") := by
  have hnext : [c] <+: (feed.drop a.length).text := ⟨b, (text_drop_length htext).symm⟩
  obtain ⟨es, n, regs, hline⟩ := reaches_waiting ha htext
  have hend := concludes_tooWide n regs (a.map Char.toNat).reverse (.ofList lineEcho) hnext hwide
  rw [Feed.drop_drop] at hend
  exact ⟨_, rfl, (hline.execution hend).yields nofun (List.reverse_reverse _) fun _ => rfl⟩

end Ends

/-- The program on any input, some of it queued and the rest in a stream. It sends out the characters
up to the first newline, and this one as well, and halts; what is behind it is left in the feed. If
there is no newline it sends out everything and is told that the input has ended. If a character does
not fit in a word, it has sent out the ones in front of it, and still waits when this one is refused. -/
theorem lines_are_echoed (q s : List Char) :
    assemble lineEchoSource = .ok lineEcho ∧
    (∀ a b, q ++ s = a ++ '\n' :: b → OnALine a → ∃ m, m.status = .halted none ∧
      Yields lineEcho ⟨q, s⟩ ⟨.halted, m, Feed.drop (a.length + 1) ⟨q, s⟩⟩ (.code 0)
        (String.ofList (a ++ ['\n'])) "") ∧
    (OnALine (q ++ s) → ∃ m, m.status = .awaiting 0 ∧
      Yields lineEcho ⟨q, s⟩ ⟨.endOfInput, m, Feed.drop (q ++ s).length ⟨q, s⟩⟩ (.code 1)
        (String.ofList (q ++ s)) "error: end of input\n") ∧
    ∀ a c b, q ++ s = a ++ c :: b → OnALine a → 32767 < c.toNat → ∃ m, m.status = .awaiting 0 ∧
      Yields lineEcho ⟨q, s⟩ ⟨.refused (.tooWide c), m, Feed.drop (a.length + 1) ⟨q, s⟩⟩ (.code 1)
        (String.ofList a) ("error: " ++ (Refusal.tooWide c).message ++ "\n") := by
  refine ⟨lineEcho_assembled, ?_, ?_, ?_⟩
  · intro a b htext ha
    exact @yields_of_newline ⟨q, s⟩ a b htext ha
  · exact @yields_of_endOfInput ⟨q, s⟩
  · intro a c b htext ha hwide
    exact @yields_of_tooWide ⟨q, s⟩ a b c htext ha hwide

/-- A newline in the stream, none, and a character that is too wide. -/
theorem lines_are_echoed_of_inputs :
    (∃ m, m.status = .halted none ∧
      Yields lineEcho ⟨['h', 'i'], ['!', '\n', '?']⟩ ⟨.halted, m, ⟨[], ['?']⟩⟩ (.code 0) "hi!\n" "") ∧
    (∃ m, m.status = .awaiting 0 ∧
      Yields lineEcho ⟨['h'], ['i']⟩ ⟨.endOfInput, m, ⟨[], []⟩⟩ (.code 1) "hi"
        "error: end of input\n") ∧
    ∃ m, m.status = .awaiting 0 ∧
      Yields lineEcho ⟨['h', '😀', '\n'], ['i']⟩ ⟨.refused (.tooWide '😀'), m, ⟨['\n'], ['i']⟩⟩ (.code 1)
        "h" "error: character '😀' does not fit in a word\n" := by
  have hline : OnALine ['h', 'i', '!'] := by simp [OnALine]
  have hall : OnALine ['h', 'i'] := by simp [OnALine]
  have hfront : OnALine ['h'] := by simp [OnALine]
  have hrefused :=
    (lines_are_echoed ['h', '😀', '\n'] ['i']).2.2.2 ['h'] '😀' ['\n', 'i'] rfl hfront (by decide)
  have hmessage : "error: " ++ (Refusal.tooWide '😀').message ++ "\n" =
      "error: character '😀' does not fit in a word\n" := by decide +kernel
  rw [hmessage] at hrefused
  exact ⟨(lines_are_echoed ['h', 'i'] ['!', '\n', '?']).2.1 ['h', 'i', '!'] ['?'] rfl hline,
    (lines_are_echoed ['h'] ['i']).2.2.1 hall, hrefused⟩

end Console
end WordMachine
