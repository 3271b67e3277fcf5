import Mathlib.Control.Monad.Basic
import WordMachine.Proofs.Asm.Listing
import WordMachine.Proofs.Cli.Outcome

/-! How the command ends. Whatever the files hold, it ends with one of three codes, unless a text that it
reads is none, or a number that it reads or tells has too many digits. A run that succeeds ends with the
machine halted by its program, a failure is told by its one diagnostic, and what is printed is what the
machine has sent out. -/

namespace WordMachine.Cli

/-- Code points below the surrogates are sent out as they are. -/
theorem toNat_sentText {codePoints : List Nat} (h : ∀ c ∈ codePoints, c ≤ 0x8007) :
    (sentText codePoints).toList.map Char.toNat = codePoints := by
  rw [sentText, String.toList_ofList, List.map_map]
  refine (List.map_congr_left fun c hc => ?_).trans (List.map_id _)
  have := h c hc
  exact Utf8.toNat_ofNat (.inl (by omega))

variable {budget : Nat} {fs : Files} {args : List String} {stdin : List Char}

theorem Names.not_nul {name : String} (h : Names args name)
    (hnul : ∀ arg ∈ args, '\x00' ∉ arg.toList) : '\x00' ∉ name.toList := by
  obtain ⟨o, plain, hargs, hname⟩ := h
  obtain ⟨arg, harg, hsuffix⟩ := exists_suffix_of_accepted hargs hname
  exact fun hmem => hnul arg harg (hsuffix.subset hmem)

variable {r : Report}

/-- A run that goes on behind the budget: it has no limit, and if it ends at all then with more
instructions than that. -/
def Unfinished (budget : Nat) (fs : Files) (args : List String) (stdin : List Char) : Prop :=
  ∃ o file words queued, Asks fs args o file words queued ∧ o.limit = none ∧
    ∀ es out, Console.Execution words none ⟨queued, stdin⟩ es (.ok out) →
      budget < Console.instructions es

theorem Leaves.exit (h : Leaves budget fs args stdin r) (hnul : ∀ arg ∈ args, '\x00' ∉ arg.toList) :
    (∃ n, n ≤ 2 ∧ r.exit = .code n) ∨ (∃ why, r.exit = .undecodable why) ∨
      (∃ why, r.exit = .numeral why) ∨ r.exit = .unfinished ∧ Unfinished budget fs args stdin := by
  cases h with
  | help | stored | halted => exact .inl ⟨0, by decide, rfl⟩
  | failed | stopped | cut => exact .inl ⟨1, by decide, rfl⟩
  | refused => exact .inl ⟨2, by decide, rfl⟩
  | unusableName hname hmem => exact absurd hmem (hname.not_nul hnul)
  | undecodable => exact .inr (.inl ⟨_, rfl⟩)
  | overlongSource | overlongLimit => exact .inr (.inr (.inl ⟨_, rfl⟩))
  | unfinished hasks hnone hrun hcut =>
    refine .inr (.inr (.inr ⟨rfl, _, _, _, _, hasks, hnone, ?_⟩))
    intro es out h
    exact hrun.lt_instructions hcut h

theorem Leaves.succeeded (h : Leaves budget fs args stdin r) (hexit : r.exit = .code 0) :
    Request.ofArgs args = .help ∨ (∃ o plain name, Request.ofArgs args = .accepted o plain ∧ o.output = some name) ∨
      ∃ o file out, Ran fs args stdin o file out ∧ out.machine.status = .halted none := by
  cases h with
  | help hargs => exact .inl hargs
  | stored hloads ho =>
    obtain ⟨_, _, hargs, -, -⟩ := hloads
    exact .inr (.inl ⟨_, _, _, hargs, ho⟩)
  | halted hran hstatus => exact .inr (.inr ⟨_, _, _, hran, hstatus⟩)
  | _ => cases hexit

theorem Leaves.diagnosed (h : Leaves budget fs args stdin r) (hexit : r.exit = .code 1) :
    ∃ d : Diagnostic, r.stderr = d.text ++ "\n" ∧ (Fails fs args d ∨
      ∃ o file out, Ran fs args stdin o file out ∧ diagnostic? file o.limit out.ending = some d) := by
  cases h with
  | failed hfails => exact ⟨_, rfl, .inl hfails⟩
  | cut hloads ho hdump hwrite => exact ⟨_, rfl, .inl (.output hloads ho hdump hwrite)⟩
  | stopped hran hd => exact ⟨_, rfl, .inr ⟨_, _, _, hran, hd⟩⟩
  | _ => cases hexit

/-- Without a run nothing is printed but the help. -/
theorem Leaves.printed (h : Leaves budget fs args stdin r) (hhelp : Request.ofArgs args ≠ .help)
    (hasks : ¬ ∃ o file words queued, Asks fs args o file words queued) : r.stdout = "" := by
  cases h with
  | help hargs => exact absurd hargs hhelp
  | halted hran | stopped hran =>
    obtain ⟨_, _, _, h, -⟩ := hran
    exact absurd ⟨_, _, _, _, h⟩ hasks
  | unfinished h => exact absurd ⟨_, _, _, _, h⟩ hasks
  | overlongLimit hlimit =>
    obtain ⟨_, _, _, ⟨_, _, _, h, -⟩, -⟩ := hlimit
    exact absurd ⟨_, _, _, _, h⟩ hasks
  | _ => rfl

/-- Just a text that is none is what makes the command fail to read one. -/
theorem exit_undecodable_iff :
    (∃ why, (command budget fs args stdin).exit = .undecodable why) ↔ ∃ bytes, NoText fs args bytes := by
  constructor
  · rintro ⟨why, hexit⟩
    have hleaves := command_cases budget fs args stdin
    generalize command budget fs args stdin = r at hleaves hexit
    cases hleaves with
    | undecodable hbytes => exact ⟨_, hbytes⟩
    | _ => cases hexit
  · rintro ⟨bytes, hbytes⟩
    exact command_of_noText hbytes

/-- A source with a number that is not read, or not told, ends the command. -/
theorem OverlongSource.command {why : NumeralError} (h : OverlongSource fs args why) (budget : Nat)
    (stdin : List Char) : command budget fs args stdin = ⟨.numeral why, "", "", fs⟩ := by
  obtain ⟨hargs, hasm, hread, hcs, he, hwhy⟩ := h
  simp only [Cli.command, Job.ofArgs, hargs, hread, loadWords, hasm, if_true, hcs, he, Job.ofAsmError,
    hwhy, Job.run]

theorem OverlongLimit.exit {out : Outcome} (h : OverlongLimit fs args stdin out) (budget : Nat) :
    (command budget fs args stdin).exit = .numeral .unwritten := by
  obtain ⟨o, file, n, ⟨words, queued, es, hasks, hrun⟩, hcut, hlimit, hn⟩ := h
  rw [hlimit] at hrun
  rw [command_of_asks hasks, Console.run_executing, hlimit, stepsOf_eq, Option.getD_some,
    ← hrun.eq_converse]
  simp only [Console.report, hcut, Ending.report, if_neg hn]

theorem exit_numeral_iff {why : NumeralError} : (command budget fs args stdin).exit = .numeral why ↔
    OverlongSource fs args why ∨ why = .unwritten ∧ ∃ out, OverlongLimit fs args stdin out := by
  constructor
  · intro hexit
    have hleaves := command_cases budget fs args stdin
    generalize command budget fs args stdin = r at hleaves hexit
    cases hleaves with
    | overlongSource hsource =>
      cases hexit
      exact .inl hsource
    | overlongLimit hlimit =>
      cases hexit
      exact .inr ⟨rfl, _, hlimit⟩
    | _ => cases hexit
  · rintro (hsource | ⟨rfl, out, hlimit⟩)
    · exact congrArg Report.exit (hsource.command budget stdin)
    · exact hlimit.exit budget

/-- What is printed in a run that is asked for is what its machine has sent out. -/
theorem Asks.printed {o : Options} {file : String} {words : List Int} {queued : List Char}
    (h : Asks fs args o file words queued) (budget : Nat) (stdin : List Char) :
    ∃ out : Outcome, (∀ c ∈ out.machine.output, c ≤ 0x8007) ∧
      (command budget fs args stdin).stdout.toList.map Char.toNat = out.machine.output ∧
      ((command budget fs args stdin).exit ≠ .unfinished → Ran fs args stdin o file out) := by
  obtain ⟨hlen, hw⟩ := h.loads.range
  obtain ⟨es, out, hrun, hreport⟩ := exists_report budget fs stdin file queued o.limit hlen hw
  have hsent := (hrun.sent hw).1
  refine ⟨out, hsent, ?_, ?_⟩
  · rw [command_of_asks h, hreport]
    exact toNat_sentText hsent
  · rw [command_of_asks h, hreport]
    intro hexit
    refine h.ran hrun fun hnone hcut => hexit ?_
    simp only [Console.report, hcut, hnone, Ending.report]

/-- How a command ends, if no argument holds the character that no name can hold. It ends with one of
three codes, or goes on without a limit when the budget is used up; else it has met a text that is none,
and this is how it ends whenever it reads one, or a number with too many digits: in the source, or the
limit that cuts a run off. A run without fault is behind the first code, unless help or an image was asked
for; exactly one diagnostic, that of its cause, comes with the second. And all that is printed, but for
the help, is what the machine of the run has sent out: nothing without a run, and never a surrogate. -/
theorem command_never_crashes (budget : Nat) (fs : Files) (args : List String) (stdin : List Char)
    (hnul : ∀ arg ∈ args, '\x00' ∉ arg.toList) :
    let r := command budget fs args stdin
    ((∃ n, n ≤ 2 ∧ r.exit = .code n) ∨ (∃ why, r.exit = .undecodable why) ∨
      (∃ why, r.exit = .numeral why) ∨ r.exit = .unfinished ∧ Unfinished budget fs args stdin) ∧
    (∀ why, r.exit = .numeral why ↔
      OverlongSource fs args why ∨ why = .unwritten ∧ ∃ out, OverlongLimit fs args stdin out) ∧
    ((∃ why, r.exit = .undecodable why) ↔ ∃ bytes, NoText fs args bytes) ∧
    (r.exit = .code 0 → Request.ofArgs args ≠ .help →
      (∀ settings plain, Reads args settings plain → outputs settings = []) →
      ∃ o file out, Ran fs args stdin o file out ∧ out.machine.status = .halted none) ∧
    (r.exit = .code 1 → ∃ d : Diagnostic, r.stderr = d.text ++ "\n" ∧
      (Fails fs args d ∨ ∃ o file out, Ran fs args stdin o file out ∧
        diagnostic? file o.limit out.ending = some d)) ∧
    (Request.ofArgs args ≠ .help → (∀ c ∈ r.stdout.toList, c.toNat ≤ 0x8007) ∧
      (r.exit ≠ .unfinished →
        (∃ o file out, Ran fs args stdin o file out ∧
          r.stdout.toList.map Char.toNat = out.machine.output) ∨
        (¬ ∃ o file words queued, Asks fs args o file words queued) ∧ r.stdout = "")) := by
  intro r
  have hleaves : Leaves budget fs args stdin r := command_cases budget fs args stdin
  refine ⟨hleaves.exit hnul, fun why => exit_numeral_iff, exit_undecodable_iff, ?_, hleaves.diagnosed, ?_⟩
  · intro hexit hhelp hnone
    rcases hleaves.succeeded hexit with hargs | ⟨o, plain, name, hargs, ho⟩ | hran
    · exact absurd hargs hhelp
    · obtain ⟨settings, hreads, rfl⟩ := ofArgs_eq_accepted_iff.1 hargs
      rw [output_ofSettings, hnone settings plain hreads] at ho
      cases ho
    · exact hran
  · intro hhelp
    by_cases hasks : ∃ o file words queued, Asks fs args o file words queued
    · obtain ⟨o, file, words, queued, h⟩ := hasks
      obtain ⟨out, hsent, hstdout, hran⟩ := h.printed budget stdin
      refine ⟨?_, fun hexit => .inl ⟨o, file, out, hran hexit, hstdout⟩⟩
      intro c hc
      exact hsent c.toNat (hstdout ▸ List.mem_map_of_mem hc)
    · have hnothing := hleaves.printed hhelp hasks
      refine ⟨?_, fun _ => .inr ⟨hasks, hnothing⟩⟩
      rw [hnothing]
      exact nofun

/-- A directory with a program that sends a character back, and a file that is no text. -/
def shelf : Files :=
  { here := ["shelf"], directories := [],
    contents := [(["shelf", "reply.bin"], Console.reply.flatMap Image.bytesOf),
      (["shelf", "scrap"], [0x41, 0xC0])] }

/-- The program on the shelf, as it is run with just the instructions that it takes. -/
theorem asks_reply :
    Asks shelf ["--limit", "4", "reply.bin"] ⟨false, none, none, some 4⟩ "reply.bin" Console.reply [] := by
  have hread : shelf.read "reply.bin" = .ok (Console.reply.flatMap Image.bytesOf) := by
    decide +kernel
  have hwords : loadWords false "reply.bin" (Console.reply.flatMap Image.bytesOf) =
      .ok Console.reply := loadWords_eq_ok_iff.2 (.inr ⟨rfl, rfl⟩)
  exact ⟨⟨[], _, by decide +kernel, hread, hwords⟩, rfl, .nothing⟩

theorem exit_reply :
    (command 0 shelf ["--limit", "4", "reply.bin"] ['!']).exit = .code 0 := by
  obtain ⟨m, hrun⟩ := @Console.reply_runs ⟨[], ['!']⟩ ⟨[], []⟩ '!' rfl (by decide)
  obtain ⟨m₀, hload, hconcludes⟩ := hrun.loaded
  have hwithin : Console.Concludes (some 4) ⟨0, m₀, ⟨[], ['!']⟩⟩ _ _ :=
    hconcludes.within nofun (by simp only; decide)
  have heq := (Console.Execution.concluded hload hwithin).eq_converse
  rw [command_of_asks asks_reply, Console.run_executing]
  exact heq ▸ rfl

theorem command_never_crashes_of_shelf :
    (∃ why, (command 0 shelf ["--asm", "scrap"] []).exit = .undecodable why) ∧
    ∃ o file out, Ran shelf ["--limit", "4", "reply.bin"] ['!'] o file out ∧
      out.machine.status = .halted none := by
  refine ⟨?_, ?_⟩
  · have hargs : Request.ofArgs ["--asm", "scrap"] = .accepted ⟨true, none, none, none⟩ ["scrap"] := by
      decide +kernel
    have hread : shelf.read "scrap" = .ok [0x41, 0xC0] := by decide +kernel
    have hinvalid : ¬ Utf8.Valid [0x41, 0xC0] :=
      Utf8.exists_decode_eq_error_iff.1 ⟨⟨1, 0xC0, 1, .invalidStart⟩, by decide +kernel⟩
    exact (command_never_crashes 0 shelf ["--asm", "scrap"] [] (by decide)).2.2.1.2
      ⟨_, .source hargs rfl hread hinvalid⟩
  · have hargs : Request.ofArgs ["--limit", "4", "reply.bin"] =
        .accepted ⟨false, none, none, some 4⟩ ["reply.bin"] := by decide +kernel
    refine (command_never_crashes 0 shelf ["--limit", "4", "reply.bin"] ['!'] (by decide)).2.2.2.1
      exit_reply (by rw [hargs]; exact nofun) ?_
    intro settings plain hreads
    have ho := hargs.symm.trans hreads.ofArgs
    injection ho with ho
    rw [← List.getLast?_eq_none_iff, ← output_ofSettings, ← ho]

/-- A directory with a source whose one number has a great many zeros in front. -/
def zeros : Files :=
  { here := ["zeros"], directories := [],
    contents := [(["zeros", "a.asm"], Asm.manyZeros.flatMap String.utf8EncodeChar)] }

/-- No code, though the source is a text: this is how the command ends where the zeros are too many. -/
theorem zeros_end_command :
    (∀ arg ∈ ["--asm", "a.asm"], '\x00' ∉ arg.toList) ∧
      (∃ bytes, zeros.read "a.asm" = .ok bytes ∧ Utf8.Valid bytes) ∧
      command 0 zeros ["--asm", "a.asm"] [] = ⟨.numeral (.unread 4301), "", "", zeros⟩ := by
  have hargs : Request.ofArgs ["--asm", "a.asm"] = .accepted ⟨true, none, none, none⟩ ["a.asm"] := by
    decide +kernel
  have hread : zeros.read "a.asm" = .ok (Asm.manyZeros.flatMap String.utf8EncodeChar) := rfl
  have hdecode := Utf8.decode_eq_ok_iff.2 (rfl : Asm.manyZeros.flatMap String.utf8EncodeChar = _)
  have htext : readText (Asm.manyZeros.flatMap String.utf8EncodeChar) = .ok Asm.manyZeros := by
    have hreturn : '\r' ∉ Asm.manyZeros := by
      rw [Asm.manyZeros, List.mem_append, List.mem_append, not_or, not_or]
      exact ⟨by decide, fun h => absurd (List.eq_of_mem_replicate h) (by decide), by decide⟩
    rw [readText, hdecode, Except.map, readNewlines_of_no_return hreturn]
  have hwords := Asm.assemble_of_parse_error Asm.parse_manyZeros
  refine ⟨by decide, ⟨_, hread, _, rfl⟩, ?_⟩
  exact OverlongSource.command (.intro hargs rfl hread htext hwords rfl) 0 []

end WordMachine.Cli
