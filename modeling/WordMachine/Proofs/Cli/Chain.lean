import Mathlib.Control.Monad.Basic
import WordMachine.Proofs.Cli.Loading
import WordMachine.Proofs.Cli.Writing
import WordMachine.Proofs.Image

/-! From a source to a run. What the assembler puts out can be written as an image, the image gives
the words back, and the machine accepts them. So it makes no difference whether a source is run at
once, or first written as an image that is run then: only a fault is reported under the name of the
other file. -/

namespace WordMachine.Cli

/-! ### Arguments -/

/-- The arguments that name a file. A name that looks like an option stands behind two dashes. -/
def fileArgs (name : String) : List String :=
  if Argument.ofText name.toList = .plain then [name] else ["--", name]

/-- The arguments that run a program file, with a file of input and a limit if these are given. -/
def runArgs (input limit : Option String) (file : String) : List String :=
  input.elim [] (["--input", ·]) ++ limit.elim [] (["--limit", ·]) ++ fileArgs file

section Arguments
variable (o : Options) (rest : List String)

theorem read_fileArgs (name : String) : Request.read o [] (fileArgs name) = .accepted o [name] := by
  unfold fileArgs
  split
  · rename_i hplain
    rw [Request.read, hplain]
    rfl
  · rw [Request.read]
    rfl

theorem read_asm :
    Request.read o [] ("--asm" :: rest) = Request.read { o with asm := true } [] rest := by
  rw [Request.read]
  rfl

theorem read_output (name : String) :
    Request.read o [] ("-o" :: name :: rest) = Request.read { o with output := some name } [] rest := by
  rw [Request.read]
  rfl

theorem read_input (name : String) :
    Request.read o [] ("--input" :: name :: rest) =
      Request.read { o with input := some name } [] rest := by
  rw [Request.read]
  rfl

theorem read_limit (text : String) :
    Request.read o [] ("--limit" :: text :: rest) =
      match integer? text with
      | some n => Request.read { o with limit := some n } [] rest
      | none => .refused (.notAnInteger .limit text) := by
  have hlong : Argument.ofText "--limit".toList = .long "--limit".toList none := by decide
  have hflag : Flag.matching "--limit".toList = [.limit] := by decide
  rw [Request.read]
  simp only [hlong, hflag, Flag.takesValue, Options.set]
  cases integer? text <;> rfl

end Arguments

/-- What the arguments of a run ask for does not depend on the file: they are refused for their limit,
or accepted. -/
theorem runArgs_cases (input limit : Option String) :
    (∃ n, ∀ asm file, Request.read ⟨asm, none, none, none⟩ [] (runArgs input limit file) =
      .accepted ⟨asm, none, input, n⟩ [file]) ∨
    ∃ why, ∀ asm file, Request.read ⟨asm, none, none, none⟩ [] (runArgs input limit file) =
      .refused why := by
  have hinput (asm : Bool) (rest : List String) :
      Request.read ⟨asm, none, none, none⟩ [] (input.elim [] (["--input", ·]) ++ rest) =
        Request.read ⟨asm, none, input, none⟩ [] rest := by
    cases input with
    | none => rfl
    | some name => exact read_input _ _ _
  simp only [runArgs, List.append_assoc, hinput]
  cases limit with
  | none => exact .inl ⟨none, fun asm file => read_fileArgs _ _⟩
  | some text =>
    simp only [Option.elim, List.cons_append, List.nil_append, read_limit]
    cases integer? text with
    | some n => exact .inl ⟨some n, fun asm file => read_fileArgs _ _⟩
    | none => exact .inr ⟨_, fun asm file => rfl⟩

/-! ### Runs -/

/-- What is assembled is accepted by the machine. -/
theorem exists_machine {source : String} {words : List Int} (h : Asm.assemble source = .ok words) :
    ∃ m, Machine.load words = .ok m := by
  obtain ⟨hlen, hw⟩ := Asm.assemble_range h
  refine ⟨_, Machine.load_of_words hlen ?_⟩
  intro w hmem
  have := hw w hmem
  simp only [InRange, maxOperand, modulus] at this ⊢
  omega

/-- The reports of one run of a program that stands in two files: they differ at most in the name in
front of a fault. -/
structure Report.SameRun (file file' : String) (r r' : Report) : Prop where
  exit : r.exit = r'.exit
  stdout : r.stdout = r'.stdout
  stderr : r.stderr = r'.stderr ∨ ∃ t : Trap, r.stderr = file ++ ":" ++ t.message ++ "\n" ∧
    r'.stderr = file' ++ ":" ++ t.message ++ "\n"

section Runs
variable {fs fs' : Files} {file file' : String} {words : List Int} {m : Machine} {stdin : List Char}
  {budget : Nat}

theorem report_file (file file' : String) (limit : Option Int) (e : Ending) :
    (Ending.report file limit e).1 = (Ending.report file' limit e).1 ∧
      ((Ending.report file limit e).2 = (Ending.report file' limit e).2 ∨
        ∃ t : Trap, (Ending.report file limit e).2 = file ++ ":" ++ t.message ++ "\n" ∧
          (Ending.report file' limit e).2 = file' ++ ":" ++ t.message ++ "\n") := by
  match e with
  | .failed (.trapped t) => exact ⟨rfl, .inr ⟨t, rfl, rfl⟩⟩
  | .halted | .endOfInput | .refused _ | .failed (.refused _) | .failed (.output _)
  | .failed (.untold _) => exact ⟨rfl, .inl rfl⟩
  | .outOfSteps => cases limit <;> exact ⟨rfl, .inl rfl⟩

theorem sameRun_executing (hm : Machine.load words = .ok m) (queued : List Char) (limit : Option Int) :
    ((Job.executing file words queued limit).run budget fs stdin).SameRun file file'
      ((Job.executing file' words queued limit).run budget fs' stdin) := by
  simp only [Job.executing, hm, Job.run]
  obtain ⟨hexit, hstderr⟩ := report_file file file' limit
    (m.converse (stepsOf budget limit) ⟨queued, stdin⟩).ending
  exact ⟨hexit, rfl, hstderr⟩

/-- One program in two files, run with the same file of input. -/
theorem sameRun_ofWords (hm : Machine.load words = .ok m) {input : Option String}
    (hinput : ∀ f, input = some f → fs.read f = fs'.read f) (asm asm' : Bool) (limit : Option Int) :
    ((Job.ofWords fs.read ⟨asm, none, input, limit⟩ file words).run budget fs stdin).SameRun file file'
      ((Job.ofWords fs'.read ⟨asm', none, input, limit⟩ file' words).run budget fs' stdin) := by
  cases input with
  | none => exact sameRun_executing hm [] limit
  | some f =>
    simp only [Job.ofWords, hinput f rfl]
    cases fs'.read f with
    | error e => cases e <;> exact ⟨rfl, rfl, .inl rfl⟩
    | ok bytes =>
      cases htext : readText bytes with
      | error e =>
        simp only [htext]
        exact ⟨rfl, rfl, .inl rfl⟩
      | ok queued =>
        simp only [htext]
        exact sameRun_executing hm queued limit

/-- A source and the image of its words are run alike, if the input is the same. -/
theorem sameRun_of_image {src out : String} {bytes image : List UInt8} {cs : List Char}
    (hsrc : fs.read src = .ok bytes) (htext : readText bytes = .ok cs)
    (hwords : Asm.assemble (String.ofList cs) = .ok words) (hm : Machine.load words = .ok m)
    (hout : fs'.read out = .ok image) (himage : Image.load image = .ok words)
    {input : Option String} (hinput : ∀ f, input = some f → fs'.read f = fs.read f)
    (limit : Option String) :
    (command budget fs' (runArgs input limit out) stdin).SameRun out src
      (command budget fs ("--asm" :: runArgs input limit src) stdin) := by
  have hasm : ∀ rest, Request.ofArgs ("--asm" :: rest) = Request.read ⟨true, none, none, none⟩ [] rest :=
    fun rest => read_asm _ rest
  rcases runArgs_cases input limit with ⟨n, hargs⟩ | ⟨why, hargs⟩
  · have himage' : Loads fs' (runArgs input limit out) ⟨false, none, input, n⟩ out words :=
      ⟨[], _, hargs false out, hout, loadWords_eq_ok_iff.2 (.inr ⟨rfl, himage⟩)⟩
    have hsource : Loads fs ("--asm" :: runArgs input limit src) ⟨true, none, input, n⟩ src words :=
      ⟨[], _, (hasm _).trans (hargs true src), hsrc, loadWords_eq_ok_iff.2 (.inl ⟨rfl, cs, htext, hwords⟩)⟩
    rw [himage'.command, hsource.command]
    exact sameRun_ofWords hm hinput false true n
  · have hrefused : Request.ofArgs (runArgs input limit out) = .refused why := hargs false out
    rw [command, command, Job.ofArgs, Job.ofArgs, hrefused, hasm, hargs true src]
    exact ⟨rfl, rfl, .inl rfl⟩

/-- Assembling to a file does so and nothing else. -/
theorem command_storing {src out : String} {bytes image : List UInt8} {cs : List Char}
    (hsrc : fs.read src = .ok bytes) (htext : readText bytes = .ok cs)
    (hwords : Asm.assemble (String.ofList cs) = .ok words) (himage : Image.dump words = .ok image)
    (hwrite : fs.write out image = .ok fs') :
    command budget fs ("--asm" :: "-o" :: out :: fileArgs src) stdin = ⟨.code 0, "", "", fs'⟩ := by
  have hargs : Request.ofArgs ("--asm" :: "-o" :: out :: fileArgs src) =
      .accepted ⟨true, some out, none, none⟩ [src] := by
    rw [Request.ofArgs, read_asm, read_output, read_fileArgs]
    rfl
  have hloads : Loads fs ("--asm" :: "-o" :: out :: fileArgs src) ⟨true, some out, none, none⟩ src words :=
    ⟨[], _, hargs, hsrc, loadWords_eq_ok_iff.2 (.inl ⟨rfl, cs, htext, hwords⟩)⟩
  rw [hloads.command]
  simp only [Job.ofWords, Job.storing, himage, Job.run, hwrite]

end Runs

/-- The words that are assembled from a source make an image, which gives them back, and a machine.
So the source can be assembled to any file that can be written, other than its own; and a run of that
file is a run of the source, but for the name in front of a fault. The source may be run afterwards or
before. If it is run before, the file of input must be another file than the one that is written; and
if it cannot be read, the way of its name must not come through that one either, as it would then be
refused for another reason. -/
theorem image_runs_as_source :
    (∀ source words, Asm.assemble source = .ok words →
      words.length ≤ 32768 ∧ (∀ w ∈ words, 0 ≤ w ∧ w ≤ 32775) ∧
      (∃ image, Image.dump words = .ok image ∧ Image.load image = .ok words) ∧
      ∃ m, Machine.load words = .ok m) ∧
    ∀ (fs : Files) (src out : String) (bytes : List UInt8) (cs : List Char) (words : List Int),
      fs.read src = .ok bytes → readText bytes = .ok cs →
      Asm.assemble (String.ofList cs) = .ok words →
      fs.Writable out → fs.place out ≠ fs.place src →
      ∃ image fs', Image.dump words = .ok image ∧ fs.write out image = .ok fs' ∧
        (∀ budget stdin, command budget fs ("--asm" :: "-o" :: out :: fileArgs src) stdin =
          ⟨.code 0, "", "", fs'⟩) ∧
        ∀ budget stdin input limit,
          (command budget fs' (runArgs input limit out) stdin).SameRun out src
            (command budget fs' ("--asm" :: runArgs input limit src) stdin) ∧
          ((∀ f, input = some f →
              (∃ file, fs.read f = .ok file) ∧ fs.place f ≠ fs.place out ∨ fs.Bypasses f out) →
            (command budget fs' (runArgs input limit out) stdin).SameRun out src
              (command budget fs ("--asm" :: runArgs input limit src) stdin)) := by
  refine ⟨?_, ?_⟩
  · intro source words hwords
    obtain ⟨hlen, hw⟩ := Asm.assemble_range hwords
    exact ⟨hlen, hw, ⟨_, Image.dump_of_range hlen hw, Image.load_flatMap_bytesOf hlen hw⟩,
      exists_machine hwords⟩
  · intro fs src out bytes cs words hsrc htext hwords hwritable hplace
    obtain ⟨hlen, hw⟩ := Asm.assemble_range hwords
    obtain ⟨m, hm⟩ := exists_machine hwords
    have hdump := Image.dump_of_range hlen hw
    have himage := Image.load_flatMap_bytesOf hlen hw
    obtain ⟨fs', hwrite⟩ := hwritable (words.flatMap Image.bytesOf)
    have hout := Files.read_write hwrite
    refine ⟨_, fs', hdump, hwrite,
      fun budget stdin => command_storing hsrc htext hwords hdump hwrite, ?_⟩
    intro budget stdin input limit
    refine ⟨?_, ?_⟩
    · have hsrc' := Files.read_of_write_elsewhere hwrite hplace.symm hsrc
      exact sameRun_of_image hsrc' htext hwords hm hout himage (fun _ _ => rfl) limit
    · intro hother
      have hinput : ∀ f, input = some f → fs'.read f = fs.read f := by
        intro f hf
        refine Files.read_of_bypasses hwrite ?_
        rcases hother f hf with ⟨⟨file, hfile⟩, hne⟩ | hby
        · exact Files.bypasses_of_read hfile hwritable hne
        · exact hby
      exact sameRun_of_image hsrc htext hwords hm hout himage hinput limit

/-- A source that sends out what it is given and then fails. -/
def relaySource : String := "in r0\nout r0\npop r0"

/-- A directory with the source and a line of input. -/
def desk : Files :=
  { here := ["desk"], directories := [],
    contents := [(["desk", "relay.asm"], relaySource.toUTF8.data.toList),
      (["desk", "line.txt"], "A\n".toUTF8.data.toList)] }

theorem image_runs_as_source_of_relay :
    (∃ m, Machine.load [20, 32768, 19, 32768, 3, 32768] = .ok m) ∧
    ∃ image fs', Image.dump [20, 32768, 19, 32768, 3, 32768] = .ok image ∧
      desk.write "relay.bin" image = .ok fs' ∧
      (∀ budget stdin, command budget desk ["--asm", "-o", "relay.bin", "relay.asm"] stdin =
        ⟨.code 0, "", "", fs'⟩) ∧
      ∀ budget stdin,
        (command budget fs' ["--input", "line.txt", "--limit", "9", "relay.bin"] stdin).SameRun
          "relay.bin" "relay.asm"
          (command budget desk ["--asm", "--input", "line.txt", "--limit", "9", "relay.asm"] stdin) := by
  have hsrc : desk.read "relay.asm" = .ok relaySource.toUTF8.data.toList := by decide +kernel
  have htext : readText relaySource.toUTF8.data.toList = .ok relaySource.toList := by decide +kernel
  have hwords : Asm.assemble (String.ofList relaySource.toList) =
      .ok [20, 32768, 19, 32768, 3, 32768] := by decide +kernel
  have hwritable : desk.Writable "relay.bin" := fun bytes => ⟨_, rfl⟩
  have hplace : desk.place "relay.bin" ≠ desk.place "relay.asm" := by decide +kernel
  have hline : desk.read "line.txt" = .ok "A\n".toUTF8.data.toList := by decide +kernel
  have hfile : fileArgs "relay.asm" = ["relay.asm"] := by decide +kernel
  have hrun : runArgs (some "line.txt") (some "9") "relay.asm" =
      ["--input", "line.txt", "--limit", "9", "relay.asm"] := by decide +kernel
  have hrun' : runArgs (some "line.txt") (some "9") "relay.bin" =
      ["--input", "line.txt", "--limit", "9", "relay.bin"] := by decide +kernel
  obtain ⟨image, fs', hdump, hwrite, hstore, hsame⟩ :=
    image_runs_as_source.2 desk "relay.asm" "relay.bin" _ _ _ hsrc htext hwords hwritable hplace
  refine ⟨(image_runs_as_source.1 _ _ hwords).2.2.2, image, fs', hdump, hwrite, hfile ▸ hstore, ?_⟩
  intro budget stdin
  rw [← hrun, ← hrun']
  refine (hsame budget stdin _ _).2 ?_
  rintro f hf
  cases hf
  exact .inl ⟨⟨_, hline⟩, by decide +kernel⟩

end WordMachine.Cli
