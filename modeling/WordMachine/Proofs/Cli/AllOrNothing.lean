import WordMachine.Proofs.Cli.Chain
import WordMachine.Proofs.Cli.Outcome

/-! A file is written as a whole or not at all. All that the command can fail at comes before anything is
written, and what is written is the image of the program: so no file but the one for the image is ever
changed, and this one only by a command that succeeds. Only a medium that fails while the image is written
leaves a part of it, in place of what the file held before. -/

namespace WordMachine.Cli

/-- The trees agree but for the file at the place of a name. -/
structure Files.AgreesBut (fs fs' : Files) (name : String) : Prop where
  here : fs'.here = fs.here
  directories : fs'.directories = fs.directories
  contents : ∀ path, fs.place name ≠ .ok path → fs'.contents.lookup path = fs.contents.lookup path

theorem Files.agreesBut_put {fs : Files} {name : String} {path : Path} (h : fs.opened name = .ok path)
    (bytes : List UInt8) : fs.AgreesBut (fs.put path bytes) name := by
  refine ⟨rfl, rfl, fun other hother => lookup_put fs ?_ bytes⟩
  rintro rfl
  exact hother (opened_eq_ok h).2.1

/-- The medium has failed while the image was written: the file for it holds what was taken. -/
structure Torn (fs : Files) (name : String) (image : List UInt8) (r : Report) (flaw : Flaw) : Prop where
  failing : fs.flaw = some flaw
  exit : r.exit = .code 1
  stdout : r.stdout = ""
  stderr : r.stderr = "error: None: " ++ flaw.why.message ++ "\n"
  taken : r.files.read name = .ok (image.take flaw.taken)

variable {budget : Nat} {fs : Files} {args : List String} {stdin : List Char} {r : Report}

theorem Loads.store {o : Options} {file name : String} {words : List Int} {image : List UInt8}
    (h : Loads fs args o file words) (ho : o.output = some name) (hdump : Image.dump words = .ok image) :
    Job.ofArgs fs.read args = .store name image := by
  simp only [h.ofArgs, Job.ofWords, ho, Job.storing, hdump]

theorem exists_settings {o : Options} {plain : List String} {name : String}
    (hargs : Request.ofArgs args = .accepted o plain) (ho : o.output = some name) :
    ∃ settings, Reads args settings plain ∧ (outputs settings).getLast? = some name := by
  obtain ⟨settings, hreads, rfl⟩ := ofArgs_eq_accepted_iff.1 hargs
  rw [output_ofSettings] at ho
  exact ⟨settings, hreads, ho⟩

/-- Only a command that comes to store an image touches the files, and only the one with the last name
that is given for the image. -/
theorem Leaves.files (h : Leaves budget fs args stdin r) :
    r.files = fs ∨ ∃ settings plain out image, Reads args settings plain ∧
      (outputs settings).getLast? = some out ∧ Job.ofArgs fs.read args = .store out image ∧
      fs.AgreesBut r.files out ∧
      (r.exit = .code 0 ∧ fs.flaw = none ∨ ∃ flaw, Torn fs out image r flaw) := by
  cases h with
  | stored hloads ho hdump hwrite =>
    obtain ⟨path, hopened, hsound, rfl⟩ := Files.write_eq_ok hwrite
    have hstore := hloads.store ho hdump
    obtain ⟨_, _, hargs, -, -⟩ := hloads
    obtain ⟨settings, hreads, hout⟩ := exists_settings hargs ho
    exact .inr ⟨settings, _, _, _, hreads, hout, hstore, Files.agreesBut_put hopened _, .inl ⟨rfl, hsound⟩⟩
  | cut hloads ho hdump hwrite =>
    rcases Files.write_eq_error hwrite with ⟨-, rfl⟩ | ⟨path, flaw, hopened, hflaw, hwhy, rfl⟩
    · exact .inl rfl
    · cases hwhy
      have hstore := hloads.store ho hdump
      obtain ⟨_, _, hargs, -, -⟩ := hloads
      obtain ⟨settings, hreads, hout⟩ := exists_settings hargs ho
      refine .inr ⟨settings, _, _, _, hreads, hout, hstore, Files.agreesBut_put hopened _, .inr ⟨flaw, ?_⟩⟩
      exact ⟨hflaw, rfl, rfl, rfl, Files.read_put hopened _⟩
  | _ => exact .inl rfl

theorem Leaves.stored_of_output (h : Leaves budget fs args stdin r) (hexit : r.exit = .code 0)
    {o : Options} {plain : List String} {name : String}
    (hargs : Request.ofArgs args = .accepted o plain) (ho : o.output = some name) :
    ∃ file words image, Loads fs args o file words ∧ Image.dump words = .ok image ∧
      fs.write name image = .ok r.files ∧ r.stdout = "" := by
  cases h with
  | help hhelp =>
    rw [hargs] at hhelp
    cases hhelp
  | stored hloads ho' hdump hwrite =>
    have hloads' := hloads
    obtain ⟨_, _, hargs', -, -⟩ := hloads'
    cases hargs.symm.trans hargs'
    cases ho.symm.trans ho'
    exact ⟨_, _, _, hloads, hdump, hwrite, rfl⟩
  | halted hran =>
    obtain ⟨_, _, _, ⟨⟨_, _, hargs', -, -⟩, hnone, -⟩, -⟩ := hran
    cases hargs.symm.trans hargs'
    rw [ho] at hnone
    cases hnone
  | _ => cases hexit

/-- The desk on a medium that takes three bytes and no more. -/
def fullDesk : Files := { desk with flaw := some ⟨3, .noSpace⟩ }

end WordMachine.Cli
