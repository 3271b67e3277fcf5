import WordMachine.Cli.Command
import WordMachine.Proofs.Asm.Boundary
import WordMachine.Proofs.Image
import WordMachine.Proofs.Machine.Values
import WordMachine.Proofs.Text.Utf8

/-! Loading a program. The words of a file are those of its source or of its image, and whatever can be
loaded is fit for an image and for the machine. -/

namespace WordMachine.Cli

variable {asm : Bool} {file : String} {bytes : List UInt8} {words : List Int}

theorem exists_readText_eq_error_iff : (∃ e, readText bytes = .error e) ↔ ¬ Utf8.Valid bytes := by
  rw [← Utf8.exists_decode_eq_error_iff, readText]
  cases Utf8.decode bytes <;> simp [Except.map]

theorem loadWords_eq_ok_iff :
    loadWords asm file bytes = .ok words ↔
      asm = true ∧ (∃ cs, readText bytes = .ok cs ∧ Asm.assemble (String.ofList cs) = .ok words) ∨
      asm = false ∧ Image.load bytes = .ok words := by
  cases asm with
  | true =>
    simp only [loadWords, if_true]
    cases readText bytes with
    | error e => simp
    | ok cs => cases hwords : Asm.assemble (String.ofList cs) <;> simp [hwords]
  | false =>
    simp only [loadWords, Bool.false_eq_true, if_false]
    cases Image.load bytes <;> simp

/-- What is wrong with an image can be told. -/
theorem ofLoadError_of_image {e : LoadError} (h : Image.load bytes = .error e) :
    Job.ofLoadError file e = .fail (loadDiagnostic file e) := by
  cases e with
  | untold addr word => exact absurd h (Image.load_ne_untold bytes addr word)
  | oddLength | imageTooLong | notAnOperand | programTooLong | notSixteenBits => rfl

theorem loadWords_eq_error {job : Job} (h : loadWords asm file bytes = .error job) :
    asm = true ∧ (∃ e, readText bytes = .error e ∧ job = .undecodable e) ∨
    asm = true ∧ (∃ cs e, readText bytes = .ok cs ∧ Asm.assemble (String.ofList cs) = .error e ∧
      job = .ofAsmError file (String.ofList cs) e) ∨
    asm = false ∧ ∃ e, Image.load bytes = .error e ∧ job = .fail (loadDiagnostic file e) := by
  cases asm with
  | true =>
    simp only [loadWords, if_true] at h
    split at h
    · rename_i e he
      cases h
      exact .inl ⟨rfl, e, he, rfl⟩
    · rename_i cs hcs
      split at h
      · rename_i e he
        cases h
        exact .inr (.inl ⟨rfl, cs, e, hcs, he, rfl⟩)
      · cases h
  | false =>
    simp only [loadWords, Bool.false_eq_true, if_false] at h
    split at h
    · rename_i e he
      cases h
      exact .inr (.inr ⟨rfl, e, he, ofLoadError_of_image he⟩)
    · cases h

theorem loadWords_range (h : loadWords asm file bytes = .ok words) :
    words.length ≤ memorySize ∧ ∀ w ∈ words, InRange maxOperand w := by
  rcases loadWords_eq_ok_iff.1 h with ⟨-, cs, -, hwords⟩ | ⟨-, hwords⟩
  · exact Asm.assemble_range hwords
  · exact Machine.words_of_image hwords

/-! ### The program of the arguments -/

/-- A program file that the arguments name and that can be loaded: the options, the file's name and its
words. -/
def Loads (fs : Files) (args : List String) (o : Options) (file : String) (words : List Int) : Prop :=
  ∃ more bytes, Request.ofArgs args = .accepted o (file :: more) ∧ fs.read file = .ok bytes ∧
    loadWords o.asm file bytes = .ok words

section Loads
variable {fs : Files} {args : List String} {o : Options}

theorem Loads.range (h : Loads fs args o file words) :
    words.length ≤ memorySize ∧ ∀ w ∈ words, InRange maxOperand w := by
  obtain ⟨_, _, -, -, hwords⟩ := h
  exact loadWords_range hwords

/-- What is done with a program that can be loaded. -/
theorem Loads.ofArgs (h : Loads fs args o file words) :
    Job.ofArgs fs.read args = .ofWords fs.read o file words := by
  obtain ⟨more, bytes, hargs, hread, hwords⟩ := h
  simp only [Job.ofArgs, hargs, hread, hwords]

theorem Loads.command (h : Loads fs args o file words) (budget : Nat) (stdin : List Char) :
    command budget fs args stdin = (Job.ofWords fs.read o file words).run budget fs stdin := by
  rw [Cli.command, h.ofArgs]

end Loads

end WordMachine.Cli
