import WordMachine.Proofs.Asm.Boundary
import WordMachine.Proofs.Asm.ReadBack
import WordMachine.Proofs.Asm.Sequence
import WordMachine.Proofs.Machine.OperandWords
import WordMachine.Proofs.Machine.Running
import WordMachine.Proofs.Machine.Values

/-! A program that prints a text. The text stands behind a loop, between quotes and with a zero at its
end. However long it is and whatever is in it, the program is assembled if it fits in memory, and when
it runs it sends out the text, character by character, up to the zero. -/

namespace WordMachine
namespace Asm

/-- Prints the characters that stand at `msg`, up to the first zero. -/
def loopSource : String :=
  "\n; prints the zero terminated string at msg\n" ++
  "        set r0 msg\n" ++
  "next:   rmem r1 r0\n" ++
  "        jf r1 done\n" ++
  "        out r1\n" ++
  "        add r0 r0 1\n" ++
  "        jmp next\n" ++
  "done:   halt"

def msgLine (t : String) : String := "msg:    .data " ++ String.ofList (quotedWith '"' t) ++ " 0"

/-- The loop, and behind it the text that it prints. -/
def printSource (t : String) : String := loopSource ++ "\n" ++ msgLine t ++ "\n"

/-- The statements of the loop, in which `p` points to a character and `c` takes it. -/
def loop (p c : Register) : List Statement :=
  [⟨52, .instruction .set [⟨56, .register p⟩, ⟨59, .label "msg"⟩]⟩, ⟨63, .label "next"⟩,
   ⟨71, .instruction .rmem [⟨76, .register c⟩, ⟨79, .register p⟩]⟩,
   ⟨90, .instruction .jf [⟨93, .register c⟩, ⟨96, .label "done"⟩]⟩,
   ⟨109, .instruction .out [⟨113, .register c⟩]⟩,
   ⟨124, .instruction .add [⟨128, .register p⟩, ⟨131, .register p⟩, ⟨134, .number 1⟩]⟩,
   ⟨144, .instruction .jmp [⟨148, .label "next"⟩]⟩, ⟨153, .label "done"⟩,
   ⟨161, .instruction .halt []⟩]

/-- The statements of the program, with the locations of those behind the loop. -/
def printProgram (p c : Register) (label row text stop : Nat) (t : String) : List Statement :=
  loop p c ++ [⟨label, .label "msg"⟩, ⟨row, .data [⟨text, .text t⟩, ⟨stop, .number 0⟩]⟩]

def loopWords : List Int :=
  [1, 32768, 18, 15, 32769, 32768, 8, 32769, 17, 19, 32769, 9, 32768, 32768, 1, 6, 3, 0]

def printWords (t : String) : List Int := loopWords ++ (codesOf t ++ [0])

/-! ### Reading -/

theorem loop_parsed : parse loopSource = .ok (loop 0 1) := by decide +kernel

theorem isName_msg : IsName "msg" where
  word := ⟨'m', "sg".toList, by decide, by decide, List.all_eq_true.1 (by decide)⟩
  noMnemonic := by
    intro op
    unfold Spells
    cases op <;> decide
  noRegister := by
    unfold Spells
    decide

theorem toList_msgLine (t : String) : (msgLine t).toList =
    "msg".toList ++ ':' :: (blanks 4 ++ (".data".toList ++ (blanks 1 ++
      (quotedWith '"' t ++ (blanks 1 ++ ['0']))))) := by
  change ("msg:    .data " ++ String.ofList (quotedWith '"' t) ++ " 0").toList = _
  rw [String.toList_append, String.toList_append, List.append_assoc,
    @String.toList_ofList (quotedWith _ t)]
  rfl

theorem msgLine_parsed (t : String) : ∃ stop, parse (msgLine t) =
    .ok [⟨0, .label "msg"⟩, ⟨8, .data [⟨14, .text t⟩, ⟨stop, .number 0⟩]⟩] := by
  have hword : Spells ".data".toList dataWord := by
    unfold Spells
    decide
  have hzero : ValueWritten (.number 0) ['0'] none := .decimal 0 0
  have hrow : RowWritten 14 _ _ none := .more (.text t) (.spaces 0) (.last hzero)
  have hline : LineWritten 0 _ _ none := .labelled (n := 4) isName_msg (.data (n := 0) hword hrow)
  have hparse := ProgramWritten.parse_eq (.last hline)
  rw [← toList_msgLine, String.ofList_toList] at hparse
  exact ⟨_, hparse⟩

theorem printSource_parsed (t : String) :
    ∃ label row text stop, parse (printSource t) = .ok (printProgram 0 1 label row text stop t) := by
  have hend : parse "" = .ok [] := ProgramWritten.parse_eq (.last .empty)
  obtain ⟨stop, hline⟩ := msgLine_parsed t
  obtain ⟨k, hbehind⟩ := parse_append_newline (msgLine t) "" hline hend
  obtain ⟨j, hall⟩ := parse_append_newline loopSource (msgLine t ++ "\n" ++ "") loop_parsed hbehind
  refine ⟨_, _, _, _, (congrArg parse ?_).trans hall⟩
  simp only [printSource, String.append_assoc, String.append_empty]

/-! ### Words -/

section Words
variable {label row text stop : Nat} {t : String}

theorem clean_loop : Clean (loop 0 1) := by
  unfold Clean
  decide

theorem size_printProgram : size (printProgram 0 1 label row text stop t) = 19 + t.toList.length := by
  have hloop : size (loop 0 1) = 18 := rfl
  rw [printProgram, size_append, hloop]
  simp only [size_cons, size_nil, Command.size, rowSize, Value.size]
  omega

theorem sound_printProgram (hlen : t.toList.length ≤ 32749)
    (hcodes : ∀ c ∈ t.toList, c.toNat ≤ 32767) : Sound (printProgram 0 1 label row text stop t) := by
  have hlabel : Clean (loop 0 1 ++ [⟨label, .label "msg"⟩]) :=
    clean_concat.2 ⟨clean_loop, (clean_label rfl).2 ⟨by decide, by decide⟩⟩
  have hnames : labelNames (printProgram 0 1 label row text stop t) = ["next", "done", "msg"] := rfl
  refine sound_iff.2 ⟨?_, ?_, ?_⟩
  · rw [printProgram, List.append_cons]
    refine clean_concat.2 ⟨hlabel, (clean_data rfl).2 ?_⟩
    simpa [Value.offence?_eq_none_iff] using hcodes
  · intro o ho
    rw [Operand.missing?_eq_none_iff, hnames]
    revert o
    simp [operands, printProgram, loop, Command.operands]
  · rw [size_printProgram]
    omega

theorem words_printProgram :
    words (addressOf (printProgram 0 1 label row text stop t)) (printProgram 0 1 label row text stop t) =
      printWords t := by
  have hloop (address : String → Nat) : words address (loop 0 1) =
      [1, 32768, (address "msg" : Int), 15, 32769, 32768, 8, 32769, (address "done" : Int), 19, 32769,
        9, 32768, 32768, 1, 6, (address "next" : Int), 0] := rfl
  have hrow (address : String → Nat) :
      words address [⟨label, .label "msg"⟩, ⟨row, .data [⟨text, .text t⟩, ⟨stop, .number 0⟩]⟩] =
        codesOf t ++ [0] := by
    simp [words, Command.words, rowWords, Value.words]
  have hmsg : addressOf (printProgram 0 1 label row text stop t) "msg" = 18 := rfl
  have hnext : addressOf (printProgram 0 1 label row text stop t) "next" = 3 := rfl
  have hdone : addressOf (printProgram 0 1 label row text stop t) "done" = 17 := rfl
  have hwords := words_append (loop 0 1)
    [⟨label, .label "msg"⟩, ⟨row, .data [⟨text, .text t⟩, ⟨stop, .number 0⟩]⟩]
    (addressOf (printProgram 0 1 label row text stop t))
  rwa [hloop, hrow, hmsg, hnext, hdone] at hwords

end Words

theorem assemble_printSource {t : String} (hlen : t.toList.length ≤ 32749)
    (hcodes : ∀ c ∈ t.toList, c.toNat ≤ 32767) : assemble (printSource t) = .ok (printWords t) := by
  obtain ⟨label, row, text, stop, hparse⟩ := printSource_parsed t
  exact (assemble_eq_ok_iff hparse).2 ⟨sound_printProgram hlen hcodes, words_printProgram.symm⟩

theorem load_of_assemble {source : String} {words : List Int} (h : assemble source = .ok words) :
    Machine.load words = .ok (.start words) := by
  obtain ⟨hfits, hrange⟩ := assemble_range h
  exact Machine.load_of_range (by decide) hfits hrange

end Asm

/-! ### One turn of the loop -/

namespace Machine

section Loop
variable {memory : Memory} (hcode : memory.Holds 0 Asm.loopWords)
include hcode
variable {regs : Vector Int 8} {emitted : List Nat} {a c : Nat}

theorem set_in_loop (regs : Vector Int 8) :
    (⟨memory, regs, [], 0, .ready, []⟩ : Machine).step =
      (.ok .set, ⟨memory, regs.set 0 18 (by decide), [], 3, .running, []⟩) := by
  let m : Machine := ⟨memory, regs, [], 0, .ready, []⟩
  have hargs : m.operands Opcode.set.signature 1 = .ok (0, 18, ()) :=
    operands_write (r := 0) (hcode 1 _ rfl) (operands_literal (hcode 2 _ rfl) (by decide) rfl)
  exact step_of_fetched rfl (fetched_of_holds hcode (by decide) rfl) hargs rfl

theorem rmem_in_loop {v : Int} (ha : regs.get 0 = a) (hin : a < memorySize) (hv : memory.peek a = v) :
    (⟨memory, regs, [], 3, .running, emitted⟩ : Machine).step =
      (.ok .rmem, ⟨memory, regs.set 1 v, [], 6, .running, emitted⟩) := by
  let m : Machine := ⟨memory, regs, [], 3, .running, emitted⟩
  have hargs : m.operands Opcode.rmem.signature 4 = .ok (1, (a : Int), ()) :=
    operands_write (r := 1) (hcode 4 _ rfl) (operands_register (r := 0) (hcode 5 _ rfl) ha rfl)
  have heff : m.effect 6 .rmem (1, (a : Int), ()) = .ok (.setReg 1 v, 6) := by
    rw [effect, (cellAddress_eq_ok (a := ⟨a, hin⟩)).2 rfl, ← hv]
    rfl
  exact step_of_fetched rfl (fetched_of_holds hcode (by decide) rfl) hargs heff

/-- The loop goes on where there is a character, and is left where there is none. -/
theorem jf_in_loop (emitted : List Nat) (hc : regs.get 1 = c) :
    (⟨memory, regs, [], 6, .running, emitted⟩ : Machine).step =
      (.ok .jf, ⟨memory, regs, [], if c = 0 then 17 else 9, .running, emitted⟩) := by
  let m : Machine := ⟨memory, regs, [], 6, .running, emitted⟩
  have hargs : m.operands Opcode.jf.signature 7 = .ok ((c : Int), 17, ()) :=
    operands_register (r := 1) (hcode 7 _ rfl) hc (operands_literal (hcode 8 _ rfl) (by decide) rfl)
  have heff : m.effect 9 .jf ((c : Int), 17, ()) = .ok (.nothing, if c = 0 then 17 else 9) := by
    by_cases hzero : c = 0
    · rw [hzero]
      rfl
    · rw [if_neg hzero]
      exact if_neg (Int.natCast_ne_zero.2 hzero)
  exact step_of_fetched rfl (fetched_of_holds hcode (by decide) rfl) hargs heff

theorem out_in_loop (hc : regs.get 1 = c) (hpoint : c < 0x110000) :
    (⟨memory, regs, [], 9, .running, emitted⟩ : Machine).step =
      (.ok .out, ⟨memory, regs, [], 11, .running, c :: emitted⟩) := by
  let m : Machine := ⟨memory, regs, [], 9, .running, emitted⟩
  have hargs : m.operands Opcode.out.signature 10 = .ok ((c : Int), ()) :=
    operands_register (r := 1) (hcode 10 _ rfl) hc rfl
  have heff : m.effect 11 .out ((c : Int), ()) = .ok (.emit c, 11) := by
    rw [effect, codePoint_of_range (by omega), Int.toNat_natCast]
  exact step_of_fetched rfl (fetched_of_holds hcode (by decide) rfl) hargs heff

theorem add_in_loop (ha : regs.get 0 = a) (hin : a + 1 < memorySize) :
    (⟨memory, regs, [], 11, .running, emitted⟩ : Machine).step =
      (.ok .add, ⟨memory, regs.set 0 (a + 1 : Nat), [], 15, .running, emitted⟩) := by
  let m : Machine := ⟨memory, regs, [], 11, .running, emitted⟩
  have hargs : m.operands Opcode.add.signature 12 = .ok (0, (a : Int), 1, ()) :=
    operands_write (r := 0) (hcode 12 _ rfl) <| operands_register (r := 0) (hcode 13 _ rfl) ha <|
      operands_literal (hcode 14 _ rfl) (by decide) rfl
  have heff : m.effect 15 .add (0, (a : Int), 1, ()) = .ok (.setReg 0 ((a + 1 : Nat) : Int), 15) := by
    simp only [memorySize] at hin
    rw [effect, reduce, modulus, Int.emod_eq_of_lt (by omega) (by omega)]
    rfl
  exact step_of_fetched rfl (fetched_of_holds hcode (by decide) rfl) hargs heff

theorem jmp_in_loop (regs : Vector Int 8) (emitted : List Nat) :
    (⟨memory, regs, [], 15, .running, emitted⟩ : Machine).step =
      (.ok .jmp, ⟨memory, regs, [], 3, .running, emitted⟩) := by
  let m : Machine := ⟨memory, regs, [], 15, .running, emitted⟩
  have hargs : m.operands Opcode.jmp.signature 16 = .ok (3, ()) :=
    operands_literal (hcode 16 _ rfl) (by decide) rfl
  exact step_of_fetched rfl (fetched_of_holds hcode (by decide) rfl) hargs rfl

theorem halt_in_loop (regs : Vector Int 8) (emitted : List Nat) :
    (⟨memory, regs, [], 17, .running, emitted⟩ : Machine).step =
      (.ok .halt, ⟨memory, regs, [], 18, .halted none, emitted⟩) :=
  @step_of_fetched ⟨memory, regs, [], 17, .running, emitted⟩ .halt () .halt 18 rfl
    (fetched_of_holds hcode (by decide) rfl) rfl rfl

/-- A turn sends out the character that register 0 points to, and points it to the next one. -/
theorem run_loop_of_pos (ha : regs.get 0 = a) (hin : a + 1 < memorySize) (hc : memory.peek a = c)
    (hpos : 0 < c) (hpoint : c < 0x110000) (n : Nat) :
    let next : Machine := ⟨memory, (regs.set 1 c).set 0 (a + 1 : Nat), [], 3, .running, c :: emitted⟩
    (⟨memory, regs, [], 3, .running, emitted⟩ : Machine).run (n + 5) = next.run n := by
  intro next
  have hchar : (regs.set 1 (c : Int)).get 1 = c := Vector.getElem_set_self _
  have haddr : (regs.set 1 (c : Int)).get 0 = a :=
    (Vector.getElem_set_ne _ (by decide) (by decide)).trans ha
  have hjf := jf_in_loop hcode emitted hchar
  rw [if_neg (Nat.ne_of_gt hpos)] at hjf
  rw [run_succ_of_step (rmem_in_loop hcode ha (by omega) hc), run_succ_of_step hjf,
    run_succ_of_step (out_in_loop hcode hchar hpoint),
    run_succ_of_step (add_in_loop hcode haddr hin), run_succ_of_step (jmp_in_loop hcode _ _)]

/-- At a zero the loop is left. -/
theorem run_loop_of_zero (ha : regs.get 0 = a) (hin : a < memorySize) (hc : memory.peek a = 0)
    (n : Nat) : (⟨memory, regs, [], 3, .running, emitted⟩ : Machine).run (n + 3) =
      (.ok n, ⟨memory, regs.set 1 0, [], 18, .halted none, emitted⟩) := by
  have hzero : (regs.set 1 0).get 1 = (0 : Nat) := Vector.getElem_set_self _
  rw [run_succ_of_step (rmem_in_loop hcode ha hin hc), run_succ_of_step (jf_in_loop hcode _ hzero),
    if_pos rfl, run_succ_of_step (halt_in_loop hcode _ _), run_of_not_isActive rfl]

/-- From the beginning of a text the loop sends out all of it. -/
theorem run_loop {cs : List Nat} (emitted : List Nat) (hcs : ∀ c ∈ cs, 0 < c ∧ c < 0x110000)
    (ha : regs.get 0 = a) (hin : a + cs.length < memorySize)
    (hheld : memory.Holds a (cs.map (fun c : Nat => (c : Int)) ++ [0])) :
    ∃ regs', ∀ n, (⟨memory, regs, [], 3, .running, emitted⟩ : Machine).run (n + (5 * cs.length + 3)) =
      (.ok n, ⟨memory, regs', [], 18, .halted none, cs.reverse ++ emitted⟩) := by
  -- on what is left of the text, to whose first character register 0 points
  induction cs generalizing a regs emitted with
  | nil => exact ⟨_, run_loop_of_zero hcode ha hin (Memory.holds_cons.1 hheld).1⟩
  | cons c cs ih =>
    rw [List.forall_mem_cons] at hcs
    rw [List.length_cons] at hin
    obtain ⟨hc, hrest⟩ := Memory.holds_cons.1 hheld
    have hnext : ((regs.set 1 (c : Int)).set 0 ((a + 1 : Nat) : Int)).get 0 = (a + 1 : Nat) :=
      Vector.getElem_set_self _
    obtain ⟨regs', hrun⟩ := ih (c :: emitted) hcs.2 hnext (by omega) hrest
    refine ⟨regs', fun n => ?_⟩
    have hcount : n + (5 * (c :: cs).length + 3) = n + (5 * cs.length + 3) + 5 := by
      rw [List.length_cons]
      omega
    rw [hcount, run_loop_of_pos hcode ha (by omega) hc hcs.1.1 hcs.1.2, hrun, List.reverse_cons,
      List.append_assoc]
    rfl

end Loop

end Machine

namespace Asm

/-- A text without zeros, of at most 32749 characters that each fit in a word: the program for it is
assembled, and it halts without a fault when it has executed four instructions and five for each
character. By then it has sent out the text; the stack is empty, and memory is as it was. -/
theorem texts_are_printed {t : String} (hlen : t.toList.length ≤ 32749)
    (hcodes : ∀ c ∈ t.toList, 1 ≤ c.toNat ∧ c.toNat ≤ 32767) :
    ∃ words m m', assemble (printSource t) = .ok words ∧ Machine.load words = .ok m ∧
      m.RunsOut (.ok (.rested (.halted none))) m' ∧
      (∀ n, m.run (n + (5 * t.toList.length + 4)) = (.ok n, m')) ∧
      m'.output = t.toList.map Char.toNat ∧ m'.stack = [] ∧ m'.memory = m.memory := by
  have hassemble := assemble_printSource hlen fun c hc => (hcodes c hc).2
  obtain ⟨hcode, htext⟩ : (Memory.ofList (printWords t)).Holds 0 loopWords ∧
      (Memory.ofList (printWords t)).Holds 18 (codesOf t ++ [0]) :=
    Memory.holds_append.1 (Memory.holds_ofList (assemble_range hassemble).1)
  have hcodesOf : codesOf t = (t.toList.map Char.toNat).map fun c : Nat => (c : Int) :=
    (List.map_map ..).symm
  rw [hcodesOf] at htext
  have hpoints : ∀ c ∈ t.toList.map Char.toNat, 0 < c ∧ c < 0x110000 := by
    rw [List.forall_mem_map]
    intro c hc
    have := hcodes c hc
    omega
  have hfirst : ((Vector.replicate 8 (0 : Int)).set 0 18).get 0 = (18 : Nat) :=
    Vector.getElem_set_self _
  obtain ⟨regs, hrun⟩ := Machine.run_loop hcode [] hpoints hfirst
    (by simp only [List.length_map, memorySize]; omega) htext
  rw [List.length_map] at hrun
  have hall (n : Nat) : (Machine.start (printWords t)).run (n + (5 * t.toList.length + 4)) = _ :=
    (Machine.run_succ_of_step (Machine.set_in_loop hcode _) _).trans (hrun n)
  refine ⟨_, _, _, hassemble, load_of_assemble hassemble, Machine.runsOut_of_run (hall 0) rfl, hall,
    ?_, rfl, rfl⟩
  rw [Machine.output, List.append_nil, List.reverse_reverse]

/-- Characters that are escaped where the text is written. -/
theorem texts_are_printed_of_escapes :
    msgLine "a\"\\\t\n" = "msg:    .data \"a\\\"\\\\\\t\\n\" 0" ∧
    ∃ words m m', assemble (printSource "a\"\\\t\n") = .ok words ∧ Machine.load words = .ok m ∧
      m.RunsOut (.ok (.rested (.halted none))) m' ∧ (∀ n, m.run (n + 29) = (.ok n, m')) ∧
      m'.output = [97, 34, 92, 9, 10] ∧ m'.stack = [] ∧ m'.memory = m.memory := by
  have hlength : "a\"\\\t\n".toList.length = 5 := by decide
  have houtput : "a\"\\\t\n".toList.map Char.toNat = [97, 34, 92, 9, 10] := by decide
  have hcodes : ∀ c ∈ "a\"\\\t\n".toList, 1 ≤ c.toNat ∧ c.toNat ≤ 32767 := by
    rw [← List.forall_mem_map (f := Char.toNat) (P := fun k => 1 ≤ k ∧ k ≤ 32767), houtput]
    decide
  have hprinted := texts_are_printed (hlength.trans_le (by decide)) hcodes
  rw [hlength, houtput] at hprinted
  exact ⟨String.toList_inj.1 ((toList_msgLine _).trans (by decide +kernel)), hprinted⟩

end Asm
end WordMachine
