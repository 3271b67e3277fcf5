import Mathlib.Data.List.Perm.Basic
import WordMachine.Asm.Code
import WordMachine.Proofs.Asm.Names

/-! The order of the mnemonics. They are tried one after another, but none of them is the beginning of
another, so at any place of any text there is at most one that can be read. Hence neither what is read
nor where reading fails depends on the order in which they are tried. -/

namespace WordMachine.Asm

/-- The words of a source, if the mnemonics are tried in the given order. -/
def assembleIn (order : List Opcode) (source : String) : Except AsmError (List Int) :=
  match parseIn order (expandTabs source.toList) with
  | .error why => .error (.syntaxError why)
  | .ok program => assembleProgram program

/-! ### At most one mnemonic -/

/-- A keyword that is read is the beginning of the text in capitals. -/
theorem prefix_of_startsWith {word cs : List Char} (h : startsWith word cs = true) :
    word <+: cs.map capital := by
  induction word generalizing cs with
  | nil => exact List.nil_prefix
  | cons w word ih =>
    obtain _ | ⟨c, cs⟩ := cs
    · simp [startsWith, afterLetters?] at h
    · obtain ⟨hc, hword⟩ := startsWith_cons.1 h
      rw [List.map_cons, hc, List.cons_prefix_cons]
      exact ⟨rfl, ih hword⟩

theorem eq_of_startsWith {op op' : Opcode} {cs : List Char} (h : startsWith op.name.toList cs = true)
    (h' : startsWith op'.name.toList cs = true) : op = op' := by
  rcases List.prefix_or_prefix_of_prefix (prefix_of_startsWith h) (prefix_of_startsWith h') with
    hprefix | hprefix
  · exact eq_of_name_prefix hprefix
  · symm
    exact eq_of_name_prefix hprefix

/-- The mnemonic that is read is the one that the text starts with, wherever it stands in the order. -/
theorem mnemonic?_eq_some_iff {order : List Opcode} {cs : List Char} {op : Opcode} :
    mnemonic? order cs = some op ↔ op ∈ order ∧ startsWith op.name.toList cs = true := by
  constructor
  · intro h
    have hstarts := List.find?_some h
    exact ⟨List.mem_of_find?_eq_some h, hstarts⟩
  · rintro ⟨hop, hstarts⟩
    have hfound : (mnemonic? order cs).isSome = true := List.find?_isSome.2 ⟨op, hop, hstarts⟩
    obtain ⟨op', hop'⟩ := Option.isSome_iff_exists.1 hfound
    have hstarts' := List.find?_some hop'
    rw [hop', eq_of_startsWith hstarts' hstarts]

/-! ### Any two orders -/

section Order
variable {order order' : List Opcode} (h : order.Perm order')
include h

theorem mnemonic?_of_perm (cs : List Char) : mnemonic? order cs = mnemonic? order' cs := by
  apply Option.ext
  intro op
  rw [mnemonic?_eq_some_iff, mnemonic?_eq_some_iff, h.mem_iff]

theorem mnemonicOverrun_of_perm (cs : List Char) :
    mnemonicOverrun order cs = mnemonicOverrun order' cs := by
  apply h.foldl_eq'
  intro op _ op' _ n
  simp only [Nat.max_assoc, Nat.max_comm (overrun op'.name.toList cs)]

theorem Token.read?_of_perm (c : Char) (cs : List Char) :
    Token.read? order c cs = Token.read? order' c cs := by
  simp only [Token.read?, mnemonic?_of_perm h]

theorem lex_of_perm (loc : Nat) (cs : List Char) : lex order loc cs = lex order' loc cs := by
  fun_induction lex order loc cs with
  | case1 loc cs gap hdrop => exact (lex_of_end hdrop).symm
  | case2 loc cs gap c tail hdrop hread =>
    rw [Token.read?_of_perm h] at hread
    exact (lex_of_stuck hdrop hread).symm
  | case3 loc cs gap c tail hdrop token n hread more ih =>
    rw [Token.read?_of_perm h] at hread
    rw [lex_of_read hdrop hread, ← ih]

theorem parseIn_of_perm (cs : List Char) : parseIn order cs = parseIn order' cs := by
  rw [parseIn_eq, parseIn_eq, lex_of_perm h]

/-- Of the places where a rule can fail, those inside of a keyword are the same ones too. -/
theorem Rule.mismatchLoc_of_perm (rule : Rule) (cs : List Char) (lexed : Lexed) :
    rule.mismatchLoc order cs lexed = rule.mismatchLoc order' cs lexed := by
  simp only [Rule.mismatchLoc, mnemonicOverrun_of_perm h]

theorem Rule.parseIn_of_perm (rule : Rule) (cs : List Char) :
    rule.parseIn order cs = rule.parseIn order' cs := by
  simp only [Rule.parseIn, lex_of_perm h, Rule.mismatchLoc_of_perm h]

end Order

/-- Whichever two orders the mnemonics are tried in, each rule reads the same nodes from a text, or
refuses it for the same reason at the same place; and so each source is assembled to the same words,
or refused with the same error. -/
theorem mnemonics_in_any_order {order order' : List Opcode} (h : order.Perm Opcode.all)
    (h' : order'.Perm Opcode.all) :
    (∀ (rule : Rule) (source : String),
      rule.parseIn order (expandTabs source.toList) = rule.parseIn order' (expandTabs source.toList)) ∧
    ∀ source : String, assembleIn order source = assembleIn order' source := by
  have hperm : order.Perm order' := h.trans h'.symm
  refine ⟨fun rule source => rule.parseIn_of_perm hperm _, ?_⟩
  intro source
  rw [assembleIn, assembleIn, parseIn_of_perm hperm]

/-- Backwards: a keyword that does not end, and a program in which a letter has a capital of ASCII. -/
theorem mnemonics_in_any_order_of_reversed :
    Opcode.all.reverse.Perm Opcode.all ∧ Opcode.all.Perm Opcode.all ∧
      Rule.mnemonic.parseIn Opcode.all.reverse (expandTabs " noop_".toList) = .error (.unexpected 5) ∧
      assembleIn Opcode.all.reverse "\tſet r1 7\nNot r0 r1" = .ok [1, 32769, 7, 14, 32768, 32769] := by
  have hreverse : Opcode.all.reverse.Perm Opcode.all := List.reverse_perm Opcode.all
  have hall : Opcode.all.Perm Opcode.all := List.Perm.refl Opcode.all
  obtain ⟨hparse, hassemble⟩ := mnemonics_in_any_order hreverse hall
  refine ⟨hreverse, hall, (hparse .mnemonic " noop_").trans ?_,
    (hassemble "\tſet r1 7\nNot r0 r1").trans ?_⟩
  · decide +kernel
  · decide +kernel

end WordMachine.Asm
