import Mathlib.Data.List.Basic
import Mathlib.Data.Set.Function
import WordMachine.Proofs.Asm.Backpatch
import WordMachine.Proofs.Asm.Names

/-! Other names for labels. The names of labels say nothing but which references belong to which
definition: under names that are told apart as the old ones are, a program has the same words, or it is
refused for the same reason, which names the label by its new name. Locations say nothing either, and
they are replaced along with the names; so it is the same statement or operand that is refused, even if
others have the same location. -/

namespace WordMachine.Asm

/-! ### Other names and locations -/

section Rename
variable (f : String → String) (g : Nat → Nat)

def Value.rename : Value → Value
  | .label x => .label (f x)
  | .register r => .register r
  | .number n => .number n
  | .char s => .char s
  | .text s => .text s

def Operand.rename (o : Operand) : Operand := ⟨g o.loc, o.value.rename f⟩

def Command.rename : Command → Command
  | .label x => .label (f x)
  | .instruction op os => .instruction op (os.map (Operand.rename f g))
  | .data vs => .data (vs.map (Operand.rename f g))

def Statement.rename (s : Statement) : Statement := ⟨g s.loc, s.command.rename f g⟩

def CodeError.rename : CodeError → CodeError
  | .alreadyDefined x => .alreadyDefined (f x)
  | .outsideMemory x => .outsideMemory (f x)
  | .undefined x => .undefined (f x)
  | .wrongArity op n => .wrongArity op n
  | .notARegister op => .notARegister op
  | .numberTooWide n => .numberTooWide n
  | .notOneCharacter => .notOneCharacter
  | .charTooWide c => .charTooWide c
  | .misplacedText => .misplacedText

def AsmError.rename : AsmError → AsmError
  | .syntaxError why => .syntaxError why
  | .code loc why => .code (g loc) (why.rename f)
  | .tooLong n => .tooLong n

def Item.rename : Item → Item
  | .label loc x before => .label (g loc) (f x) (before.map (Statement.rename f g))
  | .instruction loc op n => .instruction (g loc) op n
  | .operand op role o => .operand op role (o.rename f g)
  | .value o => .value (o.rename f g)

theorem Value.rename_id (v : Value) : v.rename id = v := by
  cases v <;> rfl

end Rename

/-- The names that a program defines or refers to. -/
def namesOf (p : List Statement) : Set String := {x | ∃ s ∈ p, s.Mentions x}

section Names
variable {p : List Statement} {x : String}

theorem mem_namesOf_of_mem_labelNames (h : x ∈ labelNames p) : x ∈ namesOf p := by
  obtain ⟨s, hs, hx⟩ := List.mem_filterMap.1 h
  exact ⟨s, hs, .inl hx⟩

theorem mem_namesOf_of_mem_operands {o : Operand} (ho : o ∈ operands p) (hx : o.value = .label x) :
    x ∈ namesOf p := by
  obtain ⟨s, hs, ho⟩ := List.mem_flatMap.1 ho
  exact ⟨s, hs, .inr ⟨o, ho, hx⟩⟩

end Names

/-! ### The layout -/

section Layout
variable (f : String → String) (g : Nat → Nat)

theorem Value.size_rename (v : Value) : (v.rename f).size = v.size := by
  cases v <;> rfl

theorem rowSize_rename (os : List Operand) : rowSize (os.map (Operand.rename f g)) = rowSize os := by
  induction os with
  | nil => rfl
  | cons o os ih => rw [List.map_cons, rowSize_cons, rowSize_cons, ih, Operand.rename, Value.size_rename]

theorem Command.size_rename (c : Command) : (c.rename f g).size = c.size := by
  cases c with
  | label x => rfl
  | instruction op os => rfl
  | data vs => exact rowSize_rename f g vs

theorem Command.label?_rename (c : Command) : (c.rename f g).label? = c.label?.map f := by
  cases c <;> rfl

theorem Command.operands_rename (c : Command) :
    (c.rename f g).operands = c.operands.map (Operand.rename f g) := by
  cases c <;> rfl

variable (p : List Statement)

theorem size_rename : size (p.map (Statement.rename f g)) = size p := by
  induction p with
  | nil => rfl
  | cons s p ih =>
    rw [List.map_cons, size_cons, size_cons, ih, Statement.rename, Command.size_rename]

theorem labelsFrom_rename (a : Nat) :
    labelsFrom a (p.map (Statement.rename f g)) = (labelsFrom a p).map fun l => (f l.1, l.2) := by
  induction p generalizing a with
  | nil => rfl
  | cons s p ih =>
    rw [List.map_cons, labelsFrom, labelsFrom, List.map_append, Statement.rename,
      Command.label?_rename, Command.size_rename, ih]
    cases s.command.label? <;> rfl

theorem labelNames_rename : labelNames (p.map (Statement.rename f g)) = (labelNames p).map f := by
  rw [← fst_labelsFrom 0, labelsFrom_rename, List.map_map, ← fst_labelsFrom 0, List.map_map]
  rfl

theorem operands_rename :
    operands (p.map (Statement.rename f g)) = (operands p).map (Operand.rename f g) := by
  rw [operands, List.flatMap_map, operands, List.map_flatMap]
  exact List.flatMap_congr fun s _ => Command.operands_rename f g s.command

theorem Value.words_rename (address : String → Nat) (v : Value) :
    (v.rename f).words address = v.words (address ∘ f) := by
  cases v <;> rfl

theorem rowWords_rename (address : String → Nat) (os : List Operand) :
    rowWords address (os.map (Operand.rename f g)) = rowWords (address ∘ f) os := by
  rw [rowWords, List.flatMap_map]
  exact List.flatMap_congr fun o _ => Value.words_rename f address o.value

theorem words_rename (address : String → Nat) :
    words address (p.map (Statement.rename f g)) = words (address ∘ f) p := by
  rw [words, List.flatMap_map]
  refine List.flatMap_congr fun s _ => ?_
  cases hc : s.command with
  | label x => simp only [Statement.rename, hc, Command.rename, Command.words]
  | instruction op os =>
    simp only [Statement.rename, hc, Command.rename, Command.words, rowWords_rename]
  | data vs => simp only [Statement.rename, hc, Command.rename, Command.words, rowWords_rename]

end Layout

/-- The words depend on the addresses of the labels that are referred to. -/
theorem words_congr {f g : String → Nat} {p : List Statement}
    (h : ∀ o ∈ operands p, ∀ x, o.value = .label x → f x = g x) : words f p = words g p := by
  refine List.flatMap_congr fun s hs => ?_
  have hrow : ∀ os, (∀ o ∈ os, o ∈ s.command.operands) → rowWords f os = rowWords g os := by
    intro os hos
    refine List.flatMap_congr fun o ho => ?_
    have ho := h o (List.mem_flatMap.2 ⟨s, hs, hos o ho⟩)
    cases hv : o.value with
    | label x => exact congrArg (fun a : Nat => [(a : Int)]) (ho x hv)
    | register | number | char | text => rfl
  cases hc : s.command with
  | label x => rfl
  | instruction op os =>
    rw [hc] at hrow
    exact congrArg (_ :: ·) (hrow os fun _ ho => ho)
  | data vs =>
    rw [hc] at hrow
    exact hrow vs fun _ ho => ho

/-! ### What is told apart -/

/-- A pair is found under its new name if no other name has become the same. -/
theorem lookup_rename {f : String → String} {l : List (String × Nat)} {x : String}
    (h : ∀ y ∈ l.map Prod.fst, f y = f x → y = x) :
    (l.map fun a => (f a.1, a.2)).lookup (f x) = l.lookup x := by
  induction l with
  | nil => rfl
  | cons a l ih =>
    obtain ⟨y, b⟩ := a
    rw [List.map_cons, List.forall_mem_cons] at h
    rw [List.map_cons, List.lookup_cons, List.lookup_cons, ih h.2]
    by_cases hy : x = y
    · rw [hy, beq_self_eq_true, beq_self_eq_true]
    · have hf : f x ≠ f y := fun heq => hy (h.1 heq.symm).symm
      rw [beq_false_of_ne hy, beq_false_of_ne hf]

section Injective
variable {f : String → String} (g : Nat → Nat) {p : List Statement} (hf : Set.InjOn f (namesOf p))
include hf

theorem address?_rename {x : String} (hx : x ∈ namesOf p) :
    address? (p.map (Statement.rename f g)) (f x) = address? p x := by
  rw [address?, labelsFrom_rename]
  apply lookup_rename
  intro y hy heq
  rw [fst_labelsFrom] at hy
  exact hf (mem_namesOf_of_mem_labelNames hy) hx heq

theorem words_addressOf_rename :
    words (addressOf (p.map (Statement.rename f g))) (p.map (Statement.rename f g)) =
      words (addressOf p) p := by
  rw [words_rename]
  apply words_congr
  intro o ho x hx
  rw [Function.comp_apply, addressOf, address?_rename g hf (mem_namesOf_of_mem_operands ho hx),
    addressOf]

theorem Operand.missing?_rename {o : Operand} (ho : o ∈ operands p) :
    (o.rename f g).missing? (address? (p.map (Statement.rename f g))) =
      (o.missing? (address? p)).map (AsmError.rename f g) := by
  have hname : ∀ x, o.value = .label x → x ∈ namesOf p := fun x => mem_namesOf_of_mem_operands ho
  obtain ⟨loc, v⟩ := o
  cases v with
  | label x =>
    simp only [Operand.missing?, Operand.rename, Value.rename, address?_rename g hf (hname x rfl)]
    split <;> rfl
  | register | number | char | text => rfl

end Injective

/-! ### What is refused -/

section Offence
variable (f : String → String) (g : Nat → Nat)

/-- What is wrong with a value has nothing to do with names. -/
theorem Value.offence?_rename (v : Value) :
    (v.rename f).offence? = v.offence?.map (CodeError.rename f) := by
  cases v with
  | register | label => rfl
  | number n =>
    simp only [rename, offence?]
    split <;> rfl
  | char s =>
    simp only [rename, offence?]
    split
    · split <;> rfl
    · rfl
  | text s => simp only [rename, offence?, Option.map_map, Function.comp_def, CodeError.rename]

theorem Value.offenceAs?_rename (op : Opcode) (role : Role) (v : Value) :
    (v.rename f).offenceAs? op role = (v.offenceAs? op role).map (CodeError.rename f) := by
  cases role with
  | write => cases v <;> rfl
  | read =>
    cases v with
    | register | text | label => rfl
    | number n => exact Value.offence?_rename f (.number n)
    | char s => exact Value.offence?_rename f (.char s)

theorem map_code_rename (why : Option CodeError) (loc : Nat) :
    (why.map (CodeError.rename f)).map (AsmError.code (g loc)) =
      (why.map (AsmError.code loc)).map (AsmError.rename f g) := by
  rw [Option.map_map, Option.map_map]
  rfl

end Offence

theorem eq_of_label_mem_items {p : List Statement} {loc : Nat} {x : String} {before : List Statement}
    (h : Item.label loc x before ∈ items p) :
    ∃ s post, p = before ++ s :: post ∧ s.command.label? = some x := by
  obtain ⟨pre, ⟨l, c⟩, post, hp, hs⟩ := mem_itemsAfter.1 h
  refine ⟨⟨l, c⟩, post, ?_⟩
  cases c with
  | label y =>
    simp only [Statement.items, List.nil_append, List.mem_singleton, Item.label.injEq] at hs
    obtain ⟨-, rfl, rfl⟩ := hs
    exact ⟨hp, rfl⟩
  | instruction op os => simp [Statement.items] at hs
  | data vs => simp [Statement.items] at hs

section Items
variable (f : String → String) (g : Nat → Nat)

theorem Statement.items_rename (before : List Statement) (s : Statement) :
    (s.rename f g).items (before.map (Statement.rename f g)) =
      (s.items before).map (Item.rename f g) := by
  obtain ⟨loc, c⟩ := s
  cases c with
  | label x => rfl
  | instruction op os =>
    simp only [Statement.items, Statement.rename, Command.rename, List.zip_map_right, List.map_map,
      List.map_cons, Item.rename, List.length_map]
    rfl
  | data vs =>
    simp only [Statement.items, Statement.rename, Command.rename, List.map_map]
    rfl

theorem itemsAfter_rename (before p : List Statement) :
    itemsAfter (before.map (Statement.rename f g)) (p.map (Statement.rename f g)) =
      (itemsAfter before p).map (Item.rename f g) := by
  induction p generalizing before with
  | nil => rfl
  | cons s p ih =>
    have hbehind := ih (before ++ [s])
    rw [List.map_append, List.map_singleton] at hbehind
    rw [List.map_cons, itemsAfter, itemsAfter, Statement.items_rename, hbehind, List.map_append]

theorem items_rename (p : List Statement) :
    items (p.map (Statement.rename f g)) = (items p).map (Item.rename f g) :=
  itemsAfter_rename f g [] p

variable {f} {p : List Statement} (hf : Set.InjOn f (namesOf p))
include hf

/-- A name that was new is new again. -/
theorem mem_labelNames_rename {before post : List Statement} {s : Statement} {x : String}
    (hp : p = before ++ s :: post) (hx : s.command.label? = some x) :
    f x ∈ labelNames (before.map (Statement.rename f g)) ↔ x ∈ labelNames before := by
  have hs : x ∈ namesOf p := ⟨s, by simp [hp], .inl hx⟩
  rw [labelNames_rename, List.mem_map]
  constructor
  · rintro ⟨y, hy, heq⟩
    have hmem : y ∈ labelNames p := by
      rw [hp, labelNames_append]
      exact List.mem_append_left _ hy
    rwa [← hf (mem_namesOf_of_mem_labelNames hmem) hs heq]
  · intro hmem
    exact ⟨x, hmem, rfl⟩

theorem Item.offence?_rename {i : Item} (hi : i ∈ items p) :
    (i.rename f g).offence? = i.offence?.map (AsmError.rename f g) := by
  cases i with
  | label loc x before =>
    obtain ⟨s, post, hp, hx⟩ := eq_of_label_mem_items hi
    simp only [Item.rename, Item.offence?, mem_labelNames_rename g hf hp hx, size_rename]
    split
    · rfl
    · split <;> rfl
  | instruction loc op n =>
    simp only [Item.rename, Item.offence?]
    split <;> rfl
  | operand op role o =>
    simp only [Item.rename, Item.offence?, Operand.rename, Value.offenceAs?_rename,
      map_code_rename]
  | value o =>
    simp only [Item.rename, Item.offence?, Operand.rename, Value.offence?_rename,
      map_code_rename]

end Items

/-- What is checked under new names offends where it did under the old ones. -/
theorem check_mapError {α α' β ε ε' : Type} {offence? : α → Option ε} {offence?' : α' → Option ε'}
    {h : α → α'} {e : ε → ε'} {as : List α} (next : Except ε β)
    (has : ∀ a ∈ as, offence?' (h a) = (offence? a).map e) :
    check offence?' (as.map h) (next.mapError e) = (check offence? as next).mapError e := by
  induction as with
  | nil => rfl
  | cons a as ih =>
    rw [List.forall_mem_cons] at has
    rw [List.map_cons, check_cons, check_cons, has.1, ih has.2]
    cases offence? a <;> rfl

/-- Under names that are told apart as before, two passes give the same words, or the same error under
the new names. -/
theorem twoPass_rename {f : String → String} (g : Nat → Nat) {p : List Statement}
    (hf : Set.InjOn f (namesOf p)) :
    twoPass (p.map (Statement.rename f g)) = (twoPass p).mapError (AsmError.rename f g) := by
  let next : Except AsmError (List Int) :=
    if 32768 < size p then .error (.tooLong (size p)) else .ok (words (addressOf p) p)
  have hnext : next.mapError (AsmError.rename f g) = next := by
    simp only [next]
    split <;> rfl
  rw [twoPass, items_rename, operands_rename, size_rename, words_addressOf_rename g hf]
  change check _ _ (check _ _ next) = _
  rw [← hnext, check_mapError _ fun o ho => Operand.missing?_rename g hf ho,
    check_mapError _ fun i hi => Item.offence?_rename g hf hi]
  rfl

/-- If the labels of a program are given names that are told apart as the old ones are, the assembler
gives the same words, or an error of the same kind at the same place, under the new name. The place is
the same node, as the locations can be replaced by any others at the same time. -/
theorem names_are_arbitrary {p : List Statement} {f : String → String} (hf : Set.InjOn f (namesOf p))
    (g : Nat → Nat) :
    (∀ ws, assembleProgram (p.map (Statement.rename f g)) = .ok ws ↔ assembleProgram p = .ok ws) ∧
    ∀ e, assembleProgram p = .error e →
      assembleProgram (p.map (Statement.rename f g)) = .error (e.rename f g) := by
  rw [assembleProgram_eq, assembleProgram_eq, twoPass_rename g hf]
  cases twoPass p with
  | ok words => exact ⟨fun ws => Iff.rfl, nofun⟩
  | error why => exact ⟨fun ws => ⟨nofun, nofun⟩, by rintro e ⟨⟩; rfl⟩

/-- Exchanges two names, and mixes up all others. -/
def swapped (x : String) : String := if x = "a" then "b" else if x = "b" then "a" else "c"

/-- A jump to a label further on, and between the two another one that names its own address. -/
def crossing : List Statement :=
  [⟨0, .instruction .jmp [⟨4, .label "b"⟩]⟩, ⟨6, .label "a"⟩, ⟨9, .data [⟨15, .label "a"⟩]⟩,
    ⟨17, .label "b"⟩]

/-- The program with one of its labels defined twice. -/
def crossingTwice : List Statement := crossing ++ [⟨20, .label "a"⟩]

theorem injOn_crossingTwice : Set.InjOn swapped (namesOf crossingTwice) := by
  have hnames : ∀ x ∈ namesOf crossingTwice, x = "a" ∨ x = "b" := by
    intro x hx
    have hx : "b" = x ∨ "a" = x ∨ "a" = x ∨ "b" = x ∨ "a" = x := by
      simpa [namesOf, crossingTwice, crossing, Statement.Mentions, Command.label?, Command.operands]
        using hx
    rcases hx with rfl | rfl | rfl | rfl | rfl <;> simp
  have hswap : swapped "a" ≠ swapped "b" := by decide
  intro x hx y hy heq
  rcases hnames x hx with rfl | rfl <;> rcases hnames y hy with rfl | rfl
  · rfl
  · exact absurd heq hswap
  · exact absurd heq.symm hswap
  · rfl

theorem injOn_crossing : Set.InjOn swapped (namesOf crossing) := by
  refine injOn_crossingTwice.mono ?_
  rintro x ⟨s, hs, hx⟩
  exact ⟨s, List.mem_append_left _ hs, hx⟩

/-- The same words under exchanged names, and the same error, which names the label by its new name. -/
theorem names_are_arbitrary_of_swap :
    Set.InjOn swapped (namesOf crossing) ∧
      assembleProgram (crossing.map (Statement.rename swapped id)) = .ok [6, 3, 2] ∧
      Set.InjOn swapped (namesOf crossingTwice) ∧
      assembleProgram (crossingTwice.map (Statement.rename swapped id)) =
        .error (.code 20 (.alreadyDefined "b")) := by
  refine ⟨injOn_crossing, ?_, injOn_crossingTwice, ?_⟩
  · exact ((names_are_arbitrary injOn_crossing id).1 [6, 3, 2]).2 rfl
  · exact (names_are_arbitrary injOn_crossingTwice id).2 (.code 20 (.alreadyDefined "a")) rfl

end WordMachine.Asm
