import WordMachine.Asm.Code

/-! The layout of a program: how many words each statement takes, which address that gives each
label, and the words themselves once every label has an address. -/

namespace WordMachine.Asm

/-- how many words a value takes -/
def Value.size : Value → Nat
  | .text s => s.toList.length
  | _ => 1

/-- how many words values take in a row -/
def rowSize : List Operand → Nat
  | [] => 0
  | o :: os => o.value.size + rowSize os

def Command.size : Command → Nat
  | .label _ => 0
  | .instruction op _ => 1 + op.arity
  | .data vs => rowSize vs

/-- how many words a program takes -/
def size : List Statement → Nat
  | [] => 0
  | s :: rest => s.command.size + size rest

def Command.operands : Command → List Operand
  | .label _ => []
  | .instruction _ os => os
  | .data vs => vs

/-- all operands of a program, in the order of the source -/
def operands (program : List Statement) : List Operand := program.flatMap fun s => s.command.operands

def Command.label? : Command → Option String
  | .label x => some x
  | _ => none

/-- the names that are defined, in the order of the source -/
def labelNames (program : List Statement) : List String := program.filterMap fun s => s.command.label?

/-- The labels with their addresses, for a program whose first word has the address `a`. -/
def labelsFrom (a : Nat) : List Statement → List (String × Nat)
  | [] => []
  | s :: rest => s.command.label?.toList.map (fun x => (x, a)) ++ labelsFrom (a + s.command.size) rest

/-- the address of a label, if the program defines it -/
def address? (program : List Statement) (x : String) : Option Nat := (labelsFrom 0 program).lookup x

/-- the address of a label that the program defines -/
def addressOf (program : List Statement) (x : String) : Nat := (address? program x).getD 0

def codesOf (s : String) : List Int := s.toList.map fun c => (c.toNat : Int)

/-- The words of a value, for given addresses of the labels. -/
def Value.words (address : String → Nat) : Value → List Int
  | .register r => [r.word]
  | .number n => [(n : Int)]
  | .char s | .text s => codesOf s
  | .label x => [(address x : Int)]

def rowWords (address : String → Nat) (os : List Operand) : List Int :=
  os.flatMap fun o => o.value.words address

def Command.words (address : String → Nat) : Command → List Int
  | .label _ => []
  | .instruction op os => op.code :: rowWords address os
  | .data vs => rowWords address vs

/-- The words of a program, for given addresses of the labels. -/
def words (address : String → Nat) (program : List Statement) : List Int :=
  program.flatMap fun s => s.command.words address

/-! ### Putting programs together -/

section Append
variable (p q : List Statement) (s : Statement)

@[simp] theorem size_nil : size [] = 0 := rfl

@[simp] theorem size_cons : size (s :: p) = s.command.size + size p := rfl

theorem size_append : size (p ++ q) = size p + size q := by
  induction p with
  | nil => rw [List.nil_append, size_nil, Nat.zero_add]
  | cons s p ih => rw [List.cons_append, size_cons, size_cons, ih, Nat.add_assoc]

@[simp] theorem rowSize_cons (o : Operand) (os : List Operand) :
    rowSize (o :: os) = o.value.size + rowSize os := rfl

@[simp] theorem rowWords_cons (address : String → Nat) (o : Operand) (os : List Operand) :
    rowWords address (o :: os) = o.value.words address ++ rowWords address os := rfl

@[simp] theorem words_cons (address : String → Nat) :
    words address (s :: p) = s.command.words address ++ words address p := rfl

theorem words_append (address : String → Nat) :
    words address (p ++ q) = words address p ++ words address q := List.flatMap_append

theorem labelNames_append : labelNames (p ++ q) = labelNames p ++ labelNames q :=
  List.filterMap_append

theorem labelsFrom_append (a : Nat) :
    labelsFrom a (p ++ q) = labelsFrom a p ++ labelsFrom (a + size p) q := by
  induction p generalizing a with
  | nil => rfl
  | cons s p ih =>
    simp only [List.cons_append, labelsFrom, ih, List.append_assoc, size_cons, Nat.add_assoc]

end Append

theorem fst_labelsFrom (a : Nat) (p : List Statement) :
    (labelsFrom a p).map Prod.fst = labelNames p := by
  induction p generalizing a with
  | nil => rfl
  | cons s p ih =>
    simp only [labelsFrom, List.map_append, ih, labelNames, List.filterMap_cons]
    cases s.command.label? <;> simp

/-- A label has the address of what follows it. -/
theorem mem_labelsFrom {a : Nat} {p : List Statement} {x : String} {b : Nat} :
    (x, b) ∈ labelsFrom a p ↔
      ∃ before s after, p = before ++ s :: after ∧ s.command.label? = some x ∧ b = a + size before := by
  induction p generalizing a with
  | nil => simp [labelsFrom]
  | cons s p ih =>
    simp only [labelsFrom, List.mem_append, List.mem_map, Option.mem_toList, Prod.mk.injEq, ih]
    constructor
    · rintro (⟨y, hy, rfl, rfl⟩ | ⟨before, t, after, rfl, ht, rfl⟩)
      · exact ⟨[], s, p, rfl, hy, by simp⟩
      · exact ⟨s :: before, t, after, rfl, ht, by rw [size_cons, Nat.add_assoc]⟩
    · rintro ⟨before, t, after, hp, ht, rfl⟩
      cases before with
      | nil =>
        obtain ⟨rfl, rfl⟩ := List.cons.inj hp
        exact .inl ⟨x, ht, rfl, by simp⟩
      | cons u before =>
        obtain ⟨rfl, rfl⟩ := List.cons.inj hp
        exact .inr ⟨before, t, after, rfl, ht, by rw [size_cons, Nat.add_assoc]⟩

end WordMachine.Asm
