import WordMachine.Proofs.Asm.Layout

/-! Assembling in two passes: the first lays the statements out, which gives each label its address,
and the second writes every word. A program is refused for the first thing in it that is wrong by
itself or against what stands before it; else for its first reference to a label that is defined
nowhere; else for its length. -/

namespace WordMachine.Asm

/-- What a program asks to be turned into words, one thing at a time. -/
inductive Item where
  /-- a label, behind the statements that stand before it -/
  | label (loc : Nat) (name : String) (before : List Statement)
  /-- an instruction and how many operands it is given -/
  | instruction (loc : Nat) (op : Opcode) (count : Nat)
  | operand (op : Opcode) (role : Role) (o : Operand)
  /-- a value in a row of data -/
  | value (o : Operand)

/-- Why a value cannot be turned into words. -/
def Value.offence? : Value → Option CodeError
  | .register _ | .label _ => none
  | .number n => if n ≤ 32767 then none else some (.numberTooWide n)
  | .char s =>
    match s.toList with
    | [c] => if c.toNat ≤ 32767 then none else some (.charTooWide c)
    | _ => some .notOneCharacter
  | .text s => (s.toList.find? fun c => 32767 < c.toNat).map .charTooWide

/-- Why a value cannot be the operand of an instruction in the given role. -/
def Value.offenceAs? (op : Opcode) : Role → Value → Option CodeError
  | .write, .register _ => none
  | .write, _ => some (.notARegister op)
  | .read, .text _ => some .misplacedText
  | .read, v => v.offence?

def Item.offence? : Item → Option AsmError
  | .label loc x before =>
    if x ∈ labelNames before then some (.code loc (.alreadyDefined x))
    else if 32767 < size before then some (.code loc (.outsideMemory x))
    else none
  | .instruction loc op count =>
    if count = op.arity then none else some (.code loc (.wrongArity op count))
  | .operand op role o => (o.value.offenceAs? op role).map (.code o.loc)
  | .value o => o.value.offence?.map (.code o.loc)

/-- The items of a statement that stands behind others. -/
def Statement.items (before : List Statement) (s : Statement) : List Item :=
  match s.command with
  | .label x => [.label s.loc x before]
  | .instruction op os =>
    .instruction s.loc op os.length :: (op.signature.zip os).map fun p => .operand op p.1 p.2
  | .data vs => vs.map .value

def itemsAfter (before : List Statement) : List Statement → List Item
  | [] => []
  | s :: rest => s.items before ++ itemsAfter (before ++ [s]) rest

/-- the items of a program, in the order of the source -/
def items (program : List Statement) : List Item := itemsAfter [] program

/-- Why a reference to a label cannot be filled in. -/
def Operand.missing? (address? : String → Option Nat) (o : Operand) : Option AsmError :=
  match o.value with
  | .label x => if (address? x).isSome then none else some (.code o.loc (.undefined x))
  | _ => none

section Check
variable {α β ε : Type}

/-- Goes on if nothing in the list offends; else the first offence is the error. -/
def check (offence? : α → Option ε) (as : List α) (next : Except ε β) : Except ε β :=
  match as.findSome? offence? with
  | some e => .error e
  | none => next

@[simp] theorem check_nil (offence? : α → Option ε) (next : Except ε β) :
    check offence? [] next = next := rfl

theorem check_cons (offence? : α → Option ε) (a : α) (as : List α) (next : Except ε β) :
    check offence? (a :: as) next =
      match offence? a with
      | some e => .error e
      | none => check offence? as next := by
  unfold check
  rw [List.findSome?_cons]
  cases offence? a <;> rfl

theorem check_append (offence? : α → Option ε) (as bs : List α) (next : Except ε β) :
    check offence? (as ++ bs) next = check offence? as (check offence? bs next) := by
  induction as with
  | nil => rfl
  | cons a as ih => rw [List.cons_append, check_cons, check_cons, ih]

theorem check_map {γ : Type} (offence? : γ → Option ε) (f : α → γ) (as : List α)
    (next : Except ε β) : check offence? (as.map f) next = check (fun a => offence? (f a)) as next := by
  unfold check
  rw [List.findSome?_map]
  rfl

theorem check_eq_of_forall {offence? : α → Option ε} {as : List α} (h : ∀ a ∈ as, offence? a = none)
    (next : Except ε β) : check offence? as next = next := by
  unfold check
  rw [List.findSome?_eq_none_iff.2 h]

theorem check_eq_ok_iff {offence? : α → Option ε} {as : List α} {next : Except ε β} {b : β} :
    check offence? as next = .ok b ↔ (∀ a ∈ as, offence? a = none) ∧ next = .ok b := by
  rw [← List.findSome?_eq_none_iff, check]
  split <;> simp [*]

end Check

/-- The words of a program, or what is wrong with it. -/
def twoPass (program : List Statement) : Except AsmError (List Int) :=
  check Item.offence? (items program)
    (check (Operand.missing? (address? program)) (operands program)
      (if 32768 < size program then .error (.tooLong (size program))
      else .ok (words (addressOf program) program)))

end WordMachine.Asm
