import WordMachine.Proofs.Asm.Boundary
import WordMachine.Proofs.Machine.Cells
import WordMachine.Proofs.Machine.OperandWords

/-! What the operands of a source stand for on a machine. Where their words stand in memory, the
machine reads from these words what the source gives. -/

namespace WordMachine
namespace Asm

/-- What an operand of a source stands for on a machine, if it can be read. -/
def Value.denotation? (address : String → Nat) (m : Machine) : Value → Option Int
  | .register r => some (m.registers.get r)
  | .number n => some n
  | .char s =>
    match s.toList with
    | [c] => some c.toNat
    | _ => none
  | .text _ => none
  | .label x => some (address x)

/-- The operands of an instruction as the source gives them: the registers that are written, and the
values that are read. -/
def given? (address : String → Nat) (m : Machine) :
    (roles : List Role) → List Operand → Option (Operands roles)
  | [], [] => some ()
  | .write :: roles, ⟨_, .register r⟩ :: os => (given? address m roles os).map fun rest => (r, rest)
  | .read :: roles, o :: os =>
    match o.value.denotation? address m with
    | some v => (given? address m roles os).map fun rest => (v, rest)
    | none => none
  | _, _ => none

theorem Value.resolve_words {address : String → Nat} {v : Value} (hv : v.offence? = none)
    (htext : ∀ t, v ≠ .text t) (hlabel : ∀ x, v = .label x → address x ≤ 32767) (m : Machine) :
    ∃ w u, v.words address = [w] ∧ m.resolve w = .ok u ∧ v.denotation? address m = some u := by
  have hliteral {n : Nat} (hn : n ≤ 32767) : m.resolve n = .ok n :=
    Machine.resolve_literal (by omega)
  cases v with
  | register r => exact ⟨r.word, m.registers.get r, rfl, Machine.resolve_register r, rfl⟩
  | number n =>
    exact ⟨n, n, rfl, hliteral ((Value.offence?_eq_none_iff.1 hv).1 n rfl), rfl⟩
  | char s =>
    obtain ⟨-, hone, hnarrow⟩ := Value.offence?_eq_none_iff.1 hv
    obtain ⟨c, hc⟩ := List.length_eq_one_iff.1 (hone s rfl)
    refine ⟨c.toNat, c.toNat, ?_, hliteral (hnarrow s (.inl rfl) c ?_), ?_⟩
    · simp [words, codesOf, hc]
    · simp [hc]
    · simp [denotation?, hc]
  | text t => exact absurd rfl (htext t)
  | label x => exact ⟨address x, address x, rfl, hliteral (hlabel x rfl), rfl⟩

/-- Where the words of the operands stand in memory, the machine reads what the source gives. -/
theorem operands_of_holds {address : String → Nat} {op : Opcode} {m : Machine}
    (hlabels : ∀ x, address x ≤ 32767) {roles : List Role} {os : List Operand} {a : Nat}
    (hlen : os.length = roles.length)
    (hos : ∀ role o, (role, o) ∈ roles.zip os → o.value.offenceAs? op role = none)
    (h : m.memory.Holds a (rowWords address os)) :
    ∃ args, given? address m roles os = some args ∧ m.operands roles a = .ok args := by
  induction roles generalizing os a with
  | nil =>
    obtain rfl := List.length_eq_zero_iff.1 hlen
    exact ⟨(), rfl, rfl⟩
  | cons role roles ih =>
    cases os with
    | nil => cases hlen
    | cons o os =>
      obtain ⟨loc, v⟩ := o
      obtain ⟨hwrite, htext, hv⟩ := Value.offenceAs?_eq_none_iff.1 (hos role ⟨loc, v⟩ (.head _))
      obtain ⟨w, u, hw, hres, hden⟩ := Value.resolve_words hv htext (fun x _ => hlabels x) m
      rw [rowWords_cons, hw, List.singleton_append, Memory.holds_cons] at h
      obtain ⟨args, hgiven, hargs⟩ :=
        ih (Nat.succ.inj hlen) (fun role o ho => hos role o (.tail _ ho)) h.2
      cases role with
      | write =>
        obtain ⟨r, rfl⟩ := hwrite rfl
        obtain rfl : r.word = w := List.singleton_inj.1 hw
        refine ⟨(r, args), ?_, ?_⟩
        · simp only [given?, hgiven]
          rfl
        · simp only [Machine.operands, h.1, Machine.target_register, hargs]
      | read =>
        refine ⟨(u, args), ?_, ?_⟩
        · simp only [given?, hden, hgiven]
          rfl
        · simp only [Machine.operands, h.1, hres, hargs]

/-- A value that is read is that of the operand in its place. -/
theorem value?_of_given? {address : String → Nat} {m : Machine} {roles : List Role}
    {os : List Operand} {args : Operands roles} (h : given? address m roles os = some args) {k : Nat}
    {v : Int} (hv : args.value? roles k = some v) :
    ∃ o, os[k]? = some o ∧ o.value.denotation? address m = some v := by
  induction roles generalizing os k with
  | nil => cases hv
  | cons role roles ih =>
    cases os with
    | nil => cases role <;> cases h
    | cons o os =>
      obtain ⟨loc, w⟩ := o
      cases role with
      | write =>
        cases w with
        | register r =>
          obtain ⟨rest, hrest, rfl⟩ := Option.map_eq_some_iff.1 h
          cases k with
          | zero => cases hv
          | succ k => exact ih hrest hv
        | _ => cases h
      | read =>
        rw [given?] at h
        split at h
        · rename_i u hu
          obtain ⟨rest, hrest, rfl⟩ := Option.map_eq_some_iff.1 h
          cases k with
          | zero =>
            cases hv
            exact ⟨_, rfl, hu⟩
          | succ k => exact ih hrest hv
        · cases h

end Asm
end WordMachine
