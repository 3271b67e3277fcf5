import Mathlib.Data.List.Basic
import WordMachine.Proofs.Asm.Lines
import WordMachine.Proofs.Asm.Renaming

/-! One source behind another. Two sources that define no label twice between them are assembled
behind each other as they are assembled alone: the first gives its words again, and so does the
second, with the words that stand for its labels increased by what the first one takes. -/

namespace WordMachine.Asm

/-! ### Reading -/

/-- What stands behind a program and a newline is read as it is alone. -/
theorem parse_join (cs rest : List Char) :
    parse (String.ofList (cs ++ '\n' :: rest)) =
      (parse (String.ofList cs)).bind fun p =>
        (shifted Statement.shift ((expandTabs cs).length + 1) (parse (String.ofList rest))).map
          (p ++ ·) := by
  induction cs using lines_induction with
  | last cs hcs => exact parse_newline_statements hcs rest
  | more line mid hline ih =>
    have hlength : (expandTabs (line ++ '\n' :: mid)).length + 1 =
        (expandTabs mid).length + 1 + ((expandTabs line).length + 1) := by
      rw [expandTabs_newline, List.length_append, List.length_cons]
      omega
    rw [List.append_assoc, List.cons_append, parse_newline_statements hline, ih,
      parse_newline_statements hline, hlength]
    cases parse (String.ofList line) with
    | error e => rfl
    | ok ss =>
      cases parse (String.ofList mid) with
      | error e => rfl
      | ok p =>
        cases parse (String.ofList rest) with
        | error e => exact congrArg Except.error (SyntaxError.shift_shift _ _ e)
        | ok q =>
          change Except.ok (ss ++ List.map _ (p ++ List.map _ q)) =
            Except.ok (ss ++ List.map _ p ++ List.map _ q)
          rw [List.map_append, List.map_map, Statement.shift_comp, List.append_assoc]

theorem parse_join_eq_ok_iff {cs rest : List Char} {p : List Statement} :
    parse (String.ofList (cs ++ '\n' :: rest)) = .ok p ↔
      ∃ q r, parse (String.ofList cs) = .ok q ∧ parse (String.ofList rest) = .ok r ∧
        p = q ++ r.map (Statement.shift ((expandTabs cs).length + 1)) := by
  rw [parse_join]
  cases parse (String.ofList cs) with
  | error e => simp [Except.bind]
  | ok q =>
    cases parse (String.ofList rest) with
    | error e => simp [Except.bind, shifted, Except.map, Except.mapError]
    | ok r => simp [Except.bind, shifted, Except.map, Except.mapError, eq_comm]

/-! ### Locations -/

/-- To stand further on is to have other locations and the same names. -/
theorem Statement.shift_eq_rename (k : Nat) : Statement.shift k = Statement.rename id (· + k) := by
  have hoperand : Operand.shift k = Operand.rename id (· + k) := by
    funext o
    exact congrArg (Operand.mk (o.loc + k)) (Value.rename_id o.value).symm
  funext s
  obtain ⟨loc, c⟩ := s
  cases c with
  | label x => rfl
  | instruction op os =>
    simp only [Statement.shift, Command.shift, hoperand, Statement.rename, Command.rename]
  | data vs => simp only [Statement.shift, Command.shift, hoperand, Statement.rename, Command.rename]

section Shift
variable (k : Nat) (p : List Statement)

theorem size_shift : size (p.map (Statement.shift k)) = size p := by
  rw [Statement.shift_eq_rename, size_rename]

theorem labelsFrom_shift (a : Nat) : labelsFrom a (p.map (Statement.shift k)) = labelsFrom a p := by
  rw [Statement.shift_eq_rename, labelsFrom_rename]
  exact List.map_id _

theorem labelNames_shift : labelNames (p.map (Statement.shift k)) = labelNames p := by
  rw [Statement.shift_eq_rename, labelNames_rename, List.map_id]

theorem words_shift (address : String → Nat) :
    words address (p.map (Statement.shift k)) = words address p := by
  rw [Statement.shift_eq_rename, words_rename, Function.comp_id]

end Shift

theorem Sound.shift {p : List Statement} (h : Sound p) (k : Nat) :
    Sound (p.map (Statement.shift k)) := by
  have hwords : twoPass p = .ok (words (addressOf p) p) := twoPass_eq_ok_iff.2 ⟨h, rfl⟩
  have hmoved := twoPass_rename (· + k) (Set.injOn_id (namesOf p))
  rw [hwords] at hmoved
  rw [Statement.shift_eq_rename]
  exact (twoPass_eq_ok_iff.1 hmoved).1

/-! ### Two programs -/

section Append
variable {p q : List Statement}

theorem operands_append : operands (p ++ q) = operands p ++ operands q := List.flatMap_append

theorem le_of_mem_labelsFrom {a b : Nat} {x : String} (h : (x, b) ∈ labelsFrom a p) :
    b ≤ a + size p := by
  obtain ⟨before, s, after, rfl, -, rfl⟩ := mem_labelsFrom.1 h
  rw [size_append]
  omega

theorem labelsFrom_add (a k : Nat) (p : List Statement) :
    labelsFrom (a + k) p = (labelsFrom a p).map fun l => (l.1, l.2 + k) := by
  induction p generalizing a with
  | nil => rfl
  | cons s p ih =>
    rw [labelsFrom, labelsFrom, List.map_append, List.map_map, Nat.add_right_comm, ih]
    rfl

theorem lookup_map_snd {α β γ : Type} [BEq α] (f : β → γ) (l : List (α × β)) (a : α) :
    (l.map fun x => (x.1, f x.2)).lookup a = (l.lookup a).map f := by
  induction l with
  | nil => rfl
  | cons x l ih =>
    rw [List.map_cons, List.lookup_cons, List.lookup_cons, ih]
    split <;> rfl

theorem address?_append (x : String) :
    address? (p ++ q) x = (address? p x).or ((address? q x).map (· + size p)) := by
  have hadd : labelsFrom (0 + size p) q = (labelsFrom 0 q).map fun l => (l.1, l.2 + size p) :=
    labelsFrom_add 0 (size p) q
  rw [address?, labelsFrom_append, List.lookup_append, hadd]
  exact congrArg _ (lookup_map_snd (· + size p) (labelsFrom 0 q) x)

theorem addressOf_append_left {x : String} (hx : x ∈ labelNames p) :
    addressOf (p ++ q) x = addressOf p x := by
  obtain ⟨a, ha⟩ := Option.isSome_iff_exists.1 (isSome_address?.2 hx)
  rw [addressOf, address?_append, addressOf, ha, Option.some_or]

theorem addressOf_append_right {x : String} (hp : x ∉ labelNames p) (hx : x ∈ labelNames q) :
    addressOf (p ++ q) x = addressOf q x + size p := by
  obtain ⟨a, ha⟩ := Option.isSome_iff_exists.1 (isSome_address?.2 hx)
  rw [← isSome_address?, Bool.not_eq_true, Option.isSome_eq_false_iff, Option.isNone_iff_eq_none] at hp
  rw [addressOf, address?_append, hp, addressOf, ha]
  rfl

/-- Two sound programs make one if they define different labels and leave a word free, so that a
label behind the last statement has an address. -/
theorem Sound.append (hp : Sound p) (hq : Sound q) (hnames : ∀ x ∈ labelNames p, x ∉ labelNames q)
    (hsize : size p + size q ≤ 32767) : Sound (p ++ q) := by
  constructor
  case arity => exact List.forall_mem_append.2 ⟨hp.arity, hq.arity⟩
  case written => exact List.forall_mem_append.2 ⟨hp.written, hq.written⟩
  case number => exact operands_append ▸ List.forall_mem_append.2 ⟨hp.number, hq.number⟩
  case char => exact operands_append ▸ List.forall_mem_append.2 ⟨hp.char, hq.char⟩
  case narrow => exact operands_append ▸ List.forall_mem_append.2 ⟨hp.narrow, hq.narrow⟩
  case text => exact List.forall_mem_append.2 ⟨hp.text, hq.text⟩
  case distinct =>
    rw [labelNames_append, List.nodup_append]
    exact ⟨hp.distinct, hq.distinct, fun x hx y hy hxy => hnames x hx (hxy ▸ hy)⟩
  case inside =>
    intro x a hx
    have := le_of_mem_labelsFrom hx
    rw [size_append] at this
    omega
  case defined =>
    rw [operands_append, labelNames_append, List.forall_mem_append]
    exact ⟨fun o ho x hx => List.mem_append_left _ (hp.defined o ho x hx),
      fun o ho x hx => List.mem_append_right _ (hq.defined o ho x hx)⟩
  case fits =>
    rw [size_append]
    omega

end Append

/-! ### Words that stand for labels -/

/-- For each word of a value, whether it stands for a label. -/
def Value.marks : Value → List Bool
  | .label _ => [true]
  | .char s | .text s => s.toList.map fun _ => false
  | .register _ | .number _ => [false]

def rowMarks (os : List Operand) : List Bool := os.flatMap fun o => o.value.marks

def Command.marks : Command → List Bool
  | .label _ => []
  | .instruction _ os => false :: rowMarks os
  | .data vs => rowMarks vs

/-- For each word of a program, whether it stands for a label. -/
def marks (p : List Statement) : List Bool := p.flatMap fun s => s.command.marks

theorem rowMarks_cons (o : Operand) (os : List Operand) :
    rowMarks (o :: os) = o.value.marks ++ rowMarks os := rfl

theorem marks_cons (s : Statement) (p : List Statement) :
    marks (s :: p) = s.command.marks ++ marks p := rfl

theorem marks_shift (k : Nat) (p : List Statement) : marks (p.map (Statement.shift k)) = marks p := by
  have hrow (os : List Operand) : rowMarks (os.map (Operand.shift k)) = rowMarks os := by
    rw [rowMarks, List.flatMap_map]
    rfl
  rw [marks, List.flatMap_map]
  refine List.flatMap_congr fun s _ => ?_
  cases hc : s.command with
  | label x => simp only [Statement.shift, hc, Command.shift]
  | instruction op os => simp only [Statement.shift, hc, Command.shift, Command.marks, hrow]
  | data vs => simp only [Statement.shift, hc, Command.shift, Command.marks, hrow]

/-- Increases the words that stand for labels. -/
def relocated (k : Nat) (marks : List Bool) (ws : List Int) : List Int :=
  List.zipWith (fun w mark => if mark then w + k else w) ws marks

section Marks
variable (address : String → Nat)

theorem Value.length_marks (v : Value) : v.marks.length = (v.words address).length := by
  cases v <;> simp [marks, words, codesOf]

theorem length_rowMarks (os : List Operand) : (rowMarks os).length = (rowWords address os).length := by
  induction os with
  | nil => rfl
  | cons o os ih =>
    rw [rowMarks_cons, rowWords_cons, List.length_append, List.length_append,
      o.value.length_marks address, ih]

theorem Command.length_marks (c : Command) : c.marks.length = (c.words address).length := by
  cases c with
  | label x => rfl
  | instruction op os => exact congrArg (· + 1) (length_rowMarks address os)
  | data vs => exact length_rowMarks address vs

theorem length_marks (p : List Statement) : (marks p).length = (words address p).length := by
  induction p with
  | nil => rfl
  | cons s p ih =>
    rw [marks_cons, words_cons, List.length_append, List.length_append,
      s.command.length_marks address, ih]

/-! With the addresses of all labels increased, the words are relocated. -/

variable (k : Nat)

theorem relocated_append {ms ms' : List Bool} {ws ws' : List Int} (h : ms.length = ws.length) :
    relocated k (ms ++ ms') (ws ++ ws') = relocated k ms ws ++ relocated k ms' ws' :=
  List.zipWith_append h.symm

theorem relocated_plain {α : Type} (f : α → Int) (as : List α) :
    relocated k (as.map fun _ => false) (as.map f) = as.map f := by
  induction as with
  | nil => rfl
  | cons a as ih => exact congrArg (f a :: ·) ih

theorem Value.words_add (v : Value) :
    v.words (fun x => address x + k) = relocated k v.marks (v.words address) := by
  cases v with
  | label x => exact congrArg (fun w => [w]) (Int.natCast_add _ _)
  | char s | text s => exact (relocated_plain k _ _).symm
  | register | number => rfl

theorem rowWords_add (os : List Operand) :
    rowWords (fun x => address x + k) os = relocated k (rowMarks os) (rowWords address os) := by
  induction os with
  | nil => rfl
  | cons o os ih =>
    rw [rowWords_cons, rowWords_cons, rowMarks_cons,
      relocated_append k (o.value.length_marks address), ← o.value.words_add address k, ih]

theorem Command.words_add (c : Command) :
    c.words (fun x => address x + k) = relocated k c.marks (c.words address) := by
  cases c with
  | label x => rfl
  | instruction op os => exact congrArg (_ :: ·) (rowWords_add address k os)
  | data vs => exact rowWords_add address k vs

theorem words_add (p : List Statement) :
    words (fun x => address x + k) p = relocated k (marks p) (words address p) := by
  induction p with
  | nil => rfl
  | cons s p ih =>
    rw [words_cons, words_cons, marks_cons,
      relocated_append k (s.command.length_marks address), ← s.command.words_add address k, ih]

end Marks

/-- The words of two programs in a row. -/
theorem words_join {p q : List Statement} (hp : Sound p) (hq : Sound q)
    (hnames : ∀ x ∈ labelNames p, x ∉ labelNames q) :
    words (addressOf (p ++ q)) (p ++ q) =
      words (addressOf p) p ++ relocated (size p) (marks q) (words (addressOf q) q) := by
  have hfirst : words (addressOf (p ++ q)) p = words (addressOf p) p :=
    words_congr fun o ho x hx => addressOf_append_left (hp.defined o ho x hx)
  have hsecond : words (addressOf (p ++ q)) q = words (fun x => addressOf q x + size p) q := by
    refine words_congr fun o ho x hx => ?_
    have hmem := hq.defined o ho x hx
    exact addressOf_append_right (fun hin => hnames x hin hmem) hmem
  rw [words_append, hfirst, hsecond, words_add]

theorem getElem?_relocated (k : Nat) {ms : List Bool} {ws : List Int} {i : Nat} {w : Int}
    (h : ms.length = ws.length) (hw : ws[i]? = some w) :
    (relocated k ms ws)[i]? = some (if ms[i]? = some true then w + k else w) := by
  obtain ⟨hi, rfl⟩ := List.getElem?_eq_some_iff.1 hw
  have hi' : i < ms.length := h ▸ hi
  rw [relocated, List.getElem?_zipWith, hw, List.getElem?_eq_getElem hi']
  simp

/-! The assembler keeps a fixup for each word that stands for a label. -/

/-- The words with these marks begin at the address `a`, and the one at the address `i` is marked. -/
def MarkedAt (a : Nat) (ms : List Bool) (i : Nat) : Prop := a ≤ i ∧ ms[i - a]? = some true

section Fixups
variable {a i : Nat}

theorem markedAt_append {ms ms' : List Bool} :
    MarkedAt a (ms ++ ms') i ↔ MarkedAt a ms i ∨ MarkedAt (a + ms.length) ms' i := by
  unfold MarkedAt
  by_cases hi : i - a < ms.length
  · rw [List.getElem?_append_left hi]
    exact ⟨.inl, fun h => h.elim id fun h => by omega⟩
  · rw [List.getElem?_append_right (Nat.not_lt.1 hi), List.getElem?_eq_none (Nat.not_lt.1 hi), Nat.sub_sub]
    refine ⟨fun h => .inr ⟨by omega, h.2⟩, fun h => h.elim (fun h => nomatch h.2) fun h => ⟨by omega, h.2⟩⟩

theorem not_markedAt_of_plain {ms : List Bool} (h : ∀ m ∈ ms, m = false) : ¬ MarkedAt a ms i :=
  fun hm => Bool.false_ne_true (h true (List.mem_of_getElem? hm.2)).symm

theorem mem_fixups_operand {o : Operand} :
    i ∈ (o.fixups a).map Fixup.addr ↔ MarkedAt a o.value.marks i := by
  obtain ⟨loc, v⟩ := o
  cases v with
  | label x =>
    simp only [Operand.fixups, Value.marks, List.map_cons, List.map_nil, List.mem_singleton, MarkedAt,
      List.getElem?_singleton]
    split <;> simp <;> omega
  | register | number | char | text =>
    refine iff_of_false List.not_mem_nil (not_markedAt_of_plain ?_)
    simp [Value.marks]

theorem mem_rowFixups {os : List Operand} :
    i ∈ (rowFixups a os).map Fixup.addr ↔ MarkedAt a (rowMarks os) i := by
  induction os generalizing a with
  | nil => exact iff_of_false List.not_mem_nil (not_markedAt_of_plain nofun)
  | cons o os ih =>
    rw [rowFixups, List.map_append, List.mem_append, mem_fixups_operand, ih,
      ← o.value.length_marks unknown, rowMarks_cons, markedAt_append]

theorem mem_fixups_command {c : Command} :
    i ∈ (c.fixups a).map Fixup.addr ↔ MarkedAt a c.marks i := by
  cases c with
  | label x => exact iff_of_false List.not_mem_nil (not_markedAt_of_plain nofun)
  | instruction op os =>
    have hcode : Command.marks (.instruction op os) = [false] ++ rowMarks os := rfl
    rw [hcode, markedAt_append, or_iff_right (not_markedAt_of_plain (by simp))]
    exact mem_rowFixups
  | data vs => exact mem_rowFixups

theorem mem_fixupsFrom {p : List Statement} :
    i ∈ (fixupsFrom a p).map Fixup.addr ↔ MarkedAt a (marks p) i := by
  induction p generalizing a with
  | nil => exact iff_of_false List.not_mem_nil (not_markedAt_of_plain nofun)
  | cons s p ih =>
    rw [fixupsFrom, List.map_append, List.mem_append, mem_fixups_command, ih,
      ← s.command.length_marks unknown, marks_cons, markedAt_append]

end Fixups

theorem Sound.emitStatements {p : List Statement} (h : Sound p) :
    Draft.empty.emitStatements p = .ok (Draft.of p) := by
  have hempty : Draft.empty = Draft.of [] := rfl
  have hclean : Clean [] := nofun
  rw [hempty, Draft.emitStatements_eq hclean, List.nil_append]
  exact check_eq_of_forall h.clean _

theorem assemble_eq_ok_iff {source : String} {ws : List Int} {p : List Statement}
    (hp : parse source = .ok p) :
    assemble source = .ok ws ↔ Sound p ∧ ws = words (addressOf p) p := by
  simp only [assemble, hp, assembleProgram_eq, twoPass_eq_ok_iff]

theorem parse_append_newline (a b : String) {p q : List Statement} (hp : parse a = .ok p)
    (hq : parse b = .ok q) :
    ∃ k, parse (a ++ "\n" ++ b) = .ok (p ++ q.map (Statement.shift k)) := by
  have hjoined : a ++ "\n" ++ b = String.ofList (a.toList ++ '\n' :: b.toList) := by
    rw [← String.toList_inj]
    simp
  refine ⟨(expandTabs a.toList).length + 1, ?_⟩
  rw [hjoined, parse_join, String.ofList_toList, String.ofList_toList, hp, hq]
  rfl

/-- Two sources, each of which can be assembled, with no label in common and room for a word behind
them: behind a newline the second gives its words again. Those among them for which the assembler
keeps a fixup, as they stand for a label, are increased by the length of what stands in front, and
no others. -/
theorem sources_are_joined {a b : String} {p q : List Statement} {ws ws' : List Int}
    (hp : parse a = .ok p) (hq : parse b = .ok q) (ha : assemble a = .ok ws)
    (hb : assemble b = .ok ws') (hnames : ∀ x ∈ labelNames p, x ∉ labelNames q)
    (hlength : ws.length + ws'.length ≤ 32767) :
    ∃ (d : Draft) (joined : List Int), Draft.empty.emitStatements q = .ok d ∧
      assemble (a ++ "\n" ++ b) = .ok (ws ++ joined) ∧ joined.length = ws'.length ∧
      ∀ (i : Nat) (w : Int), ws'[i]? = some w →
        joined[i]? = some (if i ∈ d.fixups.map Fixup.addr then w + ws.length else w) := by
  obtain ⟨hsp, rfl⟩ := (assemble_eq_ok_iff hp).1 ha
  obtain ⟨hsq, rfl⟩ := (assemble_eq_ok_iff hq).1 hb
  rw [hsp.clean.length_words, hsq.clean.length_words] at hlength
  rw [hsp.clean.length_words]
  obtain ⟨k, hparse⟩ := parse_append_newline a b hp hq
  -- the second program at its place behind the first
  have hnames' : ∀ x ∈ labelNames p, x ∉ labelNames (q.map (Statement.shift k)) := by
    rwa [labelNames_shift]
  have haddress : addressOf (q.map (Statement.shift k)) = addressOf q := by
    funext x
    rw [addressOf, address?, labelsFrom_shift]
    rfl
  have hsound : Sound (p ++ q.map (Statement.shift k)) :=
    hsp.append (hsq.shift k) hnames' (by rwa [size_shift])
  have hwords := words_join hsp (hsq.shift k) hnames'
  rw [haddress, marks_shift, words_shift] at hwords
  have hlen : (marks q).length = (words (addressOf q) q).length := length_marks _ q
  refine ⟨Draft.of q, relocated (size p) (marks q) (words (addressOf q) q), hsq.emitStatements,
    (assemble_eq_ok_iff hparse).2 ⟨hsound, hwords.symm⟩, ?_, ?_⟩
  · rw [relocated, List.length_zipWith, hlen, Nat.min_self]
  · intro i w hw
    have hmem : i ∈ (Draft.of q).fixups.map Fixup.addr ↔ (marks q)[i]? = some true := by
      rw [Draft.of, List.map_reverse, List.mem_reverse, mem_fixupsFrom, MarkedAt]
      simp
    rw [getElem?_relocated (size p) hlen hw]
    simp only [hmem]

/-- A loop, and behind it a jump to a row of data that holds its own address and the number 2, which
is this address while the row stands in front. -/
theorem sources_are_joined_of_row :
    assemble "a: jmp a\nnoop" = .ok [6, 0, 21] ∧ assemble "jmp c\nc: .data c 2" = .ok [6, 2, 2, 2] ∧
    ∃ joined, assemble ("a: jmp a\nnoop" ++ "\n" ++ "jmp c\nc: .data c 2") = .ok ([6, 0, 21] ++ joined) ∧
      joined.length = 4 ∧ joined[0]? = some 6 ∧ joined[1]? = some 5 ∧ joined[2]? = some 5 ∧
      joined[3]? = some 2 := by
  have hloop : parse "a: jmp a\nnoop" = .ok [⟨0, .label "a"⟩,
      ⟨3, .instruction .jmp [⟨7, .label "a"⟩]⟩, ⟨9, .instruction .noop []⟩] := by decide +kernel
  have hrow : parse "jmp c\nc: .data c 2" = .ok [⟨0, .instruction .jmp [⟨4, .label "c"⟩]⟩,
      ⟨6, .label "c"⟩, ⟨9, .data [⟨15, .label "c"⟩, ⟨17, .number 2⟩]⟩] := by decide +kernel
  have hfront : assemble "a: jmp a\nnoop" = .ok [6, 0, 21] := by
    rw [assemble, hloop]
    rfl
  have hbehind : assemble "jmp c\nc: .data c 2" = .ok [6, 2, 2, 2] := by
    rw [assemble, hrow]
    rfl
  refine ⟨hfront, hbehind, ?_⟩
  obtain ⟨d, joined, hd, hjoined, hlength, hwords⟩ :=
    sources_are_joined hloop hrow hfront hbehind (by decide) (by decide)
  obtain rfl : _ = d := Except.ok.inj hd
  exact ⟨joined, hjoined, hlength, hwords 0 6 rfl, hwords 1 2 rfl, hwords 2 2 rfl, hwords 3 2 rfl⟩

end WordMachine.Asm
