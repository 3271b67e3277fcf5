import Mathlib.Control.Monad.Basic
import WordMachine.Asm.Code
import WordMachine.Asm.Rule
import WordMachine.Proofs.Asm.Phrases

/-! Line by line. A source is read as its lines are, each of them alone: it is a program if all of
them are, and else it is refused for the first line that is none. -/

namespace WordMachine.Asm

def Node.shift (k : Nat) : Node → Node
  | .statement s => .statement (s.shift k)
  | .operand o => .operand (o.shift k)
  | .name x => .name x
  | .mnemonic op => .mnemonic op

section Shift
variable (j k : Nat)

theorem Operand.shift_comp : Operand.shift k ∘ Operand.shift j = Operand.shift (j + k) := by
  funext o
  simp only [Function.comp_apply, Operand.shift, Nat.add_assoc]

theorem Operand.shift_zero : Operand.shift 0 = id := rfl

theorem Statement.shift_comp : Statement.shift k ∘ Statement.shift j = Statement.shift (j + k) := by
  funext s
  obtain ⟨loc, command⟩ := s
  cases command <;>
    simp [Statement.shift, Command.shift, Operand.shift_comp, Nat.add_assoc]

theorem Statement.shift_zero : Statement.shift 0 = id := by
  funext s
  obtain ⟨loc, command⟩ := s
  cases command <;> simp [Statement.shift, Command.shift, Operand.shift_zero]

theorem Node.shift_comp : Node.shift k ∘ Node.shift j = Node.shift (j + k) := by
  funext n
  cases n with
  | statement s => exact congrArg Node.statement (congrFun (Statement.shift_comp j k) s)
  | operand o => exact congrArg Node.operand (congrFun (Operand.shift_comp j k) o)
  | name x => rfl
  | mnemonic op => rfl

theorem Node.shift_zero : Node.shift 0 = id := by
  funext n
  cases n with
  | statement s => exact congrArg Node.statement (congrFun Statement.shift_zero s)
  | operand o => rfl
  | name x => rfl
  | mnemonic op => rfl

end Shift

theorem SyntaxError.shift_shift (j k : Nat) (e : SyntaxError) :
    (e.shift j).shift k = e.shift (j + k) := by
  cases e <;> simp only [SyntaxError.shift, Nat.add_assoc]

theorem SyntaxError.shift_zero (e : SyntaxError) : e.shift 0 = e := by
  cases e <;> rfl

theorem SyntaxError.loc_shift (k : Nat) (e : SyntaxError) : (e.shift k).loc = e.loc + k := by
  cases e <;> rfl

/-! ### Lines -/

/-- the texts between the newlines of a source -/
def linesOf (source : String) : List String := (source.toList.splitOn '\n').map String.ofList

/-- The location at which a line starts in the source with its tabs expanded; the first line has
the index 0. -/
def startOf (source : String) (i : Nat) : Nat :=
  (expandTabs (((source.toList.splitOn '\n').take i).flatMap (· ++ ['\n']))).length

/-- Every text is one line, or a line in front of a newline and a text. -/
theorem lines_induction {P : List Char → Prop} (last : ∀ cs, '\n' ∉ cs → P cs)
    (more : ∀ line rest, '\n' ∉ line → P rest → P (line ++ '\n' :: rest)) (cs : List Char) : P cs := by
  by_cases h : '\n' ∈ cs
  · obtain ⟨line, rest, heq, hline⟩ := List.eq_append_cons_of_mem h
    have hlen : rest.length < cs.length := by
      rw [heq, List.length_append, List.length_cons]
      omega
    rw [heq]
    exact more line rest hline (lines_induction last more rest)
  · exact last cs h
termination_by cs.length

section Lines
variable {line : List Char} (hline : '\n' ∉ line) (rest : List Char)
include hline

theorem linesOf_last : linesOf (String.ofList line) = [String.ofList line] := by
  have hall : ∀ c ∈ line, (c == '\n') = false := by
    intro c hc
    rw [beq_eq_false_iff_ne]
    rintro rfl
    exact hline hc
  rw [linesOf, String.toList_ofList, List.splitOn, List.splitOnP_eq_singleton hall]
  rfl

theorem linesOf_newline :
    linesOf (String.ofList (line ++ '\n' :: rest)) =
      String.ofList line :: linesOf (String.ofList rest) := by
  rw [linesOf, String.toList_ofList, List.splitOn_append_cons_self_of_not_mem hline, linesOf,
    String.toList_ofList, List.map_cons]

theorem startOf_newline (i : Nat) :
    startOf (String.ofList (line ++ '\n' :: rest)) (i + 1) =
      startOf (String.ofList rest) i + ((expandTabs line).length + 1) := by
  rw [startOf, String.toList_ofList, List.splitOn_append_cons_self_of_not_mem hline, startOf,
    String.toList_ofList, List.take_succ_cons, List.flatMap_cons, List.append_assoc,
    List.cons_append, List.nil_append, expandTabs_newline, List.length_append, List.length_cons]
  omega

/-- The line in front of a newline is read as it is alone, and what is behind as it is there. -/
theorem parse_newline_statements :
    parse (String.ofList (line ++ '\n' :: rest)) =
      (parse (String.ofList line)).bind fun ss =>
        (shifted Statement.shift ((expandTabs line).length + 1) (parse (String.ofList rest))).map
          (ss ++ ·) := by
  have hexpanded := newline_not_mem_expandTabs hline
  have hnone : ∀ l ∈ (lex Opcode.all 0 (expandTabs line)).lexemes, l.token ≠ .newline :=
    ne_newline_of_mem_lex hexpanded
  simp only [parse, String.toList_ofList, parseIn_eq]
  rw [expandTabs_newline, lex_newline hexpanded, statements_followedBy hnone, Nat.add_assoc,
    statements_shift]

theorem parse_newline :
    Rule.program.parse (String.ofList (line ++ '\n' :: rest)) =
      (Rule.program.parse (String.ofList line)).bind fun nodes =>
        (shifted Node.shift ((expandTabs line).length + 1) (Rule.program.parse (String.ofList rest))).map
          (nodes ++ ·) := by
  simp only [Rule.parse_program, parse_newline_statements hline]
  cases parse (String.ofList line) with
  | error e => rfl
  | ok ss =>
    cases parse (String.ofList rest) with
    | error e => rfl
    | ok more =>
      change Except.ok (List.map _ (ss ++ List.map _ more)) = Except.ok (_ ++ _)
      rw [List.map_append, List.map_map, List.map_map]
      rfl

end Lines

theorem startOf_zero (source : String) : startOf source 0 = 0 := rfl

theorem map_mapIdx {α β γ : Type} (f : Nat → α → β) (g : β → γ) (l : List α) :
    (l.mapIdx f).map g = l.mapIdx fun i a => g (f i a) := by
  simp [List.mapIdx_eq_zipIdx_map, Function.comp_def]

/-- The nodes of a source all of whose lines can be read. -/
theorem parse_of_lines (cs : List Char) {read : List (List Node)}
    (h : (linesOf (String.ofList cs)).map Rule.program.parse = read.map .ok) :
    Rule.program.parse (String.ofList cs) =
      .ok (read.mapIdx fun i nodes => nodes.map (Node.shift (startOf (String.ofList cs) i))).flatten := by
  induction cs using lines_induction generalizing read with
  | last cs hcs =>
    rw [linesOf_last hcs] at h
    match read with
    | [nodes] => simpa [startOf_zero, Node.shift_zero] using h
    | [] => cases h
    | _ :: _ :: _ => simp at h
  | more line rest hline ih =>
    rw [linesOf_newline hline, List.map_cons] at h
    match read with
    | [] => cases h
    | nodes :: read =>
      obtain ⟨hfirst, hrest⟩ := List.cons.inj h
      have hbehind :
          (read.mapIdx fun i nodes =>
            nodes.map (Node.shift (startOf (String.ofList rest) i))).flatten.map
              (Node.shift ((expandTabs line).length + 1)) =
          (read.mapIdx fun i nodes =>
            nodes.map (Node.shift (startOf (String.ofList (line ++ '\n' :: rest)) (i + 1)))).flatten := by
        simp only [List.map_flatten, map_mapIdx, List.map_map, Node.shift_comp, startOf_newline hline]
      rw [parse_newline hline, hfirst, ih hrest, List.mapIdx_cons, startOf_zero, Node.shift_zero,
        List.map_id, List.flatten_cons, ← hbehind]
      rfl

/-- A source is refused for its first line that cannot be read. -/
theorem refused_of_line (cs : List Char) {before after : List String} {line : String} {e : SyntaxError}
    (h : linesOf (String.ofList cs) = before ++ line :: after)
    (hbefore : ∀ l ∈ before, ∃ nodes, Rule.program.parse l = .ok nodes)
    (hline : Rule.program.parse line = .error e) :
    Rule.program.parse (String.ofList cs) =
      .error (e.shift (startOf (String.ofList cs) before.length)) := by
  induction cs using lines_induction generalizing before with
  | last cs hcs =>
    rw [linesOf_last hcs] at h
    obtain ⟨rfl, rfl⟩ : before = [] ∧ String.ofList cs = line := by
      cases before with
      | nil => exact ⟨rfl, (List.cons.inj h).1⟩
      | cons b before => simp at h
    rw [hline, List.length_nil, startOf_zero, SyntaxError.shift_zero]
  | more first rest hfirst ih =>
    rw [linesOf_newline hfirst] at h
    cases before with
    | nil =>
      cases h
      rw [parse_newline hfirst, hline, List.length_nil, startOf_zero, SyntaxError.shift_zero]
      rfl
    | cons b before =>
      obtain ⟨rfl, hrest⟩ := List.cons.inj h
      obtain ⟨⟨nodes, hnodes⟩, hbefore⟩ := List.forall_mem_cons.1 hbefore
      rw [parse_newline hfirst, hnodes, ih hrest hbefore, List.length_cons, startOf_newline hfirst,
        ← SyntaxError.shift_shift]
      rfl

/-- The newlines in front of a location in a line. -/
theorem count_newline_take (cs : List Char) {before after : List String} {line : String} {loc : Nat}
    (h : linesOf (String.ofList cs) = before ++ line :: after)
    (hloc : loc ≤ (expandTabs line.toList).length) :
    ((expandTabs cs).take (loc + startOf (String.ofList cs) before.length)).count '\n' =
      before.length := by
  have hnone {line : List Char} (hline : '\n' ∉ line) (n : Nat) :
      ((expandTabs line).take n).count '\n' = 0 :=
    List.count_eq_zero.2 fun hmem => newline_not_mem_expandTabs hline (List.mem_of_mem_take hmem)
  induction cs using lines_induction generalizing before with
  | last cs hcs =>
    rw [linesOf_last hcs] at h
    obtain rfl : before = [] := by
      cases before with
      | nil => rfl
      | cons b before => simp at h
    exact hnone hcs _
  | more first rest hfirst ih =>
    rw [linesOf_newline hfirst] at h
    cases before with
    | nil =>
      cases h
      rw [String.toList_ofList] at hloc
      rw [List.length_nil, startOf_zero, Nat.add_zero, expandTabs_newline,
        List.take_append_of_le_length hloc]
      exact hnone hfirst _
    | cons b before =>
      obtain ⟨rfl, hrest⟩ := List.cons.inj h
      have hfar : loc + startOf (String.ofList (first ++ '\n' :: rest)) (before.length + 1) =
          (expandTabs first).length + (loc + startOf (String.ofList rest) before.length + 1) := by
        rw [startOf_newline hfirst]
        omega
      rw [List.length_cons, hfar, expandTabs_newline, List.take_length_add_append, List.take_succ_cons,
        List.count_append, List.count_cons_self, ih hrest,
        List.count_eq_zero.2 (newline_not_mem_expandTabs hfirst), Nat.zero_add]

theorem newline_not_mem_line (cs : List Char) :
    ∀ line ∈ linesOf (String.ofList cs), '\n' ∉ line.toList := by
  induction cs using lines_induction with
  | last cs hcs =>
    rw [linesOf_last hcs]
    simpa using hcs
  | more line rest hline ih =>
    rw [linesOf_newline hline]
    simpa using ⟨hline, ih⟩

theorem error_of_program {source : String} {e : SyntaxError} (h : Rule.program.parse source = .error e) :
    parse source = .error e := by
  rw [Rule.parse_program] at h
  cases hparse : parse source with
  | ok ss =>
    rw [hparse] at h
    cases h
  | error why =>
    rw [hparse] at h
    exact congrArg Except.error (Except.error.inj h)

theorem loc_le_of_parse {source : String} {e : SyntaxError} (h : parse source = .error e) :
    e.loc ≤ (expandTabs source.toList).length := by
  rw [parse, parseIn_eq] at h
  have := loc_le_of_refused h
  rwa [Nat.zero_add] at this

/-- The number of a line stands in front of what is said about a location in it. -/
theorem text_of_refused (cs : List Char) {before after : List String} {line : String} {e : SyntaxError}
    (h : linesOf (String.ofList cs) = before ++ line :: after)
    (hline : Rule.program.parse line = .error e) :
    ∃ message, (AsmError.syntaxError (e.shift (startOf (String.ofList cs) before.length))).text
      (String.ofList cs) = toString (before.length + 1) ++ ":" ++ message := by
  have hloc := loc_le_of_parse (error_of_program hline)
  have hplace : (Place.locate (expandTabs cs)
      (e.loc + startOf (String.ofList cs) before.length)).line = before.length + 1 := by
    rw [Place.locate, count_newline_take cs h hloc]
  have hmessage := diagnostic_line (expandTabs cs) (e.loc + startOf (String.ofList cs) before.length)
    (e.shift (startOf (String.ofList cs) before.length)).message
  rw [hplace] at hmessage
  rw [← SyntaxError.loc_shift] at hmessage
  change ∃ message, diagnostic (expandTabs (String.ofList cs).toList) _ _ = _
  rw [String.toList_ofList]
  exact hmessage

/-- Either everything is accepted, or there is a first thing that is refused. -/
theorem all_or_first {α β ε : Type} (f : α → Except ε β) (as : List α) :
    (∃ bs : List β, as.map f = bs.map .ok) ∨
      ∃ before a after e,
        as = before ++ a :: after ∧ (∀ x ∈ before, ∃ b, f x = .ok b) ∧ f a = .error e := by
  induction as with
  | nil => exact .inl ⟨[], rfl⟩
  | cons a as ih =>
    match ha : f a with
    | .error e => exact .inr ⟨[], a, as, e, rfl, nofun, ha⟩
    | .ok b =>
      rcases ih with ⟨bs, hbs⟩ | ⟨before, x, after, e, rfl, hbefore, hx⟩
      · exact .inl ⟨b :: bs, by rw [List.map_cons, ha, hbs, List.map_cons]⟩
      · exact .inr ⟨a :: before, x, after, e, rfl, List.forall_mem_cons.2 ⟨⟨b, ha⟩, hbefore⟩, hx⟩

end WordMachine.Asm
