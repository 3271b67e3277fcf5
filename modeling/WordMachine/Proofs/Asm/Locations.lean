import WordMachine.Proofs.Asm.TokenText

/-! Locations. The tokens of a text stand one behind another, each of them where its text begins; the
statements and operands that are read from them keep their locations and their order. So every node
of a program is located at the first character of its own token, and each behind the one before it. -/

namespace WordMachine.Asm

/-! ### Tokens -/

section Lex
variable {order : List Opcode} {loc : Nat} {cs : List Char}

/-- The tokens of a text stand one behind another. -/
theorem lex_increasing (order : List Opcode) (loc : Nat) (cs : List Char) :
    (∀ l ∈ (lex order loc cs).lexemes, loc ≤ l.loc) ∧
      (lex order loc cs).lexemes.Pairwise fun l l' => l.loc < l'.loc := by
  fun_induction lex order loc cs with
  | case1 | case2 => exact ⟨by simp, .nil⟩
  | case3 loc cs gap c tail hdrop token n hread more ih =>
    obtain ⟨hbehind, hmore⟩ := ih
    rw [List.forall_mem_cons, List.pairwise_cons]
    refine ⟨⟨Nat.le_add_right _ _, ?_⟩, ?_, hmore⟩
    · intro l hl
      have := hbehind l hl
      omega
    · intro l hl
      have := hbehind l hl
      simp only
      omega

theorem exists_read_of_lex_cons {l : Lexeme} {after : List Lexeme}
    (h : (lex order loc cs).lexemes = l :: after) :
    ∃ c tail n, cs.drop (Gap.before cs).length = c :: tail ∧
      Token.read? order c tail = some (l.token, n) := by
  cases hdrop : cs.drop (Gap.before cs).length with
  | nil =>
    rw [lex_of_end hdrop] at h
    cases h
  | cons c tail =>
    cases hread : Token.read? order c tail with
    | none =>
      rw [lex_of_stuck hdrop hread] at h
      cases h
    | some read =>
      obtain ⟨token, n⟩ := read
      rw [lex_of_read hdrop hread] at h
      cases h
      exact ⟨c, tail, n, rfl, hread⟩

/-- Every token is read where it stands, and the tokens behind it are those of the text behind it. -/
theorem exists_read_of_suffix {l : Lexeme} {after : List Lexeme}
    (h : l :: after <:+ (lex order loc cs).lexemes) :
    ∃ k c tail n, l.loc = loc + k ∧ cs.drop k = c :: tail ∧
      Token.read? order c tail = some (l.token, n) ∧
      after = (lex order (l.loc + 1 + n) (tail.drop n)).lexemes := by
  fun_induction lex order loc cs with
  | case1 | case2 => exact absurd (List.suffix_nil.1 h) (by simp)
  | case3 loc cs gap c tail hdrop token n hread more ih =>
    rcases List.suffix_cons_iff.1 h with heq | hmore
    · obtain ⟨rfl, rfl⟩ := List.cons.inj heq
      exact ⟨gap.length, c, tail, n, rfl, hdrop, hread, rfl⟩
    · obtain ⟨k, d, tail', n', hloc, hdrop', hread', hafter⟩ := ih hmore
      have hfar : cs.drop (gap.length + (n + k + 1)) = d :: tail' := by
        rw [← List.drop_drop, hdrop, List.drop_succ_cons, ← List.drop_drop, hdrop']
      exact ⟨gap.length + (n + k + 1), d, tail', n', by omega, hfar, hread', hafter⟩

end Lex

/-! ### Phrases -/

/-- the token that a command starts with -/
def Command.token : Command → Token
  | .label x => .name x
  | .instruction op _ => .mnemonic op
  | .data _ => .data

def Lexeme.place (l : Lexeme) : Nat × Token := (l.loc, l.token)

def Operand.place (o : Operand) : Nat × Token := (o.loc, o.value.token)

/-- Where a statement and its operands are, and the tokens that they start with. -/
def Statement.places (s : Statement) : List (Nat × Token) :=
  (s.loc, s.command.token) :: s.command.operands.map Operand.place

/-- The places of statements, and of the tokens left over, are places of tokens in their order. -/
def Places (ss : List Statement) (rest ls : List Lexeme) : Prop :=
  (ss.flatMap Statement.places ++ rest.map Lexeme.place).Sublist (ls.map Lexeme.place)

theorem Places.refl (ls : List Lexeme) : Places [] ls ls := List.Sublist.refl _

theorem Places.trans {ss ss' : List Statement} {rest mid ls : List Lexeme} (h : Places ss mid ls)
    (h' : Places ss' rest mid) : Places (ss ++ ss') rest ls := by
  rw [Places, List.flatMap_append, List.append_assoc]
  exact (List.Sublist.append_left h' _).trans h

/-- A token that is left over may be left out. -/
theorem Places.tail {ss : List Statement} {l : Lexeme} {rest ls : List Lexeme}
    (h : Places ss (l :: rest) ls) : Places ss rest ls :=
  (List.Sublist.append_left (List.sublist_cons_self _ _) _).trans h

theorem places_statement {s : Statement} {l : Lexeme} {rest ls : List Lexeme}
    (hs : (s.loc, s.command.token) = l.place)
    (h : (s.command.operands.map Operand.place ++ rest.map Lexeme.place).Sublist (ls.map Lexeme.place)) :
    Places [s] rest (l :: ls) := by
  rw [Places, List.flatMap_singleton, Statement.places, List.cons_append, hs]
  exact h.cons_cons _

theorem values_places (ls : List Lexeme) :
    ((values ls).1.map Operand.place ++ (values ls).2.map Lexeme.place).Sublist
      (ls.map Lexeme.place) := by
  have hplace {l : Lexeme} {v : Value} (hv : l.token.value? = some v) :
      Operand.place ⟨l.loc, v⟩ = l.place := by
    rw [Operand.place, Lexeme.place, Token.value?_eq_some_iff.1 hv]
  fun_induction values ls with
  | case1 => exact .slnil
  | case2 l ls hv => exact .refl _
  | case3 l v hv =>
    rw [List.map_singleton, hplace hv]
    exact .refl _
  | case4 l v hv next rest hcomma more ih =>
    rw [List.map_cons, hplace hv]
    exact (ih.cons _).cons_cons _
  | case5 l v hv next rest hcomma more ih =>
    rw [List.map_cons, hplace hv]
    exact ih.cons_cons _

theorem label_places (ls : List Lexeme) : Places (label ls).1.toList (label ls).2 ls := by
  fun_cases label ls with
  | case1 loc spaced x next rest hcolon => exact places_statement rfl ((List.Sublist.refl _).cons _)
  | case2 | case3 => exact .refl _

theorem command_places {ls rest : List Lexeme} {s : Option Statement}
    (h : command ls = .ok (s, rest)) : Places s.toList rest ls := by
  rcases command_cases h with ⟨loc, spaced, op, more, rfl, rfl, rfl⟩ |
    ⟨loc, spaced, more, rfl, -, rfl, rfl⟩ | ⟨rfl, rfl⟩
  · exact places_statement rfl (values_places more)
  · exact places_statement rfl (values_places more)
  · exact .refl _

theorem line_places {ls rest : List Lexeme} {ss : List Statement} (h : line ls = .ok (ss, rest)) :
    Places ss rest ls := by
  obtain ⟨s, hcommand, rfl⟩ := line_eq_ok_iff.1 h
  exact (label_places ls).trans (command_places hcommand)

theorem program_places {ls rest : List Lexeme} {ss : List Statement}
    (h : program ls = .ok (ss, rest)) : Places ss rest ls := by
  fun_induction program ls generalizing ss with
  | case1 | case3 => cases h
  | case2 ls ss' hline =>
    cases h
    exact line_places hline
  | case4 ls ss' next more hline hnewline tail behind htail ih =>
    cases h
    exact (line_places hline).tail.trans (ih htail)
  | case5 ls ss' next more hline hnewline =>
    cases h
    exact line_places hline

/-! ### Labels -/

/-- The label's name is one of the tokens, and a colon is the next one. -/
def Labelled (ls : List Lexeme) (s : Statement) : Prop :=
  ∀ x, s.command = .label x → ∃ l next after, l :: next :: after <:+ ls ∧ l.loc = s.loc ∧
    l.token = .name x ∧ next.token = .colon

theorem Labelled.of_suffix {ls ls' : List Lexeme} {s : Statement} (h : Labelled ls s)
    (hls : ls <:+ ls') : Labelled ls' s := by
  intro x hx
  obtain ⟨l, next, after, hsuffix, hl⟩ := h x hx
  exact ⟨l, next, after, hsuffix.trans hls, hl⟩

theorem labelled_of_label (ls : List Lexeme) : ∀ s ∈ (label ls).1.toList, Labelled ls s := by
  fun_cases label ls with
  | case1 loc spaced y next after hcolon =>
    intro s hs x hx
    obtain rfl := Option.some.inj (Option.mem_toList.1 hs)
    cases hx
    exact ⟨_, next, after, List.suffix_refl _, rfl, rfl, hcolon⟩
  | case2 | case3 => simp

theorem labelled_of_command {ls rest : List Lexeme} {s : Option Statement}
    (h : command ls = .ok (s, rest)) : ∀ t ∈ s.toList, Labelled ls t := by
  intro t ht x hx
  rw [Option.mem_toList] at ht
  rcases command_cases h with ⟨loc, spaced, op, more, -, -, rfl⟩ |
    ⟨loc, spaced, more, -, -, -, rfl⟩ | ⟨rfl, -⟩
  · obtain rfl := Option.some.inj ht
    cases hx
  · obtain rfl := Option.some.inj ht
    cases hx
  · cases ht

theorem labelled_of_line {ls rest : List Lexeme} {ss : List Statement} (h : line ls = .ok (ss, rest)) :
    ∀ s ∈ ss, Labelled ls s := by
  obtain ⟨second, hcommand, rfl⟩ := line_eq_ok_iff.1 h
  intro s hs
  rcases List.mem_append.1 hs with hs | hs
  · exact labelled_of_label ls s hs
  · exact (labelled_of_command hcommand s hs).of_suffix (label_suffix ls)

theorem labelled_of_program {ls rest : List Lexeme} {ss : List Statement}
    (h : program ls = .ok (ss, rest)) : ∀ s ∈ ss, Labelled ls s := by
  fun_induction program ls generalizing ss with
  | case1 | case3 => cases h
  | case2 ls ss' hline | case5 ls ss' next more hline hnewline =>
    cases h
    exact labelled_of_line hline
  | case4 ls ss' next more hline hnewline tail behind htail ih =>
    cases h
    have hsuffix := line_suffix ls
    rw [hline] at hsuffix
    intro s hs
    rcases List.mem_append.1 hs with hs | hs
    · exact labelled_of_line hline s hs
    · exact (ih htail s hs).of_suffix ((List.suffix_cons next more).trans hsuffix)

/-! ### Nodes -/

/-- the locations of a node and of its operands, in the order in which they are read -/
def Node.locs : Node → List Nat
  | .statement s => s.loc :: s.command.operands.map Operand.loc
  | .operand o => [o.loc]
  | .name _ | .mnemonic _ => []

section Source
variable {order : List Opcode} {cs : List Char}

/-- A token is read at its location. -/
theorem exists_read_of_place {place : Nat × Token} (h : place ∈ (lex order 0 cs).lexemes.map Lexeme.place) :
    ∃ c tail n, cs.drop place.1 = c :: tail ∧ Token.read? order c tail = some (place.2, n) := by
  obtain ⟨l, hl, rfl⟩ := List.mem_map.1 h
  obtain ⟨before, after, heq⟩ := List.append_of_mem hl
  obtain ⟨k, c, tail, n, hloc, hdrop, hread, -⟩ := exists_read_of_suffix ⟨before, heq.symm⟩
  rw [Nat.zero_add] at hloc
  exact ⟨c, tail, n, by rw [Lexeme.place, hloc, hdrop], hread⟩

theorem Labelled.begins {s : Statement} (h : Labelled (lex order 0 cs).lexemes s) {x : String}
    (hx : s.command = .label x) : (Command.label x).Begins (cs.drop s.loc) := by
  obtain ⟨l, next, after, hsuffix, hloc, hname, hcolon⟩ := h x hx
  obtain ⟨k, c, tail, n, hk, hdrop, hread, hafter⟩ := exists_read_of_suffix hsuffix
  obtain ⟨d, more, m, hgap, hnext⟩ := exists_read_of_lex_cons hafter.symm
  rw [hname] at hread
  rw [hcolon] at hnext
  obtain rfl : d = ':' := by
    cases Token.taken_of_read? hnext with
    | colon hd => exact hd
  obtain ⟨bs, hbs, hblank⟩ := exists_blanks_of_drop_gap hgap (by decide)
  rw [← hloc, hk, Nat.zero_add, hdrop]
  exact begins_of_read?_label hread hbs hblank

/-- Every statement and every operand of a program is located where its text begins. -/
theorem begins_of_program {p : List Statement} {rest : List Lexeme}
    (h : program (lex order 0 cs).lexemes = .ok (p, rest)) {s : Statement} (hs : s ∈ p) :
    s.command.Begins (cs.drop s.loc) ∧
      ∀ o ∈ s.command.operands, o.value.Begins (cs.drop o.loc) := by
  have hplaces : ∀ place ∈ s.places, place ∈ (lex order 0 cs).lexemes.map Lexeme.place := by
    intro place hplace
    have hmem : place ∈ p.flatMap Statement.places := List.mem_flatMap.2 ⟨s, hs, hplace⟩
    exact (program_places h).subset (List.mem_append_left _ hmem)
  constructor
  · obtain ⟨c, tail, n, hdrop, hread⟩ := exists_read_of_place (hplaces _ List.mem_cons_self)
    cases hc : s.command with
    | label x => exact (labelled_of_program h s hs).begins hc
    | instruction op os =>
      rw [hdrop]
      rw [hc] at hread
      exact begins_of_read?_mnemonic hread os
    | data vs =>
      rw [hdrop]
      rw [hc] at hread
      exact begins_of_read?_data hread vs
  · intro o ho
    have hmem : o.place ∈ s.places := List.mem_cons_of_mem _ (List.mem_map_of_mem ho)
    obtain ⟨c, tail, n, hdrop, hread⟩ := exists_read_of_place (hplaces _ hmem)
    change cs.drop o.loc = c :: tail at hdrop
    rw [hdrop]
    exact Value.begins_of_read? hread

theorem increasing_of_program {p : List Statement} {rest : List Lexeme}
    (h : program (lex order 0 cs).lexemes = .ok (p, rest)) :
    ((p.map Node.statement).flatMap Node.locs).Pairwise (· < ·) := by
  have hplaces : (p.flatMap Statement.places).Sublist ((lex order 0 cs).lexemes.map Lexeme.place) :=
    (List.sublist_append_left _ _).trans (program_places h)
  have hlocs : (p.map Node.statement).flatMap Node.locs = (p.flatMap Statement.places).map Prod.fst := by
    rw [List.flatMap_map, List.map_flatMap]
    refine List.flatMap_congr fun s _ => ?_
    rw [Node.locs, Statement.places, List.map_cons, List.map_map]
    rfl
  rw [hlocs]
  apply List.Pairwise.sublist (hplaces.map Prod.fst)
  rw [List.map_map]
  exact List.pairwise_map.2 (lex_increasing order 0 cs).2

end Source

/-- The nodes of a program are its statements, each of them located where its own text begins in the
source with its tabs expanded, and so are their operands. In the order in which they are read, every
location is behind the one before it. -/
theorem locations_are_exact {source : String} {nodes : List Node}
    (h : Rule.program.parse source = .ok nodes) :
    (∀ node ∈ nodes, ∃ s, node = .statement s ∧
      s.command.Begins ((expandTabs source.toList).drop s.loc) ∧
      ∀ o ∈ s.command.operands, o.value.Begins ((expandTabs source.toList).drop o.loc)) ∧
    (nodes.flatMap Node.locs).Pairwise (· < ·) := by
  rw [Rule.parse_program] at h
  cases hparse : parse source with
  | error e =>
    rw [hparse] at h
    cases h
  | ok p =>
    rw [hparse] at h
    obtain rfl := Except.ok.inj h
    rw [parse, parseIn_eq, statements_eq_ok_iff] at hparse
    refine ⟨?_, increasing_of_program hparse.1⟩
    intro node hnode
    obtain ⟨s, hs, rfl⟩ := List.mem_map.1 hnode
    exact ⟨s, rfl, begins_of_program hparse.1 hs⟩

/-- A label in front of its colon, an instruction in mixed letters behind it, and a row of data, with
tabs, a comment, a comma and a return between their tokens. -/
theorem locations_are_exact_of_tabs :
    Rule.program.parse "\tloop :SeT r1,\t0x1f ;: \r\n.dATA 'a' loop\"\\n\"" =
      .ok [.statement ⟨8, .label "loop"⟩,
        .statement ⟨14, .instruction .set [⟨18, .register 1⟩, ⟨24, .number 31⟩]⟩,
        .statement ⟨34, .data [⟨40, .char "a"⟩, ⟨44, .label "loop"⟩, ⟨48, .text "\n"⟩]⟩] ∧
    (Command.label "loop").Begins "loop :SeT r1,   0x1f ;: \r\n.dATA 'a' loop\"\\n\"".toList ∧
    (Value.number 31).Begins "0x1f ;: \r\n.dATA 'a' loop\"\\n\"".toList ∧
    (Value.text "\n").Begins "\"\\n\"".toList ∧
    [8, 14, 18, 24, 34, 40, 44, 48].Pairwise (· < ·) := by
  have hparse : Rule.program.parse "\tloop :SeT r1,\t0x1f ;: \r\n.dATA 'a' loop\"\\n\"" =
      .ok [.statement ⟨8, .label "loop"⟩,
        .statement ⟨14, .instruction .set [⟨18, .register 1⟩, ⟨24, .number 31⟩]⟩,
        .statement ⟨34, .data [⟨40, .char "a"⟩, ⟨44, .label "loop"⟩, ⟨48, .text "\n"⟩]⟩] := by
    decide +kernel
  have hexpanded : expandTabs "\tloop :SeT r1,\t0x1f ;: \r\n.dATA 'a' loop\"\\n\"".toList =
      "        loop :SeT r1,   0x1f ;: \r\n.dATA 'a' loop\"\\n\"".toList := by decide +kernel
  obtain ⟨hbegins, hlocs⟩ := locations_are_exact hparse
  simp only [List.forall_mem_cons, hexpanded] at hbegins
  obtain ⟨⟨_, ⟨⟩, hloop, -⟩, ⟨_, ⟨⟩, -, hset⟩, ⟨_, ⟨⟩, -, hdata⟩, -⟩ := hbegins
  have hnumber := hset ⟨24, .number 31⟩ (by decide)
  have htext := hdata ⟨48, .text "\n"⟩ (by decide)
  exact ⟨hparse, hloop, hnumber, htext, hlocs⟩

end WordMachine.Asm
