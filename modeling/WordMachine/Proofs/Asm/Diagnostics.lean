import WordMachine.Proofs.Asm.Backpatch
import WordMachine.Proofs.Asm.Locations
import WordMachine.Proofs.Asm.Spelling
import WordMachine.Proofs.Text.Place

/-! Diagnostics. The place that a diagnostic names can be read back from its text, and it is the place
of the location that the diagnostic is for. What the assembler reports is for locations in its source. -/

namespace WordMachine

/-! ### What a diagnostic prints -/

/-- The text of a diagnostic that names a place. -/
def Place.report (place : Place) (message : String) : String :=
  toString place.line ++ ":" ++ toString place.column ++ ": error: " ++ message ++ "\n" ++
    String.ofList place.text ++ "\n" ++ String.ofList place.marker

theorem diagnostic_eq (src : List Char) (loc : Nat) (message : String) :
    diagnostic src loc message = (Place.locate src loc).report message := by
  simp only [diagnostic, Place.report, Place.marker, String.ofList_append, String.append_assoc]

/-- A number that stands in front of a colon is read back. -/
theorem decimal?_toString (n : Nat) (s : String) :
    Asm.decimal? (toString n ++ (":" ++ s)).toList = some (n, (Nat.toDigits 10 n).length) := by
  have hbreaks : Asm.Breaks (':' :: s.toList) := Asm.breaks_cons.2 rfl
  have hdigits : ∀ c ∈ Nat.toDigits 10 n, c.isDigit = true :=
    fun c hc => Nat.isDigit_of_mem_toDigits (by decide) (by decide) hc
  have htext : (toString n ++ (":" ++ s)).toList = Nat.toDigits 10 n ++ ':' :: s.toList := by
    rw [String.toList_append, String.toList_append, Nat.toString_eq_repr, Nat.toList_repr]
    rfl
  rw [htext, Asm.decimal?_append hbreaks]
  simp only [Asm.decimal?, List.takeWhile_eq_self_iff.2 hdigits, Nat.toDigits_ne_nil, if_false,
    Asm.digitsValue_toDigits (by decide : 1 < 10) (by decide)]

theorem toString_colon_inj {m n : Nat} {s t : String}
    (h : toString m ++ (":" ++ s) = toString n ++ (":" ++ t)) : m = n ∧ s = t := by
  have hread := decimal?_toString m s
  rw [h, decimal?_toString] at hread
  obtain rfl : n = m := congrArg Prod.fst (Option.some.inj hread)
  exact ⟨rfl, (String.append_right_inj ":").1 ((String.append_right_inj _).1 h)⟩

section Report
variable {p q : Place} {message other : String}

theorem Place.line_column_of_report (h : p.report message = q.report other) :
    p.line = q.line ∧ p.column = q.column := by
  have hcolon : ": error: " = ":" ++ " error: " := rfl
  simp only [Place.report, hcolon, String.append_assoc] at h
  obtain ⟨hline, hbehind⟩ := toString_colon_inj h
  exact ⟨hline, (toString_colon_inj hbehind).1⟩

theorem Place.report_inj (h : p.report message = q.report message) : p = q := by
  obtain ⟨hline, hcolumn⟩ := Place.line_column_of_report h
  obtain ⟨line, column, text⟩ := p
  obtain ⟨line', column', text'⟩ := q
  obtain rfl : line = line' := hline
  obtain rfl : column = column' := hcolumn
  simp only [Place.report, Place.marker, String.append_right_inj, String.append_left_inj,
    String.ofList_inj] at h
  rw [h]

end Report

/-- A diagnostic for a location of a text names one place, that of the location, and three separate
searches find this place as well. Other locations have other lines or columns, whatever the messages
say, and locations further on have places further on. -/
theorem diagnostics_point_at_their_locations (src : List Char) :
    (∀ loc ≤ src.length,
      (∀ (message : String) (place : Place), diagnostic src loc message = place.report message ↔
        place = Place.locate src loc) ∧
      Place.searched src loc = Place.locate src loc ∧
      (Place.locate src loc).PointsAt src loc) ∧
    (∀ i ≤ src.length, ∀ j ≤ src.length,
      (i < j ↔ (Place.locate src i).Before (Place.locate src j)) ∧
      ((Place.locate src i).line = (Place.locate src j).line ∧
        (Place.locate src i).column = (Place.locate src j).column → i = j) ∧
      ∀ message other, diagnostic src i message = diagnostic src j other → i = j) := by
  constructor
  · intro loc hloc
    refine ⟨fun message place => ?_, searched_eq_locate hloc, locate_pointsAt hloc⟩
    rw [diagnostic_eq]
    constructor
    · intro h
      exact (Place.report_inj h).symm
    · rintro rfl
      rfl
  · intro i hi j hj
    have hpi := locate_pointsAt hi
    have hpj := locate_pointsAt hj
    refine ⟨hpi.lt_iff hpj, fun h => hpi.eq_of_line_column hpj h.1 h.2, fun message other h => ?_⟩
    rw [diagnostic_eq, diagnostic_eq] at h
    -- the messages may differ, so that the quoted lines cannot be told from them
    obtain ⟨hline, hcolumn⟩ := Place.line_column_of_report h
    exact hpi.eq_of_line_column hpj hline hcolumn

/-- At the newline that ends a line, at the one that is an empty line, and behind the last character;
and in a text without characters. -/
theorem diagnostics_point_at_their_locations_of_empty_line :
    diagnostic "ab\n\nc".toList 2 "no" = "1:3: error: no\nab\n  ^" ∧
    (Place.mk 1 3 ['a', 'b']).PointsAt "ab\n\nc".toList 2 ∧
    (∀ place : Place, diagnostic "ab\n\nc".toList 3 "no" = place.report "no" ↔ place = ⟨2, 1, []⟩) ∧
    Place.searched "ab\n\nc".toList 5 = ⟨3, 2, ['c']⟩ ∧
    (Place.mk 3 2 ['c']).PointsAt "ab\n\nc".toList 5 ∧
    (Place.mk 1 3 ['a', 'b']).Before ⟨2, 1, []⟩ ∧
    (Place.mk 1 1 []).PointsAt [] 0 := by
  obtain ⟨hat, hpairs⟩ := diagnostics_point_at_their_locations "ab\n\nc".toList
  have hlength : "ab\n\nc".toList.length = 5 := by decide +kernel
  rw [hlength] at hat hpairs
  have hend : Place.locate "ab\n\nc".toList 2 = ⟨1, 3, ['a', 'b']⟩ := by decide +kernel
  have hempty : Place.locate "ab\n\nc".toList 3 = ⟨2, 1, []⟩ := by decide +kernel
  have hlast : Place.locate "ab\n\nc".toList 5 = ⟨3, 2, ['c']⟩ := by decide +kernel
  obtain ⟨-, -, hpoints⟩ := hat 2 (by decide)
  obtain ⟨hnames, -, -⟩ := hat 3 (by decide)
  obtain ⟨-, hsearched, hbehind⟩ := hat 5 (by decide)
  have hbefore := ((hpairs 2 (by decide) 3 (by decide)).1).1 (by decide)
  rw [hend] at hpoints hbefore
  rw [hempty] at hbefore
  rw [hlast] at hsearched hbehind
  refine ⟨by decide +kernel, hpoints, fun place => ?_, hsearched, hbehind, hbefore, ?_⟩
  · rw [hnames "no" place, hempty]
  · exact ((diagnostics_point_at_their_locations []).1 0 (by decide)).2.2

/-! ### The assembler's diagnostics -/

namespace Asm

theorem loc_lt_of_program {order : List Opcode} {cs : List Char} {p : List Statement}
    {rest : List Lexeme} (h : program (lex order 0 cs).lexemes = .ok (p, rest)) {s : Statement}
    (hs : s ∈ p) {loc : Nat} (hloc : loc ∈ (Node.statement s).locs) : loc < cs.length := by
  obtain ⟨place, hplace, rfl⟩ : ∃ place ∈ s.places, place.1 = loc := by
    rw [Node.locs, List.mem_cons, List.mem_map] at hloc
    rcases hloc with rfl | ⟨o, ho, rfl⟩
    · exact ⟨_, List.mem_cons_self, rfl⟩
    · exact ⟨o.place, List.mem_cons_of_mem _ (List.mem_map_of_mem ho), rfl⟩
  have hmem := (program_places h).subset
    (List.mem_append_left _ (List.mem_flatMap.2 ⟨s, hs, hplace⟩))
  obtain ⟨c, tail, n, hdrop, -⟩ := exists_read_of_place hmem
  by_contra hend
  rw [List.drop_eq_nil_of_le (Nat.le_of_not_lt hend)] at hdrop
  cases hdrop

/-- The error is reported at a statement of the program, or at an operand of one. -/
def AtNode (p : List Statement) (e : AsmError) : Prop :=
  ∃ loc why, e = .code loc why ∧ ∃ s ∈ p, loc ∈ (Node.statement s).locs

theorem error_of_check {α β ε : Type} {offence? : α → Option ε} {as : List α} {next : Except ε β} {e : ε}
    (h : check offence? as next = .error e) : (∃ a ∈ as, offence? a = some e) ∨ next = .error e := by
  rw [check] at h
  cases hfind : as.findSome? offence? with
  | none =>
    rw [hfind] at h
    exact .inr h
  | some e' =>
    rw [hfind] at h
    cases h
    exact .inl (List.exists_of_findSome?_eq_some hfind)

theorem atNode_of_offence? {p : List Statement} {i : Item} (hi : i ∈ items p) {e : AsmError}
    (h : i.offence? = some e) : AtNode p e := by
  obtain ⟨pre, s, post, rfl, hitem⟩ := mem_itemsAfter.1 hi
  have hs : s ∈ pre ++ s :: post := List.mem_append_right _ List.mem_cons_self
  have hown (why : CodeError) : AtNode (pre ++ s :: post) (.code s.loc why) :=
    ⟨s.loc, why, rfl, s, hs, List.mem_cons_self⟩
  have hoperand {o : Operand} (ho : o ∈ s.command.operands) (why : CodeError) :
      AtNode (pre ++ s :: post) (.code o.loc why) :=
    ⟨o.loc, why, rfl, s, hs, List.mem_cons_of_mem _ (List.mem_map_of_mem ho)⟩
  cases hc : s.command with
  | label x =>
    simp only [Statement.items, hc, List.mem_singleton] at hitem
    subst hitem
    rw [Item.offence?] at h
    split at h
    · cases h
      exact hown _
    · split at h
      · cases h
        exact hown _
      · cases h
  | instruction op os =>
    simp only [Statement.items, hc, List.mem_cons, List.mem_map] at hitem
    rw [hc] at hoperand
    rcases hitem with rfl | ⟨⟨role, o⟩, ho, rfl⟩
    · rw [Item.offence?] at h
      split at h
      · cases h
      · cases h
        exact hown _
    · obtain ⟨why, -, rfl⟩ := Option.map_eq_some_iff.1 h
      exact hoperand (List.of_mem_zip ho).2 why
  | data vs =>
    simp only [Statement.items, hc, List.mem_map] at hitem
    rw [hc] at hoperand
    obtain ⟨o, ho, rfl⟩ := hitem
    obtain ⟨why, -, rfl⟩ := Option.map_eq_some_iff.1 h
    exact hoperand ho why

theorem atNode_of_missing? {p : List Statement} {address? : String → Option Nat} {o : Operand}
    (ho : o ∈ operands p) {e : AsmError} (h : o.missing? address? = some e) : AtNode p e := by
  obtain ⟨s, hs, ho⟩ := List.mem_flatMap.1 ho
  rw [Operand.missing?] at h
  split at h
  · split at h
    · cases h
    · cases h
      exact ⟨o.loc, _, rfl, s, hs, List.mem_cons_of_mem _ (List.mem_map_of_mem ho)⟩
  · cases h

/-- A program is refused at one of its nodes, unless all that is wrong is its size. -/
theorem atNode_of_assembleProgram {p : List Statement} {e : AsmError}
    (h : assembleProgram p = .error e) : AtNode p e ∨ e = .tooLong (size p) := by
  rw [assembleProgram_eq, twoPass] at h
  rcases error_of_check h with ⟨i, hi, hoffence⟩ | h
  · exact .inl (atNode_of_offence? hi hoffence)
  rcases error_of_check h with ⟨o, ho, hmissing⟩ | h
  · exact .inl (atNode_of_missing? ho hmissing)
  split at h
  · cases h
    exact .inr rfl
  · cases h

theorem exists_diagnostic_of_error {source : String} {e : AsmError} (h : assemble source = .error e) :
    (∃ words, e = .tooLong words) ∨
      ∃ loc ≤ (expandTabs source.toList).length, ∃ message,
        e.text source = diagnostic (expandTabs source.toList) loc message := by
  rw [assemble] at h
  cases hparse : parse source with
  | error why =>
    rw [hparse] at h
    cases h
    exact .inr ⟨why.loc, loc_le_of_parse hparse, why.message, rfl⟩
  | ok p =>
    rw [hparse] at h
    rw [parse, parseIn_eq, statements_eq_ok_iff] at hparse
    rcases atNode_of_assembleProgram h with ⟨loc, why, rfl, s, hs, hmem⟩ | rfl
    · exact .inr ⟨loc, (loc_lt_of_program hparse.1 hs hmem).le, why.message, rfl⟩
    · exact .inl ⟨_, rfl⟩

/-- Whatever is wrong with a source, its size apart, is reported with a place in the source with its
tabs expanded. -/
theorem errors_point_into_source {source : String} {e : AsmError} (h : assemble source = .error e) :
    (∃ words, e = .tooLong words) ∨
      ∃ loc ≤ (expandTabs source.toList).length, ∃ (place : Place) (message : String),
        e.text source = place.report message ∧ place.PointsAt (expandTabs source.toList) loc := by
  refine (exists_diagnostic_of_error h).imp_right ?_
  rintro ⟨loc, hloc, message, htext⟩
  rw [diagnostic_eq] at htext
  exact ⟨loc, hloc, _, message, htext, locate_pointsAt hloc⟩

end Asm

end WordMachine
