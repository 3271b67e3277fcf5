import Mathlib
import WordMachine.Proofs.Asm.Lines
import WordMachine.Proofs.Asm.Tokens
import WordMachine.Text.Place

/-! Places. A location cuts a text: into the lines above it, its own line in two parts, and the lines
below. The place of the location is read off from this cut. Separate searches for the newlines around
the location find the same place, and a location further on has a place further on. -/

namespace WordMachine

/-! ### Searching for the place -/

/-- the index of the last newline in front of a location -/
def newlineBefore? (src : List Char) : Nat → Option Nat
  | 0 => none
  | i + 1 => if src[i]? = some '\n' then some i else newlineBefore? src i

/-- the index of the first newline from a location on -/
def newlineFrom? (src : List Char) (loc : Nat) : Option Nat :=
  ((src.drop loc).findIdx? (· == '\n')).map (loc + ·)

/-- The column, measured from the newline in front. A location right behind a newline is in the first
column, and unless it is at the end of the text this is not measured. -/
def searchedColumn (src : List Char) (loc : Nat) : Nat :=
  if 0 < loc ∧ loc < src.length ∧ src[loc - 1]? = some '\n' then 1
  else (newlineBefore? src loc).elim (loc + 1) (loc - ·)

/-- The text from the newline in front to the next one. -/
def searchedText (src : List Char) (loc : Nat) : List Char :=
  ((newlineFrom? src loc).elim src (src.take ·)).drop ((newlineBefore? src loc).elim 0 (· + 1))

/-- The place of a location by three searches that share no results. -/
def Place.searched (src : List Char) (loc : Nat) : Place where
  line := (src.take loc).count '\n' + 1
  column := searchedColumn src loc
  text := searchedText src loc

/-! ### Cuts -/

/-- The location cuts the text: there are lines above and below, and the line in between has a part in
front of the location and a part from it on. -/
structure Cut (src : List Char) (loc : Nat) (above : List (List Char)) (front back : List Char)
    (below : List (List Char)) : Prop where
  lines : src.splitOn '\n' = above ++ (front ++ back) :: below
  loc : (above.map (·.length + 1)).sum + front.length = loc

theorem exists_cut {src : List Char} {loc : Nat} (h : loc ≤ src.length) :
    ∃ above front back below, Cut src loc above front back below := by
  induction src using Asm.lines_induction generalizing loc with
  | last src hsrc =>
    have hlines : src.splitOn '\n' = [src] := List.splitOn_eq_singleton hsrc
    refine ⟨[], src.take loc, src.drop loc, [], ?_, ?_⟩
    · rw [hlines, List.take_append_drop, List.nil_append]
    · rw [List.map_nil, List.sum_nil, Nat.zero_add, List.length_take_of_le h]
  | more line rest hline ih =>
    have hlines := List.splitOn_append_cons_self_of_not_mem hline rest
    rw [List.length_append, List.length_cons] at h
    rcases Nat.lt_or_ge line.length loc with hbehind | hwithin
    -- behind the newline: the cut of the rest, with one more line above
    · have hrest : loc - (line.length + 1) ≤ rest.length := by omega
      obtain ⟨above, front, back, below, hcut⟩ := ih hrest
      refine ⟨line :: above, front, back, below, ?_, ?_⟩
      · rw [hlines, hcut.lines, List.cons_append]
      · have := hcut.loc
        rw [List.map_cons, List.sum_cons]
        omega
    · refine ⟨[], line.take loc, line.drop loc, rest.splitOn '\n', ?_, ?_⟩
      · rw [hlines, List.take_append_drop, List.nil_append]
      · rw [List.map_nil, List.sum_nil, Nat.zero_add, List.length_take_of_le hwithin]

/-- lines with a newline behind each -/
def terminated (lines : List (List Char)) : List Char := lines.flatMap (· ++ ['\n'])

/-- lines with a newline in front of each -/
def preceded (lines : List (List Char)) : List Char := lines.flatMap ('\n' :: ·)

theorem terminated_cons (line : List Char) (lines : List (List Char)) :
    terminated (line :: lines) = line ++ '\n' :: terminated lines := by
  simp [terminated]

theorem intercalate_cons (line : List Char) (below : List (List Char)) :
    ['\n'].intercalate (line :: below) = line ++ preceded below := by
  induction below generalizing line with
  | nil => simp [preceded]
  | cons next below ih =>
    rw [List.intercalate_cons_cons, ih, List.append_assoc]
    rfl

/-- Lines put together again, seen from one of them. -/
theorem intercalate_append_cons (above : List (List Char)) (line : List Char) (below : List (List Char)) :
    ['\n'].intercalate (above ++ line :: below) = terminated above ++ (line ++ preceded below) := by
  induction above with
  | nil => exact intercalate_cons line below
  | cons first above ih =>
    have hne : above ++ line :: below ≠ [] := List.append_ne_nil_of_right_ne_nil _ (by simp)
    rw [List.cons_append, List.intercalate_cons_of_ne_nil hne, ih, terminated_cons, List.append_assoc,
      List.append_assoc]
    rfl

theorem length_terminated (lines : List (List Char)) :
    (terminated lines).length = (lines.map (·.length + 1)).sum := by
  simp [terminated, List.length_flatMap]

theorem count_newline_terminated {lines : List (List Char)} (h : ∀ line ∈ lines, '\n' ∉ line) :
    (terminated lines).count '\n' = lines.length := by
  induction lines with
  | nil => rfl
  | cons line lines ih =>
    rw [List.forall_mem_cons] at h
    rw [terminated_cons, List.count_append, List.count_eq_zero.2 h.1, List.count_cons_self, ih h.2,
      List.length_cons, Nat.zero_add]

theorem eq_newline_of_getLast?_terminated {lines : List (List Char)} {c : Char}
    (h : (terminated lines).getLast? = some c) : c = '\n' := by
  rcases List.eq_nil_or_concat lines with rfl | ⟨before, line, rfl⟩
  · cases h
  · rw [terminated, List.concat_eq_append, List.flatMap_append, List.flatMap_singleton,
      ← List.append_assoc, List.getLast?_concat] at h
    exact (Option.some.inj h).symm

theorem eq_newline_of_head?_preceded {lines : List (List Char)} {c : Char}
    (h : (preceded lines).head? = some c) : c = '\n' := by
  cases lines with
  | nil => cases h
  | cons line lines => exact (Option.some.inj h).symm

theorem newline_not_mem_of_mem_splitOn {src line : List Char} (h : line ∈ src.splitOn '\n') :
    '\n' ∉ line := by
  have hmem : String.ofList line ∈ Asm.linesOf (String.ofList src) := by
    rw [Asm.linesOf, String.toList_ofList]
    exact List.mem_map_of_mem h
  have := Asm.newline_not_mem_line src _ hmem
  rwa [String.toList_ofList] at this

theorem takeWhile_ne_newline {cs : List Char} (h : '\n' ∉ cs) : cs.takeWhile (· != '\n') = cs := by
  rw [List.takeWhile_eq_self_iff]
  intro c hc
  rw [bne_iff_ne]
  rintro rfl
  exact h hc

namespace Cut
variable {src : List Char} {loc : Nat} {above below : List (List Char)} {front back : List Char}
  (h : Cut src loc above front back below)
include h

theorem text : src = terminated above ++ (front ++ (back ++ preceded below)) := by
  rw [← List.append_assoc front, ← intercalate_append_cons, ← h.lines, List.intercalate_splitOn]

theorem length_above : (terminated above).length + front.length = loc := by
  rw [length_terminated, h.loc]

theorem take_eq : src.take loc = terminated above ++ front := by
  rw [h.text, ← List.append_assoc]
  exact List.take_left' (by rw [List.length_append, h.length_above])

theorem drop_eq : src.drop loc = back ++ preceded below := by
  rw [h.text, ← List.append_assoc]
  exact List.drop_left' (by rw [List.length_append, h.length_above])

theorem newline_not_mem : ∀ line ∈ above ++ (front ++ back) :: below, '\n' ∉ line := by
  rw [← h.lines]
  exact fun _ => newline_not_mem_of_mem_splitOn

theorem newline_not_mem_line : '\n' ∉ front ++ back :=
  h.newline_not_mem _ (List.mem_append_right _ List.mem_cons_self)

theorem newline_not_mem_front : '\n' ∉ front :=
  fun hmem => h.newline_not_mem_line (List.mem_append_left _ hmem)

theorem newline_not_mem_back : '\n' ∉ back :=
  fun hmem => h.newline_not_mem_line (List.mem_append_right _ hmem)

theorem count_newline : (src.take loc).count '\n' = above.length := by
  have habove : ∀ line ∈ above, '\n' ∉ line :=
    fun line hline => h.newline_not_mem line (List.mem_append_left _ hline)
  rw [h.take_eq, List.count_append, count_newline_terminated habove,
    List.count_eq_zero.2 h.newline_not_mem_front, Nat.add_zero]

theorem lineStart_eq : lineStart src loc = (terminated above).length := by
  have hfront : '\n' ∉ front.reverse := fun hmem => h.newline_not_mem_front (List.mem_reverse.1 hmem)
  have habove : ∀ c, (terminated above).reverse.head? = some c → (c != '\n') = false := by
    intro c hc
    rw [List.head?_reverse] at hc
    rw [eq_newline_of_getLast?_terminated hc]
    rfl
  rw [lineStart, h.take_eq, List.reverse_append, Asm.takeWhile_append_boundary habove,
    takeWhile_ne_newline hfront, List.length_append, List.length_reverse, Nat.add_sub_cancel]

theorem locate_eq : Place.locate src loc = ⟨above.length + 1, front.length + 1, front ++ back⟩ := by
  have hbelow : ∀ c, (preceded below).head? = some c → (c != '\n') = false := by
    intro c hc
    rw [eq_newline_of_head?_preceded hc]
    rfl
  have hcolumn : loc - (terminated above).length = front.length := by
    have := h.length_above
    omega
  have hdrop : src.drop (terminated above).length = front ++ back ++ preceded below := by
    rw [h.text, List.drop_left, List.append_assoc]
  rw [Place.locate, h.count_newline, h.lineStart_eq, hcolumn, hdrop,
    Asm.takeWhile_append_boundary hbelow, takeWhile_ne_newline h.newline_not_mem_line]

end Cut

/-! ### The searches agree -/

theorem lineStart_le (src : List Char) (loc : Nat) : lineStart src loc ≤ loc :=
  (Nat.sub_le _ _).trans (List.length_take_le loc src)

/-- A line starts behind the newline in front, or with the text. -/
theorem lineStart_eq_elim (src : List Char) (loc : Nat) :
    lineStart src loc = (newlineBefore? src loc).elim 0 (· + 1) := by
  induction loc with
  | zero => simp [lineStart, newlineBefore?]
  | succ i ih =>
    rw [newlineBefore?, lineStart, List.take_add_one]
    cases hc : src[i]? with
    | none =>
      -- behind the end of the text there are no more characters to take
      rw [if_neg nofun, ← ih, Option.toList_none, List.append_nil]
      rfl
    | some c =>
      obtain ⟨hi, -⟩ := List.getElem?_eq_some_iff.1 hc
      have hlength : (src.take i).length = i := List.length_take_of_le hi.le
      rw [Option.toList_some, List.reverse_append, List.reverse_singleton, List.singleton_append,
        List.takeWhile_cons, List.length_append, hlength, List.length_singleton]
      by_cases hnewline : c = '\n'
      · subst hnewline
        rfl
      · rw [if_pos (bne_iff_ne.2 hnewline), if_neg (by simpa using hnewline), ← ih, lineStart, hlength,
          List.length_cons, Nat.add_sub_add_right]

theorem searchedColumn_eq (src : List Char) (loc : Nat) :
    searchedColumn src loc = loc - lineStart src loc + 1 := by
  have hle := lineStart_le src loc
  rw [lineStart_eq_elim] at hle ⊢
  rw [searchedColumn]
  split
  · rename_i hbehind
    obtain ⟨i, rfl⟩ := Nat.exists_eq_add_of_lt hbehind.1
    rw [Nat.zero_add, Nat.add_sub_cancel] at hbehind
    rw [Nat.zero_add, newlineBefore?, if_pos hbehind.2.2, Option.elim_some, Nat.sub_self]
  · cases hbefore : newlineBefore? src loc with
    | none => rfl
    | some j =>
      rw [hbefore, Option.elim_some] at hle
      rw [Option.elim_some, Option.elim_some]
      omega

theorem Cut.searchedText_eq {src : List Char} {loc : Nat} {above below : List (List Char)}
    {front back : List Char} (h : Cut src loc above front back below) :
    searchedText src loc = front ++ back := by
  have hnone : back.findIdx? (· == '\n') = none := by
    rw [List.findIdx?_eq_none_iff]
    intro c hc
    rw [beq_eq_false_iff_ne]
    rintro rfl
    exact h.newline_not_mem_back hc
  rw [searchedText, ← lineStart_eq_elim, h.lineStart_eq, newlineFrom?, h.drop_eq,
    List.findIdx?_append, hnone, Option.none_or]
  have htext := h.text
  cases below with
  | nil =>
    rw [preceded, List.flatMap_nil, List.append_nil] at htext
    change src.drop _ = _
    rw [htext, List.drop_left]
  | cons next below =>
    have hstop : src.take (loc + (0 + back.length)) = terminated above ++ (front ++ back) := by
      rw [htext, ← List.append_assoc front, ← List.append_assoc]
      refine List.take_left' ?_
      rw [List.length_append, List.length_append, ← h.length_above]
      omega
    change (src.take (loc + (0 + back.length))).drop _ = _
    rw [hstop, List.drop_left]

theorem searched_eq_locate {src : List Char} {loc : Nat} (h : loc ≤ src.length) :
    Place.searched src loc = Place.locate src loc := by
  obtain ⟨above, front, back, below, hcut⟩ := exists_cut h
  have htext : (Place.locate src loc).text = front ++ back := by rw [hcut.locate_eq]
  rw [Place.searched, searchedColumn_eq, hcut.searchedText_eq, ← htext]
  rfl

/-! ### Where the place is -/

/-- how long the first lines of a text are, each with its newline -/
def lengthAbove (src : List Char) (i : Nat) : Nat :=
  (((src.splitOn '\n').take i).map (·.length + 1)).sum

/-- what stands under the quoted line: a caret in the column of the place -/
def Place.marker (place : Place) : List Char := List.replicate (place.column - 1) ' ' ++ ['^']

theorem Place.idxOf_marker (place : Place) : place.marker.idxOf '^' = place.column - 1 := by
  have hblanks : '^' ∉ List.replicate (place.column - 1) ' ' := fun h => by
    have := (List.mem_replicate.1 h).2
    revert this
    decide
  rw [Place.marker, List.idxOf_append_of_notMem hblanks, List.length_replicate]
  rfl

/-- What makes a place that of a location: its text is the line of the text with its number, the
location is as far into this line as the column says, and a caret in this column is under the
character at the location, or just behind the line if there is none in it. -/
structure Place.PointsAt (place : Place) (src : List Char) (loc : Nat) : Prop where
  line : 1 ≤ place.line ∧ place.line ≤ (src.splitOn '\n').length
  text : (src.splitOn '\n')[place.line - 1]? = some place.text
  column : 1 ≤ place.column ∧ place.column ≤ place.text.length + 1
  offset : lengthAbove src (place.line - 1) + (place.column - 1) = loc
  under : ∀ c, src[loc]? = some c → c ≠ '\n' → place.text[place.marker.idxOf '^']? = some c
  behind : (∀ c, src[loc]? = some c → c = '\n') → place.marker.idxOf '^' = place.text.length

theorem Cut.pointsAt {src : List Char} {loc : Nat} {above below : List (List Char)}
    {front back : List Char} (h : Cut src loc above front back below) :
    (Place.locate src loc).PointsAt src loc := by
  have hchar : src[loc]? = (back ++ preceded below).head? := by rw [← h.drop_eq, List.head?_drop]
  rw [h.locate_eq]
  constructor
  case line => simp [h.lines]
  case text => simp [h.lines]
  case column => simp
  case offset => simpa [lengthAbove, h.lines] using h.loc
  case under =>
    intro c hc hne
    rw [hchar] at hc
    rw [Place.idxOf_marker]
    cases back with
    | nil => exact absurd (eq_newline_of_head?_preceded hc) hne
    | cons b back =>
      obtain rfl : b = c := Option.some.inj hc
      simp
  case behind =>
    intro hc
    rw [Place.idxOf_marker]
    cases back with
    | nil => simp
    | cons b back =>
      obtain rfl : b = '\n' := hc b hchar
      exact absurd List.mem_cons_self h.newline_not_mem_back

theorem locate_pointsAt {src : List Char} {loc : Nat} (h : loc ≤ src.length) :
    (Place.locate src loc).PointsAt src loc := by
  obtain ⟨above, front, back, below, hcut⟩ := exists_cut h
  exact hcut.pointsAt

/-! ### The order of places -/

theorem lengthAbove_succ {src line : List Char} {i : Nat} (h : (src.splitOn '\n')[i]? = some line) :
    lengthAbove src (i + 1) = lengthAbove src i + (line.length + 1) := by
  simp [lengthAbove, List.take_add_one, h]

theorem lengthAbove_mono (src : List Char) {i j : Nat} (h : i ≤ j) :
    lengthAbove src i ≤ lengthAbove src j := by
  obtain ⟨k, rfl⟩ := Nat.exists_eq_add_of_le h
  rw [lengthAbove, lengthAbove, List.take_add, List.map_append, List.sum_append]
  exact Nat.le_add_right _ _

/-- One place is in front of another: in a line above, or in the same line further left. -/
def Place.Before (p q : Place) : Prop := p.line < q.line ∨ p.line = q.line ∧ p.column < q.column

namespace Place.PointsAt
variable {src : List Char} {p q : Place} {i j : Nat}

/-- A location in a line above is in front, since the columns of a line end where the next starts. -/
theorem lt_of_line_lt (hp : p.PointsAt src i) (hq : q.PointsAt src j) (h : p.line < q.line) : i < j := by
  have hnext := lengthAbove_succ hp.text
  have hpos := hp.line.1
  have hlines : lengthAbove src (p.line - 1 + 1) ≤ lengthAbove src (q.line - 1) :=
    lengthAbove_mono src (by omega)
  have hcolumn := hp.column
  have hi := hp.offset
  have hj := hq.offset
  omega

theorem lt_iff (hp : p.PointsAt src i) (hq : q.PointsAt src j) : i < j ↔ p.Before q := by
  rcases Nat.lt_trichotomy p.line q.line with hline | hline | hline
  · exact iff_of_true (hp.lt_of_line_lt hq hline) (.inl hline)
  · have hp1 := hp.column.1
    have hq1 := hq.column.1
    have hi := hp.offset
    have hj := hq.offset
    rw [hline] at hi
    constructor
    · intro hlt
      exact .inr ⟨hline, by omega⟩
    · rintro (hlt | ⟨-, hlt⟩) <;> omega
  · refine iff_of_false (hq.lt_of_line_lt hp hline).asymm ?_
    rintro (hlt | ⟨heq, -⟩) <;> omega

theorem eq_of_line_column (hp : p.PointsAt src i) (hq : q.PointsAt src j) (hline : p.line = q.line)
    (hcolumn : p.column = q.column) : i = j := by
  rw [← hp.offset, ← hq.offset, hline, hcolumn]

end Place.PointsAt

end WordMachine
