/-! Tab stops. Sources are read with every tab replaced by blanks, up to the next column that is a
multiple of eight; a newline or a return starts the columns again. Locations and quoted lines refer
to the text without tabs. -/

namespace WordMachine

/-- the number of blanks from a column to the next tab stop -/
def blanksToStop (column : Nat) : Nat := 8 - column % 8

/-- Replaces the tabs of a text that starts in the given column. -/
def expandTabsFrom (column : Nat) : List Char → List Char
  | [] => []
  | c :: cs =>
    if c = '\t' then
      List.replicate (blanksToStop column) ' ' ++ expandTabsFrom (column + blanksToStop column) cs
    else if c = '\n' ∨ c = '\r' then c :: expandTabsFrom 0 cs
    else c :: expandTabsFrom (column + 1) cs

def expandTabs (cs : List Char) : List Char := expandTabsFrom 0 cs

theorem tab_not_mem_expandTabsFrom (column : Nat) (cs : List Char) :
    '\t' ∉ expandTabsFrom column cs := by
  induction cs generalizing column with
  | nil => simp [expandTabsFrom]
  | cons c cs ih =>
    rw [expandTabsFrom]
    split
    · simp only [List.mem_append, List.mem_replicate, not_or]
      exact ⟨fun h => by simp at h, ih _⟩
    · rename_i hc
      split <;> simp only [List.mem_cons, not_or] <;> exact ⟨Ne.symm hc, ih _⟩

theorem expandTabsFrom_of_no_tab (column : Nat) {cs : List Char} (h : '\t' ∉ cs) :
    expandTabsFrom column cs = cs := by
  induction cs generalizing column with
  | nil => rfl
  | cons c cs ih =>
    rw [List.mem_cons, not_or] at h
    rw [expandTabsFrom, if_neg (Ne.symm h.1)]
    split <;> rw [ih _ h.2]

/-- Characters that are no tabs and start no line only move what is behind them. -/
theorem expandTabsFrom_append (column : Nat) {cs : List Char} (rest : List Char)
    (h : ∀ c ∈ cs, c ≠ '\t' ∧ c ≠ '\n' ∧ c ≠ '\r') :
    expandTabsFrom column (cs ++ rest) = cs ++ expandTabsFrom (column + cs.length) rest := by
  induction cs generalizing column with
  | nil => rfl
  | cons c cs ih =>
    rw [List.forall_mem_cons] at h
    obtain ⟨⟨htab, hnewline, hreturn⟩, hcs⟩ := h
    rw [List.cons_append, expandTabsFrom, if_neg htab, if_neg (not_or.2 ⟨hnewline, hreturn⟩),
      ih _ hcs, List.length_cons, Nat.add_assoc, Nat.add_comm 1]
    rfl

/-- What stands in front of a text settles the column where the text starts, and nothing else. -/
theorem exists_expandTabsFrom_append (column : Nat) (cs rest : List Char) :
    ∃ k, expandTabsFrom column (cs ++ rest) = expandTabsFrom column cs ++ expandTabsFrom k rest := by
  induction cs generalizing column with
  | nil => exact ⟨column, rfl⟩
  | cons c cs ih =>
    rw [List.cons_append, expandTabsFrom, expandTabsFrom]
    split
    · exact (ih _).imp fun k hk => by rw [hk, List.append_assoc]
    · split <;> exact (ih _).imp fun k hk => by rw [hk, List.cons_append]

theorem expandTabsFrom_concat (column : Nat) (cs : List Char) {c : Char} (hc : c ≠ '\t') :
    expandTabsFrom column (cs ++ [c]) = expandTabsFrom column cs ++ [c] := by
  induction cs generalizing column with
  | nil =>
    rw [List.nil_append, expandTabsFrom.eq_def]
    simp only [if_neg hc]
    split <;> rfl
  | cons d cs ih =>
    rw [List.cons_append, expandTabsFrom, expandTabsFrom]
    split
    · rw [ih, List.append_assoc]
    · split <;> rw [ih, List.cons_append]

theorem mem_expandTabsFrom {column : Nat} {cs : List Char} {c : Char}
    (h : c ∈ expandTabsFrom column cs) : c ∈ cs ∨ c = ' ' := by
  induction cs generalizing column with
  | nil => cases h
  | cons d cs ih =>
    have htail {column : Nat} (h : c ∈ expandTabsFrom column cs) : c ∈ d :: cs ∨ c = ' ' :=
      (ih h).imp_left (List.mem_cons_of_mem d)
    rw [expandTabsFrom] at h
    split at h
    · rcases List.mem_append.1 h with hblank | h
      · exact .inr (List.mem_replicate.1 hblank).2
      · exact htail h
    · split at h <;> rcases List.mem_cons.1 h with rfl | h
      all_goals first | exact .inl List.mem_cons_self | exact htail h

/-- Behind a newline the columns start again. -/
theorem expandTabsFrom_newline (column : Nat) (cs rest : List Char) :
    expandTabsFrom column (cs ++ '\n' :: rest) = expandTabsFrom column cs ++ '\n' :: expandTabs rest := by
  induction cs generalizing column with
  | nil => rfl
  | cons c cs ih =>
    rw [List.cons_append, expandTabsFrom, expandTabsFrom]
    split
    · rw [ih, List.append_assoc]
    · split <;> rw [ih, List.cons_append]

theorem expandTabs_newline (cs rest : List Char) :
    expandTabs (cs ++ '\n' :: rest) = expandTabs cs ++ '\n' :: expandTabs rest :=
  expandTabsFrom_newline 0 cs rest

theorem count_newline_expandTabsFrom (column : Nat) (cs : List Char) :
    (expandTabsFrom column cs).count '\n' = cs.count '\n' := by
  induction cs generalizing column with
  | nil => rfl
  | cons c cs ih =>
    rw [expandTabsFrom]
    split
    · rename_i hc
      rw [List.count_append, ih, hc, List.count_cons_of_ne (by decide), List.count_replicate]
      exact Nat.zero_add _
    · split <;> rw [List.count_cons, List.count_cons, ih]

theorem count_newline_expandTabs (cs : List Char) : (expandTabs cs).count '\n' = cs.count '\n' :=
  count_newline_expandTabsFrom 0 cs

theorem newline_not_mem_expandTabs {cs : List Char} (h : '\n' ∉ cs) : '\n' ∉ expandTabs cs := by
  rwa [← List.count_eq_zero, count_newline_expandTabs, List.count_eq_zero]

end WordMachine
