import Mathlib.Data.List.TakeWhile
import WordMachine.Proofs.Asm.Tokens

/-! The tokens of lines. The tokens of a text that starts elsewhere are the same, at other locations.
A line in front of a newline has the tokens that it has alone, and those of the text behind it follow. -/

namespace WordMachine.Asm

/-! ### Gaps -/

theorem Gap.length_before_le (cs : List Char) : (Gap.before cs).length ≤ cs.length := by
  have hblanks := length_takeWhile_le isBlank cs
  simp only [Gap.before]
  split
  · rename_i comment heq
    have hlen := congrArg List.length heq
    have hcomment := length_takeWhile_le (· != '\n') comment
    simp only [List.length_drop, List.length_cons] at hlen ⊢
    omega
  · exact hblanks

/-- A gap ends before a newline. -/
theorem Gap.before_newline (cs rest : List Char) :
    Gap.before (cs ++ '\n' :: rest) = Gap.before cs := by
  have hblank (cs : List Char) : (cs ++ '\n' :: rest).takeWhile isBlank = cs.takeWhile isBlank :=
    takeWhile_append_boundary (by simp [isBlank]) cs
  have hcomment (cs : List Char) :
      (cs ++ '\n' :: rest).takeWhile (· != '\n') = cs.takeWhile (· != '\n') :=
    takeWhile_append_boundary (by simp) cs
  simp only [Gap.before, hblank, List.drop_append_of_le_length (length_takeWhile_le _ _)]
  cases cs.drop (cs.takeWhile isBlank).length with
  | nil => rfl
  | cons c more =>
    by_cases hc : c = ';'
    · simp only [hc, List.cons_append, hcomment]
    · rw [List.cons_append]
      split
      · rename_i heq
        exact absurd (List.cons.inj heq).1 hc
      · split
        · rename_i heq
          exact absurd (List.cons.inj heq).1 hc
        · rfl

section Blank
variable {bs rest : List Char} (hbs : ∀ b ∈ bs, isBlank b = true)
include hbs

theorem takeWhile_isBlank (hrest : ∀ c, rest.head? = some c → isBlank c = false) :
    (bs ++ rest).takeWhile isBlank = bs := by
  rw [takeWhile_append_boundary hrest, List.takeWhile_eq_self_iff.2 hbs]

/-- Blanks are all of the gap if neither a blank nor a comment follows. -/
theorem Gap.before_blank (hrest : ∀ c, rest.head? = some c → isBlank c = false ∧ c ≠ ';') :
    Gap.before (bs ++ rest) = ⟨bs.length, bs.length != 0⟩ := by
  simp only [Gap.before, takeWhile_isBlank hbs fun c hc => (hrest c hc).1, List.drop_left]
  split
  · exact absurd rfl (hrest ';' rfl).2
  · rfl

theorem Gap.before_comment (text : List Char) :
    Gap.before (bs ++ ';' :: text) =
      ⟨bs.length + 1 + (text.takeWhile (· != '\n')).length, false⟩ := by
  have hblanks : (bs ++ ';' :: text).takeWhile isBlank = bs := by
    apply takeWhile_isBlank hbs
    rintro c ⟨⟩
    rfl
  simp only [Gap.before, hblanks, List.drop_left]

theorem drop_gap_blank : bs.drop (Gap.before bs).length = [] := by
  have hgap := @Gap.before_blank bs [] hbs nofun
  rw [List.append_nil] at hgap
  rw [hgap, List.drop_length]

end Blank

/-- A text is blank, or a comment or a token follows its blanks. -/
theorem exists_blanks (cs : List Char) :
    ∃ bs, (∀ b ∈ bs, isBlank b = true) ∧
      (cs = bs ∨ (∃ text, cs = bs ++ ';' :: text) ∨
        ∃ c tail, cs = bs ++ c :: tail ∧ isBlank c = false ∧ c ≠ ';') := by
  have hsplit : cs.takeWhile isBlank ++ cs.dropWhile isBlank = cs := List.takeWhile_append_dropWhile
  have hhead := List.head?_dropWhile_not isBlank cs
  refine ⟨cs.takeWhile isBlank, fun b hb => List.mem_takeWhile_imp hb, ?_⟩
  cases hrest : cs.dropWhile isBlank with
  | nil =>
    rw [hrest, List.append_nil] at hsplit
    exact .inl hsplit.symm
  | cons c tail =>
    rw [hrest] at hsplit hhead
    by_cases hc : c = ';'
    · exact .inr (.inl ⟨tail, hc ▸ hsplit.symm⟩)
    · exact .inr (.inr ⟨c, tail, hsplit.symm, hhead, hc⟩)

/-- Only blanks stand in front of a token, unless it is a newline. -/
theorem exists_blanks_of_drop_gap {cs : List Char} {c : Char} {tail : List Char}
    (h : cs.drop (Gap.before cs).length = c :: tail) (hc : c ≠ '\n') :
    ∃ bs, cs = bs ++ c :: tail ∧ ∀ b ∈ bs, isBlank b = true := by
  obtain ⟨bs, hbs, rfl | ⟨text, rfl⟩ | ⟨d, more, rfl, hd, hcomment⟩⟩ := exists_blanks cs
  · rw [drop_gap_blank hbs] at h
    cases h
  · -- a newline ends the comment
    have hend := List.head?_dropWhile_not (· != '\n') text
    have hdrop : (bs ++ ';' :: text).drop (Gap.before (bs ++ ';' :: text)).length =
        text.dropWhile (· != '\n') := by
      rw [Gap.before_comment hbs, Nat.add_assoc, List.drop_length_add_append, Nat.add_comm 1,
        List.drop_succ_cons, drop_length_takeWhile]
    rw [← hdrop, h] at hend
    simp [hc] at hend
  · rw [Gap.before_blank hbs (by simp [hd, hcomment]), List.drop_left] at h
    exact ⟨bs, by rw [h], hbs⟩

/-! ### Shifted locations -/

def Lexeme.shift (k : Nat) (l : Lexeme) : Lexeme := { l with loc := l.loc + k }

def Stop.shift (k : Nat) (s : Stop) : Stop := { s with loc := s.loc + k }

section Lex
variable {order : List Opcode} {loc : Nat} {cs rest : List Char}

theorem lex_of_end (h : cs.drop (Gap.before cs).length = []) :
    lex order loc cs = ⟨[], loc + (Gap.before cs).length, (Gap.before cs).spaced, true⟩ := by
  rw [lex]
  split
  · rfl
  · rename_i heq
    rw [h] at heq
    cases heq

theorem lex_of_stuck {c : Char} {tail : List Char} (h : cs.drop (Gap.before cs).length = c :: tail)
    (hread : Token.read? order c tail = none) :
    lex order loc cs = ⟨[], loc + (Gap.before cs).length, (Gap.before cs).spaced, false⟩ := by
  rw [lex]
  split
  · rename_i heq
    rw [h] at heq
    cases heq
  · rename_i heq
    rw [h] at heq
    cases heq
    rw [hread]

theorem lex_of_read {c : Char} {tail : List Char} {token : Token} {n : Nat}
    (h : cs.drop (Gap.before cs).length = c :: tail)
    (hread : Token.read? order c tail = some (token, n)) :
    lex order loc cs =
      let more := lex order (loc + (Gap.before cs).length + 1 + n) (tail.drop n)
      ⟨⟨loc + (Gap.before cs).length, (Gap.before cs).spaced, token⟩ :: more.lexemes, more.stop⟩ := by
  rw [lex]
  split
  · rename_i heq
    rw [h] at heq
    cases heq
  · rename_i heq
    rw [h] at heq
    cases heq
    rw [hread]

theorem lex_shift (order : List Opcode) (loc k : Nat) (cs : List Char) :
    lex order (loc + k) cs =
      ⟨(lex order loc cs).lexemes.map (Lexeme.shift k), (lex order loc cs).stop.shift k⟩ := by
  fun_induction lex order loc cs with
  | case1 loc cs gap hdrop =>
    rw [lex_of_end hdrop, Nat.add_right_comm]
    rfl
  | case2 loc cs gap c tail hdrop hread =>
    rw [lex_of_stuck hdrop hread, Nat.add_right_comm]
    rfl
  | case3 loc cs gap c tail hdrop token n hread more ih =>
    have hloc : loc + k + (Gap.before cs).length + 1 + n = loc + gap.length + 1 + n + k := by
      simp only [gap]
      omega
    rw [lex_of_read hdrop hread, hloc, ih, Nat.add_right_comm loc k]
    rfl

/-- The locations of a text's tokens lie within the text, and so does the end of reading. -/
theorem lex_within (order : List Opcode) (loc : Nat) (cs : List Char) :
    (∀ l ∈ (lex order loc cs).lexemes, l.loc ≤ loc + cs.length) ∧
      (lex order loc cs).stop.loc ≤ loc + cs.length := by
  fun_induction lex order loc cs with
  | case1 loc cs gap hdrop | case2 loc cs gap c tail hdrop hread =>
    exact ⟨nofun, Nat.add_le_add_left (Gap.length_before_le cs) loc⟩
  | case3 loc cs gap c tail hdrop token n hread more ih =>
    have hgap : gap.length ≤ cs.length := Gap.length_before_le cs
    have hn := Token.length_of_read? hread
    have hlen := congrArg List.length hdrop
    simp only [List.length_drop, List.length_cons] at hlen ih
    refine ⟨?_, ?_⟩
    · intro l hl
      rcases List.mem_cons.1 hl with rfl | hl
      · exact Nat.add_le_add_left hgap loc
      · have := ih.1 l hl
        omega
    · refine Nat.le_trans ih.2 ?_
      omega

/-- The tokens of a line are none of them newlines. -/
theorem ne_newline_of_mem_lex (hcs : '\n' ∉ cs) :
    ∀ l ∈ (lex order loc cs).lexemes, l.token ≠ .newline := by
  fun_induction lex order loc cs with
  | case1 loc cs gap hdrop | case2 loc cs gap c tail hdrop hread => exact nofun
  | case3 loc cs gap c tail hdrop token n hread more ih =>
    have htail : '\n' ∉ c :: tail := hdrop ▸ fun hmem => hcs (List.mem_of_mem_drop hmem)
    rw [List.mem_cons, not_or] at htail
    intro l hl
    rcases List.mem_cons.1 hl with rfl | hl
    · exact Token.ne_newline_of_read? hread (Ne.symm htail.1)
    · exact ih (fun hmem => htail.2 (List.mem_of_mem_drop hmem)) l hl

/-- What is read behind a line: if the line was read to its end, the newline and then the rest. -/
def Lexed.followedBy (line rest : Lexed) : Lexed :=
  if line.stop.atEnd then
    ⟨line.lexemes ++ ⟨line.stop.loc, line.stop.spaced, .newline⟩ :: rest.lexemes, rest.stop⟩
  else line

theorem Lexed.cons_followedBy (l : Lexeme) (line rest : Lexed) :
    Lexed.followedBy ⟨l :: line.lexemes, line.stop⟩ rest =
      ⟨l :: (line.followedBy rest).lexemes, (line.followedBy rest).stop⟩ := by
  simp only [Lexed.followedBy]
  split <;> rfl

theorem drop_gap_newline {more : List Char} (h : cs.drop (Gap.before cs).length = more)
    (rest : List Char) :
    (cs ++ '\n' :: rest).drop (Gap.before (cs ++ '\n' :: rest)).length = more ++ '\n' :: rest := by
  rw [Gap.before_newline, List.drop_append_of_le_length (Gap.length_before_le cs), h]

theorem lex_newline (hcs : '\n' ∉ cs) (rest : List Char) :
    lex order loc (cs ++ '\n' :: rest) =
      (lex order loc cs).followedBy (lex order (loc + cs.length + 1) rest) := by
  fun_induction lex order loc cs with
  | case1 loc cs gap hdrop =>
    have hgap : (Gap.before cs).length = cs.length :=
      Nat.le_antisymm (Gap.length_before_le cs) (List.drop_eq_nil_iff.1 hdrop)
    rw [lex_of_read (drop_gap_newline hdrop rest) Token.read?_newlineChar, Gap.before_newline]
    simp only [gap, hgap, Lexed.followedBy, if_true, List.nil_append, List.drop_zero, Nat.add_zero]
  | case2 loc cs gap c tail hdrop hread =>
    have htail : '\n' ∉ c :: tail := hdrop ▸ fun hmem => hcs (List.mem_of_mem_drop hmem)
    rw [← Token.read?_newline (List.not_mem_of_not_mem_cons htail)] at hread
    rw [lex_of_stuck (drop_gap_newline hdrop rest) hread, Gap.before_newline]
    rfl
  | case3 loc cs gap c tail hdrop token n hread more ih =>
    have htail : '\n' ∉ c :: tail := hdrop ▸ fun hmem => hcs (List.mem_of_mem_drop hmem)
    have hn := Token.length_of_read? hread
    have hmore : '\n' ∉ tail.drop n :=
      fun hmem => List.not_mem_of_not_mem_cons htail (List.mem_of_mem_drop hmem)
    have hloc : loc + gap.length + 1 + n + (tail.drop n).length + 1 = loc + cs.length + 1 := by
      have hlen := congrArg List.length hdrop
      have hgap : gap.length ≤ cs.length := Gap.length_before_le cs
      simp only [List.length_drop, List.length_cons] at hlen ⊢
      omega
    rw [← Token.read?_newline (List.not_mem_of_not_mem_cons htail)] at hread
    have hdrop' : (cs ++ '\n' :: rest).drop (Gap.before (cs ++ '\n' :: rest)).length =
        c :: (tail ++ '\n' :: rest) := drop_gap_newline hdrop rest
    rw [lex_of_read hdrop' hread, Gap.before_newline,
      List.drop_append_of_le_length hn, ih hmore, hloc, Lexed.cons_followedBy]

end Lex

end WordMachine.Asm
