import WordMachine.Proofs.Asm.Sequence

/-! Trailers of lines. Blanks and a comment behind a line say nothing, whatever the line ends with, and
neither does a line of nothing else. So a source with trailers behind its lines, and with more such
lines between them, has the same statements, though elsewhere, and the same words. -/

namespace WordMachine.Asm

/-- Blanks, and behind them a comment or nothing. -/
inductive Trailer : List Char → Prop
  | blanks {cs : List Char} (h : ∀ c ∈ cs, isBlank c = true) : Trailer cs
  | comment {cs text : List Char} (h : ∀ c ∈ cs, isBlank c = true) (htext : '\n' ∉ text) :
      Trailer (cs ++ ';' :: text)

theorem newline_not_mem_of_blank {cs : List Char} (h : ∀ c ∈ cs, isBlank c = true) : '\n' ∉ cs :=
  fun hmem => Bool.false_ne_true (h '\n' hmem)

section Trailer
variable {t : List Char} (ht : Trailer t)
include ht

theorem Trailer.newline_not_mem : '\n' ∉ t := by
  cases ht with
  | blanks h => exact newline_not_mem_of_blank h
  | comment h htext => simp [newline_not_mem_of_blank h, htext]

/-- No word goes on into a trailer. -/
theorem Trailer.breaks : Breaks t := by
  intro c hc
  have hblank {cs : List Char} (h : ∀ c ∈ cs, isBlank c = true) (hc : c ∈ cs) : isBreak c = true := by
    simp [isBreak, h c hc]
  cases ht with
  | blanks h => exact hblank h (List.mem_of_mem_head? hc)
  | @comment cs text h htext =>
    cases cs with
    | nil => exact breaks_cons.2 rfl c hc
    | cons b cs => exact hblank h (Option.some.inj hc ▸ List.mem_cons_self)

theorem Trailer.append {u : List Char} (hu : Trailer u) : Trailer (t ++ u) := by
  cases ht with
  | blanks h =>
    cases hu with
    | blanks h' => exact .blanks (List.forall_mem_append.2 ⟨h, h'⟩)
    | comment h' htext =>
      rw [← List.append_assoc]
      exact .comment (List.forall_mem_append.2 ⟨h, h'⟩) htext
  | comment h htext =>
    rw [List.append_assoc, List.cons_append]
    exact .comment h (by simp [htext, hu.newline_not_mem])

theorem Trailer.expandTabsFrom (k : Nat) : Trailer (expandTabsFrom k t) := by
  have hblank {cs : List Char} (h : ∀ c ∈ cs, isBlank c = true) (j : Nat) :
      ∀ c ∈ WordMachine.expandTabsFrom j cs, isBlank c = true := by
    intro c hc
    rcases mem_expandTabsFrom hc with hmem | rfl
    · exact h c hmem
    · rfl
  cases ht with
  | blanks h => exact .blanks (hblank h k)
  | @comment cs text h htext =>
    obtain ⟨j, hj⟩ := exists_expandTabsFrom_append k cs (';' :: text)
    have hcomment : WordMachine.expandTabsFrom j (';' :: text) =
        ';' :: WordMachine.expandTabsFrom (j + 1) text := rfl
    rw [hj, hcomment]
    refine .comment (hblank h k) fun hmem => ?_
    rcases mem_expandTabsFrom hmem with hmem | heq
    · exact htext hmem
    · cases heq

/-- A trailer is one gap. -/
theorem Trailer.drop_gap : t.drop (Gap.before t).length = [] := by
  cases ht with
  | blanks h => exact drop_gap_blank h
  | @comment cs text h htext =>
    have hall : ∀ c ∈ text, (c != '\n') = true := fun c hc => bne_iff_ne.2 fun heq => htext (heq ▸ hc)
    apply List.drop_of_length_le
    simp only [Gap.before_comment h, List.takeWhile_eq_self_iff.2 hall, List.length_append,
      List.length_cons]
    omega

end Trailer

/-- A line is a trailer, or a token follows its blanks. -/
theorem trailer_or_token {cs : List Char} (h : '\n' ∉ cs) :
    Trailer cs ∨ ∃ bs c tail, cs = bs ++ c :: tail ∧ (∀ b ∈ bs, isBlank b = true) ∧
      isBlank c = false ∧ c ≠ ';' := by
  obtain ⟨bs, hbs, rfl | ⟨text, rfl⟩ | ⟨c, tail, hcs, hc⟩⟩ := exists_blanks cs
  · exact .inl (.blanks hbs)
  · exact .inl (.comment hbs fun hmem => h (by simp [hmem]))
  · exact .inr ⟨bs, c, tail, hcs, hbs, hc⟩

/-! ### Reading -/

section Lex
variable {order : List Opcode} {loc : Nat} {cs t : List Char}

theorem trailer_of_drop_gap (hcs : '\n' ∉ cs) (h : cs.drop (Gap.before cs).length = []) :
    Trailer cs := by
  rcases trailer_or_token hcs with ht | ⟨bs, c, tail, rfl, hbs, hc, hcomment⟩
  · exact ht
  · rw [Gap.before_blank hbs (by simp [hc, hcomment]), List.drop_left] at h
    cases h

/-- The first token of a line stands where it stood, whatever is behind it. -/
theorem drop_gap_append (hcs : '\n' ∉ cs) {c : Char} {tail : List Char}
    (h : cs.drop (Gap.before cs).length = c :: tail) (rest : List Char) :
    Gap.before (cs ++ rest) = Gap.before cs ∧
      (cs ++ rest).drop (Gap.before (cs ++ rest)).length = c :: (tail ++ rest) := by
  have hgap : Gap.before (cs ++ rest) = Gap.before cs := by
    rcases trailer_or_token hcs with ht | ⟨bs, d, more, rfl, hbs, hd, hcomment⟩
    · rw [ht.drop_gap] at h
      cases h
    · rw [List.append_assoc, List.cons_append, Gap.before_blank hbs (by simp [hd, hcomment]),
        Gap.before_blank hbs (by simp [hd, hcomment])]
  refine ⟨hgap, ?_⟩
  rw [hgap, List.drop_append_of_le_length (Gap.length_before_le cs), h, List.cons_append]

/-- A line that is read to its end has the same tokens with a trailer behind it. -/
theorem lex_trailer (ht : Trailer t) (hcs : '\n' ∉ cs) (hend : (lex order loc cs).stop.atEnd = true) :
    (lex order loc (cs ++ t)).lexemes = (lex order loc cs).lexemes ∧
      (lex order loc (cs ++ t)).stop.atEnd = true := by
  fun_induction lex order loc cs with
  | case1 loc cs gap hdrop =>
    have hall := ((trailer_of_drop_gap hcs hdrop).append ht).drop_gap
    rw [lex_of_end hall]
    exact ⟨rfl, rfl⟩
  | case2 loc cs gap c tail hdrop hread => cases hend
  | case3 loc cs gap c tail hdrop token n hread more ih =>
    have htail : '\n' ∉ c :: tail := hdrop ▸ fun hmem => hcs (List.mem_of_mem_drop hmem)
    have hmore : '\n' ∉ tail.drop n :=
      fun hmem => List.not_mem_of_not_mem_cons htail (List.mem_of_mem_drop hmem)
    obtain ⟨hgap, hdrop'⟩ := drop_gap_append hcs hdrop t
    obtain ⟨hlexemes, hatEnd⟩ := ih hmore hend
    rw [lex_of_read hdrop' (Token.read?_append_of_eq_some hread ht.breaks), hgap,
      List.drop_append_of_le_length (Token.length_of_read? hread)]
    exact ⟨congrArg (_ :: ·) hlexemes, hatEnd⟩

end Lex

/-- A line says the same, and says it in the same place, with a trailer behind it. -/
theorem parse_trailer {line t : List Char} (hline : '\n' ∉ line) (ht : Trailer t) {ss : List Statement}
    (h : parse (String.ofList line) = .ok ss) : parse (String.ofList (line ++ t)) = .ok ss := by
  rw [parse, String.toList_ofList, parseIn_eq, statements_eq_ok_iff] at h ⊢
  obtain ⟨k, hk⟩ := exists_expandTabsFrom_append 0 line t
  obtain ⟨hlexemes, hend⟩ := @lex_trailer Opcode.all 0 (expandTabs line) _ (ht.expandTabsFrom k)
    (newline_not_mem_expandTabs hline) h.2
  have hexpanded : expandTabs (line ++ t) = expandTabs line ++ expandTabsFrom k t := hk
  rw [hexpanded, hlexemes]
  exact ⟨h.1, hend⟩

theorem parse_nil : parse (String.ofList []) = .ok [] := by
  decide +kernel

theorem Trailer.parse {t : List Char} (ht : Trailer t) : parse (String.ofList t) = .ok [] :=
  parse_trailer List.not_mem_nil ht parse_nil

/-! ### Lines -/

/-- Lines with a trailer behind each of them, and with any lines that are trailers between them. -/
inductive Padded : List String → List String → Prop
  | nil : Padded [] []
  | line {l t : String} {ls ls' : List String} (ht : Trailer t.toList) (h : Padded ls ls') :
      Padded (l :: ls) ((l ++ t) :: ls')
  | trailer {t : String} {ls ls' : List String} (ht : Trailer t.toList) (h : Padded ls ls') :
      Padded ls (t :: ls')

/-- Lines, each with a newline behind it. -/
def ended (ls : List String) : List Char := ls.flatMap fun l => l.toList ++ ['\n']

theorem ended_cons (l : String) (ls : List String) : ended (l :: ls) = l.toList ++ '\n' :: ended ls := by
  rw [ended, List.flatMap_cons, List.append_assoc]
  rfl

/-- A newline at the end adds an empty line. -/
theorem parse_concat_newline (cs : List Char) :
    parse (String.ofList (cs ++ ['\n'])) = parse (String.ofList cs) := by
  rw [parse_join, parse_nil]
  cases parse (String.ofList cs) with
  | error e => rfl
  | ok p => exact congrArg Except.ok (List.append_nil p)

theorem joined_newline {ls : List String} (hls : ls ≠ []) :
    ("\n".intercalate ls).toList ++ ['\n'] = ended ls := by
  induction ls with
  | nil => exact absurd rfl hls
  | cons l ls ih =>
    rw [ended_cons]
    by_cases hnil : ls = []
    · subst hnil
      rfl
    · rw [String.intercalate_cons_of_ne_nil hnil, String.toList_append, List.append_assoc, ih hnil,
        String.toList_append, List.append_assoc]
      rfl

theorem parse_ended {ls : List String} (hls : ls ≠ []) :
    parse (String.ofList (ended ls)) = parse ("\n".intercalate ls) := by
  rw [← joined_newline hls, parse_concat_newline, String.ofList_toList]

theorem linesOf_ne_nil (source : String) : linesOf source ≠ [] :=
  fun h => List.splitOn_ne_nil '\n' source.toList (List.map_eq_nil_iff.1 h)

theorem joined_linesOf (source : String) : "\n".intercalate (linesOf source) = source := by
  have hid : String.toList ∘ String.ofList = id := by
    funext cs
    exact String.toList_ofList
  rw [← String.toList_inj, String.toList_intercalate, linesOf, List.map_map, hid, List.map_id]
  exact List.intercalate_splitOn '\n'

/-- A statement as it is wherever it stands. -/
def Statement.placeless (s : Statement) : Statement := s.rename id fun _ => 0

theorem placeless_shift (k : Nat) (p : List Statement) :
    (p.map (Statement.shift k)).map Statement.placeless = p.map Statement.placeless := by
  have hrow (os : List Operand) :
      (os.map (Operand.shift k)).map (Operand.rename id fun _ => 0) =
        os.map (Operand.rename id fun _ => 0) := by
    rw [List.map_map]
    rfl
  rw [List.map_map]
  apply List.map_congr_left
  intro s _
  obtain ⟨loc, c⟩ := s
  cases c with
  | label x => rfl
  | instruction op os => exact congrArg (fun os => Statement.mk 0 (.instruction op os)) (hrow os)
  | data vs => exact congrArg (fun vs => Statement.mk 0 (.data vs)) (hrow vs)

/-- With trailers behind and between its lines, a source has the same statements. -/
theorem Padded.parse {ls ls' : List String} (h : Padded ls ls') (hls : ∀ l ∈ ls, '\n' ∉ l.toList)
    {p : List Statement} (hp : parse (String.ofList (ended ls)) = .ok p) :
    ∃ p', Asm.parse (String.ofList (ended ls')) = .ok p' ∧
      p'.map Statement.placeless = p.map Statement.placeless := by
  induction h generalizing p with
  | nil => exact ⟨p, hp, rfl⟩
  | @line l t ls ls' ht _ ih =>
    rw [List.forall_mem_cons] at hls
    rw [ended_cons] at hp
    obtain ⟨q, r, hq, hr, rfl⟩ := parse_join_eq_ok_iff.1 hp
    obtain ⟨r', hr', hsame⟩ := ih hls.2 hr
    rw [ended_cons, String.toList_append]
    refine ⟨_, parse_join_eq_ok_iff.2 ⟨q, r', parse_trailer hls.1 ht hq, hr', rfl⟩, ?_⟩
    rw [List.map_append, List.map_append, placeless_shift, placeless_shift, hsame]
  | @trailer t ls ls' ht _ ih =>
    obtain ⟨p', hp', hsame⟩ := ih hls hp
    rw [ended_cons]
    refine ⟨_, parse_join_eq_ok_iff.2 ⟨[], p', ht.parse, hp', rfl⟩, ?_⟩
    rw [List.nil_append, placeless_shift, hsame]

theorem assembleProgram_placeless (p : List Statement) :
    assembleProgram (p.map Statement.placeless) =
      (assembleProgram p).mapError (AsmError.rename id fun _ => 0) := by
  rw [assembleProgram_eq, assembleProgram_eq]
  exact twoPass_rename (fun _ => 0) (Set.injOn_id (namesOf p))

/-- The words of a program do not depend on where its statements stand. -/
theorem assembleProgram_of_placeless {p p' : List Statement} {ws : List Int}
    (h : p'.map Statement.placeless = p.map Statement.placeless) (hp : assembleProgram p = .ok ws) :
    assembleProgram p' = .ok ws := by
  have hplaceless := assembleProgram_placeless p'
  rw [h, assembleProgram_placeless, hp] at hplaceless
  cases hp' : assembleProgram p' with
  | error e =>
    rw [hp'] at hplaceless
    cases hplaceless
  | ok ws' =>
    rw [hp'] at hplaceless
    exact hplaceless.symm

theorem Padded.ne_nil {ls ls' : List String} (h : Padded ls ls') (hls : ls ≠ []) : ls' ≠ [] := by
  cases h with
  | nil => exact hls
  | line => exact List.cons_ne_nil _ _
  | trailer => exact List.cons_ne_nil _ _

/-- With trailers behind and between its lines, a source has the same words. -/
theorem Padded.assemble {source : String} {ls : List String} {ws : List Int}
    (h : Padded (linesOf source) ls) (hws : assemble source = .ok ws) :
    Asm.assemble ("\n".intercalate ls) = .ok ws := by
  have hlines : ∀ l ∈ linesOf source, '\n' ∉ l.toList := by
    have hlines := newline_not_mem_line source.toList
    rwa [String.ofList_toList] at hlines
  cases hp : Asm.parse source with
  | error e =>
    rw [Asm.assemble, hp] at hws
    cases hws
  | ok p =>
    rw [Asm.assemble, hp] at hws
    rw [← joined_linesOf source, ← parse_ended (linesOf_ne_nil source)] at hp
    obtain ⟨p', hp', hsame⟩ := h.parse hlines hp
    rw [parse_ended (h.ne_nil (linesOf_ne_nil source))] at hp'
    rw [Asm.assemble, hp']
    exact assembleProgram_of_placeless hsame hws

/-! ### Returns -/

/-- Turns every newline into a return and a newline. -/
def withReturns (cs : List Char) : List Char :=
  cs.flatMap fun c => if c = '\n' then ['\r', '\n'] else [c]

theorem withReturns_of_line {cs : List Char} (h : '\n' ∉ cs) : withReturns cs = cs := by
  induction cs with
  | nil => rfl
  | cons c cs ih =>
    rw [List.mem_cons, not_or] at h
    rw [withReturns, List.flatMap_cons, if_neg (Ne.symm h.1)]
    exact congrArg (c :: ·) (ih h.2)

theorem withReturns_newline {line : List Char} (h : '\n' ∉ line) (rest : List Char) :
    withReturns (line ++ '\n' :: rest) = line ++ '\r' :: '\n' :: withReturns rest := by
  rw [withReturns, List.flatMap_append]
  exact congrArg (· ++ '\r' :: '\n' :: withReturns rest) (withReturns_of_line h)

/-- A return is a trailer, so one may stand behind every line but the last. -/
theorem exists_padded_withReturns (cs : List Char) :
    ∃ ls, Padded (linesOf (String.ofList cs)) ls ∧
      "\n".intercalate ls = String.ofList (withReturns cs) := by
  induction cs using lines_induction with
  | last cs hcs =>
    have hnone : Trailer "".toList := .blanks nofun
    refine ⟨[String.ofList cs ++ ""], ?_, ?_⟩
    · rw [linesOf_last hcs]
      exact .line hnone .nil
    · rw [withReturns_of_line hcs]
      exact String.append_empty
  | more line rest hline ih =>
    obtain ⟨ls, hpad, hjoined⟩ := ih
    have hreturn : Trailer "\r".toList := .blanks (by simp [isBlank])
    refine ⟨(String.ofList line ++ "\r") :: ls, ?_, ?_⟩
    · rw [linesOf_newline hline]
      exact .line hreturn hpad
    · have hne : ls ≠ [] := hpad.ne_nil (linesOf_ne_nil _)
      rw [String.intercalate_cons_of_ne_nil hne, hjoined, withReturns_newline hline, ← String.toList_inj]
      simp

/-- A source that can be assembled has the same words with blanks and comments behind its lines, and
with any lines of nothing else between them; so it has the same words with every newline turned into a
return and a newline. -/
theorem trailers_are_irrelevant {source : String} {ws : List Int} (h : assemble source = .ok ws) :
    (∀ ls, Padded (linesOf source) ls → assemble ("\n".intercalate ls) = .ok ws) ∧
      assemble (String.ofList (withReturns source.toList)) = .ok ws := by
  have hpadded : ∀ ls, Padded (linesOf source) ls → assemble ("\n".intercalate ls) = .ok ws :=
    fun ls hls => hls.assemble h
  refine ⟨hpadded, ?_⟩
  obtain ⟨ls, hls, hjoined⟩ := exists_padded_withReturns source.toList
  rw [String.ofList_toList] at hls
  rw [← hjoined]
  exact hpadded ls hls

/-- A jump, its label and a row of data, with comments that hold quotes, a label and a row of data
themselves, and with empty lines. -/
theorem trailers_are_irrelevant_of_comments :
    assemble "jmp a\na: .data a 7" = .ok [6, 2, 2, 7] ∧
    assemble "; .data 1\njmp a;\"\n \t\r\na: .data a 7 \t; b: 'x\r\n;" = .ok [6, 2, 2, 7] ∧
    assemble "jmp a\r\na: .data a 7" = .ok [6, 2, 2, 7] := by
  have hread : assemble "jmp a\na: .data a 7" = .ok [6, 2, 2, 7] := by
    have hparse : parse "jmp a\na: .data a 7" = .ok [⟨0, .instruction .jmp [⟨4, .label "a"⟩]⟩,
        ⟨6, .label "a"⟩, ⟨9, .data [⟨15, .label "a"⟩, ⟨17, .number 7⟩]⟩] := by decide +kernel
    rw [assemble, hparse]
    rfl
  have hlines : linesOf "jmp a\na: .data a 7" = ["jmp a", "a: .data a 7"] := by decide +kernel
  have hpadded : Padded (linesOf "jmp a\na: .data a 7")
      ["; .data 1", "jmp a" ++ ";\"", " \t\r", "a: .data a 7" ++ " \t; b: 'x\r", ";"] := by
    rw [hlines]
    apply Padded.trailer (trailer_of_drop_gap (by decide +kernel) (by decide +kernel))
    apply Padded.line (trailer_of_drop_gap (by decide +kernel) (by decide +kernel))
    apply Padded.trailer (trailer_of_drop_gap (by decide +kernel) (by decide +kernel))
    apply Padded.line (trailer_of_drop_gap (by decide +kernel) (by decide +kernel))
    apply Padded.trailer (trailer_of_drop_gap (by decide +kernel) (by decide +kernel))
    exact .nil
  have hjoined : "\n".intercalate ["; .data 1", "jmp a" ++ ";\"", " \t\r",
      "a: .data a 7" ++ " \t; b: 'x\r", ";"] =
      "; .data 1\njmp a;\"\n \t\r\na: .data a 7 \t; b: 'x\r\n;" := by decide +kernel
  have hreturned : String.ofList (withReturns "jmp a\na: .data a 7".toList) =
      "jmp a\r\na: .data a 7" := by decide +kernel
  obtain ⟨htrailers, hreturns⟩ := trailers_are_irrelevant hread
  rw [← hjoined, ← hreturned]
  exact ⟨hread, htrailers _ hpadded, hreturns⟩

end WordMachine.Asm
