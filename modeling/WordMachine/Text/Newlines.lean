/-! Line endings. In a text file a newline, a return, and a return before a newline all end a line,
and each is read as one newline. -/

namespace WordMachine

def readNewlines : List Char → List Char
  | [] => []
  | c :: cs =>
    if c = '\r' then
      match cs with
      | '\n' :: rest => '\n' :: readNewlines rest
      | rest => '\n' :: readNewlines rest
    else c :: readNewlines cs

theorem return_not_mem_readNewlines (cs : List Char) : '\r' ∉ readNewlines cs := by
  fun_induction readNewlines cs <;> simp_all [eq_comm]

theorem readNewlines_of_no_return {cs : List Char} (h : '\r' ∉ cs) : readNewlines cs = cs := by
  fun_induction readNewlines cs with
  | case1 => rfl
  | case2 | case3 => exact absurd List.mem_cons_self h
  | case4 c cs hc ih => rw [ih fun hmem => h (List.mem_cons_of_mem c hmem)]

end WordMachine
