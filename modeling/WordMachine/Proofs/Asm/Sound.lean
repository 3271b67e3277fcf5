import WordMachine.Proofs.Asm.TwoPass

/-! The programs that can be assembled: what each statement, and the program as a whole, must keep
to. These are the programs that two passes refuse for no reason. -/

namespace WordMachine.Asm

/-- What makes a program one that can be assembled. -/
structure Sound (program : List Statement) : Prop where
  arity : ∀ s ∈ program, ∀ op os, s.command = .instruction op os → os.length = op.arity
  written : ∀ s ∈ program, ∀ op os, s.command = .instruction op os →
    ∀ o, (Role.write, o) ∈ op.signature.zip os → ∃ r, o.value = .register r
  number : ∀ o ∈ operands program, ∀ n, o.value = .number n → n ≤ 32767
  char : ∀ o ∈ operands program, ∀ s, o.value = .char s → s.toList.length = 1
  narrow : ∀ o ∈ operands program, ∀ s, o.value = .char s ∨ o.value = .text s →
    ∀ c ∈ s.toList, c.toNat ≤ 32767
  text : ∀ s ∈ program, ∀ op os, s.command = .instruction op os → ∀ o ∈ os, ∀ t, o.value ≠ .text t
  distinct : (labelNames program).Nodup
  inside : ∀ x a, (x, a) ∈ labelsFrom 0 program → a ≤ 32767
  defined : ∀ o ∈ operands program, ∀ x, o.value = .label x → x ∈ labelNames program
  fits : size program ≤ 32768

/-- Nothing in the program is wrong by itself or against what stands before it. -/
def Clean (program : List Statement) : Prop := ∀ i ∈ items program, i.offence? = none

theorem mem_itemsAfter {i : Item} {before p : List Statement} :
    i ∈ itemsAfter before p ↔
      ∃ pre s post, p = pre ++ s :: post ∧ i ∈ s.items (before ++ pre) := by
  induction p generalizing before with
  | nil => simp [itemsAfter]
  | cons s p ih =>
    rw [itemsAfter, List.mem_append, ih]
    constructor
    · rintro (hi | ⟨pre, t, post, rfl, hi⟩)
      · exact ⟨[], s, p, rfl, by rwa [List.append_nil]⟩
      · exact ⟨s :: pre, t, post, rfl, by rwa [List.append_assoc] at hi⟩
    · rintro ⟨pre, t, post, hp, hi⟩
      cases pre with
      | nil =>
        obtain ⟨rfl, rfl⟩ := List.cons.inj hp
        exact .inl (by rwa [List.append_nil] at hi)
      | cons u pre =>
        obtain ⟨rfl, rfl⟩ := List.cons.inj hp
        exact .inr ⟨pre, t, post, rfl, by rwa [List.append_assoc]⟩

theorem clean_iff {p : List Statement} :
    Clean p ↔ ∀ pre s post, p = pre ++ s :: post → ∀ i ∈ s.items pre, i.offence? = none := by
  constructor
  · intro h pre s post hp i hi
    exact h i (mem_itemsAfter.2 ⟨pre, s, post, hp, by rwa [List.nil_append]⟩)
  · intro h i hi
    obtain ⟨pre, s, post, hp, hi⟩ := mem_itemsAfter.1 hi
    exact h pre s post hp i (by rwa [List.nil_append] at hi)

theorem itemsAfter_append (before p q : List Statement) :
    itemsAfter before (p ++ q) = itemsAfter before p ++ itemsAfter (before ++ p) q := by
  induction p generalizing before with
  | nil => rw [List.append_nil]; rfl
  | cons s p ih =>
    simp only [List.cons_append, itemsAfter, ih, List.append_assoc, List.nil_append]

theorem clean_concat {p : List Statement} {s : Statement} :
    Clean (p ++ [s]) ↔ Clean p ∧ ∀ i ∈ s.items p, i.offence? = none := by
  rw [Clean, items, itemsAfter_append, List.forall_mem_append]
  simp [itemsAfter, Clean, items]

theorem Clean.left {p q : List Statement} (h : Clean (p ++ q)) : Clean p := by
  rw [Clean, items, itemsAfter_append, List.forall_mem_append] at h
  exact h.1

/-! ### What offends nobody -/

theorem Value.offence?_eq_none_iff {v : Value} :
    v.offence? = none ↔ (∀ n, v = .number n → n ≤ 32767) ∧
      (∀ s, v = .char s → s.toList.length = 1) ∧
      ∀ s, v = .char s ∨ v = .text s → ∀ c ∈ s.toList, c.toNat ≤ 32767 := by
  cases v with
  | register r => simp [offence?]
  | label x => simp [offence?]
  | number n => simp [offence?]
  | text s => simp [offence?]
  | char s =>
    simp only [offence?, reduceCtorEq, false_implies, implies_true, true_and, char.injEq,
      forall_eq', or_false]
    split
    · rename_i c hs
      simp [hs]
    · rename_i hs
      simp only [reduceCtorEq, false_iff, not_and]
      intro hlen
      obtain ⟨c, hc⟩ := List.length_eq_one_iff.1 hlen
      exact absurd hc (hs c)

theorem Value.offenceAs?_eq_none_iff {op : Opcode} {role : Role} {v : Value} :
    v.offenceAs? op role = none ↔
      (role = .write → ∃ r, v = .register r) ∧ (∀ t, v ≠ .text t) ∧ v.offence? = none := by
  cases role <;> cases v <;> simp [offenceAs?, offence?]

theorem clean_label {s : Statement} {x : String} (hs : s.command = .label x) {before : List Statement} :
    (∀ i ∈ s.items before, i.offence? = none) ↔ x ∉ labelNames before ∧ size before ≤ 32767 := by
  simp only [Statement.items, hs, List.mem_singleton, forall_eq, Item.offence?]
  split
  · simp [*]
  · split
    · simp [*]
    · simp [*]
      omega

theorem clean_instruction {s : Statement} {op : Opcode} {os : List Operand}
    (hs : s.command = .instruction op os) {before : List Statement} :
    (∀ i ∈ s.items before, i.offence? = none) ↔ os.length = op.arity ∧
      ∀ role o, (role, o) ∈ op.signature.zip os → o.value.offenceAs? op role = none := by
  simp only [Statement.items, hs, List.forall_mem_cons, List.forall_mem_map, Item.offence?,
    Option.map_eq_none_iff, Prod.forall]
  apply and_congr_left
  intro _
  split <;> simp [*]

theorem clean_data {s : Statement} {vs : List Operand} (hs : s.command = .data vs)
    {before : List Statement} :
    (∀ i ∈ s.items before, i.offence? = none) ↔ ∀ o ∈ vs, o.value.offence? = none := by
  simp only [Statement.items, hs, List.forall_mem_map, Item.offence?, Option.map_eq_none_iff]

/-- With as many operands as roles, each operand has a role. -/
theorem exists_role {roles : List Role} {os : List Operand} (h : os.length = roles.length)
    {o : Operand} (ho : o ∈ os) : ∃ role, (role, o) ∈ roles.zip os := by
  obtain ⟨k, hk, rfl⟩ := List.mem_iff_getElem.1 ho
  refine ⟨roles[k], List.mem_iff_getElem.2 ⟨k, ?_, ?_⟩⟩
  · rw [List.length_zip]
    omega
  · rw [List.getElem_zip]

theorem nodup_labelNames_concat {p : List Statement} {s : Statement} :
    (labelNames (p ++ [s])).Nodup ↔
      (labelNames p).Nodup ∧ ∀ x, s.command.label? = some x → x ∉ labelNames p := by
  rw [labelNames_append, labelNames, labelNames, List.filterMap_cons]
  cases s.command.label? with
  | none => simp
  | some x =>
    simp only [List.filterMap_nil, List.nodup_append, List.nodup_cons, List.not_mem_nil,
      not_false_eq_true, List.nodup_nil, and_self, List.mem_singleton, forall_eq, true_and,
      Option.some.injEq, forall_eq']
    exact and_congr_right fun _ => ⟨fun h hx => h _ hx rfl, fun h y hy hyx => h (hyx ▸ hy)⟩

/-- The names that are defined are distinct if each is new where it is defined. -/
theorem nodup_labelNames_append {before p : List Statement} :
    (labelNames (before ++ p)).Nodup ↔ (labelNames before).Nodup ∧
      ∀ pre s post x, p = pre ++ s :: post → s.command.label? = some x →
        x ∉ labelNames (before ++ pre) := by
  induction p generalizing before with
  | nil => simp
  | cons s p ih =>
    rw [List.append_cons, ih, nodup_labelNames_concat, and_assoc]
    refine and_congr_right fun _ => ⟨?_, fun h => ⟨?_, ?_⟩⟩
    · rintro ⟨hs, hp⟩ pre t post x heq ht
      cases pre with
      | nil =>
        obtain ⟨rfl, rfl⟩ := List.cons.inj heq
        rw [List.append_nil]
        exact hs x ht
      | cons u pre =>
        obtain ⟨rfl, rfl⟩ := List.cons.inj heq
        rw [List.append_cons]
        exact hp pre t post x rfl ht
    · intro x hx
      have := h [] s p x rfl hx
      rwa [List.append_nil] at this
    · rintro pre t post x rfl ht
      have := h (s :: pre) t post x rfl ht
      rwa [List.append_cons] at this

theorem isSome_address? {p : List Statement} {x : String} :
    (address? p x).isSome = true ↔ x ∈ labelNames p := by
  rw [address?, List.lookup_isSome_iff, ← fst_labelsFrom 0 p]
  simp

theorem Operand.missing?_eq_none_iff {p : List Statement} {o : Operand} :
    o.missing? (address? p) = none ↔ ∀ x, o.value = .label x → x ∈ labelNames p := by
  unfold missing?
  split
  · rename_i x hx
    simp [hx, ← isSome_address?, Option.isSome_iff_ne_none]
  · rename_i hx
    simp only [true_iff]
    exact fun x h => absurd h (hx x)

theorem Clean.offence? {p : List Statement} (h : Clean p) :
    ∀ o ∈ operands p, o.value.offence? = none := by
  intro o hmem
  obtain ⟨s, hs, ho⟩ := List.mem_flatMap.1 hmem
  obtain ⟨pre, post, rfl⟩ := List.append_of_mem hs
  have hclean := clean_iff.1 h pre s post rfl
  match hc : s.command with
  | .label x =>
    rw [hc] at ho
    cases ho
  | .instruction op os =>
    rw [hc] at ho
    obtain ⟨harity, hos⟩ := (clean_instruction hc).1 hclean
    obtain ⟨role, hrole⟩ := exists_role harity ho
    exact (Value.offenceAs?_eq_none_iff.1 (hos role o hrole)).2.2
  | .data vs =>
    rw [hc] at ho
    exact (clean_data hc).1 hclean o ho

theorem Clean.instruction {p : List Statement} (h : Clean p) {s : Statement} (hs : s ∈ p)
    {op : Opcode} {os : List Operand} (hc : s.command = .instruction op os) :
    os.length = op.arity ∧
      ∀ role o, (role, o) ∈ op.signature.zip os → o.value.offenceAs? op role = none := by
  obtain ⟨pre, post, rfl⟩ := List.append_of_mem hs
  exact (clean_instruction hc).1 (clean_iff.1 h pre s post rfl)

theorem Clean.label {pre post : List Statement} {s : Statement} (h : Clean (pre ++ s :: post))
    {x : String} (hx : s.command.label? = some x) : x ∉ labelNames pre ∧ size pre ≤ 32767 := by
  match hc : s.command with
  | .label y =>
    rw [hc] at hx
    cases hx
    exact (clean_label hc).1 (clean_iff.1 h pre s post rfl)
  | .instruction op os => rw [hc] at hx; cases hx
  | .data vs => rw [hc] at hx; cases hx

theorem Clean.nodup {p : List Statement} (h : Clean p) : (labelNames p).Nodup := by
  refine (@nodup_labelNames_append [] p).2 ⟨List.nodup_nil, ?_⟩
  rintro pre s post x rfl hx
  exact (h.label hx).1

theorem Clean.text {p : List Statement} (h : Clean p) {s : Statement} (hs : s ∈ p) {op : Opcode}
    {os : List Operand} (hc : s.command = .instruction op os) :
    ∀ o ∈ os, ∀ t, o.value ≠ .text t := by
  intro o ho
  obtain ⟨harity, hos⟩ := h.instruction hs hc
  obtain ⟨role, hrole⟩ := exists_role harity ho
  exact (Value.offenceAs?_eq_none_iff.1 (hos role o hrole)).2.1

theorem Sound.clean {p : List Statement} (h : Sound p) : Clean p := by
  rw [clean_iff]
  rintro pre s post rfl
  have hmem : s ∈ pre ++ s :: post := by simp
  have hoffence {o : Operand} (ho : o ∈ s.command.operands) : o.value.offence? = none := by
    have ho : o ∈ operands (pre ++ s :: post) := List.mem_flatMap.2 ⟨s, hmem, ho⟩
    rw [Value.offence?_eq_none_iff]
    exact ⟨h.number o ho, h.char o ho, h.narrow o ho⟩
  match hc : s.command with
  | .label x =>
    have hx : s.command.label? = some x := by rw [hc]; rfl
    rw [clean_label hc]
    constructor
    · exact ((@nodup_labelNames_append [] _).1 h.distinct).2 pre s post x rfl hx
    · apply h.inside x
      rw [mem_labelsFrom]
      exact ⟨pre, s, post, rfl, hx, (Nat.zero_add _).symm⟩
  | .instruction op os =>
    rw [clean_instruction hc]
    refine ⟨h.arity s hmem op os hc, ?_⟩
    intro role o hro
    have ho := (List.of_mem_zip hro).2
    rw [Value.offenceAs?_eq_none_iff]
    refine ⟨?_, h.text s hmem op os hc o ho, hoffence (by rwa [hc])⟩
    rintro rfl
    exact h.written s hmem op os hc o hro
  | .data vs =>
    rw [clean_data hc]
    intro o ho
    apply hoffence
    rwa [hc]

theorem Clean.sound {p : List Statement} (h : Clean p)
    (hmissing : ∀ o ∈ operands p, o.missing? (address? p) = none) (hfits : size p ≤ 32768) :
    Sound p := by
  have hvalue : ∀ o ∈ operands p, _ := fun o ho => Value.offence?_eq_none_iff.1 (h.offence? o ho)
  refine ⟨fun s hs op os hc => (h.instruction hs hc).1, ?_, fun o ho => (hvalue o ho).1,
    fun o ho => (hvalue o ho).2.1, fun o ho => (hvalue o ho).2.2,
    fun s hs op os hc => h.text hs hc, h.nodup, ?_,
    fun o ho => Operand.missing?_eq_none_iff.1 (hmissing o ho), hfits⟩
  · intro s hs op os hc o ho
    exact (Value.offenceAs?_eq_none_iff.1 ((h.instruction hs hc).2 _ o ho)).1 rfl
  · intro x a hx
    obtain ⟨pre, s, post, rfl, hs, rfl⟩ := mem_labelsFrom.1 hx
    have := (h.label hs).2
    omega

/-- A program is sound exactly if it is refused for none of the reasons there are. -/
theorem sound_iff {p : List Statement} :
    Sound p ↔ Clean p ∧ (∀ o ∈ operands p, o.missing? (address? p) = none) ∧ size p ≤ 32768 := by
  constructor
  · intro h
    refine ⟨h.clean, ?_, h.fits⟩
    intro o ho
    exact Operand.missing?_eq_none_iff.2 (h.defined o ho)
  · rintro ⟨hclean, hmissing, hfits⟩
    exact hclean.sound hmissing hfits

theorem twoPass_eq_ok_iff {p : List Statement} {ws : List Int} :
    twoPass p = .ok ws ↔ Sound p ∧ ws = words (addressOf p) p := by
  rw [sound_iff, twoPass, check_eq_ok_iff, check_eq_ok_iff, and_assoc, and_assoc]
  refine and_congr_right fun _ => and_congr_right fun _ => ?_
  split
  · simp only [reduceCtorEq, false_iff, not_and]
    omega
  · simp only [Except.ok.injEq, eq_comm, iff_and_self]
    omega

/-! ### Lengths -/

theorem Value.length_words {v : Value} (h : v.offence? = none) (address : String → Nat) :
    (v.words address).length = v.size := by
  cases v with
  | char s =>
    have := (Value.offence?_eq_none_iff.1 h).2.1 s rfl
    simpa [Value.words, Value.size, codesOf] using this
  | text s => simp [Value.words, Value.size, codesOf]
  | _ => rfl

theorem length_rowWords {os : List Operand} (h : ∀ o ∈ os, o.value.offence? = none)
    (address : String → Nat) : (rowWords address os).length = rowSize os := by
  induction os with
  | nil => rfl
  | cons o os ih =>
    rw [List.forall_mem_cons] at h
    rw [rowWords_cons, List.length_append, Value.length_words h.1, ih h.2, rowSize_cons]

/-- Where no operand is a text, each takes one word. -/
theorem rowSize_eq_length {os : List Operand} (h : ∀ o ∈ os, ∀ t, o.value ≠ .text t) :
    rowSize os = os.length := by
  induction os with
  | nil => rfl
  | cons o os ih =>
    rw [List.forall_mem_cons] at h
    have : o.value.size = 1 := by
      unfold Value.size
      split
      · rename_i t ht
        exact absurd ht (h.1 t)
      · rfl
    rw [rowSize_cons, ih h.2, this, List.length_cons, Nat.add_comm]

theorem Clean.length_words_command {p : List Statement} (h : Clean p) {s : Statement} (hs : s ∈ p)
    (address : String → Nat) : (s.command.words address).length = s.command.size := by
  have hoffence {o : Operand} (ho : o ∈ s.command.operands) : o.value.offence? = none :=
    h.offence? o (List.mem_flatMap.2 ⟨s, hs, ho⟩)
  match hc : s.command with
  | .label x => rfl
  | .instruction op os =>
    have hos : ∀ o ∈ os, o.value.offence? = none := fun o ho => hoffence (by rwa [hc])
    rw [Command.words, List.length_cons, length_rowWords hos,
      rowSize_eq_length (h.text hs hc), (h.instruction hs hc).1, Command.size, Nat.add_comm]
  | .data vs =>
    have hvs : ∀ o ∈ vs, o.value.offence? = none := fun o ho => hoffence (by rwa [hc])
    exact length_rowWords hvs address

theorem Clean.length_words {p : List Statement} (h : Clean p) (address : String → Nat) :
    (words address p).length = size p := by
  have hall : ∀ s ∈ p, (s.command.words address).length = s.command.size :=
    fun s hs => h.length_words_command hs address
  clear h
  induction p with
  | nil => rfl
  | cons s p ih =>
    rw [List.forall_mem_cons] at hall
    rw [words_cons, List.length_append, hall.1, ih hall.2, size_cons]

end WordMachine.Asm
