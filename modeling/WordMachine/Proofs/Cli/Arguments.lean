import WordMachine.Cli.Options

/-! What arguments say. They are settings, each written in one argument or in two, and other arguments
between them; behind two dashes there are no settings. The last setting of a kind is the one that
counts, and every name is an argument or the end of one. -/

namespace WordMachine.Cli

/-- An option with its value. -/
inductive Setting where
  | asm
  | output (name : String)
  | input (name : String)
  | limit (steps : Int)
  deriving DecidableEq, Repr

/-- What a long option with this value sets. -/
def Setting.ofFlag? : Flag → Option String → Option Setting
  | .asm, none => some .asm
  | .output, some name => some (.output name)
  | .input, some name => some (.input name)
  | .limit, some text => (integer? text).map .limit
  | _, _ => none

def Setting.apply (o : Options) : Setting → Options
  | .asm => { o with asm := true }
  | .output name => { o with output := some name }
  | .input name => { o with input := some name }
  | .limit steps => { o with limit := some steps }

def Setting.output? : Setting → Option String
  | .output name => some name
  | .asm | .input _ | .limit _ => none

/-- the names that are given for the image, in order -/
def outputs (settings : List Setting) : List String := settings.filterMap Setting.output?

/-- The arguments, one or two, that a setting can be written as. -/
inductive Spells : List String → Setting → Prop
  | letter {arg : String} {c : Char} {cs : List Char} :
      Argument.ofText arg.toList = .short 'o' (c :: cs) →
      Spells [arg] (.output (String.ofList (c :: cs)))
  | letterApart {arg value : String} : Argument.ofText arg.toList = .short 'o' [] →
      Spells [arg, value] (.output value)
  | long {arg : String} {name : List Char} {value : Option (List Char)} {flag : Flag} {s : Setting} :
      Argument.ofText arg.toList = .long name value → Flag.matching name = [flag] →
      Setting.ofFlag? flag (value.map String.ofList) = some s → Spells [arg] s
  | longApart {arg value : String} {name : List Char} {flag : Flag} {s : Setting} :
      Argument.ofText arg.toList = .long name none → Flag.matching name = [flag] →
      Setting.ofFlag? flag (some value) = some s → Spells [arg, value] s

/-- What arguments are read as: the settings, and the other arguments. -/
inductive Reads : List String → List Setting → List String → Prop
  | done : Reads [] [] []
  | separator {arg : String} {args : List String} : Argument.ofText arg.toList = .separator →
      Reads (arg :: args) [] args
  | plain {arg : String} {args rest : List String} {settings : List Setting} :
      Argument.ofText arg.toList = .plain → Reads args settings rest →
      Reads (arg :: args) settings (arg :: rest)
  | setting {spelling args rest : List String} {s : Setting} {settings : List Setting} :
      Spells spelling s → Reads args settings rest → Reads (spelling ++ args) (s :: settings) rest

variable {args plain ps rest : List String} {settings : List Setting} {o o' : Options}

theorem set_eq {flag : Flag} {value : String} (h : flag.takesValue = true) :
    o.set flag value = match Setting.ofFlag? flag (some value) with
      | some s => .ok (s.apply o)
      | none => .error (.notAnInteger flag value) := by
  cases flag with
  | asm | help => cases h
  | input | output => rfl
  | limit =>
    simp only [Options.set, Setting.ofFlag?]
    cases integer? value <;> rfl

theorem set_eq_ok {flag : Flag} {value : String} (h : flag.takesValue = true)
    (hset : o.set flag value = .ok o') :
    ∃ s, Setting.ofFlag? flag (some value) = some s ∧ o' = s.apply o := by
  rw [set_eq h] at hset
  split at hset <;> cases hset
  exact ⟨_, ‹_›, rfl⟩

theorem takesValue_of_ofFlag? {flag : Flag} {value : Option String} {s : Setting}
    (h : Setting.ofFlag? flag value = some s) : flag.takesValue = value.isSome := by
  cases flag <;> cases value <;> first | rfl | cases h

/-- A setting is read wherever it is written. -/
theorem read_of_spells {spelling : List String} {s : Setting} (h : Spells spelling s) :
    Request.read o plain (spelling ++ args) = Request.read (s.apply o) plain args := by
  cases h with
  | letter harg | letterApart harg =>
    rw [List.cons_append, Request.read, harg]
    rfl
  | @long arg name value flag s harg hflag hs =>
    have hvalue := takesValue_of_ofFlag? hs
    rw [List.cons_append, List.nil_append, Request.read, harg]
    cases value with
    | none =>
      have hasm : flag = .asm ∧ s = .asm := by cases flag <;> cases hs; exact ⟨rfl, rfl⟩
      obtain ⟨rfl, rfl⟩ := hasm
      simp only [hflag]
      rfl
    | some cs =>
      simp only [hflag, hvalue, set_eq hvalue, Option.map_some] at hs ⊢
      simp only [hs, Option.isSome_some, if_true]
  | longApart harg hflag hs =>
    have hvalue := takesValue_of_ofFlag? hs
    rw [List.cons_append, List.cons_append, List.nil_append, Request.read, harg]
    simp only [hflag, hvalue, set_eq hvalue, hs, Option.isSome_some, if_true]

theorem read_of_reads (h : Reads args settings rest) :
    Request.read o plain args = .accepted (settings.foldl Setting.apply o) (plain.reverse ++ rest) := by
  induction h generalizing o plain with
  | done => rw [Request.read, List.foldl_nil, List.append_nil]
  | separator harg =>
    rw [Request.read, harg]
    rfl
  | plain harg _ ih =>
    rw [Request.read, harg]
    simp only [ih, List.reverse_cons, List.append_assoc, List.cons_append, List.nil_append]
  | setting hs _ ih => rw [read_of_spells hs, ih, List.foldl_cons]

theorem exists_reads_of_spells {spelling : List String} {s : Setting} (hs : Spells spelling s)
    (h : ∃ settings rest, Reads args settings rest ∧ o' = settings.foldl Setting.apply (s.apply o) ∧
      ps = plain.reverse ++ rest) :
    ∃ settings rest, Reads (spelling ++ args) settings rest ∧ o' = settings.foldl Setting.apply o ∧
      ps = plain.reverse ++ rest := by
  obtain ⟨settings, rest, hreads, rfl, rfl⟩ := h
  exact ⟨s :: settings, rest, .setting hs hreads, rfl, rfl⟩

theorem exists_reads (h : Request.read o plain args = .accepted o' ps) :
    ∃ settings rest, Reads args settings rest ∧ o' = settings.foldl Setting.apply o ∧
      ps = plain.reverse ++ rest := by
  fun_induction Request.read o plain args with
  | case1 o plain =>
    cases h
    exact ⟨[], [], .done, rfl, (List.append_nil _).symm⟩
  | case2 o plain arg args harg =>
    cases h
    exact ⟨[], args, .separator harg, rfl, rfl⟩
  | case3 o plain arg args harg ih =>
    obtain ⟨settings, rest, hreads, ho, hps⟩ := ih h
    refine ⟨settings, arg :: rest, .plain harg hreads, ho, ?_⟩
    rw [hps, List.reverse_cons, List.append_assoc, List.singleton_append]
  | case6 o plain arg value args _ harg ih => exact exists_reads_of_spells (.letterApart harg) (ih h)
  | case7 o plain arg args c cs _ harg ih => exact exists_reads_of_spells (.letter harg) (ih h)
  | case12 o plain arg name flag hflag hvalue value args o₁ hset harg ih =>
    obtain ⟨s, hs, rfl⟩ := set_eq_ok hvalue hset
    exact exists_reads_of_spells (.longApart harg hflag hs) (ih h)
  | case14 o plain arg name flag hflag hvalue value args o₁ hset harg ih =>
    obtain ⟨s, hs, rfl⟩ := set_eq_ok hvalue hset
    exact exists_reads_of_spells (.long harg hflag hs) (ih h)
  | case17 o plain arg args name value harg flag hflag hvalue hnone hhelp ih =>
    obtain rfl : value = none := Option.not_isSome_iff_eq_none.1 hnone
    obtain rfl : flag = .asm := by cases flag <;> simp [Flag.takesValue] at hvalue hhelp ⊢
    exact exists_reads_of_spells (.long harg hflag rfl) (ih h)
  | case4 | case5 | case8 | case9 | case10 | case11 | case13 | case15 | case16 | case18 => cases h

/-- The options that settings make. -/
def Options.ofSettings (settings : List Setting) : Options := settings.foldl Setting.apply .default

/-- Arguments are accepted if they can be read, and then their settings are the options. -/
theorem ofArgs_eq_accepted_iff :
    Request.ofArgs args = .accepted o rest ↔
      ∃ settings, Reads args settings rest ∧ o = .ofSettings settings := by
  constructor
  · intro h
    obtain ⟨settings, rest, hreads, ho, rfl⟩ := exists_reads h
    exact ⟨settings, hreads, ho⟩
  · rintro ⟨settings, hreads, rfl⟩
    exact read_of_reads hreads

theorem Reads.ofArgs (h : Reads args settings rest) :
    Request.ofArgs args = .accepted (.ofSettings settings) rest :=
  ofArgs_eq_accepted_iff.2 ⟨settings, h, rfl⟩

/-! ### The name of the image -/

theorem output_foldl (settings : List Setting) (o : Options) :
    (settings.foldl Setting.apply o).output = (outputs settings).getLast?.or o.output := by
  induction settings generalizing o with
  | nil => rfl
  | cons s settings ih =>
    rw [List.foldl_cons, ih, outputs, outputs, List.filterMap_cons]
    cases s with
    | output name =>
      simp only [Setting.output?, Setting.apply, List.getLast?_cons]
      cases (settings.filterMap Setting.output?).getLast? <;> rfl
    | asm | input | limit => rfl

/-- Of several names for the image the last one counts. -/
theorem output_ofSettings (settings : List Setting) :
    (Options.ofSettings settings).output = (outputs settings).getLast? := by
  rw [Options.ofSettings, output_foldl, Options.default, Option.or_none]

/-! ### Where names come from -/

/-- the name of a file that a setting gives -/
def Setting.name? : Setting → Option String
  | .output name | .input name => some name
  | .asm | .limit _ => none

theorem ofText_eq_short {text rest : List Char} {letter : Char}
    (h : Argument.ofText text = .short letter rest) : text = '-' :: letter :: rest := by
  unfold Argument.ofText at h
  split at h <;> cases h
  rfl

theorem suffix_of_splitAtEquals {cs value : List Char} (h : (splitAtEquals cs).2 = some value) :
    value <:+ cs := by
  induction cs with
  | nil => cases h
  | cons c cs ih =>
    rw [splitAtEquals] at h
    split at h
    · cases h
      exact List.suffix_cons _ _
    · exact (ih h).trans (List.suffix_cons _ _)

theorem suffix_of_ofText {text name value : List Char}
    (h : Argument.ofText text = .long name (some value)) : value <:+ text := by
  unfold Argument.ofText at h
  split at h
  · cases h
  · injection h with _ hvalue
    exact suffix_of_splitAtEquals hvalue
  · cases h
  · cases h

theorem name_of_ofFlag? {flag : Flag} {value : Option String} {s : Setting} {name : String}
    (hs : Setting.ofFlag? flag value = some s) (hname : s.name? = some name) : value = some name := by
  unfold Setting.ofFlag? at hs
  split at hs
  · cases hs
    cases hname
  · cases hs
    exact hname
  · cases hs
    exact hname
  · obtain ⟨n, -, rfl⟩ := Option.map_eq_some_iff.1 hs
    cases hname
  · cases hs

theorem exists_suffix_of_spells {spelling : List String} {s : Setting} {name : String}
    (h : Spells spelling s) (hname : s.name? = some name) :
    ∃ arg ∈ spelling, name.toList <:+ arg.toList := by
  cases h with
  | @letter arg c cs harg =>
    cases hname
    refine ⟨arg, List.mem_singleton_self _, ?_⟩
    rw [ofText_eq_short harg, String.toList_ofList]
    exact (List.suffix_cons _ _).trans (List.suffix_cons _ _)
  | @letterApart arg value =>
    cases hname
    exact ⟨name, by simp, List.suffix_rfl⟩
  | @long arg _ value _ _ harg _ hs =>
    have hvalue := name_of_ofFlag? hs hname
    obtain ⟨cs, rfl, rfl⟩ := Option.map_eq_some_iff.1 hvalue
    refine ⟨arg, List.mem_singleton_self _, ?_⟩
    rw [String.toList_ofList]
    exact suffix_of_ofText harg
  | longApart _ _ hs =>
    cases name_of_ofFlag? hs hname
    exact ⟨name, by simp, List.suffix_rfl⟩

theorem exists_suffix_of_reads {name : String} (h : Reads args settings rest)
    (hname : name ∈ rest ∨ ∃ s ∈ settings, s.name? = some name) :
    ∃ arg ∈ args, name.toList <:+ arg.toList := by
  induction h with
  | done => simp at hname
  | separator _ =>
    have hmem := by simpa using hname
    exact ⟨name, List.mem_cons_of_mem _ hmem, List.suffix_rfl⟩
  | plain _ _ ih =>
    rw [List.mem_cons, or_assoc] at hname
    rcases hname with rfl | hrest
    · exact ⟨name, List.mem_cons_self, List.suffix_rfl⟩
    · obtain ⟨arg, harg, hsuffix⟩ := ih hrest
      exact ⟨arg, List.mem_cons_of_mem _ harg, hsuffix⟩
  | setting hspells _ ih =>
    simp only [List.mem_cons, exists_eq_or_imp] at hname
    rcases or_left_comm.1 hname with hs | hrest
    · obtain ⟨arg, harg, hsuffix⟩ := exists_suffix_of_spells hspells hs
      exact ⟨arg, List.mem_append_left _ harg, hsuffix⟩
    · obtain ⟨arg, harg, hsuffix⟩ := ih hrest
      exact ⟨arg, List.mem_append_right _ harg, hsuffix⟩

theorem name_of_apply {s : Setting} {name : String}
    (h : (s.apply o).output = some name ∨ (s.apply o).input = some name) :
    (o.output = some name ∨ o.input = some name) ∨ s.name? = some name := by
  cases s with
  | asm | limit => exact .inl h
  | output => exact h.elim .inr fun hinput => .inl (.inr hinput)
  | input => exact h.elim (fun houtput => .inl (.inl houtput)) .inr

theorem exists_setting_of_foldl {name : String}
    (h : (settings.foldl Setting.apply o).output = some name ∨
      (settings.foldl Setting.apply o).input = some name) :
    (o.output = some name ∨ o.input = some name) ∨ ∃ s ∈ settings, s.name? = some name := by
  induction settings generalizing o with
  | nil => exact .inl h
  | cons s settings ih =>
    simp only [List.mem_cons, exists_eq_or_imp, ← or_assoc]
    rcases ih h with hfirst | hs
    · exact .inl (name_of_apply hfirst)
    · exact .inr hs

/-- Every name that the arguments give is one of them, or the end of one. -/
theorem exists_suffix_of_accepted {name : String} (h : Request.ofArgs args = .accepted o rest)
    (hname : name ∈ rest ∨ o.output = some name ∨ o.input = some name) :
    ∃ arg ∈ args, name.toList <:+ arg.toList := by
  obtain ⟨settings, hreads, rfl⟩ := ofArgs_eq_accepted_iff.1 h
  refine exists_suffix_of_reads hreads (hname.imp_right fun ho => ?_)
  rcases exists_setting_of_foldl ho with (hnone | hnone) | hs
  · cases hnone
  · cases hnone
  · exact hs

end WordMachine.Cli
