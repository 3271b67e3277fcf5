import WordMachine.Cli.Files

/-! Writing a file. A file that can be written is found under its name again, with the bytes that
were written; every name that leads to another place leads there as before. If the medium fails, the file
holds a beginning of the bytes. -/

namespace WordMachine.Cli

theorem splitAtSlashes_ne_nil (cs : List Char) : splitAtSlashes cs ≠ [] := by
  cases cs with
  | nil => exact nofun
  | cons c cs =>
    rw [splitAtSlashes]
    split
    · exact nofun
    · split <;> exact nofun

/-- Only a text that is empty or ends with a slash has an empty last part. -/
theorem getLast?_splitAtSlashes {cs : List Char} (h : (splitAtSlashes cs).getLast? = some []) :
    cs = [] ∨ cs.getLast? = some '/' := by
  induction cs with
  | nil => exact .inl rfl
  | cons c cs ih =>
    have hne := splitAtSlashes_ne_nil cs
    right
    rw [splitAtSlashes] at h
    split at h
    · rename_i hc
      rw [List.getLast?_cons_of_ne_nil hne] at h
      rcases ih h with rfl | hcs
      · rw [hc]
        rfl
      · rw [List.getLast?_cons, hcs]
        rfl
    · split at h
      · cases h
      · rename_i part parts heq
        -- the last part is one of the rest, as the first has a character
        cases parts with
        | nil => cases h
        | cons q parts =>
          rw [List.getLast?_cons_cons] at h
          rw [heq, List.getLast?_cons_cons] at ih
          rcases ih h with rfl | hcs
          · cases heq
          · rw [List.getLast?_cons, hcs]
            rfl

namespace Files

/-- where a name leads to -/
def place (fs : Files) (name : String) : Except FileError Path :=
  fs.walk (fs.origin name) (partsOf name)

/-- Whether a file with this name can be written. -/
def Writable (fs : Files) (name : String) : Prop := ∀ bytes, ∃ fs', fs.write name bytes = .ok fs'

/-- The way of a name never comes through the place of another name. -/
def Bypasses (fs : Files) (name other : String) : Prop :=
  ∀ parts, parts <+: partsOf name → fs.walk (fs.origin name) parts ≠ fs.place other

variable {fs fs' : Files} {name : String} {bytes : List UInt8} {path : Path}

theorem isDirectory_of_enter {place path : Path} {part : String}
    (h : fs.enter place part = .ok path) : fs.isDirectory place = true := by
  unfold enter at h
  split at h
  · assumption
  · split at h <;> cases h

theorem enter_dot {place path : Path} (h : fs.enter place "." = .ok path) : path = place := by
  rw [enter, if_pos (isDirectory_of_enter h)] at h
  cases h
  rfl

theorem partsOf_eq_of_dropWhile {last : String} {around : List String} (hne : name ≠ "")
    (hslash : name.toList.getLast? ≠ some '/')
    (h : (partsOf name).reverse.dropWhile (· == "") = last :: around) :
    partsOf name = around.reverse ++ [last] := by
  have hlast : ∀ part, (partsOf name).reverse.head? = some part → ¬ (part == "") = true := by
    intro part hpart
    rw [List.head?_reverse, partsOf, List.getLast?_map, Option.map_eq_some_iff] at hpart
    obtain ⟨cs, hcs, rfl⟩ := hpart
    rw [beq_iff_eq]
    intro hempty
    obtain rfl : cs = [] := by simpa using congrArg String.toList hempty
    rcases getLast?_splitAtSlashes hcs with hnil | hend
    · exact hne (by simpa using congrArg String.ofList hnil)
    · exact hslash hend
  have hreverse : (partsOf name).reverse = last :: around := by
    cases hrev : (partsOf name).reverse with
    | nil => rw [hrev] at h; cases h
    | cons part parts =>
      rw [hrev] at h hlast
      rwa [List.dropWhile_cons, if_neg (hlast part rfl)] at h
  rw [← List.reverse_reverse (partsOf name), hreverse, List.reverse_cons]

/-- A name that can be written leads to the place where it is written. -/
theorem place_of_destination (hname : nameError? name = none)
    (hdest : fs.destination name = .ok path) (hdir : fs.isDirectory path = false) :
    fs.place name = .ok path := by
  have hne : name ≠ "" := by
    rintro rfl
    cases hname
  unfold destination at hdest
  split at hdest
  · cases hdest
    rw [fs.isDirectory_of_prefix List.nil_prefix] at hdir
    cases hdir
  · rename_i last around hparts
    split at hdest
    · cases hdest
    · rename_i place hplace
      by_cases hslash : name.toList.getLast? = some '/'
      · rw [if_pos hslash] at hdest
        rw [enter_dot hdest, isDirectory_of_enter hdest] at hdir
        cases hdir
      · rw [if_neg hslash] at hdest
        rw [Files.place, partsOf_eq_of_dropWhile hne hslash hparts, walk_append, hplace]
        change fs.walk place [last] = .ok path
        rw [walk, hdest]
        rfl

theorem opened_eq_ok (h : fs.opened name = .ok path) :
    nameError? name = none ∧ fs.place name = .ok path ∧ fs.isDirectory path = false := by
  unfold opened at h
  split at h
  · cases h
  · rename_i hname
    split at h
    · cases h
    · rename_i found hdest
      split at h
      · cases h
      · rename_i hdir
        rw [Bool.not_eq_true] at hdir
        cases h
        exact ⟨hname, place_of_destination hname hdest hdir, hdir⟩

theorem write_eq_ok (h : fs.write name bytes = .ok fs') :
    ∃ path, fs.opened name = .ok path ∧ fs.flaw = none ∧ fs' = fs.put path bytes := by
  unfold write at h
  split at h
  · cases h
  · rename_i path hopened
    split at h
    · rename_i hflaw
      cases h
      exact ⟨path, hopened, hflaw, rfl⟩
    · cases h

/-- A write that fails leaves everything as it is, unless the file has been opened. -/
theorem write_eq_error {why : FileError} (h : fs.write name bytes = .error (why, fs')) :
    fs.opened name = .error why ∧ fs' = fs ∨
      ∃ path flaw, fs.opened name = .ok path ∧ fs.flaw = some flaw ∧ why = .incomplete flaw.why ∧
        fs' = fs.put path (bytes.take flaw.taken) := by
  unfold write at h
  split at h
  · rename_i e hopened
    cases h
    exact .inl ⟨hopened, rfl⟩
  · rename_i path hopened
    split at h
    · cases h
    · rename_i flaw hflaw
      cases h
      exact .inr ⟨path, flaw, hopened, hflaw, rfl, rfl⟩

theorem lookup_filter_ne {contents : List (Path × List UInt8)} {path other : Path}
    (h : other ≠ path) : (contents.filter (·.1 ≠ path)).lookup other = contents.lookup other := by
  induction contents with
  | nil => rfl
  | cons entry contents ih =>
    obtain ⟨key, file⟩ := entry
    rw [List.filter_cons, List.lookup_cons, ← ih]
    by_cases hat : key = path
    · rw [if_neg (by simpa using hat), beq_false_of_ne (hat ▸ h)]
    · rw [if_pos (by simpa using hat), List.lookup_cons]

theorem lookup_put (fs : Files) {path other : Path} (h : other ≠ path) (bytes : List UInt8) :
    (fs.put path bytes).contents.lookup other = fs.contents.lookup other := by
  rw [put, List.lookup_cons, beq_false_of_ne h, lookup_filter_ne h]

theorem enter_put (fs : Files) {path base : Path} (h : base ≠ path) (bytes : List UInt8)
    (part : String) : (fs.put path bytes).enter base part = fs.enter base part := by
  simp only [enter, lookup_put fs h]
  rfl

theorem enter_put_eq_ok {path base place : Path} {part : String} (h : fs.enter base part = .ok place) :
    (fs.put path bytes).enter base part = .ok place := by
  have hdir := isDirectory_of_enter h
  have hdir' : (fs.put path bytes).isDirectory base = true := hdir
  rw [enter, if_pos hdir] at h
  rw [enter, if_pos hdir', h]

theorem walk_put_eq_ok {path base place : Path} {parts : List String}
    (h : fs.walk base parts = .ok place) : (fs.put path bytes).walk base parts = .ok place := by
  induction parts generalizing base with
  | nil => exact h
  | cons part parts ih =>
    rw [walk] at h ⊢
    split at h
    · cases h
    · rename_i next hnext
      rw [enter_put_eq_ok hnext]
      exact ih h

theorem walk_put {path base : Path} {parts : List String}
    (h : ∀ ps, ps <+: parts → fs.walk base ps ≠ .ok path) :
    (fs.put path bytes).walk base parts = fs.walk base parts := by
  induction parts generalizing base with
  | nil => rfl
  | cons part parts ih =>
    have hfrom : base ≠ path := by
      rintro rfl
      exact h [] List.nil_prefix rfl
    rw [walk, walk, enter_put fs hfrom]
    cases henter : fs.enter base part with
    | error e => rfl
    | ok next =>
      refine ih ?_
      intro ps hps
      have := h (part :: ps) ((List.prefix_cons_inj part).2 hps)
      rwa [walk, henter] at this

/-- What an opened file has taken is read back. -/
theorem read_put (h : fs.opened name = .ok path) (bytes : List UInt8) :
    (fs.put path bytes).read name = .ok bytes := by
  obtain ⟨hname, hplace, hdir⟩ := opened_eq_ok h
  have hwalk : (fs.put path bytes).walk ((fs.put path bytes).origin name) (partsOf name) = .ok path :=
    walk_put_eq_ok hplace
  have hdir' : (fs.put path bytes).isDirectory path = false := hdir
  simp only [read, hname, hwalk, hdir']
  simp [put]

/-- What is written is read back. -/
theorem read_write (h : fs.write name bytes = .ok fs') : fs'.read name = .ok bytes := by
  obtain ⟨path, hopened, -, rfl⟩ := write_eq_ok h
  exact read_put hopened bytes

/-- A file that can be read is read as before, if another place is written. -/
theorem read_of_write_elsewhere {other : String} {file : List UInt8}
    (h : fs.write name bytes = .ok fs') (hne : fs.place other ≠ fs.place name)
    (hread : fs.read other = .ok file) : fs'.read other = .ok file := by
  obtain ⟨path, hopened, -, rfl⟩ := write_eq_ok h
  rw [(opened_eq_ok hopened).2.1] at hne
  unfold read at hread ⊢
  split at hread
  · cases hread
  · split at hread
    · cases hread
    · rename_i found hfound
      have hwalk : (fs.put path bytes).walk ((fs.put path bytes).origin other) (partsOf other) =
          .ok found := walk_put_eq_ok hfound
      have hpath : found ≠ path := fun heq => hne (heq ▸ hfound)
      simp only [hwalk, lookup_put fs hpath]
      exact hread

/-- A name that bypasses the place that is written is read as before, also where it cannot be read. -/
theorem read_of_bypasses {other : String} (h : fs.write name bytes = .ok fs')
    (hby : fs.Bypasses other name) : fs'.read other = fs.read other := by
  obtain ⟨path, hopened, -, rfl⟩ := write_eq_ok h
  rw [Bypasses, (opened_eq_ok hopened).2.1] at hby
  have hwalk : (fs.put path bytes).walk ((fs.put path bytes).origin other) (partsOf other) =
      fs.walk (fs.origin other) (partsOf other) := walk_put hby
  unfold read
  rw [hwalk]
  split
  · rfl
  · match hfound : fs.walk (fs.origin other) (partsOf other) with
    | .error e => rfl
    | .ok found =>
      have hpath : found ≠ path := fun heq => hby _ (List.prefix_refl _) (heq ▸ hfound)
      simp only [lookup_put fs hpath]
      rfl

/-- A file that can be read is not found by way of another file. -/
theorem bypasses_of_read {other : String} {file : List UInt8} (hread : fs.read other = .ok file)
    (hwritable : fs.Writable name) (hne : fs.place other ≠ fs.place name) : fs.Bypasses other name := by
  obtain ⟨fs', hwrite⟩ := hwritable []
  obtain ⟨path, hopened, -, -⟩ := write_eq_ok hwrite
  obtain ⟨-, hplace, hdir⟩ := opened_eq_ok hopened
  rw [hplace] at hne
  intro parts hparts hwalk
  rw [hplace] at hwalk
  obtain ⟨more, hmore⟩ := hparts
  have hon : fs.place other = fs.walk path more := by
    rw [place, ← hmore, walk_append, hwalk]
    rfl
  cases more with
  | nil => exact hne hon
  | cons part more =>
    -- behind a file the way is blocked
    have hblocked : ∃ e, fs.enter path part = .error e := by
      rw [enter, hdir, if_neg Bool.false_ne_true]
      split <;> exact ⟨_, rfl⟩
    obtain ⟨e, he⟩ := hblocked
    rw [walk, he] at hon
    rw [read, ← place, hon] at hread
    split at hread <;> cases hread

end Files
end WordMachine.Cli
