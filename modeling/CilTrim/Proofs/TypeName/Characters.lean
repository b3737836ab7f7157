import CilTrim.Proofs.TypeName.Stepwise

/-!
# Names, one character after the other

A name is read until a character that ends it, a backslash with the character behind it. This gives
what scanning the text at once gives, and takes as many characters:

* `Scans`: reading gives what is scanned, with one lemma for one more character;
* `scans_nameFrom`, `scans_assemblyFrom`: the names of types and of assemblies;
* `ends_identifier`, `ends_assemblyName`: both end, behind at least one character.
-/

namespace CilTrim.TypeName

open Parse

variable {text : List Char} {c : Cursor}

/-! ## Scanning -/

/-- Reading characters one after the other, in enough turns, gives what scanning them gives: those
of a name, with at least as many in the text, or a dangling backslash. -/
def Scans (run : Nat → List Char → Run (List Char)) (scanned : Option (List Char × Nat))
    (read : List Char) (c : Cursor) : Prop :=
  ∀ turns, c.rest.length < turns →
    match scanned with
    | some (name, taken) => name.length ≤ taken ∧ taken ≤ c.rest.length ∧
        run turns read c = some (.ok (read ++ name), c.skip taken)
    | none => ∃ c', run turns read c = some (.error .danglingEscape, c') ∧ c.Reaches 0 c'

/-- No character is left of the name. -/
theorem scans_nil {run : Nat → List Char → Run (List Char)} {read : List Char}
    (h : ∀ turns, run (turns + 1) read c = some (.ok read, c)) :
    Scans run (some ([], 0)) read c := by
  intro turns hturns
  obtain ⟨turns, rfl⟩ := Nat.exists_eq_add_of_lt hturns
  refine ⟨Nat.le_refl _, Nat.zero_le _, ?_⟩
  rw [h, List.append_nil]
  rfl

/-- One more character of the name takes `n` characters of the text. -/
theorem Scans.cons {run : Nat → List Char → Run (List Char)}
    {scanned : Option (List Char × Nat)} {read : List Char} {next : Char} {n : Nat}
    (h : Scans run scanned (read ++ [next]) (c.skip n)) (hpos : 1 ≤ n) (hle : n ≤ c.rest.length)
    (hrun : ∀ turns, run (turns + 1) read c = run turns (read ++ [next]) (c.skip n)) :
    Scans run (scanned.map fun (name, taken) => (next :: name, taken + n)) read c := by
  intro turns hturns
  have hskip := Cursor.reaches_skip hle
  have hless := hskip.length_rest
  obtain ⟨turns, rfl⟩ := Nat.exists_eq_add_one_of_ne_zero (Nat.ne_zero_of_lt hturns)
  have hrest := h turns (by omega)
  cases scanned with
  | none =>
    obtain ⟨c', hstop, hreach⟩ := hrest
    exact ⟨c', (hrun turns).trans hstop, (hskip.trans hreach).mono (Nat.zero_le _)⟩
  | some scanned =>
    obtain ⟨hname, htaken, hstop⟩ := hrest
    rw [Cursor.skip, List.length_drop] at htaken
    refine ⟨?_, by omega, ?_⟩
    · rw [List.length_cons]
      omega
    · rw [hrun, hstop, List.append_assoc, List.singleton_append]
      simp only [Cursor.skip, List.drop_drop, Nat.add_assoc, Nat.add_comm n]

/-! ## Names of types -/

/-- A name that ends where the place is. -/
theorem run_nameFrom_stop {turns : Nat} {read : List Char} (hc : c.IsIn text)
    (h : ∀ next ∈ c.rest.head?, isDelimiter next = true) :
    Run.nameFrom text (turns + 1) read c = some (.ok read, c) := by
  rw [Run.nameFrom, Run.get_bind hc]
  cases hrest : c.rest with
  | nil => rfl
  | cons next rest =>
    have hdelimiter : isDelimiter next = true := h next (by rw [hrest]; rfl)
    simp only [hdelimiter]
    rfl

theorem run_nameFrom_slash {turns : Nat} {read : List Char} (hc : c.IsIn text)
    (h : c.rest = ['\x5c']) :
    Run.nameFrom text (turns + 1) read c = some (.error .danglingEscape, c) := by
  rw [Run.nameFrom, Run.get_bind hc, h]
  exact if_pos hc

theorem run_nameFrom_escape {turns : Nat} {read rest : List Char} {next : Char}
    (hc : c.IsIn text) (h : c.rest = '\x5c' :: next :: rest) :
    Run.nameFrom text (turns + 1) read c =
      Run.nameFrom text turns (read ++ [next]) (c.skip 2) := by
  have hstep : c.Reaches 2 (c.skip 2) := Cursor.reaches_skip (by rw [h]; simp)
  rw [Run.nameFrom, Run.get_bind hc, h]
  exact Run.of_bind rfl (hstep.isIn hc)

theorem run_nameFrom_cons {turns : Nat} {read rest : List Char} {next : Char}
    (hc : c.IsIn text) (h : c.rest = next :: rest) (hslash : next ≠ '\x5c')
    (hdelimiter : isDelimiter next = false) :
    Run.nameFrom text (turns + 1) read c =
      Run.nameFrom text turns (read ++ [next]) (c.skip 1) := by
  have hstep : c.Reaches 1 (c.skip 1) := Cursor.reaches_skip (by rw [h]; simp)
  rw [Run.nameFrom, Run.get_bind hc, h]
  simp only [hdelimiter, if_neg hslash]
  exact Run.of_bind rfl (hstep.isIn hc)

theorem scans_nameFrom (hc : c.IsIn text) (read : List Char) :
    Scans (Run.nameFrom text) (scanName c.rest) read c := by
  obtain ⟨offset, rest⟩ := c
  dsimp only
  fun_induction scanName rest generalizing offset read with
  | case1 => exact scans_nil fun _ => run_nameFrom_stop hc nofun
  | case2 =>
    intro turns hturns
    obtain ⟨turns, rfl⟩ := Nat.exists_eq_add_one_of_ne_zero (Nat.ne_zero_of_lt hturns)
    exact ⟨_, run_nameFrom_slash hc rfl, .refl _⟩
  | case3 next rest ih =>
    have hle : 2 ≤ ('\x5c' :: next :: rest).length := by simp
    have hrest := ih (read ++ [next]) _ ((Cursor.reaches_skip hle).isIn hc)
    exact hrest.cons (by decide) hle fun _ => run_nameFrom_escape hc rfl
  | case4 next rest hslash hdelimiter =>
    refine scans_nil fun _ => run_nameFrom_stop hc fun c h => ?_
    cases h
    exact hdelimiter
  | case5 next rest hslash hdelimiter ih =>
    have hle : 1 ≤ (next :: rest).length := by simp
    have hrest := ih (read ++ [next]) _ ((Cursor.reaches_skip hle).isIn hc)
    have hplain : isDelimiter next = false := by simpa using hdelimiter
    exact hrest.cons (by decide) hle fun _ => run_nameFrom_cons hc rfl hslash hplain

/-! ## Names of assemblies -/

theorem run_assemblyFrom_stop {turns : Nat} {read : List Char} (hc : c.IsIn text)
    (h : ∀ next ∈ c.rest.head?, next = ']') :
    Run.assemblyFrom text (turns + 1) read c = some (.ok read, c) := by
  rw [Run.assemblyFrom, Run.get_bind hc]
  cases hrest : c.rest with
  | nil => rfl
  | cons next rest =>
    have hbracket : next = ']' := h next (by rw [hrest]; rfl)
    simp only [if_pos hbracket]
    rfl

theorem run_assemblyFrom_escape {turns : Nat} {read rest : List Char} {next : Char}
    (hc : c.IsIn text) (h : c.rest = '\x5c' :: next :: rest) :
    Run.assemblyFrom text (turns + 1) read c =
      Run.assemblyFrom text turns (read ++ [next]) (c.skip 2) := by
  have hstep : c.Reaches 2 (c.skip 2) := Cursor.reaches_skip (by rw [h]; simp)
  rw [Run.assemblyFrom, Run.get_bind hc, h]
  exact Run.of_bind rfl (hstep.isIn hc)

/-- A backslash that ends the text is a character of the name. -/
theorem run_assemblyFrom_cons {turns : Nat} {read rest : List Char} {next : Char}
    (hc : c.IsIn text) (h : c.rest = next :: rest) (hslash : next = '\x5c' → rest = [])
    (hbracket : next ≠ ']') :
    Run.assemblyFrom text (turns + 1) read c =
      Run.assemblyFrom text turns (read ++ [next]) (c.skip 1) := by
  have hstep : c.Reaches 1 (c.skip 1) := Cursor.reaches_skip (by rw [h]; simp)
  rw [Run.assemblyFrom, Run.get_bind hc, h]
  simp only [if_neg hbracket]
  cases rest with
  | nil => exact Run.of_bind rfl (hstep.isIn hc)
  | cons _ _ =>
    have hne : next ≠ '\x5c' := fun heq => List.cons_ne_nil _ _ (hslash heq)
    simp only [if_neg hne]
    exact Run.of_bind rfl (hstep.isIn hc)

theorem scans_assemblyFrom (hc : c.IsIn text) (read : List Char) :
    Scans (Run.assemblyFrom text) (some (scanAssembly c.rest)) read c := by
  obtain ⟨offset, rest⟩ := c
  dsimp only
  fun_induction scanAssembly rest generalizing offset read with
  | case1 => exact scans_nil fun _ => run_assemblyFrom_stop hc nofun
  | case2 =>
    have hle : 1 ≤ ['\x5c'].length := by simp
    have hc' := (Cursor.reaches_skip hle).isIn hc
    exact (scans_nil fun _ => run_assemblyFrom_stop hc' nofun).cons (by decide) hle
      fun _ => run_assemblyFrom_cons hc rfl (fun _ => rfl) (by decide)
  | case3 next rest name taken hscan ih =>
    have hle : 2 ≤ ('\x5c' :: next :: rest).length := by simp
    have hrest := ih (read ++ [next]) _ ((Cursor.reaches_skip hle).isIn hc)
    rw [hscan] at hrest
    exact hrest.cons (by decide) hle fun _ => run_assemblyFrom_escape hc rfl
  | case4 rest =>
    refine scans_nil fun _ => run_assemblyFrom_stop hc fun next h => ?_
    cases h
    rfl
  | case5 next rest hlast hslash hbracket name taken hscan ih =>
    have hle : 1 ≤ (next :: rest).length := by simp
    have hrest := ih (read ++ [next]) _ ((Cursor.reaches_skip hle).isIn hc)
    rw [hscan] at hrest
    refine hrest.cons (by decide) hle fun _ => run_assemblyFrom_cons hc rfl (fun heq => ?_) hbracket
    cases rest with
    | nil => rfl
    | cons c others => exact (hslash c others heq rfl).elim

/-! ## What is made of a name -/

/-- Passes the characters of a name. -/
def pass (scan : List Char → Option (List Char × Nat)) : Parse (List Char) := do
  match scan (← get).rest with
  | none => throw .danglingEscape
  | some (name, taken) =>
    modify (·.skip taken)
    pure name

/-- A parser that reads a name and goes on passes a character, if it does so for the empty name. -/
theorem ends_pass {β : Type} {run : Nat → List Char → Run (List Char)}
    {scan : List Char → Option (List Char × Nat)} {next : List Char → Run β}
    {next' : List Char → Parse β} {turns : Nat} (h : Scans run (scan c.rest) [] c)
    (hturns : c.rest.length < turns)
    (h' : ∀ name c', c.Reaches name.length c' →
      Ends (next name) (next' name) (1 - name.length) c') :
    Ends (run turns [] >>= next) (pass scan >>= next') 1 c := by
  have h := h turns hturns
  have hpass : pass scan c = match scan c.rest with
      | none => .error .danglingEscape c
      | some (name, taken) => .ok name (c.skip taken) := by
    show (match scan c.rest with
      | none => throw .danglingEscape
      | some (name, taken) => do
        modify (·.skip taken)
        pure name : Parse (List Char)) c = _
    cases scan c.rest <;> rfl
  cases hscan : scan c.rest with
  | none =>
    rw [hscan] at h hpass
    obtain ⟨c', hrun, hreach⟩ := h
    have hends : Ends (run turns []) (pass scan) 1 c := by
      rw [Ends, hpass]
      exact ⟨c', hrun, hreach, trivial⟩
    show Ends (run turns [] >>= next) (pass scan >>= next') (1 + 0) c
    refine hends.bind_add fun name c'' hok _ => ?_
    rw [hpass] at hok
    cases hok
  | some scanned =>
    rw [hscan] at h hpass
    obtain ⟨hname, htaken, hrun⟩ := h
    have hreach := (Cursor.reaches_skip htaken).mono hname
    have hends : Ends (run turns []) (pass scan) scanned.1.length c := by
      rw [Ends, hpass]
      exact ⟨hrun, hreach⟩
    have hpos : 1 ≤ scanned.1.length + (1 - scanned.1.length) := by omega
    refine (hends.bind_add fun name c' hok _ => ?_).mono hpos
    rw [hpass] at hok
    cases hok
    exact h' _ _ hreach

/-- A parser that scans a name and goes on. -/
theorem scan_bind {β : Type} {scan : List Char → Option (List Char × Nat)}
    {next : List Char → Parse β} :
    (do
      match scan (← get).rest with
      | none => throw .danglingEscape
      | some (name, taken) =>
        modify (·.skip taken)
        next name) = pass scan >>= next := by
  funext c
  show (match scan c.rest with
    | none => throw .danglingEscape
    | some (name, taken) => do
      modify (·.skip taken)
      next name : Parse β) c = ((match scan c.rest with
    | none => throw .danglingEscape
    | some (name, taken) => do
      modify (·.skip taken)
      pure name : Parse (List Char)) >>= next) c
  cases scan c.rest <;> rfl

theorem identifier_eq : identifier = (do
    skipBlanks
    match Text.trimEnd (← pass scanName) with
    | [] => throw (.missingName (← get).offset)
    | name => pure (String.ofList name)) := by
  rw [← scan_bind]
  rfl

theorem assemblyName_eq : assemblyName = (do
    match Text.trim (← pass (some ∘ scanAssembly)) with
    | [] => throw .emptyAssembly
    | name => pure (String.ofList name)) := by
  rw [← scan_bind]
  rfl

theorem one_sub_length {name : List Char} (h : name ≠ []) : 1 - name.length = 0 :=
  Nat.sub_eq_zero_of_le (List.length_pos_iff.mpr h)

theorem ends_identifier {turns : Nat} (hc : c.IsIn text) (hturns : c.rest.length < turns) :
    Ends (Run.identifier text turns) identifier 1 c := by
  rw [identifier_eq]
  refine (ends_skipBlanks hc).bind hc fun _ c' hc' hle => ?_
  refine ends_pass (scans_nameFrom hc' []) (by omega) fun name c'' hreach' => ?_
  cases hname : Text.trimEnd name with
  | nil => exact ends_failAt (hreach'.isIn hc') .missingName rfl
  | cons first others =>
    rw [one_sub_length (by rintro rfl; cases hname)]
    exact ends_pure _

theorem ends_assemblyName {turns : Nat} (hc : c.IsIn text) (hturns : c.rest.length < turns) :
    Ends (Run.assemblyName text turns) assemblyName 1 c := by
  rw [assemblyName_eq]
  refine ends_pass (scans_assemblyFrom hc []) hturns fun name c' hreach => ?_
  cases hname : Text.trim name with
  | nil => exact ends_throw (hreach.isIn hc) .emptyAssembly trivial
  | cons first others =>
    rw [one_sub_length (by rintro rfl; cases hname)]
    exact ends_pure _

end CilTrim.TypeName
