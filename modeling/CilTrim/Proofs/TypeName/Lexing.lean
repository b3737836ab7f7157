import CilTrim.Proofs.TypeName.Rendering

/-!
# Reading the parts of a type name

What the parsers of names, modifiers and assemblies make of the texts that the format has for them,
whatever they are followed by that does not go on with the same part:

* `Reads`: what a parser makes of the start of a text, with `Reads.bind` for what goes on;
* `reads_identifier`, `reads_nestedNames`: names, with their escapes;
* `reads_modifierList`, `reads_assemblyName`: what stands behind a name.
-/

namespace CilTrim.TypeName

open Parse

/-! ## Parsers on texts -/

/-- Wherever the text stands, a parser has a result and leaves the rest of the text. -/
def Reads {α : Type} (m : Parse α) (text : List Char) (a : α) (rest : List Char) : Prop :=
  ∀ offset, ∃ offset', m ⟨offset, text⟩ = .ok a ⟨offset', rest⟩

section

variable {α β : Type} {m : Parse α} {text rest : List Char} {a : α}

theorem reads_pure : Reads (pure a) text a text :=
  fun offset => ⟨offset, rfl⟩

/-- A parser that goes on starts where the first one ends. -/
theorem Reads.bind {f : α → Parse β} {middle : List Char} {b : β} (h : Reads m text a middle)
    (h' : Reads (f a) middle b rest) : Reads (m >>= f) text b rest := by
  intro offset
  obtain ⟨offset₁, hm⟩ := h offset
  obtain ⟨offset₂, hf⟩ := h' offset₁
  refine ⟨offset₂, ?_⟩
  simp only [Bind.bind, EStateM.bind, hm, hf]

/-- A result that is only converted. -/
theorem Reads.map {b : β} (g : α → β) (h : Reads m text a rest) (hb : g a = b) :
    Reads (do pure (g (← m))) text b rest := by
  subst hb
  exact h.bind reads_pure

/-- A parser may look at the text that is left. -/
theorem reads_get {f : Cursor → Parse α} (h : ∀ offset, Reads (f ⟨offset, text⟩) text a rest) :
    Reads (get >>= f) text a rest :=
  fun offset => h offset offset

theorem reads_peek : Reads peek? text text.head? text :=
  fun offset => ⟨offset, rfl⟩

theorem reads_advance {c : Char} : Reads advance (c :: rest) () rest :=
  fun offset => ⟨offset + 1, rfl⟩

/-- A text is passed by its length. -/
theorem reads_skip : Reads (modify (·.skip text.length)) (text ++ rest) () rest := by
  intro offset
  refine ⟨offset + text.length, ?_⟩
  show EStateM.Result.ok () (Cursor.skip ⟨offset, text ++ rest⟩ text.length) = _
  rw [Cursor.skip, List.drop_left]

/-- No blanks are passed where there are none. -/
theorem reads_skipBlanks (h : ∀ c ∈ text.head?, Text.isBlank c = false) :
    Reads skipBlanks text () text := by
  have hblanks : text.takeWhile Text.isBlank = [] := by
    cases text with
    | nil => rfl
    | cons c text => simp [h c rfl]
  intro offset
  refine ⟨offset, ?_⟩
  show EStateM.Result.ok () (Cursor.skipBlanks ⟨offset, text⟩) = _
  rw [Cursor.skipBlanks, hblanks]
  rfl

theorem reads_skipBlanks_cons {c : Char} (h : Text.isBlank c = false) :
    Reads skipBlanks (c :: text) () (c :: text) :=
  reads_skipBlanks (by simpa using h)

theorem reads_expect {c : Char} (h : Text.isBlank c = false) :
    Reads (expect c) (c :: rest) () rest := by
  unfold expect
  refine (reads_skipBlanks_cons h).bind (reads_peek.bind ?_)
  dsimp only [List.head?_cons]
  rw [if_pos rfl]
  exact reads_advance

end

/-! ## Blanks and escapes -/

/-- A text that does not start with a blank has none to drop. -/
theorem dropBlanks_eq_self {text : List Char} (h : ∀ c ∈ text.head?, Text.isBlank c = false) :
    text.dropWhile Text.isBlank = text := by
  cases text with
  | nil => rfl
  | cons c others =>
    have hc : Text.isBlank c = false := h c rfl
    simp [hc]

theorem trimEnd_eq_self {text : List Char} (h : ∀ c ∈ text.getLast?, Text.isBlank c = false) :
    Text.trimEnd text = text := by
  rw [← List.head?_reverse] at h
  rw [Text.trimEnd, dropBlanks_eq_self h, List.reverse_reverse]

theorem trim_eq_self {text : List Char} (hfirst : ∀ c ∈ text.head?, Text.isBlank c = false)
    (hlast : ∀ c ∈ text.getLast?, Text.isBlank c = false) : Text.trim text = text := by
  rw [Text.trim, dropBlanks_eq_self hfirst, trimEnd_eq_self hlast]

/-- Just delimiters and backslashes are escaped everywhere. -/
theorem isSpecial_eq_false_iff {c : Char} :
    isSpecial c = false ↔ isDelimiter c = false ∧ c ≠ '\x5c' := by
  have hsum : isSpecial c = (isDelimiter c || c == '\x5c') := rfl
  rw [hsum, Bool.or_eq_false_iff, beq_eq_false_iff_ne]

/-- A character that may start a name: it is taken for no other part and not passed over. -/
def StartsName (c : Char) : Prop :=
  isDelimiter c = false ∧ Text.isBlank c = false

/-- Every name starts with a character that may start one. -/
theorem identifierText_eq_cons {name : List Char} (h : name ≠ []) :
    ∃ c text, identifierText name = c :: text ∧ StartsName c := by
  cases name with
  | nil => exact absurd rfl h
  | cons c name =>
    rw [identifierText]
    cases hspecial : isSpecial c || Text.isBlank c with
    | true =>
      have hbackslash : StartsName '\x5c' := ⟨rfl, rfl⟩
      exact ⟨_, _, rfl, hbackslash⟩
    | false =>
      obtain ⟨hplain, hblank⟩ := Bool.or_eq_false_iff.mp hspecial
      have hdelimiter : isDelimiter c = false := (isSpecial_eq_false_iff.mp hplain).1
      exact ⟨_, _, rfl, hdelimiter, hblank⟩

/-- A name takes a character that is escaped if it has to be. -/
theorem scanName_escape {special : Bool} {c : Char} {rest : List Char}
    (h : isSpecial c = true → special = true) :
    scanName (escape special c ++ rest) =
      (scanName rest).map fun (name, taken) => (c :: name, taken + (escape special c).length) := by
  cases special with
  | true => rfl
  | false =>
    -- Without a backslash the character is no special one, so it ends nothing.
    have hplain : isSpecial c = false := Bool.eq_false_iff.mpr fun hc => nomatch h hc
    obtain ⟨hdelimiter, hbackslash⟩ := isSpecial_eq_false_iff.mp hplain
    have hnot : ¬ isDelimiter c = true := Bool.eq_false_iff.mp hdelimiter
    show scanName (c :: rest) = _
    rw [scanName, if_neg hnot]
    · rfl
    · exact hbackslash

/-- A name ends in front of a delimiter. -/
theorem scanName_stop {rest : List Char} (h : ∀ c ∈ rest.head?, isDelimiter c = true) :
    scanName rest = some ([], 0) := by
  cases rest with
  | nil => rfl
  | cons c rest =>
    have hdelimiter : isDelimiter c = true := h c rfl
    rw [scanName, if_pos hdelimiter]
    rintro rfl
    cases hdelimiter

theorem scanName_flatMap {name rest : List Char} (h : ∀ c ∈ rest.head?, isDelimiter c = true) :
    scanName (name.flatMap (fun c => escape (isSpecial c) c) ++ rest) =
      some (name, (name.flatMap fun c => escape (isSpecial c) c).length) := by
  induction name with
  | nil => exact scanName_stop h
  | cons c name ih =>
    rw [List.flatMap_cons, List.append_assoc, scanName_escape id, ih, Option.map_some,
      List.length_append, Nat.add_comm]

/-- The text of a name is taken back for the name. -/
theorem scanName_identifierText {name rest : List Char}
    (h : ∀ c ∈ rest.head?, isDelimiter c = true) :
    scanName (identifierText name ++ rest) = some (name, (identifierText name).length) := by
  cases name with
  | nil => exact scanName_stop h
  | cons c name =>
    have hescape : isSpecial c = true → (isSpecial c || Text.isBlank c) = true := by
      intro hc
      rw [hc, Bool.true_or]
    rw [identifierText, List.append_assoc, scanName_escape hescape, scanName_flatMap h,
      Option.map_some, List.length_append, Nat.add_comm]

/-! ## Names -/

/-- A name is read up to a delimiter or the end of the text. -/
theorem reads_identifier {name : String} {rest : List Char} (h : IsIdentifier name.toList)
    (hrest : ∀ c ∈ rest.head?, isDelimiter c = true) :
    Reads identifier (identifierText name.toList ++ rest) name rest := by
  have hblanks : ∀ c ∈ (identifierText name.toList ++ rest).head?, Text.isBlank c = false := by
    obtain ⟨first, others, htext, _, hblank⟩ := identifierText_eq_cons h.nonempty
    rw [htext]
    simpa using hblank
  unfold identifier
  refine (reads_skipBlanks hblanks).bind (reads_get fun offset => ?_)
  dsimp only
  rw [scanName_identifierText hrest]
  refine reads_skip.bind ?_
  rw [trimEnd_eq_self h.last]
  split
  next hnil => exact absurd hnil h.nonempty
  next =>
    rw [String.ofList_toList]
    exact reads_pure

theorem head?_nestedText {names : List String} {rest : List Char}
    (hrest : ∀ c ∈ rest.head?, isDelimiter c = true) :
    ∀ c ∈ (nestedText names ++ rest).head?, isDelimiter c = true := by
  cases names with
  | nil => exact hrest
  | cons name names =>
    intro c hc
    cases hc
    rfl

/-- Nested names are read as long as there is a plus. -/
theorem reads_nestedNames {names : List String} {fuel : Nat} {rest : List Char}
    (h : ∀ name ∈ names, IsIdentifier name.toList) (hfuel : names.length ≤ fuel)
    (hrest : ∀ c ∈ rest.head?, isDelimiter c = true) (hplus : rest.head? ≠ some '+') :
    Reads (nestedNames fuel) (nestedText names ++ rest) names rest := by
  induction names generalizing fuel with
  | nil =>
    cases fuel with
    | zero => exact reads_pure
    | succ fuel =>
      have htext : nestedText [] ++ rest = rest := rfl
      rw [htext]
      refine reads_peek.bind ?_
      rw [if_neg hplus]
      exact reads_pure
  | cons name names ih =>
    rw [List.forall_mem_cons] at h
    cases fuel with
    | zero => exact absurd hfuel (Nat.not_succ_le_zero _)
    | succ fuel =>
      have htext : nestedText (name :: names) ++ rest =
          '+' :: (identifierText name.toList ++ (nestedText names ++ rest)) := by
        simp [nestedText]
      have hname : Reads identifier (identifierText name.toList ++ (nestedText names ++ rest)) name
          (nestedText names ++ rest) := reads_identifier h.1 (head?_nestedText hrest)
      rw [htext]
      refine reads_peek.bind ?_
      rw [List.head?_cons, if_pos rfl]
      refine reads_advance.bind (hname.bind ?_)
      exact (ih h.2 (Nat.le_of_succ_le_succ hfuel)).map _ rfl

/-- The last point of a qualified name is the one in front of the name. -/
theorem splitQualified_qualifiedName {n : TypeName} (h : '.' ∉ n.name.toList) :
    splitQualified n.qualifiedName = (n.space, n.name) := by
  have hpoint : ∀ c ∈ n.name.toList.reverse, (c != '.') = true := by
    intro c hc
    rw [bne_iff_ne]
    rintro rfl
    exact h (List.mem_reverse.mp hc)
  cases hspace : n.space.isEmpty with
  | true =>
    have hreversed : (n.name.toList.reverse ++ []).dropWhile (· != '.') = [] :=
      List.dropWhile_append_of_pos hpoint
    rw [List.append_nil] at hreversed
    rw [qualifiedName, hspace, if_pos rfl, splitQualified, hreversed, String.isEmpty_iff.mp hspace]
  | false =>
    have hreversed : n.qualifiedName.toList.reverse =
        n.name.toList.reverse ++ '.' :: n.space.toList.reverse := by
      simp [qualifiedName, hspace, String.toList_append]
    rw [splitQualified, hreversed, List.dropWhile_append_of_pos hpoint,
      List.takeWhile_append_of_pos hpoint]
    simp

/-! ## Modifiers -/

/-- What may follow the modifiers of a name: no blank, and no further modifier. -/
def EndsModifiers (rest : List Char) : Prop :=
  ∀ c ∈ rest.head?, c = ',' ∨ c = ']'

theorem EndsModifiers.isBlank {rest : List Char} (h : EndsModifiers rest) :
    ∀ c ∈ rest.head?, Text.isBlank c = false := by
  intro c hc
  obtain rfl | rfl := h c hc <;> rfl

/-- The rest of the commas of an array and the bracket behind them. -/
theorem reads_arraySpec_commas {count fuel : Nat} {rank : UInt32} {rest : List Char}
    (h : count < fuel) (hrank : rank + .ofNat count ≠ 1) :
    Reads (arraySpec fuel rank false) (List.replicate count ',' ++ ']' :: rest)
      (.array (rank + .ofNat count)) rest := by
  induction count generalizing fuel rank with
  | zero =>
    cases fuel with
    | zero => exact absurd h (Nat.not_lt_zero _)
    | succ fuel =>
      have hnone : rank + .ofNat 0 = rank := UInt32.add_zero rank
      rw [hnone] at hrank ⊢
      refine (reads_skipBlanks_cons rfl).bind (reads_peek.bind (reads_advance.bind ?_))
      rw [if_neg fun hone => hrank hone.1]
      exact reads_pure
  | succ count ih =>
    cases fuel with
    | zero => exact absurd h (Nat.not_lt_zero _)
    | succ fuel =>
      have hsum : rank + .ofNat (count + 1) = rank + 1 + .ofNat count := by
        rw [Nat.add_comm, UInt32.ofNat_add, UInt32.add_assoc]
        rfl
      rw [hsum] at hrank ⊢
      rw [List.replicate_succ]
      refine (reads_skipBlanks_cons rfl).bind (reads_peek.bind (reads_advance.bind ?_))
      exact ih (Nat.lt_of_succ_lt_succ h) hrank

/-- A rank is one more than its commas. -/
theorem one_add_commas {rank : UInt32} (h : 1 ≤ rank) : 1 + .ofNat (rank.toNat - 1) = rank := by
  have hpos : 1 ≤ rank.toNat := h
  have hone : (1 : UInt32) = .ofNat 1 := rfl
  rw [hone, ← UInt32.ofNat_add, Nat.add_sub_cancel' hpos, UInt32.ofNat_toNat]

/-- An array is read behind its opening bracket. -/
theorem reads_arraySpec {modifier : TypeNameModifier} {fuel : Nat} {text rest : List Char}
    (h : IsModifier modifier) (htext : modifierText modifier = '[' :: text)
    (hfuel : text.length ≤ fuel) :
    Reads (arraySpec fuel 1 false) (text ++ rest) modifier rest := by
  cases modifier with
  | pointer => cases htext
  | byRef => cases htext
  | szArray =>
    cases htext
    obtain ⟨fuel, rfl⟩ : ∃ k, fuel = k + 1 := ⟨fuel - 1, (Nat.sub_add_cancel hfuel).symm⟩
    refine (reads_skipBlanks_cons rfl).bind (reads_peek.bind (reads_advance.bind ?_))
    exact reads_pure
  | array rank =>
    rw [modifierText] at htext
    split at htext
    next hone =>
      cases htext
      obtain ⟨fuel, rfl⟩ : ∃ k, fuel = k + 2 := ⟨fuel - 2, (Nat.sub_add_cancel hfuel).symm⟩
      subst hone
      refine (reads_skipBlanks_cons rfl).bind (reads_peek.bind (reads_advance.bind ?_))
      refine (reads_skipBlanks_cons rfl).bind (reads_peek.bind (reads_advance.bind ?_))
      exact reads_pure
    next hone =>
      cases htext
      rw [List.length_append, List.length_replicate, List.length_singleton] at hfuel
      rw [List.append_assoc, List.singleton_append]
      have hsum : 1 + .ofNat (rank.toNat - 1) = rank := one_add_commas h
      have hcommas : Reads (arraySpec fuel 1 false)
          (List.replicate (rank.toNat - 1) ',' ++ ']' :: rest)
          (.array (1 + .ofNat (rank.toNat - 1))) rest :=
        reads_arraySpec_commas hfuel (by rwa [hsum])
      rwa [hsum] at hcommas

/-- A bracket of an array is not taken for the start of generic arguments. -/
theorem opensArguments_modifierText {modifier : TypeNameModifier} {rest : List Char}
    (h : IsModifier modifier) : opensArguments (modifierText modifier ++ rest) = false := by
  cases modifier with
  | szArray => rfl
  | pointer => rfl
  | byRef => rfl
  | array rank =>
    rw [modifierText]
    split
    next => rfl
    next hone =>
      have hpos : 1 ≤ rank.toNat := h
      have hne : rank.toNat ≠ 1 := fun heq => hone (UInt32.toNat_inj.mp heq)
      obtain ⟨count, hcount⟩ : ∃ count, rank.toNat - 1 = count + 1 := ⟨rank.toNat - 2, by omega⟩
      rw [hcount]
      rfl

theorem modifierText_pos (modifier : TypeNameModifier) : 0 < (modifierText modifier).length := by
  cases modifier with
  | szArray => exact Nat.two_pos
  | pointer => exact Nat.one_pos
  | byRef => exact Nat.one_pos
  | array rank =>
    rw [modifierText]
    split <;> exact Nat.succ_pos _

/-- A modifier is read, and then those behind it. -/
theorem reads_modifierList_cons {modifier : TypeNameModifier} {modifiers : List TypeNameModifier}
    {fuel : Nat} {text rest : List Char} (h : IsModifier modifier)
    (hfuel : (modifierText modifier).length ≤ fuel + 1)
    (hrest : Reads (modifierList fuel) text modifiers rest) :
    Reads (modifierList (fuel + 1)) (modifierText modifier ++ text) (modifier :: modifiers)
      rest := by
  have hopens : opensArguments (modifierText modifier ++ text) = false :=
    opensArguments_modifierText h
  -- Arrays of both kinds are told by their bracket, and are read as what stands behind it.
  have harray {inside : List Char} (htext : modifierText modifier = '[' :: inside) :
      Reads (modifierList (fuel + 1)) (modifierText modifier ++ text) (modifier :: modifiers)
        rest := by
    have hinside : inside.length ≤ fuel + 1 := by
      rw [htext] at hfuel
      exact Nat.le_of_succ_le hfuel
    rw [htext, List.cons_append] at hopens ⊢
    refine (reads_skipBlanks_cons rfl).bind (reads_peek.bind (reads_get fun offset => ?_))
    dsimp only
    rw [hopens, if_neg Bool.false_ne_true]
    refine reads_advance.bind ((reads_arraySpec h htext hinside).bind ?_)
    exact hrest.map _ rfl
  cases modifier with
  | szArray => exact harray rfl
  | array rank =>
    by_cases hone : rank = 1
    · exact harray (if_pos hone)
    · exact harray (if_neg hone)
  | pointer =>
    refine (reads_skipBlanks_cons rfl).bind (reads_peek.bind (reads_advance.bind ?_))
    exact hrest.map _ rfl
  | byRef =>
    refine (reads_skipBlanks_cons rfl).bind (reads_peek.bind (reads_advance.bind ?_))
    exact hrest.map _ rfl

/-- Modifiers are read as long as there are any. -/
theorem reads_modifierList {modifiers : List TypeNameModifier} {fuel : Nat} {rest : List Char}
    (h : ∀ modifier ∈ modifiers, IsModifier modifier)
    (hfuel : (modifiers.flatMap modifierText).length ≤ fuel) (hrest : EndsModifiers rest) :
    Reads (modifierList fuel) (modifiers.flatMap modifierText ++ rest) modifiers rest := by
  induction modifiers generalizing fuel with
  | nil =>
    cases fuel with
    | zero => exact reads_pure
    | succ fuel =>
      have htext : [].flatMap modifierText ++ rest = rest := rfl
      rw [htext]
      refine (reads_skipBlanks hrest.isBlank).bind (reads_peek.bind ?_)
      cases rest with
      | nil => exact reads_pure
      | cons c rest =>
        obtain rfl | rfl := hrest c rfl
        · exact reads_pure
        · exact reads_pure
  | cons modifier modifiers ih =>
    rw [List.forall_mem_cons] at h
    rw [List.flatMap_cons, List.length_append] at hfuel
    have hpos : 0 < (modifierText modifier).length := modifierText_pos modifier
    obtain ⟨fuel, rfl⟩ : ∃ k, fuel = k + 1 := ⟨fuel - 1, by omega⟩
    have hmodifiers : Reads (modifierList fuel) (modifiers.flatMap modifierText ++ rest) modifiers
        rest := ih h.2 (by omega)
    rw [List.flatMap_cons, List.append_assoc]
    exact reads_modifierList_cons h.1 (by omega) hmodifiers

/-! ## Assemblies -/

/-- The name of an assembly takes a character that is escaped if it has to be. -/
theorem scanAssembly_escape {c : Char} {rest : List Char} :
    scanAssembly (escape (isAssemblySpecial c) c ++ rest) =
      (c :: (scanAssembly rest).1,
        (scanAssembly rest).2 + (escape (isAssemblySpecial c) c).length) := by
  cases hspecial : isAssemblySpecial c with
  | true => rfl
  | false =>
    obtain ⟨hbracket, hbackslash⟩ := Bool.or_eq_false_iff.mp hspecial
    rw [beq_eq_false_iff_ne] at hbracket hbackslash
    show scanAssembly (c :: rest) = _
    rw [scanAssembly, if_neg hbracket]
    · rfl
    · exact fun hc => absurd hc hbackslash
    · exact fun _ _ hc => absurd hc hbackslash

/-- The name of an assembly ends in front of a bracket. -/
theorem scanAssembly_stop {rest : List Char} (h : ∀ c ∈ rest.head?, c = ']') :
    scanAssembly rest = ([], 0) := by
  cases rest with
  | nil => rfl
  | cons c rest =>
    obtain rfl := h c rfl
    rw [scanAssembly, if_pos rfl]
    · exact nofun
    · exact nofun

theorem scanAssembly_flatMap {name rest : List Char} (h : ∀ c ∈ rest.head?, c = ']') :
    scanAssembly (name.flatMap (fun c => escape (isAssemblySpecial c) c) ++ rest) =
      (name, (name.flatMap fun c => escape (isAssemblySpecial c) c).length) := by
  induction name with
  | nil => exact scanAssembly_stop h
  | cons c name ih =>
    rw [List.flatMap_cons, List.append_assoc, scanAssembly_escape, ih, List.length_append,
      Nat.add_comm]

/-- An assembly is read up to the bracket that closes its argument or the end of the text. -/
theorem reads_assemblyName {name : String} {rest : List Char} (h : IsAssembly name.toList)
    (hrest : ∀ c ∈ rest.head?, c = ']') :
    Reads assemblyName
      (name.toList.flatMap (fun c => escape (isAssemblySpecial c) c) ++ rest) name rest := by
  unfold assemblyName
  refine reads_get fun offset => ?_
  dsimp only
  rw [scanAssembly_flatMap hrest]
  refine reads_skip.bind ?_
  rw [trim_eq_self h.first h.last]
  split
  next hnil => exact absurd hnil h.nonempty
  next =>
    rw [String.ofList_toList]
    exact reads_pure

end CilTrim.TypeName
