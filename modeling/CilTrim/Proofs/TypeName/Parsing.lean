import CilTrim.Proofs.TypeName.Lexing

/-!
# Type names through their texts

Each text that the format has for a proper name is parsed to that name. A bracket opens generic
arguments, an argument of its own or an array, and a comma stands between arguments, between the
dimensions of an array or in front of an assembly; which of them it is shows in what comes next:

* `EndsName`: what may follow a name, which depends on whether it may have an assembly;
* `typeName_succ`, `argumentList_succ`: the parsers, step by step;
* `NamesRead`, `ListsRead`: names and lists of arguments are read with a given fuel;
* `parse_of_renders`: the name of a whole text.
-/

namespace CilTrim.TypeName

open Parse

/-! ## The parsers, step by step -/

/-- What is read behind the generic arguments of a name. -/
def nameTail (space name : String) (nested : List String) (arguments : List TypeName) (fuel : Nat)
    (qualified : Bool) : Parse TypeName := do
  let modifiers ← modifierList fuel
  skipBlanks
  let assembly ←
    if qualified ∧ (← peek?) = some ',' then do
      advance
      pure (some (← assemblyName))
    else pure none
  pure { space, name, nested, arguments, modifiers, assembly }

/-- What is read behind the names of the outermost type and the nested ones. -/
def nameBody (space name : String) (nested : List String) (fuel : Nat) (qualified : Bool) :
    Parse TypeName := do
  if opensArguments (← get).rest then do
    expect '['
    nameTail space name nested (← argumentList fuel) (fuel + 1) qualified
  else nameTail space name nested [] (fuel + 1) qualified

/-- What is read behind a generic argument: the others, or the bracket that closes the list. -/
def argumentsBehind (first : TypeName) (fuel : Nat) : Parse (List TypeName) := do
  skipBlanks
  match ← peek? with
  | some ',' =>
    advance
    pure (first :: (← argumentList fuel))
  | some ']' =>
    advance
    pure [first]
  | _ => throw (.unclosedArguments (← get).offset)

theorem typeName_succ (fuel : Nat) (qualified : Bool) :
    typeName (fuel + 1) qualified = (do
      let (space, name) := splitQualified (← identifier)
      nameBody space name (← nestedNames (fuel + 1)) fuel qualified) :=
  rfl

theorem argumentList_succ (fuel : Nat) :
    argumentList (fuel + 1) = (do
      skipBlanks
      if (← peek?) = some '[' then do
        advance
        let first ← typeName fuel true
        expect ']'
        argumentsBehind first fuel
      else argumentsBehind (← typeName fuel false) fuel) :=
  rfl

/-! ## What starts and what ends a name -/

/-- What may follow a name: the end of the text, the bracket that closes its argument, or the comma
in front of the next argument if it is not taken for the one in front of an assembly. -/
def EndsName (qualified : Bool) (rest : List Char) : Prop :=
  ∀ c ∈ rest.head?, c = ']' ∨ c = ',' ∧ qualified = false

theorem EndsName.modifiers {qualified : Bool} {rest : List Char} (h : EndsName qualified rest) :
    EndsModifiers rest := by
  intro c hc
  obtain rfl | ⟨rfl, _⟩ := h c hc
  · exact .inr rfl
  · exact .inl rfl

theorem EndsName.bracket {rest : List Char} (h : EndsName true rest) :
    ∀ c ∈ rest.head?, c = ']' := by
  intro c hc
  obtain hbracket | ⟨_, hbare⟩ := h c hc
  · exact hbracket
  · cases hbare

/-- Only an assembly is taken for one. -/
theorem EndsName.not_comma {qualified : Bool} {rest : List Char} (h : EndsName qualified rest) :
    ¬ (qualified = true ∧ rest.head? = some ',') := by
  rintro ⟨rfl, hcomma⟩
  have hbracket : ',' = ']' := h.bracket ',' hcomma
  exact absurd hbracket (by decide)

/-- The text of a proper name starts like a name. -/
theorem Renders.eq_cons {n : TypeName} {text : List Char} (h : Renders n text) (hn : n.Proper) :
    ∃ c others, text = c :: others ∧ StartsName c := by
  obtain ⟨qualified⟩ := hn
  obtain ⟨c, others, htext, hstart⟩ := identifierText_eq_cons qualified.nonempty
  cases h with
  | plain _ => exact ⟨c, _, by rw [headText, htext]; rfl, hstart⟩
  | generic _ => exact ⟨c, _, by rw [headText, htext]; rfl, hstart⟩

/-- The text of a generic argument starts like a name or with its bracket. -/
theorem RendersArgument.eq_cons {n : TypeName} {text : List Char} (h : RendersArgument n text)
    (hn : n.Proper) : ∃ c others, text = c :: others ∧ (StartsName c ∨ c = '[') := by
  cases h with
  | bare h _ =>
    obtain ⟨c, others, htext, hstart⟩ := h.eq_cons hn
    exact ⟨c, others, htext, .inl hstart⟩
  | bracketed _ => exact ⟨'[', _, rfl, .inr rfl⟩

/-- A bracket in front of the texts of generic arguments is not taken for one of an array. -/
theorem RendersArguments.opens {ns : List TypeName} {text rest : List Char}
    (h : RendersArguments ns text) (hns : ∀ n ∈ ns, n.Proper) :
    opensArguments ('[' :: (text ++ rest)) = true := by
  -- The character behind the bracket decides, and it belongs to the first argument.
  obtain ⟨c, others, rfl, hstart⟩ :
      ∃ c others, text = c :: others ∧ (StartsName c ∨ c = '[') := by
    cases h with
    | last h =>
      obtain ⟨c, others, rfl, hstart⟩ := h.eq_cons (hns _ List.mem_cons_self)
      exact ⟨c, _, rfl, hstart⟩
    | next h _ =>
      obtain ⟨c, others, rfl, hstart⟩ := h.eq_cons (hns _ List.mem_cons_self)
      exact ⟨c, _, rfl, hstart⟩
  obtain ⟨hdelimiter, hblank⟩ | rfl := hstart
  · simp only [isDelimiter, Bool.or_eq_false_iff] at hdelimiter
    simp [opensArguments, hblank, hdelimiter]
  · rfl

/-- Neither an assembly nor the end of a name is taken for generic arguments. -/
theorem opensArguments_tailText {n : TypeName} {rest : List Char} (hn : n.Proper)
    (hrest : EndsModifiers rest) : opensArguments (tailText n ++ rest) = false := by
  obtain ⟨_, _, _, hmodifiers, _, _⟩ := hn
  unfold tailText
  cases hm : n.modifiers with
  | cons modifier modifiers =>
    rw [List.flatMap_cons, List.append_assoc, List.append_assoc]
    exact opensArguments_modifierText (hmodifiers modifier (hm ▸ List.mem_cons_self))
  | nil =>
    cases n.assembly with
    | some assembly => rfl
    | none =>
      cases rest with
      | nil => rfl
      | cons c rest =>
        obtain rfl | rfl := hrest c rfl
        · rfl
        · rfl

/-- An assembly ends the modifiers in front of it. -/
theorem EndsName.append_assembly {qualified : Bool} {rest : List Char} (assembly : Option String)
    (h : EndsName qualified rest) : EndsModifiers (assemblyText assembly ++ rest) := by
  cases assembly with
  | none => exact h.modifiers
  | some assembly =>
    intro c hc
    cases hc
    exact .inl rfl

/-! ## The parts of a name -/

/-- The tail of a name is read with its modifiers and its assembly. -/
theorem reads_nameTail {n : TypeName} {fuel : Nat} {qualified : Bool} {rest : List Char}
    (hn : n.Proper) (hfuel : (tailText n).length ≤ fuel)
    (hqualified : n.assembly ≠ none → qualified = true) (hrest : EndsName qualified rest) :
    Reads (nameTail n.space n.name n.nested n.arguments fuel qualified) (tailText n ++ rest) n
      rest := by
  obtain ⟨_, _, _, hmodifiers, hassembly, _⟩ := hn
  obtain ⟨space, name, nested, arguments, modifiers, assembly⟩ := n
  rw [tailText, List.length_append] at hfuel
  rw [tailText, List.append_assoc]
  have hfollow : EndsModifiers (assemblyText assembly ++ rest) := hrest.append_assembly assembly
  have hread : Reads (modifierList fuel)
      (modifiers.flatMap modifierText ++ (assemblyText assembly ++ rest)) modifiers
      (assemblyText assembly ++ rest) :=
    reads_modifierList hmodifiers (Nat.le_of_add_right_le hfuel) hfollow
  unfold nameTail
  refine hread.bind ((reads_skipBlanks hfollow.isBlank).bind (reads_peek.bind ?_))
  cases assembly with
  | none =>
    -- A comma may follow, but then no assembly is allowed here.
    have htext : assemblyText none ++ rest = rest := rfl
    rw [htext, if_neg hrest.not_comma]
    exact reads_pure
  | some assembly =>
    have hq : qualified = true := hqualified (Option.some_ne_none assembly)
    subst hq
    have htext : assemblyText (some assembly) ++ rest =
        ',' :: (assembly.toList.flatMap (fun c => escape (isAssemblySpecial c) c) ++ rest) := rfl
    rw [htext, List.head?_cons, if_pos ⟨rfl, rfl⟩]
    refine reads_advance.bind ((reads_assemblyName (hassembly assembly rfl) hrest.bracket).bind ?_)
    exact reads_pure

theorem length_le_nestedText (names : List String) : names.length ≤ (nestedText names).length := by
  induction names with
  | nil => exact Nat.le_refl _
  | cons name names ih =>
    have htext : nestedText (name :: names) =
        '+' :: (identifierText name.toList ++ nestedText names) := rfl
    rw [htext, List.length_cons, List.length_cons, List.length_append]
    omega

/-- What may stand behind the names in front of the generic arguments. -/
def EndsHead (rest : List Char) : Prop :=
  ∀ c ∈ rest.head?, isDelimiter c = true ∧ c ≠ '+'

theorem endsHead_cons {c : Char} {rest : List Char} (h : isDelimiter c = true) (hplus : c ≠ '+') :
    EndsHead (c :: rest) := by
  intro next hnext
  cases hnext
  exact ⟨h, hplus⟩

/-- Neither modifiers nor an assembly are taken for a further name. -/
theorem endsHead_tailText {n : TypeName} {rest : List Char} (hrest : EndsModifiers rest) :
    EndsHead (tailText n ++ rest) := by
  unfold tailText
  cases n.modifiers with
  | cons modifier modifiers =>
    rw [List.flatMap_cons]
    cases modifier with
    | szArray => exact endsHead_cons rfl (by decide)
    | pointer => exact endsHead_cons rfl (by decide)
    | byRef => exact endsHead_cons rfl (by decide)
    | array rank =>
      rw [modifierText]
      split
      next => exact endsHead_cons rfl (by decide)
      next => exact endsHead_cons rfl (by decide)
  | nil =>
    cases n.assembly with
    | some assembly => exact endsHead_cons rfl (by decide)
    | none =>
      intro c hc
      obtain rfl | rfl := hrest c hc
      · exact ⟨rfl, by decide⟩
      · exact ⟨rfl, by decide⟩

/-- The names in front of the generic arguments are read, and then what stands behind them. -/
theorem reads_head {n : TypeName} {fuel : Nat} {qualified : Bool} {more rest : List Char}
    (hn : n.Proper) (hfuel : (headText n).length ≤ fuel + 1) (hmore : EndsHead more)
    (hbody : Reads (nameBody n.space n.name n.nested fuel qualified) more n rest) :
    Reads (typeName (fuel + 1) qualified) (headText n ++ more) n rest := by
  obtain ⟨hidentifier, hpoint, hnested, _, _, _⟩ := hn
  have hends : ∀ c ∈ more.head?, isDelimiter c = true := fun c hc => (hmore c hc).1
  have hplus : more.head? ≠ some '+' := fun hc => (hmore '+' hc).2 rfl
  have hname : Reads identifier
      (identifierText n.qualifiedName.toList ++ (nestedText n.nested ++ more)) n.qualifiedName
      (nestedText n.nested ++ more) := reads_identifier hidentifier (head?_nestedText hends)
  have hlength : n.nested.length ≤ (nestedText n.nested).length := length_le_nestedText n.nested
  rw [headText, List.length_append] at hfuel
  rw [typeName_succ, headText, List.append_assoc]
  refine hname.bind ?_
  rw [splitQualified_qualifiedName hpoint]
  exact (reads_nestedNames hnested (by omega) hends hplus).bind hbody

/-! ## Names and lists of arguments -/

/-- With some fuel, all texts of proper names that are shorter are read. -/
def NamesRead (fuel : Nat) : Prop :=
  ∀ (n : TypeName) (text rest : List Char) (qualified : Bool), Renders n text → n.Proper →
    text.length < fuel → (n.assembly ≠ none → qualified = true) → EndsName qualified rest →
    Reads (typeName fuel qualified) (text ++ rest) n rest

/-- With some fuel, all texts of lists of generic arguments that are shorter are read. -/
def ListsRead (fuel : Nat) : Prop :=
  ∀ (ns : List TypeName) (text rest : List Char), RendersArguments ns text →
    (∀ n ∈ ns, n.Proper) → text.length < fuel →
    Reads (argumentList fuel) (text ++ rest) ns rest

/-- A name is read if the lists in it are. -/
theorem namesRead_succ {fuel : Nat} (lists : ListsRead fuel) : NamesRead (fuel + 1) := by
  intro n text rest qualified h hn hfuel hqualified hrest
  cases h with
  | plain hnone =>
    rw [List.length_append] at hfuel
    have htail : Reads (nameTail n.space n.name n.nested n.arguments (fuel + 1) qualified)
        (tailText n ++ rest) n rest := reads_nameTail hn (by omega) hqualified hrest
    rw [List.append_assoc]
    refine reads_head hn (by omega) (endsHead_tailText hrest.modifiers) (reads_get fun offset => ?_)
    dsimp only
    rw [opensArguments_tailText hn hrest.modifiers, if_neg Bool.false_ne_true, ← hnone]
    exact htail
  | @generic _ list hlist =>
    obtain ⟨_, _, _, _, _, harguments⟩ := id hn
    rw [List.length_append, List.length_cons, List.length_append] at hfuel
    have hends : EndsHead ('[' :: (list ++ (tailText n ++ rest))) := endsHead_cons rfl (by decide)
    have hread : Reads (argumentList fuel) (list ++ (tailText n ++ rest)) n.arguments
        (tailText n ++ rest) := lists n.arguments list _ hlist harguments (by omega)
    have htail : Reads (nameTail n.space n.name n.nested n.arguments (fuel + 1) qualified)
        (tailText n ++ rest) n rest := reads_nameTail hn (by omega) hqualified hrest
    rw [List.append_assoc, List.cons_append, List.append_assoc]
    refine reads_head hn (by omega) hends (reads_get fun offset => ?_)
    dsimp only
    rw [hlist.opens harguments, if_pos rfl]
    exact (reads_expect rfl).bind (hread.bind htail)

/-- A generic argument is read, with or without brackets, and then what stands behind it. -/
theorem reads_argument {fuel : Nat} {n : TypeName} {ns : List TypeName} {text more rest : List Char}
    (names : NamesRead fuel) (h : RendersArgument n text) (hn : n.Proper)
    (hfuel : text.length < fuel) (hmore : EndsName false more)
    (hbehind : Reads (argumentsBehind n fuel) more ns rest) :
    Reads (argumentList (fuel + 1)) (text ++ more) ns rest := by
  rw [argumentList_succ]
  cases h with
  | bare h hnone =>
    obtain ⟨c, others, rfl, hdelimiter, hblank⟩ := h.eq_cons hn
    have hbracket : some c ≠ some '[' := by
      rintro ⟨⟩
      cases hdelimiter
    have hread : Reads (typeName fuel false) (c :: others ++ more) n more :=
      names n _ more false h hn hfuel (fun hsome => absurd hnone hsome) hmore
    refine (reads_skipBlanks_cons hblank).bind (reads_peek.bind ?_)
    rw [List.head?_cons, if_neg hbracket]
    exact hread.bind hbehind
  | @bracketed _ inner h =>
    rw [List.length_cons, List.length_append] at hfuel
    have hends : EndsName true (']' :: more) := by
      intro c hc
      cases hc
      exact .inl rfl
    have hread : Reads (typeName fuel true) (inner ++ ']' :: more) n (']' :: more) :=
      names n inner _ true h hn (by omega) (fun _ => rfl) hends
    rw [List.cons_append, List.append_assoc]
    refine (reads_skipBlanks_cons rfl).bind (reads_peek.bind ?_)
    rw [List.head?_cons, if_pos rfl]
    exact reads_advance.bind (hread.bind ((reads_expect rfl).bind hbehind))

theorem endsName_cons {c : Char} {rest : List Char} (h : c = ']' ∨ c = ',') :
    EndsName false (c :: rest) := by
  intro next hnext
  cases hnext
  exact h.imp_right fun hcomma => ⟨hcomma, rfl⟩

/-- A list of generic arguments is read if the names and the shorter lists in it are. -/
theorem listsRead_succ {fuel : Nat} (names : NamesRead fuel) (lists : ListsRead fuel) :
    ListsRead (fuel + 1) := by
  intro ns text rest h hns hfuel
  cases h with
  | @last n text h =>
    rw [List.length_append, List.length_singleton] at hfuel
    have hclose : Reads (argumentsBehind n fuel) (']' :: rest) [n] rest :=
      (reads_skipBlanks_cons rfl).bind (reads_peek.bind (reads_advance.bind reads_pure))
    rw [List.append_assoc]
    exact reads_argument names h (hns n List.mem_cons_self) (by omega) (endsName_cons (.inl rfl))
      hclose
  | @next n text list others h hothers =>
    rw [List.length_append, List.length_cons] at hfuel
    rw [List.forall_mem_cons] at hns
    have hlist : Reads (argumentList fuel) (list ++ rest) others rest :=
      lists others list rest hothers hns.2 (by omega)
    have hbehind : Reads (argumentsBehind n fuel) (',' :: (list ++ rest)) (n :: others) rest := by
      refine (reads_skipBlanks_cons rfl).bind (reads_peek.bind (reads_advance.bind ?_))
      exact hlist.map _ rfl
    rw [List.append_assoc]
    exact reads_argument names h hns.1 (by omega) (endsName_cons (.inr rfl)) hbehind

/-- Fuel above the length of a text is enough. -/
theorem namesRead_and_listsRead (fuel : Nat) : NamesRead fuel ∧ ListsRead fuel := by
  -- Both parsers call each other with less fuel on a part of their text, so the induction is on
  -- the fuel and for both at once.
  induction fuel with
  | zero =>
    constructor
    · intro n text rest qualified _ _ hfuel
      exact absurd hfuel (Nat.not_lt_zero _)
    · intro ns text rest _ _ hfuel
      exact absurd hfuel (Nat.not_lt_zero _)
  | succ fuel ih =>
    obtain ⟨names, lists⟩ := ih
    exact ⟨namesRead_succ lists, listsRead_succ names lists⟩

/-! ## Whole texts -/

/-- The text of a name is read to its end. -/
theorem reads_wholeName {n : TypeName} {text : List Char} (h : Renders n text) (hn : n.Proper) :
    Reads (wholeName (String.ofList text)) text n [] := by
  have hfuel : text.length < 2 * (String.ofList text).length + 2 := by
    rw [String.length_ofList]
    omega
  have hends : EndsName true [] := by
    intro c hc
    cases hc
  have hread : Reads (typeName (2 * (String.ofList text).length + 2) true) (text ++ []) n [] :=
    (namesRead_and_listsRead _).1 n text [] true h hn hfuel (fun _ => rfl) hends
  rw [List.append_nil] at hread
  have hblanks : ∀ c ∈ [].head?, Text.isBlank c = false := hends.modifiers.isBlank
  unfold wholeName
  exact hread.bind ((reads_skipBlanks hblanks).bind (reads_get fun offset => reads_pure))

/-- Every text of a proper name is parsed to the name, whichever of its generic arguments stand in
brackets of their own. -/
theorem parse_of_renders {n : TypeName} {text : List Char} (h : Renders n text) (hn : n.Proper) :
    parse (String.ofList text) = .ok n := by
  obtain ⟨offset, hwhole⟩ := reads_wholeName h hn 0
  rw [parse, String.toList_ofList, hwhole]

namespace Sample

/-- An argument whose assembly holds a bracket and a comma. -/
def key : TypeName where
  space := "System"
  name := "Int32"
  nested := []
  arguments := []
  modifiers := [.array 2, .byRef]
  assembly := some "ms]cor, v4"

/-- An argument that needs no brackets of its own. -/
def item : TypeName where
  space := ""
  name := " a+b"
  nested := []
  arguments := []
  modifiers := [.szArray]
  assembly := none

/-- A nested type with both arguments. -/
def map : TypeName where
  space := "App.Core"
  name := "Outer"
  nested := ["Map*2"]
  arguments := [key, item]
  modifiers := [.array 1, .pointer]
  assembly := some "App"

/-- The text of the nested type, with brackets around the first argument only. -/
def text : List Char :=
  "App.Core.Outer+Map\\*2[[System.Int32[,]&,ms\\]cor, v4],\\ a\\+b[]][*]*,App".toList

end Sample

theorem parse_of_renders_sample :
    Renders Sample.map Sample.text ∧ Sample.map.Proper ∧
      parse (String.ofList Sample.text) = .ok Sample.map := by
  have hkey : Sample.key.Proper :=
    .intro (by decide) (by decide) (by decide) (by decide) (by decide) nofun
  have hitem : Sample.item.Proper :=
    .intro (by decide) (by decide) (by decide) (by decide) (by decide) nofun
  have harguments : ∀ argument ∈ Sample.map.arguments, argument.Proper := by
    simp [Sample.map, hkey, hitem]
  have hmap : Sample.map.Proper :=
    .intro (by decide) (by decide) (by decide) (by decide) (by decide) harguments
  have hlist : RendersArguments [Sample.key, Sample.item] _ :=
    .next (.bracketed (.plain rfl)) (.last (.bare (.plain rfl) rfl))
  have h : Renders Sample.map Sample.text := Renders.generic (n := Sample.map) hlist
  exact ⟨h, hmap, parse_of_renders h hmap⟩

end CilTrim.TypeName
