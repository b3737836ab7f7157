import CilTrim.Proofs.TypeName.Characters
import CilTrim.Proofs.TypeName.Parsing

/-!
# The parser ends inside its text

Every loop of the parser of type names passes a character in each turn, and a name and its generic
arguments two when they call each other. So all of them end for every text, in a number of turns
that grows with its length, and what they give is what the bounded ones give:

* `ends_nestedNames`, `ends_arraySpec`, `ends_modifierList`: the loops;
* `ends_typeName_argumentList`: names and lists of arguments, by one induction;
* `Fault.IsOf`: what a fault says of its text;
* `parse_total`: parsing as a whole.
-/

namespace CilTrim.TypeName

open Parse

variable {text : List Char} {c : Cursor} {fuel turns : Nat}

/-! ## Loops -/

theorem ends_nestedNames (hc : c.IsIn text) (hfuel : c.rest.length < fuel)
    (hturns : c.rest.length < turns) :
    Ends (Run.nestedNames text turns) (nestedNames fuel) 0 c := by
  induction fuel generalizing c turns with
  | zero => exact absurd hfuel (Nat.not_lt_zero _)
  | succ fuel ih =>
    obtain ⟨turns, rfl⟩ := Nat.exists_eq_add_one_of_ne_zero (Nat.ne_zero_of_lt hturns)
    rw [Run.nestedNames, nestedNames]
    refine ends_peek hc ?_
    by_cases hplus : c.rest.head? = some '+'
    · simp only [if_pos hplus]
      refine ((ends_advance hc hplus).bind_rest hc fun _ c' hc' hlt => ?_).mono (Nat.zero_le _)
      refine ((ends_identifier hc' (by omega)).bind_rest hc' fun name d hd hlt' => ?_).mono
        (Nat.zero_le _)
      exact (ih hd (by omega) (by omega)).bind hd fun _ _ _ _ => ends_pure _
    · simp only [if_neg hplus]
      exact ends_pure _

theorem ends_arraySpec {rank : UInt32} {bounded : Bool} (hc : c.IsIn text)
    (hfuel : c.rest.length < fuel) (hturns : c.rest.length < turns) :
    Ends (Run.arraySpec text turns rank bounded) (arraySpec fuel rank bounded) 1 c := by
  induction fuel generalizing c turns rank bounded with
  | zero => exact absurd hfuel (Nat.not_lt_zero _)
  | succ fuel ih =>
    obtain ⟨turns, rfl⟩ := Nat.exists_eq_add_one_of_ne_zero (Nat.ne_zero_of_lt hturns)
    rw [Run.arraySpec, arraySpec]
    refine (ends_skipBlanks hc).bind hc fun _ c' hc' hle => ?_
    refine ends_peek hc' ?_
    by_cases hcomma : c'.rest.head? = some ','
    · simp only [hcomma]
      exact (ends_advance hc' hcomma).bind_rest hc' fun _ d hd hlt =>
        (ih hd (by omega) (by omega)).mono (Nat.zero_le _)
    by_cases hstar : c'.rest.head? = some '*'
    · simp only [hstar]
      exact (ends_advance hc' hstar).bind_rest hc' fun _ d hd hlt =>
        (ih hd (by omega) (by omega)).mono (Nat.zero_le _)
    by_cases hclose : c'.rest.head? = some ']'
    · simp only [hclose]
      exact (ends_advance hc' hclose).bind_rest hc' fun _ _ _ _ => ends_pure _
    -- With the three characters ruled out, both parsers take their last case.
    · simp only
      exact ends_failAt hc' .badArray rfl

theorem ends_modifierList (hc : c.IsIn text) (hfuel : c.rest.length < fuel)
    (hturns : c.rest.length < turns) :
    Ends (Run.modifierList text turns) (modifierList fuel) 0 c := by
  induction fuel generalizing c turns with
  | zero => exact absurd hfuel (Nat.not_lt_zero _)
  | succ fuel ih =>
    obtain ⟨turns, rfl⟩ := Nat.exists_eq_add_one_of_ne_zero (Nat.ne_zero_of_lt hturns)
    rw [Run.modifierList, modifierList]
    refine (ends_skipBlanks hc).bind hc fun _ c' hc' hle => ?_
    have others {d : Cursor} (hd : d.IsIn text) (hlt : d.rest.length + 1 ≤ c'.rest.length)
        (modifier : TypeNameModifier) :
        Ends (do pure (modifier :: (← Run.modifierList text turns)))
          (do pure (modifier :: (← modifierList fuel))) 0 d :=
      (ih hd (by omega) (by omega)).bind hd fun _ _ _ _ => ends_pure _
    refine ends_peek hc' ?_
    by_cases hstar : c'.rest.head? = some '*'
    · simp only [hstar]
      exact ((ends_advance hc' hstar).bind_rest hc' fun _ _ hd hlt =>
        others hd hlt _).mono (Nat.zero_le _)
    by_cases hand : c'.rest.head? = some '&'
    · simp only [hand]
      exact ((ends_advance hc' hand).bind_rest hc' fun _ _ hd hlt =>
        others hd hlt _).mono (Nat.zero_le _)
    by_cases hopen : c'.rest.head? = some '['
    · simp only [hopen]
      refine ends_get hc' ?_
      by_cases harguments : opensArguments c'.rest = true
      · simp only [if_pos harguments]
        exact ends_pure _
      · simp only [if_neg harguments]
        refine ((ends_advance hc' hopen).bind_rest hc' fun _ d hd hlt => ?_).mono (Nat.zero_le _)
        exact ((ends_arraySpec hd (by omega) (by omega)).bind_rest hd fun modifier _ he hlt' =>
          others he (by omega) _).mono (Nat.zero_le _)
    · simp only
      exact ends_pure _

/-! ## Names and lists of arguments -/

theorem ends_nameTail {space name : String} {nested : List String} {arguments : List TypeName}
    {qualified : Bool} (hc : c.IsIn text) (hfuel : c.rest.length < fuel)
    (hturns : c.rest.length < turns) :
    Ends (Run.nameTail text turns space name nested arguments qualified)
      (nameTail space name nested arguments fuel qualified) 0 c := by
  unfold Run.nameTail nameTail
  refine (ends_modifierList hc hfuel hturns).bind hc fun modifiers c' hc' hle => ?_
  refine (ends_skipBlanks hc').bind hc' fun _ d hd hle' => ?_
  refine ends_peek hd ?_
  by_cases hcomma : qualified = true ∧ d.rest.head? = some ','
  · simp only [if_pos hcomma]
    refine ((ends_advance hd hcomma.2).bind_rest hd fun _ e he hlt => ?_).mono (Nat.zero_le _)
    refine ((ends_assemblyName he (by omega)).bind_rest he fun assembly _ _ _ => ?_).mono
      (Nat.zero_le _)
    exact ends_pure _
  · simp only [if_neg hcomma]
    exact ends_pure _

theorem ends_argumentsBehind {more : Run (List TypeName)} {first : TypeName} (hc : c.IsIn text)
    (h : ∀ c', c'.IsIn text → c'.rest.length + 1 ≤ c.rest.length →
      Ends more (argumentList fuel) 0 c') :
    Ends (Run.argumentsBehind text more first) (argumentsBehind first fuel) 0 c := by
  rw [Run.argumentsBehind, argumentsBehind]
  refine (ends_skipBlanks hc).bind hc fun _ c' hc' hle => ?_
  refine ends_peek hc' ?_
  by_cases hcomma : c'.rest.head? = some ','
  · simp only [hcomma]
    refine ((ends_advance hc' hcomma).bind_rest hc' fun _ d hd hlt => ?_).mono (Nat.zero_le _)
    exact (h d hd (by omega)).bind hd fun _ _ _ _ => ends_pure _
  by_cases hclose : c'.rest.head? = some ']'
  · simp only [hclose]
    exact ((ends_advance hc' hclose).bind_rest hc' fun _ _ _ _ => ends_pure _).mono
      (Nat.zero_le _)
  · simp only
    exact ends_failAt hc' .unclosedArguments rfl

/-- With two units of fuel for a character and as many turns, no name and no list of arguments runs
out of them. An argument starts where its list does, and its list behind the name that it belongs
to. -/
theorem ends_typeName_argumentList (fuel : Nat) :
    (∀ c, c.IsIn text → 2 * c.rest.length + 1 ≤ fuel → ∀ turns, 2 * c.rest.length + 1 ≤ turns →
      ∀ qualified, Ends (Run.typeName text turns qualified) (typeName fuel qualified) 1 c) ∧
    ∀ c, c.IsIn text → 2 * c.rest.length + 2 ≤ fuel → ∀ turns, 2 * c.rest.length + 2 ≤ turns →
      Ends (Run.argumentList text turns) (argumentList fuel) 0 c := by
  induction fuel with
  | zero => exact ⟨fun _ _ h => absurd h (by omega), fun _ _ h => absurd h (by omega)⟩
  | succ fuel ih =>
    obtain ⟨ihName, ihList⟩ := ih
    refine ⟨fun c hc hfuel turns hturns qualified => ?_, fun c hc hfuel turns hturns => ?_⟩
    · obtain ⟨turns, rfl⟩ := Nat.exists_eq_add_one_of_ne_zero (Nat.ne_zero_of_lt hturns)
      rw [Run.typeName, typeName_succ]
      refine (ends_identifier hc (by omega)).bind_rest hc fun qualifiedName c' hc' hlt => ?_
      refine (ends_nestedNames hc' (by omega) (by omega)).bind hc' fun nested d hd hle => ?_
      rw [nameBody]
      refine ends_get hd ?_
      by_cases hopens : opensArguments d.rest = true
      · simp only [if_pos hopens]
        refine ((ends_expect hd '[').bind_rest hd fun _ e he hlt' => ?_).mono (Nat.zero_le _)
        refine (ihList e he (by omega) turns (by omega)).bind he fun arguments f hf hle' => ?_
        exact ends_nameTail hf (by omega) (by omega)
      · simp only [if_neg hopens]
        exact ends_nameTail hd (by omega) (by omega)
    · obtain ⟨turns, rfl⟩ := Nat.exists_eq_add_one_of_ne_zero (Nat.ne_zero_of_lt hturns)
      rw [Run.argumentList, argumentList_succ]
      have behind {first : TypeName} {d : Cursor} (hd : d.IsIn text)
          (hlt : d.rest.length + 1 ≤ c.rest.length) :
          Ends (Run.argumentsBehind text (Run.argumentList text turns) first)
            (argumentsBehind first fuel) 0 d :=
        ends_argumentsBehind hd fun e he hlt' => ihList e he (by omega) turns (by omega)
      refine (ends_skipBlanks hc).bind hc fun _ c' hc' hle => ?_
      refine ends_peek hc' ?_
      by_cases hopens : c'.rest.head? = some '['
      · simp only [if_pos hopens]
        refine ((ends_advance hc' hopens).bind_rest hc' fun _ d hd hlt => ?_).mono (Nat.zero_le _)
        refine ((ihName d hd (by omega) turns (by omega) true).bind_rest hd
          fun first e he hlt' => ?_).mono (Nat.zero_le _)
        refine ((ends_expect he ']').bind_rest he fun _ f hf hlt'' => ?_).mono (Nat.zero_le _)
        exact behind hf (by omega)
      · simp only [if_neg hopens]
        refine ((ihName c' hc' (by omega) turns (by omega) false).bind_rest hc'
          fun first d hd hlt => ?_).mono (Nat.zero_le _)
        exact behind hd (by omega)

/-! ## Whole texts -/

theorem ends_wholeName (text : String) (hturns : 2 * text.length + 1 ≤ turns) :
    Ends (Run.wholeName text turns) (wholeName text) 1 ⟨0, text.toList⟩ := by
  have hstart := Cursor.isIn_start text.toList
  have hlength : text.toList.length = text.length := String.length_toList
  unfold Run.wholeName wholeName
  refine ((ends_typeName_argumentList _).1 _ hstart ?_ turns ?_ true).bind_rest hstart
    fun name c hc _ => ?_
  · dsimp only
    omega
  · dsimp only
    omega
  refine (ends_skipBlanks hc).bind hc fun _ d hd _ => ?_
  refine ends_get hd ?_
  cases hrest : d.rest with
  | nil => exact ends_pure _
  | cons found rest =>
    refine ends_failAt hd (.trailing found · text) ⟨rfl, ?_⟩
    rw [hrest]
    rfl

/-- What a fault says of a character or an offset is so in a text. -/
def Fault.IsOf (text : List Char) : Fault → Prop
  | .trailing found offset _ | .expected _ found offset => text[offset]? = some found
  | .missingName offset | .unclosedArguments offset | .badArray offset => offset ≤ text.length
  | .expectedAtEnd _ | .danglingEscape | .emptyAssembly => True

theorem Fault.IsAt.isOf {fault : Fault} (h : fault.IsAt c) (hc : c.IsIn text) :
    fault.IsOf text := by
  have found {next : Char} (hhead : c.rest.head? = some next) : text[c.offset]? = some next := by
    rw [← hhead, hc.2, List.head?_drop]
  cases fault with
  | trailing | expected =>
    obtain ⟨rfl, hhead⟩ := h
    exact found hhead
  | missingName | unclosedArguments | badArray =>
    obtain rfl := h
    exact hc.1
  | expectedAtEnd | danglingEscape | emptyAssembly => trivial

/-- The parser of type names ends for every text, with a name or a fault, as soon as it may take
twice as many turns as there are characters and one more, and no step of it leaves the text. From
every place in the text, reading a type name ends in the text, behind at least one character if it
succeeds. A character that a fault names stands in the text at the offset that it names. -/
theorem parse_total (text : String) :
    (∀ turns, 2 * text.length + 1 ≤ turns → ∃ c,
      Run.wholeName text turns ⟨0, text.toList⟩ = some (parse text, c) ∧ c.IsIn text.toList) ∧
    (∀ (qualified : Bool) (c : Cursor), c.IsIn text.toList →
      ∀ turns, 2 * c.rest.length + 1 ≤ turns → ∃ result c',
        Run.typeName text.toList turns qualified c = some (result, c') ∧ c'.IsIn text.toList ∧
          ∀ name, result = .ok name → c.offset < c'.offset) ∧
    ∀ fault, parse text = .error fault → fault.IsOf text.toList := by
  have hstart := Cursor.isIn_start text.toList
  refine ⟨fun turns hturns => ?_, fun qualified c hc turns hturns => ?_, fun fault hfault => ?_⟩
  · have hwhole := ends_wholeName text hturns
    unfold Ends at hwhole
    unfold parse
    cases hparse : wholeName text ⟨0, text.toList⟩ with
    | ok name c =>
      rw [hparse] at hwhole
      exact ⟨c, hwhole.1, hwhole.2.isIn hstart⟩
    | error fault stop =>
      rw [hparse] at hwhole
      obtain ⟨c, hrun, hreach, -⟩ := hwhole
      exact ⟨c, hrun, hreach.isIn hstart⟩
  · have hname :=
      (ends_typeName_argumentList _).1 c hc (Nat.le_refl _) turns hturns qualified
    unfold Ends at hname
    split at hname
    · rename_i name c' _
      exact ⟨.ok name, c', hname.1, hname.2.isIn hc, fun _ _ => hname.2.offset⟩
    · rename_i fault _ _
      obtain ⟨c', hrun, hreach, -⟩ := hname
      exact ⟨.error fault, c', hrun, hreach.isIn hc, nofun⟩
  · have hwhole := ends_wholeName text (Nat.le_refl _)
    unfold Ends at hwhole
    unfold parse at hfault
    split at hfault
    · cases hfault
    · rename_i hparse
      cases hfault
      rw [hparse] at hwhole
      obtain ⟨c, -, hreach, hat⟩ := hwhole
      exact hat.isOf (hreach.isIn hstart)

/-- With a bracket too many, nine turns are enough, and the bracket is where the fault says. -/
theorem parse_total_bracket :
    (∃ c, Run.wholeName "Foo]" 9 ⟨0, "Foo]".toList⟩ = some (parse "Foo]", c) ∧
      c.IsIn "Foo]".toList) ∧
    "Foo]".toList[3]? = some ']' := by
  obtain ⟨hends, -, hfault⟩ := parse_total "Foo]"
  exact ⟨hends 9 (by decide), hfault (.trailing ']' 3 "Foo]") (by rfl)⟩

end CilTrim.TypeName
