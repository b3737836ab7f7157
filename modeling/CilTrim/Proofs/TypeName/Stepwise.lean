import CilTrim.Proofs.Run
import CilTrim.TypeName.Parser

/-!
# Parsers that have to end

The parsers of type names as loops and recursion that read one character after the other. They are
undefined where they would take more turns than they may, and where a step would leave the text:

* `Cursor.IsIn`: places in a text, with `Cursor.Reaches` for what is ahead of them;
* `Run`, `Run.of`: parsers that may be undefined, and steps that have to stay in the text;
* `Run.typeName`, `Run.argumentList`, …: the parsers, with so many turns;
* `Ends`: such a parser ends with what a bounded one gives, some characters further on.
-/

namespace CilTrim.TypeName

/-! ## Places -/

namespace Cursor

variable {text : List Char} {c c' c'' : Cursor} {n k : Nat}

/-- A place in a text. Behind the last character there is one more. -/
def IsIn (text : List Char) (c : Cursor) : Prop :=
  c.offset ≤ text.length ∧ c.rest = text.drop c.offset

instance (text : List Char) (c : Cursor) : Decidable (c.IsIn text) :=
  inferInstanceAs (Decidable (_ ∧ _))

theorem isIn_start (text : List Char) : IsIn text ⟨0, text⟩ :=
  ⟨Nat.zero_le _, rfl⟩

theorem IsIn.length_rest (h : c.IsIn text) : c.offset + c.rest.length = text.length := by
  rw [h.2, List.length_drop]
  exact Nat.add_sub_cancel' h.1

/-- At least `n` characters ahead, in the text that is left, there is another place. -/
def Reaches (c : Cursor) (n : Nat) (c' : Cursor) : Prop :=
  ∃ k, n ≤ k ∧ k ≤ c.rest.length ∧ c' = c.skip k

theorem Reaches.refl (c : Cursor) : c.Reaches 0 c :=
  ⟨0, Nat.le_refl 0, Nat.zero_le _, rfl⟩

theorem reaches_skip (h : k ≤ c.rest.length) : c.Reaches k (c.skip k) :=
  ⟨k, Nat.le_refl k, h, rfl⟩

theorem Reaches.mono (h : c.Reaches n c') (hk : k ≤ n) : c.Reaches k c' := by
  obtain ⟨j, hj, hle, rfl⟩ := h
  exact ⟨j, Nat.le_trans hk hj, hle, rfl⟩

theorem Reaches.trans (h : c.Reaches n c') (h' : c'.Reaches k c'') : c.Reaches (n + k) c'' := by
  obtain ⟨i, hi, hle, rfl⟩ := h
  obtain ⟨j, hj, hle', rfl⟩ := h'
  rw [skip, List.length_drop] at hle'
  refine ⟨i + j, Nat.add_le_add hi hj, by omega, ?_⟩
  simp only [skip, List.drop_drop, Nat.add_assoc]

theorem Reaches.isIn (h : c.Reaches n c') (hc : c.IsIn text) : c'.IsIn text := by
  obtain ⟨k, -, hle, rfl⟩ := h
  have hlength := hc.length_rest
  refine ⟨?_, ?_⟩
  · show c.offset + k ≤ text.length
    omega
  · rw [skip, hc.2, List.drop_drop]

theorem Reaches.length_rest (h : c.Reaches n c') : c'.rest.length + n ≤ c.rest.length := by
  obtain ⟨k, hk, hle, rfl⟩ := h
  rw [skip, List.length_drop]
  omega

theorem Reaches.offset (h : c.Reaches n c') : c.offset + n ≤ c'.offset := by
  obtain ⟨k, hk, -, rfl⟩ := h
  exact Nat.add_le_add_left hk _

end Cursor

/-- What a fault says of a character or an offset is so at a place. -/
def Fault.IsAt (c : Cursor) : Fault → Prop
  | .trailing found offset _ | .expected _ found offset =>
    offset = c.offset ∧ c.rest.head? = some found
  | .missingName offset | .unclosedArguments offset | .badArray offset => offset = c.offset
  | .expectedAtEnd _ => c.rest = []
  | .danglingEscape | .emptyAssembly => True

open Parse

/-! ## The parsers -/

/-- Parsers that may be undefined. -/
abbrev Run := CilTrim.Run Fault Cursor

namespace Run

variable {α β : Type}

/-- A step, which is undefined if it leaves the text. -/
def of (text : List Char) (step : Parse α) : Run α := fun c =>
  match step c with
  | .ok a c' => if c'.IsIn text then some (.ok a, c') else none
  | .error fault c' => if c'.IsIn text then some (.error fault, c') else none

/-- A fault at the place that has been reached. -/
def failAt (text : List Char) (fault : Nat → Fault) : Run α :=
  of text do throw (fault (← get).offset)

theorem of_bind {text : List Char} {step : Parse α} {next : α → Run β} {c c' : Cursor} {a : α}
    (h : step c = .ok a c') (hc : c'.IsIn text) : (of text step >>= next) c = next a c' := by
  refine CilTrim.Run.bind_of_ok ?_
  rw [of, h]
  exact if_pos hc

theorem get_bind {text : List Char} {next : Cursor → Run β} {c : Cursor} (hc : c.IsIn text) :
    (of text get >>= next) c = next c c :=
  of_bind rfl hc

/-- Passes a wanted character, which blanks may precede. -/
def expect (text : List Char) (wanted : Char) : Run Unit := do
  of text skipBlanks
  match ← of text peek? with
  | some found => if found = wanted then of text advance else failAt text (.expected wanted found)
  | none => of text (throw (.expectedAtEnd wanted))

/-- The characters of a name, behind those that have been read. -/
def nameFrom (text : List Char) : Nat → List Char → Run (List Char)
  | 0, _ => CilTrim.Run.undefined
  | turns + 1, read => do
    match (← of text get).rest with
    | [] => pure read
    | c :: rest =>
      if isDelimiter c then pure read
      else if c = '\x5c' then
        match rest with
        | [] => of text (throw .danglingEscape)
        | escaped :: _ =>
          of text (modify (·.skip 2))
          nameFrom text turns (read ++ [escaped])
      else
        of text advance
        nameFrom text turns (read ++ [c])

/-- A name, without the blanks around it. -/
def identifier (text : List Char) (turns : Nat) : Run String := do
  of text skipBlanks
  match Text.trimEnd (← nameFrom text turns []) with
  | [] => failAt text .missingName
  | name => pure (String.ofList name)

/-- The characters of the name of an assembly, behind those that have been read. -/
def assemblyFrom (text : List Char) : Nat → List Char → Run (List Char)
  | 0, _ => CilTrim.Run.undefined
  | turns + 1, read => do
    match (← of text get).rest with
    | [] => pure read
    | c :: rest =>
      if c = ']' then pure read
      else
        match rest with
        | escaped :: _ =>
          if c = '\x5c' then
            of text (modify (·.skip 2))
            assemblyFrom text turns (read ++ [escaped])
          else
            of text advance
            assemblyFrom text turns (read ++ [c])
        | [] =>
          of text advance
          assemblyFrom text turns (read ++ [c])

/-- The assembly behind a comma. -/
def assemblyName (text : List Char) (turns : Nat) : Run String := do
  match Text.trim (← assemblyFrom text turns []) with
  | [] => of text (throw .emptyAssembly)
  | name => pure (String.ofList name)

/-- The names of nested types, each behind a plus. -/
def nestedNames (text : List Char) : Nat → Run (List String)
  | 0 => CilTrim.Run.undefined
  | turns + 1 => do
    if (← of text peek?) = some '+' then
      of text advance
      let name ← identifier text turns
      pure (name :: (← nestedNames text turns))
    else pure []

/-- The inside of an array bracket and the bracket that closes it. -/
def arraySpec (text : List Char) : Nat → UInt32 → Bool → Run TypeNameModifier
  | 0, _, _ => CilTrim.Run.undefined
  | turns + 1, rank, bounded => do
    of text skipBlanks
    match ← of text peek? with
    | some ',' =>
      of text advance
      arraySpec text turns (rank + 1) bounded
    | some '*' =>
      of text advance
      arraySpec text turns rank true
    | some ']' =>
      of text advance
      pure (if rank = 1 ∧ !bounded then .szArray else .array rank)
    | _ => failAt text .badArray

/-- The modifiers behind a name. -/
def modifierList (text : List Char) : Nat → Run (List TypeNameModifier)
  | 0 => CilTrim.Run.undefined
  | turns + 1 => do
    of text skipBlanks
    match ← of text peek? with
    | some '*' =>
      of text advance
      pure (.pointer :: (← modifierList text turns))
    | some '&' =>
      of text advance
      pure (.byRef :: (← modifierList text turns))
    | some '[' =>
      if opensArguments (← of text get).rest then pure []
      else
        of text advance
        let modifier ← arraySpec text turns 1 false
        pure (modifier :: (← modifierList text turns))
    | _ => pure []

/-- What is read behind the generic arguments of a name. -/
def nameTail (text : List Char) (turns : Nat) (space name : String) (nested : List String)
    (arguments : List TypeName) (qualified : Bool) : Run TypeName := do
  let modifiers ← modifierList text turns
  of text skipBlanks
  let assembly ←
    if qualified ∧ (← of text peek?) = some ',' then do
      of text advance
      pure (some (← assemblyName text turns))
    else pure none
  pure { space, name, nested, arguments, modifiers, assembly }

/-- What is read behind a generic argument: more of them, or the bracket that closes the list. -/
def argumentsBehind (text : List Char) (more : Run (List TypeName)) (first : TypeName) :
    Run (List TypeName) := do
  of text skipBlanks
  match ← of text peek? with
  | some ',' =>
    of text advance
    pure (first :: (← more))
  | some ']' =>
    of text advance
    pure [first]
  | _ => failAt text .unclosedArguments

mutual

/-- A type name, with an assembly only where `qualified` allows one. -/
def typeName (text : List Char) : Nat → Bool → Run TypeName
  | 0, _ => CilTrim.Run.undefined
  | turns + 1, qualified => do
    let (space, name) := splitQualified (← identifier text (turns + 1))
    let nested ← nestedNames text (turns + 1)
    if opensArguments (← of text get).rest then do
      expect text '['
      nameTail text (turns + 1) space name nested (← argumentList text turns) qualified
    else nameTail text (turns + 1) space name nested [] qualified

/-- Generic arguments up to the bracket that closes them. -/
def argumentList (text : List Char) : Nat → Run (List TypeName)
  | 0 => CilTrim.Run.undefined
  | turns + 1 => do
    of text skipBlanks
    if (← of text peek?) = some '[' then do
      of text advance
      let first ← typeName text turns true
      expect text ']'
      argumentsBehind text (argumentList text turns) first
    else argumentsBehind text (argumentList text turns) (← typeName text turns false)

end

/-- A type name and the blanks behind it, which are the whole text. -/
def wholeName (text : String) (turns : Nat) : Run TypeName := do
  let name ← typeName text.toList turns true
  of text.toList skipBlanks
  match (← of text.toList get).rest with
  | [] => pure name
  | found :: _ => failAt text.toList (.trailing found · text)

end Run

/-! ## Parsers that end -/

/-- From a place, a parser that may be undefined ends with what a bounded one gives, at least `n`
characters ahead if it succeeds. A fault is one of the place where it ends. -/
def Ends {α : Type} (run : Run α) (bounded : Parse α) (n : Nat) (c : Cursor) : Prop :=
  match bounded c with
  | .ok a c' => run c = some (.ok a, c') ∧ c.Reaches n c'
  | .error fault _ =>
    ∃ c', run c = some (.error fault, c') ∧ c.Reaches 0 c' ∧ fault.IsAt c'

section

variable {α β : Type} {text : List Char} {c : Cursor} {n k : Nat}

theorem ends_pure (a : α) : Ends (pure a) (pure a) 0 c :=
  ⟨rfl, .refl c⟩

theorem Ends.mono {run : Run α} {bounded : Parse α} (h : Ends run bounded n c) (hk : k ≤ n) :
    Ends run bounded k c := by
  unfold Ends at h ⊢
  split at h <;> rename_i hb
  · exact ⟨h.1, h.2.mono hk⟩
  · exact h

section

variable {run : Run α} {bounded : Parse α} {next : α → Run β} {next' : α → Parse β}

/-- A parser that goes on where another one ends. -/
theorem Ends.bind_add (h : Ends run bounded n c)
    (h' : ∀ a c', bounded c = .ok a c' → c.Reaches n c' → Ends (next a) (next' a) k c') :
    Ends (run >>= next) (bounded >>= next') (n + k) c := by
  unfold Ends at h ⊢
  cases hb : bounded c with
  | ok a c' =>
    rw [hb] at h
    obtain ⟨hrun, hreach⟩ := h
    have hnext := h' a c' hb hreach
    have hbounded : (bounded >>= next') c = next' a c' := by
      simp only [Bind.bind, EStateM.bind, hb]
    rw [CilTrim.Run.bind_of_ok hrun, hbounded]
    unfold Ends at hnext
    cases hn : next' a c' with
    | ok b c'' =>
      rw [hn] at hnext
      exact ⟨hnext.1, hreach.trans hnext.2⟩
    | error fault _ =>
      rw [hn] at hnext
      obtain ⟨c'', hrun'', hreach', hat⟩ := hnext
      exact ⟨c'', hrun'', (hreach.trans hreach').mono (Nat.zero_le _), hat⟩
  | error fault stop =>
    rw [hb] at h
    obtain ⟨c', hrun, hreach, hat⟩ := h
    have hbounded : (bounded >>= next') c = .error fault stop := by
      simp only [Bind.bind, EStateM.bind, hb]
    rw [hbounded]
    exact ⟨c', CilTrim.Run.bind_of_error hrun, hreach, hat⟩

/-- The characters are passed by what goes on. -/
theorem Ends.bind (h : Ends run bounded 0 c) (hc : c.IsIn text)
    (h' : ∀ a c', c'.IsIn text → c'.rest.length ≤ c.rest.length →
      Ends (next a) (next' a) n c') :
    Ends (run >>= next) (bounded >>= next') n c :=
  Nat.zero_add n ▸ h.bind_add fun a c' _ hreach => h' a c' (hreach.isIn hc) hreach.length_rest

/-- The characters are passed before it goes on. -/
theorem Ends.bind_rest (h : Ends run bounded n c) (hc : c.IsIn text)
    (h' : ∀ a c', c'.IsIn text → c'.rest.length + n ≤ c.rest.length →
      Ends (next a) (next' a) 0 c') :
    Ends (run >>= next) (bounded >>= next') n c :=
  h.bind_add fun a c' _ hreach => h' a c' (hreach.isIn hc) hreach.length_rest

end

/-- A step that stays in the text. -/
theorem ends_of {step : Parse α} {a : α} {c' : Cursor} (hc : c.IsIn text) (h : step c = .ok a c')
    (hreach : c.Reaches n c') : Ends (Run.of text step) step n c := by
  unfold Ends Run.of
  rw [h]
  exact ⟨if_pos (hreach.isIn hc), hreach⟩

/-- A parser that looks at the place. -/
theorem ends_get {next : Cursor → Run β} {next' : Cursor → Parse β} (hc : c.IsIn text)
    (h : Ends (next c) (next' c) n c) : Ends (Run.of text get >>= next) (get >>= next') n c := by
  refine Nat.zero_add n ▸ (ends_of hc rfl (.refl c)).bind_add fun a c' hget _ => ?_
  cases hget
  exact h

/-- A parser that looks at the next character. -/
theorem ends_peek {next : Option Char → Run β} {next' : Option Char → Parse β} (hc : c.IsIn text)
    (h : Ends (next c.rest.head?) (next' c.rest.head?) n c) :
    Ends (Run.of text peek? >>= next) (peek? >>= next') n c := by
  refine Nat.zero_add n ▸ (ends_of hc rfl (.refl c)).bind_add fun a c' hpeek _ => ?_
  cases hpeek
  exact h

theorem ends_skip (hc : c.IsIn text) (hn : n ≤ c.rest.length) :
    Ends (Run.of text (modify (·.skip n))) (modify (·.skip n)) n c :=
  ends_of hc rfl (Cursor.reaches_skip hn)

theorem ends_advance (hc : c.IsIn text) {found : Char} (h : c.rest.head? = some found) :
    Ends (Run.of text advance) advance 1 c :=
  ends_skip hc (List.length_pos_iff.mpr fun hnil => by rw [hnil] at h; cases h)

theorem ends_skipBlanks (hc : c.IsIn text) : Ends (Run.of text skipBlanks) skipBlanks 0 c :=
  ends_of hc rfl ((Cursor.reaches_skip (List.takeWhile_prefix _).length_le).mono (Nat.zero_le _))

/-- A parser that gives up. -/
theorem ends_throw (hc : c.IsIn text) (fault : Fault) (h : fault.IsAt c) :
    Ends (Run.of text (throw fault : Parse α)) (throw fault) n c :=
  ⟨c, if_pos hc, .refl c, h⟩

theorem ends_failAt (hc : c.IsIn text) (fault : Nat → Fault) (h : (fault c.offset).IsAt c) :
    Ends (Run.failAt text fault : Run α) (do throw (fault (← get).offset)) n c :=
  ⟨c, if_pos hc, .refl c, h⟩

theorem ends_expect (hc : c.IsIn text) (wanted : Char) :
    Ends (Run.expect text wanted) (expect wanted) 1 c := by
  refine (ends_skipBlanks hc).bind hc fun _ c' hc' _ => ?_
  refine ends_peek hc' ?_
  cases hhead : c'.rest.head? with
  | none => exact ends_throw hc' (.expectedAtEnd wanted) (List.head?_eq_none_iff.mp hhead)
  | some found =>
    by_cases heq : found = wanted
    · simp only [if_pos heq]
      exact ends_advance hc' hhead
    · simp only [if_neg heq]
      exact ends_failAt hc' (.expected wanted found) ⟨rfl, hhead⟩

end

end CilTrim.TypeName
