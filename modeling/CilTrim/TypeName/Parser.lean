import CilTrim.TypeName.Basic

/-!
# Reading type names

The grammar of type names, with a backslash in front of a character that would otherwise end a
name. Faults count characters from the start of the text:

* `TypeName.Fault`: why a text is no type name;
* `TypeName.Cursor`, `TypeName.Parse`: a place in the text, and parsers that move it;
* `TypeName.parse`: the type name that a whole text is.
-/

namespace CilTrim.TypeName

/-- Why a text is no type name. -/
inductive Fault where
  /-- A name ends before the text does. -/
  | trailing (found : Char) (offset : Nat) (text : String)
  | expected (wanted found : Char) (offset : Nat)
  | expectedAtEnd (wanted : Char)
  /-- A backslash ends the text. -/
  | danglingEscape
  | missingName (offset : Nat)
  | unclosedArguments (offset : Nat)
  | badArray (offset : Nat)
  | emptyAssembly
deriving Repr, DecidableEq

/-- The wording of a fault. -/
def Fault.message : Fault → String
  | .trailing found offset text =>
    "Unexpected '" ++ found.toString ++ "' at offset " ++ toString offset ++ " in type name '" ++
      text ++ "'"
  | .expected wanted found offset =>
    "Expected '" ++ wanted.toString ++ "' but found '" ++ found.toString ++ "' at offset " ++
      toString offset
  | .expectedAtEnd wanted => "Expected '" ++ wanted.toString ++ "' but reached end of type name"
  | .danglingEscape => "Dangling escape at end of type name"
  | .missingName offset => "Missing type name at offset " ++ toString offset
  | .unclosedArguments offset => "Unterminated generic argument list at offset " ++ toString offset
  | .badArray offset => "Invalid array specification at offset " ++ toString offset
  | .emptyAssembly => "Empty assembly name in type name"

/-- A place in a text, and the text from there on. -/
structure Cursor where
  offset : Nat
  rest : List Char
deriving Repr, DecidableEq

/-- The place behind the next `n` characters. -/
def Cursor.skip (c : Cursor) (n : Nat) : Cursor :=
  ⟨c.offset + n, c.rest.drop n⟩

/-- The place behind the blanks that come next. -/
def Cursor.skipBlanks (c : Cursor) : Cursor :=
  c.skip (c.rest.takeWhile Text.isBlank).length

/-- Parsers of parts of a type name. -/
abbrev Parse := EStateM Fault Cursor

namespace Parse

/-- The next character, which is not consumed. -/
def peek? : Parse (Option Char) := do
  pure (← get).rest.head?

/-- Passes the next character. -/
def advance : Parse Unit :=
  modify (·.skip 1)

/-- Passes the blanks that come next. -/
def skipBlanks : Parse Unit :=
  modify Cursor.skipBlanks

/-- Passes a wanted character, which blanks may precede. -/
def expect (wanted : Char) : Parse Unit := do
  skipBlanks
  match ← peek? with
  | some found =>
    if found = wanted then advance else throw (.expected wanted found (← get).offset)
  | none => throw (.expectedAtEnd wanted)

end Parse

open Parse

/-- A character that ends a name unless a backslash precedes it. -/
def isDelimiter (c : Char) : Bool :=
  c == '+' || c == ',' || c == '[' || c == ']' || c == '*' || c == '&'

/-- The characters of a name, without the backslashes of its escapes, and the number of characters
it takes in the text. There is none if the text ends in a backslash. -/
def scanName : List Char → Option (List Char × Nat)
  | [] => some ([], 0)
  | '\x5c' :: rest =>
    match rest with
    | [] => none
    | c :: rest => (scanName rest).map fun (name, taken) => (c :: name, taken + 2)
  | c :: rest =>
    if isDelimiter c then some ([], 0)
    else (scanName rest).map fun (name, taken) => (c :: name, taken + 1)

/-- The characters of an assembly name up to a closing bracket, without the backslashes of its
escapes, and the number of characters it takes in the text. -/
def scanAssembly : List Char → List Char × Nat
  | [] => ([], 0)
  | ['\x5c'] => (['\x5c'], 1)
  | '\x5c' :: c :: rest => let (name, taken) := scanAssembly rest; (c :: name, taken + 2)
  | c :: rest =>
    if c = ']' then ([], 0) else let (name, taken) := scanAssembly rest; (c :: name, taken + 1)

/-- A name, without the blanks around it. -/
def identifier : Parse String := do
  skipBlanks
  match scanName (← get).rest with
  | none => throw .danglingEscape
  | some (name, taken) =>
    modify (·.skip taken)
    match Text.trimEnd name with
    | [] => throw (.missingName (← get).offset)
    | name => pure (String.ofList name)

/-- The assembly behind a comma. -/
def assemblyName : Parse String := do
  let (name, taken) := scanAssembly (← get).rest
  modify (·.skip taken)
  match Text.trim name with
  | [] => throw .emptyAssembly
  | name => pure (String.ofList name)

/-- A name cut at its last point into a namespace and the name in it. -/
def splitQualified (qualified : String) : String × String :=
  let reversed := qualified.toList.reverse
  match reversed.dropWhile (· != '.') with
  | [] => ("", qualified)
  | _ :: space =>
    (String.ofList space.reverse, String.ofList (reversed.takeWhile (· != '.')).reverse)

/-- The text goes on with a bracket that opens generic arguments, and not an array. -/
def opensArguments : List Char → Bool
  | '[' :: rest =>
    match rest.dropWhile Text.isBlank with
    | [] => false
    | c :: _ => !(c == ']' || c == ',' || c == '*')
  | _ => false

/-- The names of nested types, each behind a plus. -/
def nestedNames : Nat → Parse (List String)
  | 0 => pure []
  | fuel + 1 => do
    if (← peek?) = some '+' then
      advance
      let name ← identifier
      pure (name :: (← nestedNames fuel))
    else pure []

/-- The inside of an array bracket and the bracket that closes it: the rank so far, which wraps
around, and whether a star has been seen. -/
def arraySpec : Nat → UInt32 → Bool → Parse TypeNameModifier
  | 0, _, _ => do throw (.badArray (← get).offset)
  | fuel + 1, rank, bounded => do
    skipBlanks
    match ← peek? with
    | some ',' =>
      advance
      arraySpec fuel (rank + 1) bounded
    | some '*' =>
      advance
      arraySpec fuel rank true
    | some ']' =>
      advance
      pure (if rank = 1 ∧ !bounded then .szArray else .array rank)
    | _ => throw (.badArray (← get).offset)

/-- The modifiers behind a name. -/
def modifierList : Nat → Parse (List TypeNameModifier)
  | 0 => pure []
  | fuel + 1 => do
    skipBlanks
    match ← peek? with
    | some '*' =>
      advance
      pure (.pointer :: (← modifierList fuel))
    | some '&' =>
      advance
      pure (.byRef :: (← modifierList fuel))
    | some '[' =>
      if opensArguments (← get).rest then pure []
      else
        advance
        let modifier ← arraySpec (fuel + 1) 1 false
        pure (modifier :: (← modifierList fuel))
    | _ => pure []

mutual

/-- A type name, with an assembly only where `qualified` allows one. Every step passes a character,
so `fuel` need only exceed the number of characters that are left. -/
def typeName (fuel : Nat) (qualified : Bool) : Parse TypeName :=
  match fuel with
  | 0 => do throw (.missingName (← get).offset)
  | fuel + 1 => do
    let (space, name) := splitQualified (← identifier)
    let nested ← nestedNames (fuel + 1)
    let arguments ←
      if opensArguments (← get).rest then do
        expect '['
        argumentList fuel
      else pure []
    let modifiers ← modifierList (fuel + 1)
    skipBlanks
    let assembly ←
      if qualified ∧ (← peek?) = some ',' then do
        advance
        pure (some (← assemblyName))
      else pure none
    pure { space, name, nested, arguments, modifiers, assembly }

/-- Generic arguments up to the bracket that closes them. An argument in brackets of its own may
have an assembly. -/
def argumentList (fuel : Nat) : Parse (List TypeName) :=
  match fuel with
  | 0 => do throw (.unclosedArguments (← get).offset)
  | fuel + 1 => do
    skipBlanks
    let argument ←
      if (← peek?) = some '[' then do
        advance
        let argument ← typeName fuel true
        expect ']'
        pure argument
      else typeName fuel false
    skipBlanks
    match ← peek? with
    | some ',' =>
      advance
      pure (argument :: (← argumentList fuel))
    | some ']' =>
      advance
      pure [argument]
    | _ => throw (.unclosedArguments (← get).offset)

end

/-- A type name and the blanks behind it, which are the whole text. -/
def wholeName (text : String) : Parse TypeName := do
  let name ← typeName (2 * text.length + 2) true
  skipBlanks
  match (← get).rest with
  | [] => pure name
  | found :: _ => throw (.trailing found (← get).offset text)

/-- The type name that a text is. -/
def parse (text : String) : Except Fault TypeName :=
  match wholeName text ⟨0, text.toList⟩ with
  | .ok name _ => .ok name
  | .error fault _ => .error fault

end CilTrim.TypeName
