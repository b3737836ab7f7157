import CilTrim.Attribute.Value
import CilTrim.Blob.Reader

/-!
# Decoding attribute values

An encoded value is a prolog, one value for each parameter of the constructor, and named arguments,
which name their kinds themselves. Kinds and values nest only so deep:

* `DecodeFault`: why bytes are no attribute value;
* `kindAt`, `valueAt`: a kind and a value, with so many levels of nesting left;
* `Attribute.decode`: the value that a blob stands for, for parameters of given kinds.
-/

namespace CilTrim.Attribute

/-- Why bytes are no attribute value. -/
inductive DecodeFault where
  | blob (fault : Blob.Fault)
  /-- There are no bytes, but parameters. -/
  | empty (parameters : Nat)
  | badProlog (found : Nat)
  /-- A named argument is neither a field nor a property. -/
  | badMember (found : UInt8)
  | unnamedArgument
  | unnamedEnum
  | deepKind
  | deepValue
  | badKind (tag : UInt8)
  | unknownEnum (name : String)
  | badEnum (name : String) (underlying : ArgKind)
  | negativeLength (length : Int)
  | longArray (length remaining : Nat)
deriving Repr, DecidableEq

/-- How deep kinds and values nest. -/
def maxDepth : Nat := 64

/-- The wording of a fault. -/
def DecodeFault.message : DecodeFault → String
  | .blob fault => fault.message
  | .empty parameters =>
    "Empty custom attribute blob for a constructor with " ++ toString parameters ++ " parameters"
  | .badProlog found =>
    "Invalid custom attribute prolog - expected 0x0001, got 0x" ++ Text.hex 4 found
  | .badMember found => "Invalid field/property indicator: 0x" ++ Text.hexUpper 2 found.toNat
  | .unnamedArgument => "Named argument without a name"
  | .unnamedEnum => "Enum argument without a type name"
  | .deepKind => "Custom attribute type nesting exceeds " ++ toString maxDepth
  | .deepValue => "Custom attribute value nesting exceeds " ++ toString maxDepth
  | .badKind tag => "Unsupported custom attribute argument type: 0x" ++ Text.hexUpper 2 tag.toNat
  | .unknownEnum name => "Cannot determine underlying type of enum " ++ name
  | .badEnum name underlying =>
    "Enum " ++ name ++ " has non-integral underlying type " ++ underlying.describe
  | .negativeLength length => "Invalid array length: " ++ toString length
  | .longArray length remaining =>
    "Array of " ++ toString length ++ " elements exceeds remaining " ++ toString remaining ++
      " bytes"

/-- Decoding: reads of a blob that may also fail for reasons of their own. -/
abbrev Decode := EStateM DecodeFault Blob.Reader

/-- The kind that an enumeration is stored as, by its type name. -/
abbrev EnumResolver := String → Option ArgKind

namespace Decode

/-- A plain read as a step of decoding. -/
def read {α : Type} (r : Blob.Read α) : Decode α := fun reader =>
  match r reader with
  | .ok value reader => .ok value reader
  | .error fault reader => .error (.blob fault) reader

/-- The results of a step that is repeated. -/
def times {α : Type} (step : Decode α) : Nat → Decode (List α)
  | 0 => pure []
  | n + 1 => do
    let value ← step
    pure (value :: (← times step n))

end Decode

open Decode

/-- The kind that an enumeration is stored as, which must be an integral one. -/
def enumUnderlying (resolver : EnumResolver) (name : String) : Decode ArgKind :=
  match resolver name with
  | none => throw (.unknownEnum name)
  | some kind => if kind.isIntegral then pure kind else throw (.badEnum name kind)

/-- A kind, with `levels` levels of nesting left. -/
def kindAt (resolver : EnumResolver) : Nat → Decode ArgKind
  | 0 => throw .deepKind
  | levels + 1 => do
    let tag ← read Blob.Read.byte
    match ArgKind.ofTag? tag with
    | some kind => pure kind
    | none =>
      if tag = 0x1d then pure (.array (← kindAt resolver levels))
      else if tag = 0x55 then
        match ← read Blob.Read.serString with
        | none => throw .unnamedEnum
        | some name => pure (.enum name (← enumUnderlying resolver name))
      else throw (.badKind tag)

/-- A character from its code unit; half of a surrogate pair is replaced. -/
def charOfUnit (unit : Nat) : Char :=
  if unit.isValidChar then Char.ofNat unit else Char.ofNat 0xfffd

/-- A value of a kind, with `levels` levels of nesting left. -/
def valueAt (resolver : EnumResolver) : Nat → ArgKind → Decode Argument
  | 0, _ => throw .deepValue
  | levels + 1, kind =>
    match kind with
    | .boolean => do pure (.bool ((← read (Blob.Read.word 1)) != 0))
    | .char => do pure (.char (charOfUnit (← read (Blob.Read.word 2))))
    | .i1 => do pure (.i1 (UInt8.ofNat (← read (Blob.Read.word 1))).toInt8)
    | .u1 => do pure (.u1 (UInt8.ofNat (← read (Blob.Read.word 1))))
    | .i2 => do pure (.i2 (UInt16.ofNat (← read (Blob.Read.word 2))).toInt16)
    | .u2 => do pure (.u2 (UInt16.ofNat (← read (Blob.Read.word 2))))
    | .i4 => do pure (.i4 (UInt32.ofNat (← read (Blob.Read.word 4))).toInt32)
    | .u4 => do pure (.u4 (UInt32.ofNat (← read (Blob.Read.word 4))))
    | .i8 => do pure (.i8 (UInt64.ofNat (← read (Blob.Read.word 8))).toInt64)
    | .u8 => do pure (.u8 (UInt64.ofNat (← read (Blob.Read.word 8))))
    | .r4 => do pure (.r4 (UInt32.ofNat (← read (Blob.Read.word 4))))
    | .r8 => do pure (.r8 (UInt64.ofNat (← read (Blob.Read.word 8))))
    | .string => do pure (.string ((← read Blob.Read.serString).getD ""))
    | .type => do pure (.type ((← read Blob.Read.serString).getD ""))
    | .object => do valueAt resolver levels (← kindAt resolver levels)
    | .enum name underlying => do pure (.enum name (← valueAt resolver levels underlying))
    | .array element => do
      let length := (UInt32.ofNat (← read (Blob.Read.word 4))).toInt32.toInt
      if length = -1 then pure (.array [])
      else if length < 0 then throw (.negativeLength length)
      else
        let remaining := (← get).remaining
        if remaining < length.toNat then throw (.longArray length.toNat remaining)
        else pure (.array (← times (valueAt resolver levels element) length.toNat))

/-- A value of a kind, with no nesting around it. -/
def value (resolver : EnumResolver) (kind : ArgKind) : Decode Argument :=
  valueAt resolver (maxDepth + 1) kind

/-- A named argument, or nothing at the end of the bytes or at a zero byte. -/
def namedArgument? (resolver : EnumResolver) : Decode (Option NamedArgument) := do
  if !(← get).hasMore then return none
  let member ← read Blob.Read.byte
  if member = 0 then return none
  if member ≠ 0x53 ∧ member ≠ 0x54 then throw (.badMember member)
  let kind ← kindAt resolver (maxDepth + 1)
  match ← read Blob.Read.serString with
  | none => throw .unnamedArgument
  | some name =>
    let value ← value resolver kind
    pure (some { isField := member == 0x53, name, kind, value })

/-- At most `n` named arguments. -/
def namedArguments (resolver : EnumResolver) : Nat → Decode (List NamedArgument)
  | 0 => pure []
  | n + 1 => do
    match ← namedArgument? resolver with
    | none => pure []
    | some argument => pure (argument :: (← namedArguments resolver n))

/-- One value for each kind of a list. -/
def fixedArguments (resolver : EnumResolver) : List ArgKind → Decode (List Argument)
  | [] => pure []
  | kind :: kinds => do
    let argument ← value resolver kind
    pure (argument :: (← fixedArguments resolver kinds))

/-- A whole attribute value. The count of named arguments may be left out. -/
def attributeValue (resolver : EnumResolver) (params : List ArgKind) : Decode AttributeValue := do
  if !(← get).hasMore then
    if params.isEmpty then return { fixed := [], named := [] }
    throw (.empty params.length)
  let prolog ← read (Blob.Read.word 2)
  if prolog ≠ 1 then throw (.badProlog prolog)
  let fixed ← fixedArguments resolver params
  if (← get).remaining < 2 then return { fixed, named := [] }
  let count ← read (Blob.Read.word 2)
  let named ← namedArguments resolver count
  pure { fixed, named }

/-- The value that a blob stands for, for parameters of the given kinds. -/
def decode (blob : List UInt8) (params : List ArgKind) (resolver : EnumResolver) :
    Except DecodeFault AttributeValue :=
  match attributeValue resolver params (Blob.Reader.ofBytes blob) with
  | .ok value _ => .ok value
  | .error fault _ => .error fault

end CilTrim.Attribute
