import CilTrim.Attribute.Value
import CilTrim.Blob.Writer

/-!
# Encoding attribute values

The bytes of an attribute value, for parameters of given kinds. A value for an object parameter is
written behind its own kind:

* `EncodeFault`: why a value has no encoding;
* `kindBytes`: the bytes of a kind;
* `leafBytes`, `ownBytes`, `valueBytes`: the bytes of a value, of its own kind or of any kind;
* `Attribute.encode`: the bytes of an attribute value.
-/

namespace CilTrim.Attribute

/-- Why a value has no encoding. -/
inductive EncodeFault where
  | blob (fault : Blob.Fault)
  | argumentCount (parameters given : Nat)
  | manyNamed
  /-- A character takes more than one code unit. -/
  | wideChar (value : Char)
  | longArray (length : Nat)
  | mismatch (value : Argument) (kind : ArgKind)
deriving Repr

/-- The wording of a fault. -/
def EncodeFault.message : EncodeFault → String
  | .blob fault => fault.message
  | .argumentCount parameters given =>
    "Constructor takes " ++ toString parameters ++ " arguments, " ++ toString given ++ " given"
  | .manyNamed => "Too many named arguments"
  | .wideChar value => "Character " ++ Text.quotedChar value ++ " outside the BMP"
  | .longArray length => "Array of " ++ toString length ++ " elements"
  | .mismatch value kind => "Value " ++ value.describe ++ " cannot be encoded as " ++ kind.describe

/-- The bytes of an encoding, or the reason why there is none. -/
abbrev Encoded := Except EncodeFault (List UInt8)

/-- The bytes of a text behind its length. -/
def textBytes (s : Option String) : Encoded :=
  (Blob.serStringBytes? s).mapError .blob

/-- The bytes of a kind. -/
def kindBytes (kind : ArgKind) : Encoded :=
  match kind with
  | .enum name _ => do pure (kind.tag :: (← textBytes (some name)))
  | .array element => do pure (kind.tag :: (← kindBytes element))
  | _ => pure [kind.tag]

/-- The bytes of a value that has no parts, of its own kind. -/
def leafBytes (value : Argument) (kind : ArgKind) : Encoded :=
  match value, kind with
  | .bool v, .boolean => pure (Blob.littleEndian 1 (if v then 1 else 0))
  | .char v, .char =>
    if v.toNat < UInt16.size then pure (Blob.littleEndian 2 v.toNat) else throw (.wideChar v)
  | .i1 v, .i1 => pure (Blob.littleEndian 1 v.toUInt8.toNat)
  | .u1 v, .u1 => pure (Blob.littleEndian 1 v.toNat)
  | .i2 v, .i2 => pure (Blob.littleEndian 2 v.toUInt16.toNat)
  | .u2 v, .u2 => pure (Blob.littleEndian 2 v.toNat)
  | .i4 v, .i4 => pure (Blob.littleEndian 4 v.toUInt32.toNat)
  | .u4 v, .u4 => pure (Blob.littleEndian 4 v.toNat)
  | .i8 v, .i8 => pure (Blob.littleEndian 8 v.toUInt64.toNat)
  | .u8 v, .u8 => pure (Blob.littleEndian 8 v.toNat)
  | .r4 bits, .r4 => pure (Blob.littleEndian 4 bits.toNat)
  | .r8 bits, .r8 => pure (Blob.littleEndian 8 bits.toNat)
  | .string v, .string => textBytes (some v)
  | .type name, .type => textBytes (if name.isEmpty then none else some name)
  | value, kind => throw (.mismatch value kind)

/-- The bytes of a value whose bytes for its kind are `own`: a value for an object is written as its
own kind, behind that kind. -/
def boxedBytes (own : ArgKind → Encoded) (value : Argument) (kind : ArgKind) : Encoded :=
  match kind with
  | .object => do
    let front ← kindBytes value.kind
    let bytes ← own value.kind
    pure (front ++ bytes)
  | kind => own kind

mutual

/-- The bytes of a value of a kind that is no object. -/
def ownBytes (value : Argument) (kind : ArgKind) : Encoded :=
  match value with
  | .enum _ v =>
    match kind with
    | .enum _ underlying => boxedBytes (ownBytes v) v underlying
    | _ => throw (.mismatch value kind)
  | .array items =>
    match kind with
    | .array element =>
      if items.length < 0x80000000 then do
        let bytes ← itemBytes items element
        pure (Blob.littleEndian 4 items.length ++ bytes)
      else throw (.longArray items.length)
    | _ => throw (.mismatch value kind)
  | _ => leafBytes value kind

/-- The bytes of the items of an array, one after another. -/
def itemBytes (items : List Argument) (element : ArgKind) : Encoded :=
  match items with
  | [] => pure []
  | item :: rest => do
    let bytes ← boxedBytes (ownBytes item) item element
    let others ← itemBytes rest element
    pure (bytes ++ others)

end

/-- The bytes of a value of a kind. -/
def valueBytes (value : Argument) (kind : ArgKind) : Encoded :=
  boxedBytes (ownBytes value) value kind

/-- The bytes of a named argument. -/
def namedBytes (argument : NamedArgument) : Encoded := do
  let kind ← kindBytes argument.kind
  let name ← textBytes (some argument.name)
  let value ← valueBytes argument.value argument.kind
  pure ((if argument.isField then 0x53 else 0x54) :: kind ++ name ++ value)

/-- The bytes of arguments for parameters of the given kinds, one after another. -/
def fixedBytes : List Argument → List ArgKind → Encoded
  | argument :: arguments, kind :: kinds => do
    let bytes ← valueBytes argument kind
    pure (bytes ++ (← fixedBytes arguments kinds))
  | _, _ => pure []

/-- The bytes of named arguments, one after another. -/
def allNamedBytes : List NamedArgument → Encoded
  | [] => pure []
  | argument :: rest => do
    let bytes ← namedBytes argument
    pure (bytes ++ (← allNamedBytes rest))

/-- The bytes of an attribute value, for parameters of the given kinds. -/
def encode (value : AttributeValue) (params : List ArgKind) : Encoded := do
  if value.fixed.length ≠ params.length then
    throw (.argumentCount params.length value.fixed.length)
  let fixed ← fixedBytes value.fixed params
  if UInt16.size ≤ value.named.length then throw .manyNamed
  let named ← allNamedBytes value.named
  pure (Blob.littleEndian 2 1 ++ fixed ++ Blob.littleEndian 2 value.named.length ++ named)

end CilTrim.Attribute
