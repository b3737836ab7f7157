import CilTrim.Decimal.Binary
import CilTrim.Member
import CilTrim.Text.Quoted

/-!
# Attribute values

What a custom attribute says: arguments for the parameters of its constructor and for named fields
and properties. Every argument has a kind, which fixes its encoding:

* `ArgKind`, with its tag byte (`ArgKind.tag`, `ArgKind.ofTag?`);
* `Argument`, with `Argument.kind`;
* `AttributeValue`: positional and named arguments;
* `Attribute`: a constructor and the encoded value;
* `ArgKind.describe`, `Argument.describe`: how faults show them.
-/

namespace CilTrim

/-- The kind of an argument. -/
inductive ArgKind where
  | boolean
  | char
  | i1
  | u1
  | i2
  | u2
  | i4
  | u4
  | i8
  | u8
  | r4
  | r8
  | string
  | type
  /-- A value with its kind written in front of it. -/
  | object
  | enum (name : String) (underlying : ArgKind)
  | array (element : ArgKind)
deriving Repr, DecidableEq, Inhabited

namespace ArgKind

/-- The byte that stands for a kind. -/
def tag : ArgKind → UInt8
  | .boolean => 0x02
  | .char => 0x03
  | .i1 => 0x04
  | .u1 => 0x05
  | .i2 => 0x06
  | .u2 => 0x07
  | .i4 => 0x08
  | .u4 => 0x09
  | .i8 => 0x0a
  | .u8 => 0x0b
  | .r4 => 0x0c
  | .r8 => 0x0d
  | .string => 0x0e
  | .array _ => 0x1d
  | .type => 0x50
  | .object => 0x51
  | .enum _ _ => 0x55

/-- The kinds that are their tag byte alone. -/
def simple : List ArgKind :=
  [.boolean, .char, .i1, .u1, .i2, .u2, .i4, .u4, .i8, .u8, .r4, .r8, .string, .type, .object]

/-- The kind that a tag byte alone stands for. -/
def ofTag? (tag : UInt8) : Option ArgKind :=
  simple.find? fun kind => kind.tag == tag

/-- A value of the kind may name a type. -/
def mayNameType : ArgKind → Bool
  | .type | .object => true
  | .array element => element.mayNameType
  | _ => false

/-- The kinds that an enumeration can be stored as. -/
def isIntegral : ArgKind → Bool
  | .boolean | .char | .i1 | .u1 | .i2 | .u2 | .i4 | .u4 | .i8 | .u8 => true
  | _ => false

/-- The kind as a fault shows it. -/
def describe : ArgKind → String
  | .boolean => "Boolean"
  | .char => "Char"
  | .i1 => "I1"
  | .u1 => "U1"
  | .i2 => "I2"
  | .u2 => "U2"
  | .i4 => "I4"
  | .u4 => "U4"
  | .i8 => "I8"
  | .u8 => "U8"
  | .r4 => "R4"
  | .r8 => "R8"
  | .string => "String"
  | .type => "Type"
  | .object => "Object"
  | .enum name underlying =>
    "Enum \x7b name: " ++ Text.quoted name ++ ", underlying: " ++ underlying.describe ++ " \x7d"
  | .array element => "SzArray(" ++ element.describe ++ ")"

end ArgKind

/-- The value of an argument. Floating-point numbers are held by their bits. -/
inductive Argument where
  | bool (value : Bool)
  | char (value : Char)
  | i1 (value : Int8)
  | u1 (value : UInt8)
  | i2 (value : Int16)
  | u2 (value : UInt16)
  | i4 (value : Int32)
  | u4 (value : UInt32)
  | i8 (value : Int64)
  | u8 (value : UInt64)
  | r4 (bits : UInt32)
  | r8 (bits : UInt64)
  | string (value : String)
  /-- A type, by name. -/
  | type (name : String)
  | array (items : List Argument)
  | enum (name : String) (value : Argument)
deriving Repr, BEq, Inhabited

namespace Argument

/-- The kind of a value. The first item gives the kind of an array, and an empty array is one of
objects. -/
def kind : Argument → ArgKind
  | .bool _ => .boolean
  | .char _ => .char
  | .i1 _ => .i1
  | .u1 _ => .u1
  | .i2 _ => .i2
  | .u2 _ => .u2
  | .i4 _ => .i4
  | .u4 _ => .u4
  | .i8 _ => .i8
  | .u8 _ => .u8
  | .r4 _ => .r4
  | .r8 _ => .r8
  | .string _ => .string
  | .type _ => .type
  | .array [] => .array .object
  | .array (item :: _) => .array item.kind
  | .enum name value => .enum name value.kind

mutual

/-- The value as a fault shows it. -/
def describe : Argument → String
  | .bool value => "Bool(" ++ (if value then "true" else "false") ++ ")"
  | .char value => "Char(" ++ Text.quotedChar value ++ ")"
  | .i1 value => "I1(" ++ toString value.toInt ++ ")"
  | .u1 value => "U1(" ++ toString value.toNat ++ ")"
  | .i2 value => "I2(" ++ toString value.toInt ++ ")"
  | .u2 value => "U2(" ++ toString value.toNat ++ ")"
  | .i4 value => "I4(" ++ toString value.toInt ++ ")"
  | .u4 value => "U4(" ++ toString value.toNat ++ ")"
  | .i8 value => "I8(" ++ toString value.toInt ++ ")"
  | .u8 value => "U8(" ++ toString value.toNat ++ ")"
  | .r4 bits => "R4(" ++ Decimal.single.render Decimal.literal bits.toNat ++ ")"
  | .r8 bits => "R8(" ++ Decimal.double.render Decimal.literal bits.toNat ++ ")"
  | .string value => "String(" ++ Text.quoted value ++ ")"
  | .type name => "Type(" ++ Text.quoted name ++ ")"
  | .array items => "Array([" ++ ", ".intercalate (describeAll items) ++ "])"
  | .enum name value => "Enum(" ++ Text.quoted name ++ ", " ++ value.describe ++ ")"

/-- The values of a list as a fault shows them. -/
def describeAll : List Argument → List String
  | [] => []
  | item :: rest => item.describe :: describeAll rest

end

end Argument

/-- An argument for a field or a property of the attribute. -/
structure NamedArgument where
  /-- A field, and not a property. -/
  isField : Bool
  name : String
  kind : ArgKind
  value : Argument
deriving Repr, BEq

/-- What an attribute says. -/
structure AttributeValue where
  fixed : List Argument
  named : List NamedArgument
deriving Repr, BEq

/-- An attribute as the metadata holds it: its constructor and its encoded value. -/
structure Attribute where
  constructor : MethodRef
  blob : List UInt8
deriving Repr, BEq

end CilTrim
