/-!
# Primitive types

The types that signatures name without a definition. Each has a definition of the same name in the
namespace `System` of the core library:

* `Primitive.fullName`, `Primitive.ofFullName?`: the name and back.
-/

namespace CilTrim

/-- The primitive types, in the order of their definitions. -/
inductive Primitive where
  | void
  | boolean
  | char
  | i1
  | u1
  | i2
  | u2
  | i4
  | u4
  | i8
  | u8
  | r4
  | r8
  | i
  | u
  | object
  | string
  | typedReference
deriving Repr, DecidableEq

namespace Primitive

/-- All primitive types, in order. -/
def all : List Primitive :=
  [.void, .boolean, .char, .i1, .u1, .i2, .u2, .i4, .u4, .i8, .u8, .r4, .r8, .i, .u, .object,
    .string, .typedReference]

/-- The name of the definition, without its namespace. -/
def name : Primitive → String
  | .void => "Void"
  | .boolean => "Boolean"
  | .char => "Char"
  | .i1 => "SByte"
  | .u1 => "Byte"
  | .i2 => "Int16"
  | .u2 => "UInt16"
  | .i4 => "Int32"
  | .u4 => "UInt32"
  | .i8 => "Int64"
  | .u8 => "UInt64"
  | .r4 => "Single"
  | .r8 => "Double"
  | .i => "IntPtr"
  | .u => "UIntPtr"
  | .object => "Object"
  | .string => "String"
  | .typedReference => "TypedReference"

/-- The name of the definition in its namespace. -/
def fullName (p : Primitive) : String :=
  "System." ++ p.name

/-- The primitive type with a full name. -/
def ofFullName? (fullName : String) : Option Primitive :=
  all.find? fun p => p.fullName == fullName

/-- A type whose values are stored in place. -/
def isValueType : Primitive → Bool
  | .object | .string | .void => false
  | _ => true

/-- A full name leads back to its type. -/
theorem ofFullName?_fullName (p : Primitive) : ofFullName? p.fullName = some p := by
  cases p <;> decide

end Primitive

end CilTrim
