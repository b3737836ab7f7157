/-!
# Marshalling

How a field or a parameter crosses the border to native code: as a native type, or by a marshaler
class that is named in the metadata.
-/

namespace CilTrim

/-- A marshalling descriptor. -/
inductive MarshalSpec where
  | native (nativeType : UInt8)
  /-- A marshaler class, by its type name. -/
  | custom (typeName : String)
deriving Repr, DecidableEq

namespace MarshalSpec

/-- The number of the native type; custom marshalers have one of their own. -/
def nativeType : MarshalSpec → UInt8
  | .native n => n
  | .custom _ => 0x2c

/-- The name of the marshaler class, if one is given. -/
def customType? : MarshalSpec → Option String
  | .native _ => none
  | .custom typeName => if typeName.isEmpty then none else some typeName

end MarshalSpec

end CilTrim
