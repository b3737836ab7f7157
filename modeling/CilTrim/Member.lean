import CilTrim.TypeRef

/-!
# Members and references to them

The comparable part of a method, and how call sites, bodies and attributes refer to methods, fields
and any kind of member:

* `Signature`, `Signature.substitute`;
* `MethodRef`, `FieldRef`, `MemberRef` and their texts.
-/

namespace CilTrim

/-- What two methods must agree on to stand for each other. -/
structure Signature where
  /-- The method is called on an instance. -/
  hasThis : Bool
  /-- The number of generic parameters of the method itself. -/
  genericCount : Nat
  returnType : TypeRef
  params : List TypeRef
deriving Repr, BEq

/-- A signature with the generic parameters of the declaring type replaced by arguments. -/
def Signature.substitute (s : Signature) (typeArgs : List TypeRef) : Signature :=
  if typeArgs.isEmpty then s
  else
    { s with
      returnType := s.returnType.substitute typeArgs []
      params := s.params.map (TypeRef.substitute typeArgs []) }

/-- A reference to a method. -/
inductive MethodRef where
  /-- A definition of the model. -/
  | definition (token : Token)
  /-- A method found by name and signature on a type or its bases. -/
  | member (declaringType : TypeRef) (name : String) (signature : Signature)
  /-- A generic method with arguments for its parameters. -/
  | generic (element : MethodRef) (arguments : List TypeRef)
deriving Repr, BEq

namespace MethodRef

/-- The method that a reference is built around. -/
def element : MethodRef → MethodRef
  | .generic e _ => e.element
  | r => r

/-- The text of a reference. -/
def display : MethodRef → String
  | .definition token => "methoddef(" ++ token.display ++ ")"
  | .member declaringType name signature =>
    signature.returnType.display ++ " " ++ declaringType.display ++ "::" ++ name ++ "(" ++
      ",".intercalate (signature.params.map TypeRef.display) ++ ")"
  | .generic e arguments =>
    e.display ++ "<" ++ ",".intercalate (arguments.map TypeRef.display) ++ ">"

end MethodRef

/-- A reference to a field. -/
inductive FieldRef where
  /-- A definition of the model. -/
  | definition (token : Token)
  /-- A field found by name and type on a type or its bases. -/
  | member (declaringType : TypeRef) (name : String) (fieldType : TypeRef)
deriving Repr, BEq

/-- The text of a reference. -/
def FieldRef.display : FieldRef → String
  | .definition token => "field(" ++ token.display ++ ")"
  | .member declaringType name fieldType =>
    fieldType.display ++ " " ++ declaringType.display ++ "::" ++ name

/-- A reference to a type, a method or a field. -/
inductive MemberRef where
  | type (reference : TypeRef)
  | method (reference : MethodRef)
  | field (reference : FieldRef)
deriving Repr, BEq

/-- The text of a reference. -/
def MemberRef.display : MemberRef → String
  | .type reference => reference.display
  | .method reference => reference.display
  | .field reference => reference.display

end CilTrim
