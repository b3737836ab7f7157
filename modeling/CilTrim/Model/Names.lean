import CilTrim.Model.Basic

/-!
# Names of definitions

The name of a nested type holds the names of the types around it:

* `Model.fullName`, `Model.reflectionName`: a type, with slashes or plus signs between names;
* `Model.methodName`: a method behind its type;
* `Model.typeName`: the type that a reference is built around;
* `Model.isValueType`, `Model.isEnum`, `Model.isDelegate`: what a type is, by the name of its base.
-/

namespace CilTrim.Model

/-- What stands for the name of a definition that the model does not have. -/
def unknownName (t : Token) : String :=
  "<unknown " ++ t.display ++ ">"

/-- The name of a type with the names of at most `depth` types around it. -/
def fullNameWithin (m : Model) (depth : Nat) (t : Token) : String :=
  match m.type? t with
  | none => unknownName t
  | some type =>
    match type.declaringType with
    | none => type.ownName
    | some outer =>
      match depth with
      | 0 => type.name
      | depth + 1 => m.fullNameWithin depth outer ++ "/" ++ type.name

/-- The name of a type with the names of the types around it. -/
def fullName (m : Model) (t : Token) : String :=
  m.fullNameWithin m.types.size t

/-- The name of a type as type names write it. -/
def reflectionName (m : Model) (t : Token) : String :=
  String.ofList ((m.fullName t).toList.map fun c => if c = '/' then '+' else c)

/-- The name of a method behind the name of its type. -/
def methodName (m : Model) (t : Token) : String :=
  match m.method? t with
  | some method => m.fullName method.declaringType ++ "::" ++ method.name
  | none => unknownName t

/-- The name of the type that a reference is built around. -/
def typeName (m : Model) (r : TypeRef) : String :=
  match r.element with
  | .definition token => m.fullName token
  | .external _ fullName => fullName
  | .primitive kind => kind.fullName
  | other => other.display

/-- The name of the base of a type. -/
def baseName? (m : Model) (t : Token) : Option String :=
  (m.type? t).bind fun type => type.base.map m.typeName

/-- A type whose values are stored in place. -/
def isValueType (m : Model) (t : Token) : Bool :=
  match m.baseName? t with
  | some base =>
    (base == "System.ValueType" && m.fullName t != "System.Enum") || base == "System.Enum"
  | none => false

/-- An enumeration. -/
def isEnum (m : Model) (t : Token) : Bool :=
  m.baseName? t == some "System.Enum"

/-- A delegate that can hold several methods. -/
def isDelegate (m : Model) (t : Token) : Bool :=
  m.baseName? t == some "System.MulticastDelegate"

end CilTrim.Model
