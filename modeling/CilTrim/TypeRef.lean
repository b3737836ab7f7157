import CilTrim.Primitive
import CilTrim.Token

/-!
# Type references

How signatures, bodies and attributes refer to types: definitions of the model, types of other
assemblies by name, primitive types, and types built from these:

* `TypeRef.element`: the innermost type of a reference;
* `TypeRef.substitute`: generic parameters replaced by arguments;
* `TypeRef.display`: the text of a reference.
-/

namespace CilTrim

/-- A reference to a type. -/
inductive TypeRef where
  /-- A definition of the model. -/
  | definition (token : Token)
  /-- A type of another assembly, by name. -/
  | external (scope fullName : String)
  | primitive (kind : Primitive)
  /-- A generic type with arguments for its parameters. -/
  | generic (element : TypeRef) (arguments : List TypeRef)
  | array (element : TypeRef) (rank : UInt32)
  | pointer (element : TypeRef)
  | byRef (element : TypeRef)
  | pinned (element : TypeRef)
  /-- A type with a custom modifier, which callers must or may know. -/
  | modified (modifier : TypeRef) (required : Bool) (element : TypeRef)
  /-- A generic parameter of the enclosing type. -/
  | typeParameter (index : Nat)
  /-- A generic parameter of the enclosing method. -/
  | methodParameter (index : Nat)
deriving Repr, BEq, Inhabited

namespace TypeRef

/-- The innermost type that a reference is built around. -/
def element : TypeRef → TypeRef
  | .generic e _ | .array e _ | .pointer e | .byRef e | .pinned e | .modified _ _ e => e.element
  | r => r

/-- A generic parameter. -/
def isParameter : TypeRef → Bool
  | .typeParameter _ | .methodParameter _ => true
  | _ => false

/-- An array, of any rank. -/
def isArray : TypeRef → Bool
  | .array _ _ => true
  | _ => false

/-- A generic type with arguments. -/
def isGeneric : TypeRef → Bool
  | .generic _ _ => true
  | _ => false

/-- The definition that a reference is, without looking inside it. -/
def definition? : TypeRef → Option Token
  | .definition token => some token
  | _ => none

/-- The arguments of a generic type, which are none for every other reference. -/
def typeArguments : TypeRef → List TypeRef
  | .generic _ arguments => arguments
  | _ => []

mutual

/-- A reference with its generic parameters replaced by arguments. A parameter without an argument
stays, and modifiers are kept as they are. -/
def substitute (typeArgs methodArgs : List TypeRef) : TypeRef → TypeRef
  | .typeParameter index => typeArgs[index]?.getD (.typeParameter index)
  | .methodParameter index => methodArgs[index]?.getD (.methodParameter index)
  | .generic e arguments =>
    .generic (substitute typeArgs methodArgs e) (substituteAll typeArgs methodArgs arguments)
  | .array e rank => .array (substitute typeArgs methodArgs e) rank
  | .pointer e => .pointer (substitute typeArgs methodArgs e)
  | .byRef e => .byRef (substitute typeArgs methodArgs e)
  | .pinned e => .pinned (substitute typeArgs methodArgs e)
  | .modified m required e => .modified m required (substitute typeArgs methodArgs e)
  | .definition token => .definition token
  | .external scope fullName => .external scope fullName
  | .primitive kind => .primitive kind

/-- Every reference of a list with its generic parameters replaced. -/
def substituteAll (typeArgs methodArgs : List TypeRef) : List TypeRef → List TypeRef
  | [] => []
  | r :: rest => substitute typeArgs methodArgs r :: substituteAll typeArgs methodArgs rest

end

/-- Substitution in a list is substitution in each of its members. -/
theorem substituteAll_eq_map (typeArgs methodArgs : List TypeRef) (rs : List TypeRef) :
    substituteAll typeArgs methodArgs rs = rs.map (substitute typeArgs methodArgs) := by
  induction rs with
  | nil => rfl
  | cons r rest ih => simp [substituteAll, ih]

mutual

/-- The text of a reference. -/
def display : TypeRef → String
  | .definition token => "typedef(" ++ token.display ++ ")"
  | .external scope fullName => "[" ++ scope ++ "]" ++ fullName
  | .primitive kind => kind.fullName
  | .generic e arguments => e.display ++ "<" ++ ",".intercalate (displayAll arguments) ++ ">"
  | .array e rank =>
    e.display ++ "[" ++ String.ofList (List.replicate (rank.toNat - 1) ',') ++ "]"
  | .pointer e => e.display ++ "*"
  | .byRef e => e.display ++ "&"
  | .pinned e => e.display ++ " pinned"
  | .modified m required e =>
    e.display ++ (if required then " modreq(" else " modopt(") ++ m.display ++ ")"
  | .typeParameter index => "!" ++ toString index
  | .methodParameter index => "!!" ++ toString index

/-- The texts of the references of a list. -/
def displayAll : List TypeRef → List String
  | [] => []
  | r :: rest => r.display :: displayAll rest

end

end TypeRef

end CilTrim
