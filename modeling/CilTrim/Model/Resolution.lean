import CilTrim.Model.Names

/-!
# Resolving references

References are bound to definitions. A member that its type does not declare is looked for on the
bases, with the generic arguments that lead there:

* `Unresolved`: what a reference that binds to nothing asked for;
* `Model.resolveType`, `Model.resolveMethod`, `Model.resolveField`;
* `Model.hierarchy`: a type and its bases, with the arguments they are instantiated with;
* `Model.typesEqual`, `Model.signaturesEqual`: references that denote the same.
-/

namespace CilTrim

/-- What a reference that binds to nothing asked for. -/
inductive Unresolved where
  | typeDefinition (token : Token)
  | external (scope fullName : String)
  | primitive (kind : Primitive)
  /-- A generic parameter, which is no type. -/
  | parameter (reference : TypeRef)
  | methodDefinition (token : Token)
  | method (reference : MethodRef)
  | fieldDefinition (token : Token)
  | field (reference : FieldRef)
deriving Repr, BEq

/-- The wording of a failure to resolve. -/
def Unresolved.message (u : Unresolved) : String :=
  "Failed to resolve " ++
    match u with
    | .typeDefinition token => "type definition " ++ token.display
    | .external scope fullName => "[" ++ scope ++ "]" ++ fullName
    | .primitive kind => "primitive " ++ kind.fullName
    | .parameter reference => "generic parameter " ++ reference.display
    | .methodDefinition token => "method definition " ++ token.display
    | .method reference => reference.display
    | .fieldDefinition token => "field definition " ++ token.display
    | .field reference => reference.display

namespace Model

/-! ## Types -/

/-- The definition that a reference is built around. -/
def resolveType (m : Model) (r : TypeRef) : Except Unresolved Token :=
  match r.element with
  | .definition token =>
    if (m.type? token).isSome then .ok token else .error (.typeDefinition token)
  | .external scope fullName =>
    match (m.findAssembly? scope).bind fun assembly => m.findType? assembly.token fullName with
    | some token => .ok token
    | none => .error (.external scope fullName)
  | .primitive kind =>
    match m.corlib.bind fun corlib => m.findType? corlib kind.fullName with
    | some token => .ok token
    | none => .error (.primitive kind)
  | other => .error (.parameter other)

/-- The definition of the base of a type. -/
def baseType? (m : Model) (t : Token) : Except Unresolved (Option Token) :=
  match (m.type? t).bind (·.base) with
  | some base => (m.resolveType base).map some
  | none => .ok none

/-! ## Equality -/

/-- What a reference to a named type denotes: a definition, or a name that binds to none. -/
inductive Identity where
  | resolved (token : Token)
  | unresolved (name : String)
deriving Repr, DecidableEq

/-- What a reference to a named type denotes; nothing for a type that is built from others. -/
def identity? (m : Model) (r : TypeRef) : Option Identity :=
  match r with
  | .definition _ | .external _ _ | .primitive _ =>
    match m.resolveType r with
    | .ok token => some (.resolved token)
    | .error _ => some (.unresolved (m.typeName r))
  | _ => none

/-- Two references to named types denote the same. -/
def sameIdentity (m : Model) (a b : TypeRef) : Bool :=
  match m.identity? a, m.identity? b with
  | some x, some y => x == y
  | _, _ => false

mutual

/-- Two references denote the same type. -/
def typesEqual (m : Model) : TypeRef → TypeRef → Bool
  | .typeParameter x, .typeParameter y => x == y
  | .methodParameter x, .methodParameter y => x == y
  | .generic e₁ a₁, .generic e₂ a₂ =>
    a₁.length == a₂.length && m.typesEqual e₁ e₂ && m.allTypesEqual a₁ a₂
  | .array e₁ r₁, .array e₂ r₂ => r₁ == r₂ && m.typesEqual e₁ e₂
  | .pointer x, .pointer y => m.typesEqual x y
  | .byRef x, .byRef y => m.typesEqual x y
  | .pinned x, .pinned y => m.typesEqual x y
  | .modified m₁ r₁ e₁, .modified m₂ r₂ e₂ =>
    r₁ == r₂ && m.typesEqual m₁ m₂ && m.typesEqual e₁ e₂
  | a, b => m.sameIdentity a b

/-- The references of two lists denote the same types, as far as both lists reach. -/
def allTypesEqual (m : Model) : List TypeRef → List TypeRef → Bool
  | a :: as, b :: bs => m.typesEqual a b && m.allTypesEqual as bs
  | _, _ => true

end

/-- Two signatures denote the same, apart from whether the method is called on an instance. -/
def signaturesEqual (m : Model) (a b : Signature) : Bool :=
  a.genericCount == b.genericCount && a.params.length == b.params.length &&
    m.typesEqual a.returnType b.returnType && m.allTypesEqual a.params b.params

/-! ## Bases -/

/-- How many types a chain of bases may have. -/
def maxHierarchy : Nat := 256

/-- The base of a type that is instantiated with arguments, and the arguments of the base. -/
def baseWith? (m : Model) (t : Token) (args : List TypeRef) : Option (Token × List TypeRef) :=
  (m.type? t).bind fun type => type.base.bind fun base =>
    let base := base.substitute args []
    match m.resolveType base with
    | .ok token => some (token, base.typeArguments)
    | .error _ => none

/-- A type with its arguments and its bases, up to a type that has been visited, and at most `limit`
types. -/
def hierarchyFrom (m : Model) :
    Nat → List Token → Token → List TypeRef → List (Token × List TypeRef)
  | 0, _, _, _ => []
  | limit + 1, visited, t, args =>
    if t ∈ visited then []
    else
      (t, args) ::
        match m.baseWith? t args with
        | some (base, baseArgs) => m.hierarchyFrom limit (t :: visited) base baseArgs
        | none => []

/-- A type and its bases, each with the arguments it is instantiated with. -/
def hierarchy (m : Model) (t : Token) : List (Token × List TypeRef) :=
  m.hierarchyFrom maxHierarchy [] t []

/-! ## Members -/

/-- The first method of a type with a name and a signature. -/
def declaredMethod? (m : Model) (t : Token) (name : String) (signature : Signature) :
    Option Token :=
  (m.type? t).bind fun type =>
    type.methods.find? fun candidate =>
      (m.method? candidate).any fun method =>
        method.name == name && m.signaturesEqual method.signature signature

/-- The first field of a type with a name and a type. -/
def declaredField? (m : Model) (t : Token) (name : String) (fieldType : TypeRef) : Option Token :=
  (m.type? t).bind fun type =>
    type.fields.find? fun candidate =>
      (m.field? candidate).any fun field =>
        field.name == name && m.typesEqual field.type fieldType

/-- The definition that a reference to a method binds to. -/
def resolveMethod (m : Model) (r : MethodRef) : Except Unresolved Token :=
  match r.element with
  | .definition token =>
    if (m.method? token).isSome then .ok token else .error (.methodDefinition token)
  | .member declaringType name signature => do
    let start ← m.resolveType declaringType
    match (m.hierarchy start).findSome? fun (t, _) => m.declaredMethod? t name signature with
    | some token => .ok token
    | none => .error (.method r)
  | .generic _ _ => .error (.method r)

/-- The definition that a reference to a field binds to. -/
def resolveField (m : Model) (r : FieldRef) : Except Unresolved Token :=
  match r with
  | .definition token =>
    if (m.field? token).isSome then .ok token else .error (.fieldDefinition token)
  | .member declaringType name fieldType => do
    let start ← m.resolveType declaringType
    match (m.hierarchy start).findSome? fun (t, _) => m.declaredField? t name fieldType with
    | some token => .ok token
    | none => .error (.field r)

/-- The setter of the first property with a name on a type or its bases that has one. -/
def findSetter? (m : Model) (t : Token) (name : String) : Option Token :=
  (m.hierarchy t).findSome? fun (t, _) =>
    (m.findProperty? t name).bind fun property => (m.property? property).bind (·.setter)

/-- The first field with a name on a type or its bases. -/
def findInheritedField? (m : Model) (t : Token) (name : String) : Option Token :=
  (m.hierarchy t).findSome? fun (t, _) => m.findField? t name

end Model

end CilTrim
