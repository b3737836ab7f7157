import CilTrim.Annotation.Store
import CilTrim.Mark.Options
import CilTrim.Model.AttributeData

/-!
# Demands

What a node needs is a list of demands, in the order in which they are met. The list depends only on
the model and on what users have decided, never on what is marked already:

* `Setting`: everything that stays the same while nodes are marked;
* `Demand`: one thing that is needed;
* `Setting.typeRef`, `Setting.methodRef`, `Setting.fieldRef`: the demands of references;
* `Setting.attributes`, `Setting.marshal`: those of attributes and marshalling descriptors.
-/

namespace CilTrim

/-- What stays the same while nodes are marked. -/
structure Setting where
  model : Model
  policy : Policy
  overrides : OverrideTable
  options : MarkOptions
  special : SpecialAttributes
  /-- The core library, in which type names are looked up last. -/
  corlib : Option Token

/-- One thing that is needed. -/
inductive Demand where
  /-- A node is marked, and nothing else. -/
  | node (token : Token) (reason : Reason)
  /-- A type is marked, and what it needs is marked later. -/
  | type (token : Token) (reason : Reason)
  /-- A method is marked, and what it needs is marked later. -/
  | method (token : Token) (reason : Reason)
  /-- A field is marked, and what it needs is marked at once. -/
  | field (token : Token) (reason : Reason)
  /-- What the attributes of an assembly need is marked. -/
  | assembly (token : Token)
  /-- The overrides of a virtual method are kept wherever their types are. -/
  | overridable (method : Token)
  /-- Overrides that waited for a type are looked at again. -/
  | arrived (type : Token)
  /-- All that a method needs is marked. -/
  | finished (method : Token)
  /-- An attribute whose value cannot be decoded is passed over. -/
  | skippedAttribute
  /-- A type name that stands for no type is passed over. -/
  | skippedName
  /-- A reference binds to nothing. -/
  | unresolved (cause : Unresolved)
deriving Repr

namespace Setting

/-! ## Types -/

/-- The methods of a type that a test accepts. -/
def methodsWhere (s : Setting) (type : TypeDef) (reason : Reason) (test : MethodDef → Bool) :
    List Demand :=
  ((s.model.methodsOf type).filter test).map fun method => .method method.token reason

/-- The default constructors of an argument for a generic parameter, if the parameter asks for
one. -/
def constructorsFor (s : Setting) (reason : Reason) (param : Token) (argument : TypeRef) :
    List Demand :=
  if (s.model.genericParam? param).any (·.needsDefaultConstructor) then
    match argument with
    | .definition _ | .external _ _ | .generic _ _ =>
      match (s.model.resolveType argument).toOption.bind s.model.type? with
      | some type => s.methodsWhere type reason (·.isDefaultConstructor)
      | none => []
    | _ => []
  else []

/-- The default constructors of arguments for generic parameters. They match one by one, or not at
all. -/
def constructors (s : Setting) (reason : Reason) (params : List Token) (arguments : List TypeRef) :
    List Demand :=
  if params.length = arguments.length then
    (params.zip arguments).flatMap fun (param, argument) => s.constructorsFor reason param argument
  else []

/-- The generic parameters of the type that a reference is built around. -/
def typeParams (s : Setting) (element : TypeRef) : List Token :=
  match (s.model.resolveType element).toOption.bind s.model.type? with
  | some type => type.genericParams
  | none => []

/-- The generic parameters of the method that a reference is built around. -/
def methodParams (s : Setting) (element : MethodRef) : List Token :=
  match (s.model.resolveMethod element).toOption.bind s.model.method? with
  | some method => method.genericParams
  | none => []

/-- The demand of a reference to a named type. -/
def namedType (s : Setting) (reason : Reason) (r : TypeRef) : List Demand :=
  match s.model.resolveType r with
  | .ok token => [.type token reason]
  | .error cause => [.unresolved cause]

mutual

/-- The demands of a reference to a type: the arguments and modifiers that it is built with, and
the type that it is built around. -/
def typeRef (s : Setting) (reason : Reason) : TypeRef → List Demand
  | .generic e arguments =>
    s.typeRefs reason arguments ++ s.constructors reason (s.typeParams e) arguments ++
      s.typeRef reason e
  | .modified m _ e => s.typeRef reason m ++ s.typeRef reason e
  | .array e _ | .pointer e | .byRef e | .pinned e => s.typeRef reason e
  | .typeParameter _ | .methodParameter _ => []
  | .definition token => s.namedType reason (.definition token)
  | .external scope fullName => s.namedType reason (.external scope fullName)
  | .primitive kind => s.namedType reason (.primitive kind)

/-- The demands of references to types, one after another. -/
def typeRefs (s : Setting) (reason : Reason) : List TypeRef → List Demand
  | [] => []
  | r :: rest => s.typeRef reason r ++ s.typeRefs reason rest

end

/-! ## Members -/

/-- The demands of the arguments in a reference to a method. -/
def methodArguments (s : Setting) (reason : Reason) : MethodRef → List Demand
  | .generic e arguments =>
    s.typeRefs reason arguments ++ s.constructors reason (s.methodParams e) arguments ++
      s.methodArguments reason e
  | _ => []

/-- The demands of a reference to a type on which a member is looked for: a generic type with
arguments is needed itself. -/
def genericOwner (s : Setting) (reason : Reason) (declaringType : TypeRef) : List Demand :=
  if declaringType.isGeneric then s.typeRef reason declaringType else []

/-- A method that arrays have without a definition. -/
def isArrayMethod (r : MethodRef) : Bool :=
  match r.element with
  | .member declaringType _ _ => declaringType.isArray
  | _ => false

/-- The demands of a reference to a method. -/
def methodRef (s : Setting) (reason : Reason) (r : MethodRef) : List Demand :=
  s.methodArguments reason r ++
    if isArrayMethod r then []
    else
      (match r.element with
        | .member declaringType _ _ => s.genericOwner reason declaringType
        | _ => []) ++
      match s.model.resolveMethod r.element with
      | .ok token => [.method token reason]
      | .error cause => [.unresolved cause]

/-- The definition of a method, unless arrays have it without one. -/
def boundMethod? (s : Setting) (r : MethodRef) : Option Token :=
  if isArrayMethod r then none else (s.model.resolveMethod r.element).toOption

/-- The demands of a reference to a field. -/
def fieldRef (s : Setting) (reason : Reason) (r : FieldRef) : List Demand :=
  (match r with
    | .member declaringType _ _ => s.genericOwner reason declaringType
    | .definition _ => []) ++
  match s.model.resolveField r with
  | .ok token => [.field token reason]
  | .error cause => [.unresolved cause]

/-- The demands of a reference to any member. -/
def memberRef (s : Setting) (reason : Reason) : MemberRef → List Demand
  | .type r => s.typeRef reason r
  | .method r => s.methodRef reason r
  | .field r => s.fieldRef reason r

/-! ## Attributes -/

/-- The assemblies in which names that a definition holds are looked up: its own, and the core
library. -/
def nameScopes (s : Setting) (owner : Token) : List Token :=
  let own := (s.model.assemblyOf? owner).toList
  own ++ s.corlib.toList.filter (· ∉ own)

/-- The demands of a type name. -/
def typeName (s : Setting) (scopes : List Token) (reason : Reason) (name : String) : List Demand :=
  match TypeName.parse name with
  | .error _ => [.skippedName]
  | .ok parsed =>
    match s.model.resolveTypeName? scopes parsed with
    | some r => s.typeRef reason r
    | none => [.skippedName]

mutual

/-- The demands of an argument of an attribute: the types it names. -/
def argument (s : Setting) (scopes : List Token) (reason : Reason) : Argument → List Demand
  | .type name => if name.isEmpty then [] else s.typeName scopes reason name
  | .array items => s.arguments scopes reason items
  | _ => []

/-- The demands of arguments, one after another. -/
def arguments (s : Setting) (scopes : List Token) (reason : Reason) : List Argument → List Demand
  | [] => []
  | item :: rest => s.argument scopes reason item ++ s.arguments scopes reason rest

end

/-- The demand of the member of an attribute that a named argument is for. -/
def namedMember (s : Setting) (ctor : Token) (reason : Reason) (argument : NamedArgument) :
    List Demand :=
  match s.model.declaringTypeOf? ctor with
  | none => []
  | some type =>
    if argument.isField then
      (s.model.findInheritedField? type argument.name).toList.map (.field · reason)
    else (s.model.findSetter? type argument.name).toList.map (.method · reason)

/-- The demands of the value of an attribute. -/
def attributeValue (s : Setting) (owner ctor : Token) (reason : Reason) (value : AttributeValue) :
    List Demand :=
  let types := fun argument =>
    if s.options.typeArguments then s.argument (s.nameScopes owner) reason argument else []
  value.fixed.flatMap types ++
    value.named.flatMap fun named => s.namedMember ctor reason named ++ types named.value

/-- The demands of an attribute of a definition. -/
def oneAttribute (s : Setting) (owner : Token) (reason : Reason) (a : Attribute) : List Demand :=
  s.methodRef reason a.constructor ++
    match s.boundMethod? a.constructor with
    | none => []
    | some ctor =>
      match s.model.decodeAttribute a with
      | .ok value => s.attributeValue owner ctor reason value
      | .error _ => [.skippedAttribute]

/-- The demands of the attributes of a definition. -/
def attributes (s : Setting) (owner : Token) (reason : Reason) (as : List Attribute) :
    List Demand :=
  as.flatMap (s.oneAttribute owner reason)

/-- The demands of a marshalling descriptor: the type of a marshaler. -/
def marshal (s : Setting) (owner : Token) (reason : Reason) (spec : Option MarshalSpec) :
    List Demand :=
  match spec.bind (·.customType?) with
  | some name => s.typeName (s.nameScopes owner) reason name
  | none => []

end Setting

end CilTrim
