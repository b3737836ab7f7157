import CilTrim.Model.Definition

/-!
# Models

A model holds all definitions, in one table for each kind. A token leads to the definition at its
row; an assembly or a type is found by name, and of several with one name the last is taken:

* `Model.type?`, `Model.method?`, …: the definition that a token names;
* `Model.findAssembly?`, `Model.findType?`: lookup by name;
* `Model.findMethod?`, `Model.findField?`, `Model.findProperty?`: the members of a type by name;
* `Model.assemblyOf?`, `Model.declaringTypeOf?`: where a definition stands.
-/

namespace CilTrim

/-- The definitions of a set of assemblies. -/
structure Model where
  assemblies : Array AssemblyDef
  modules : Array ModuleDef
  types : Array TypeDef
  methods : Array MethodDef
  fields : Array FieldDef
  properties : Array PropertyDef
  events : Array EventDef
  genericParams : Array GenericParamDef
  /-- The assembly that defines the primitive types. -/
  corlib : Option Token
deriving Repr

namespace Model

/-- A model without definitions. -/
def empty : Model where
  assemblies := #[]
  modules := #[]
  types := #[]
  methods := #[]
  fields := #[]
  properties := #[]
  events := #[]
  genericParams := #[]
  corlib := none

/-! ## Definitions by token -/

/-- The assembly that a token names. -/
def assembly? (m : Model) (t : Token) : Option AssemblyDef :=
  (t.index? .assembly).bind (m.assemblies[·]?)

/-- The module that a token names. -/
def module? (m : Model) (t : Token) : Option ModuleDef :=
  (t.index? .module).bind (m.modules[·]?)

/-- The type that a token names. -/
def type? (m : Model) (t : Token) : Option TypeDef :=
  (t.index? .typeDef).bind (m.types[·]?)

/-- The method that a token names. -/
def method? (m : Model) (t : Token) : Option MethodDef :=
  (t.index? .methodDef).bind (m.methods[·]?)

/-- The field that a token names. -/
def field? (m : Model) (t : Token) : Option FieldDef :=
  (t.index? .field).bind (m.fields[·]?)

/-- The property that a token names. -/
def property? (m : Model) (t : Token) : Option PropertyDef :=
  (t.index? .property).bind (m.properties[·]?)

/-- The event that a token names. -/
def event? (m : Model) (t : Token) : Option EventDef :=
  (t.index? .event).bind (m.events[·]?)

/-- The generic parameter that a token names. -/
def genericParam? (m : Model) (t : Token) : Option GenericParamDef :=
  (t.index? .genericParam).bind (m.genericParams[·]?)

/-- The methods of a type, as far as the model has them. -/
def methodsOf (m : Model) (t : TypeDef) : List MethodDef :=
  t.methods.filterMap m.method?

/-! ## Definitions by name -/

/-- The last assembly with a name. -/
def findAssembly? (m : Model) (name : String) : Option AssemblyDef :=
  m.assemblies.toList.reverse.find? fun assembly => assembly.name == name

/-- The last type of an assembly with a full name. -/
def findType? (m : Model) (assembly : Token) (fullName : String) : Option Token :=
  (m.types.toList.reverse.find? fun type =>
    type.assembly == assembly && type.lookupName == fullName).map (·.token)

/-- The first method of a type with a name. -/
def findMethod? (m : Model) (type : Token) (name : String) : Option Token :=
  (m.type? type).bind fun owner =>
    owner.methods.find? fun method => (m.method? method).any (·.name == name)

/-- The first field of a type with a name. -/
def findField? (m : Model) (type : Token) (name : String) : Option Token :=
  (m.type? type).bind fun owner =>
    owner.fields.find? fun field => (m.field? field).any (·.name == name)

/-- The first property of a type with a name. -/
def findProperty? (m : Model) (type : Token) (name : String) : Option Token :=
  (m.type? type).bind fun owner =>
    owner.properties.find? fun property => (m.property? property).any (·.name == name)

/-! ## Where a definition stands -/

/-- The token that a member is declared on, or that a generic parameter belongs to. -/
def ownerOf? (m : Model) (t : Token) : Option Token :=
  match t.table? with
  | some .methodDef => (m.method? t).map (·.declaringType)
  | some .field => (m.field? t).map (·.declaringType)
  | some .property => (m.property? t).map (·.declaringType)
  | some .event => (m.event? t).map (·.declaringType)
  | some .genericParam => (m.genericParam? t).map (·.owner)
  | _ => none

/-- The assembly of a definition, through at most `steps` owners. -/
def assemblyWithin? (m : Model) : Nat → Token → Option Token
  | steps, t =>
    match t.table? with
    | some .assembly => (m.assembly? t).map (·.token)
    | some .module => (m.module? t).map (·.assembly)
    | some .typeDef => (m.type? t).map (·.assembly)
    | _ =>
      match steps with
      | 0 => none
      | steps + 1 => (m.ownerOf? t).bind (m.assemblyWithin? steps)

/-- The number of definitions that have an owner. -/
def memberCount (m : Model) : Nat :=
  m.methods.size + m.fields.size + m.properties.size + m.events.size + m.genericParams.size

/-- The assembly of a definition. -/
def assemblyOf? (m : Model) (t : Token) : Option Token :=
  m.assemblyWithin? m.memberCount t

/-- The type around a nested type, or the type of a member. A generic parameter stands in its
owner, or in the type of the method that owns it. -/
def declaringTypeOf? (m : Model) (t : Token) : Option Token :=
  match t.table? with
  | some .typeDef => (m.type? t).bind (·.declaringType)
  | some .genericParam =>
    (m.genericParam? t).bind fun param =>
      if param.owner.isIn .typeDef then some param.owner else m.ownerOf? param.owner
  | _ => m.ownerOf? t

end Model

end CilTrim
