import CilTrim.Proofs.Override.Pairs
import CilTrim.Proofs.TypeRef.Parts

/-!
# What marking follows

The rules by which one definition keeps others, as relations on the model alone: they say nothing
of queues, of the order of demands or of what is marked already.

* `Model.Names`, `Model.Dangles`: the definitions that a reference names, and references that bind
  to nothing;
* `Setting.AttributeRequires`, `Setting.SpecialMember`: what attributes keep;
* `Setting.TypeRequires`, `Setting.FieldRequires`, `Setting.MethodRequires`: what a type, a field
  and a method keep;
* `Setting.Closed`: the sets that all rules leave as they are, overrides included;
* `Setting.Reached`: the least such set with given roots;
* `Setting.Unbound`: a definition of a set has a reference that must bind and does not;
* `Setting.ReachesMethod`: there is a method to start from.
-/

namespace CilTrim

/-! ## References -/

namespace TypeRef

/-- A generic argument whose constructors generic code may call. -/
def isConstructible : TypeRef → Bool
  | .definition _ | .external _ _ | .generic _ _ => true
  | _ => false

end TypeRef

namespace MethodRef

/-- A reference instantiates a generic method with arguments. -/
inductive Instantiates : MethodRef → MethodRef → List TypeRef → Prop where
  | self (e : MethodRef) (args : List TypeRef) : Instantiates (.generic e args) e args
  | inner {e e' : MethodRef} {args args' : List TypeRef} :
    Instantiates e e' args' → Instantiates (.generic e args) e' args'

/-- The method is looked for on an array, which has it without a definition. -/
def OnArray (r : MethodRef) : Prop :=
  ∃ e rank name signature, r.element = .member (.array e rank) name signature

end MethodRef

namespace Model

/-- Generic parameters that ask for a default constructor get one of those of their arguments. -/
def ConstructorDemanded (m : Model) (params : List Token) (args : List TypeRef) (ctor : Token) :
    Prop :=
  params.length = args.length ∧
    ∃ param argument, (param, argument) ∈ params.zip args ∧
      (∃ p, m.genericParam? param = some p ∧ p.needsDefaultConstructor = true) ∧
      argument.isConstructible = true ∧
      ∃ t type, m.resolveType argument = .ok t ∧ m.type? t = some type ∧
        ∃ method ∈ m.methodsOf type, method.isDefaultConstructor = true ∧ method.token = ctor

/-- The definitions that a reference to a type names. -/
inductive TypeNames (m : Model) (r : TypeRef) : Token → Prop where
  | leaf {leaf : TypeRef} {t : Token} :
    r.Part leaf → leaf.isNamed = true → m.resolveType leaf = .ok t → TypeNames m r t
  | constructor {e : TypeRef} {args : List TypeRef} {t ctor : Token} {type : TypeDef} :
    r.Part (.generic e args) → m.resolveType e = .ok t → m.type? t = some type →
    m.ConstructorDemanded type.genericParams args ctor → TypeNames m r ctor

/-- A part of a reference names a type that there is not. -/
def TypeDangles (m : Model) (r : TypeRef) : Prop :=
  ∃ leaf cause, r.Part leaf ∧ leaf.isNamed = true ∧ m.resolveType leaf = .error cause

/-- The definitions that a reference to a method names. -/
inductive MethodNames (m : Model) (r : MethodRef) : Token → Prop where
  | argument {e : MethodRef} {args : List TypeRef} {a : TypeRef} {t : Token} :
    r.Instantiates e args → a ∈ args → m.TypeNames a t → MethodNames m r t
  | constructor {e : MethodRef} {args : List TypeRef} {t ctor : Token} {method : MethodDef} :
    r.Instantiates e args → m.resolveMethod e = .ok t → m.method? t = some method →
    m.ConstructorDemanded method.genericParams args ctor → MethodNames m r ctor
  | owner {declaringType : TypeRef} {name : String} {signature : Signature} {t : Token} :
    r.element = .member declaringType name signature → declaringType.isGeneric = true →
    m.TypeNames declaringType t → MethodNames m r t
  | method {t : Token} : ¬ r.OnArray → m.resolveMethod r = .ok t → MethodNames m r t

/-- A reference to a method has a part that binds to nothing. -/
inductive MethodDangles (m : Model) (r : MethodRef) : Prop where
  | argument {e : MethodRef} {args : List TypeRef} {a : TypeRef} :
    r.Instantiates e args → a ∈ args → m.TypeDangles a → MethodDangles m r
  | owner {declaringType : TypeRef} {name : String} {signature : Signature} :
    r.element = .member declaringType name signature → declaringType.isGeneric = true →
    m.TypeDangles declaringType → MethodDangles m r
  | method {cause : Unresolved} : ¬ r.OnArray → m.resolveMethod r = .error cause → MethodDangles m r

/-- The definitions that a reference to a field names. -/
inductive FieldNames (m : Model) (r : FieldRef) : Token → Prop where
  | owner {declaringType fieldType : TypeRef} {name : String} {t : Token} :
    r = .member declaringType name fieldType → declaringType.isGeneric = true →
    m.TypeNames declaringType t → FieldNames m r t
  | field {t : Token} : m.resolveField r = .ok t → FieldNames m r t

/-- A reference to a field has a part that binds to nothing. -/
inductive FieldDangles (m : Model) (r : FieldRef) : Prop where
  | owner {declaringType fieldType : TypeRef} {name : String} :
    r = .member declaringType name fieldType → declaringType.isGeneric = true →
    m.TypeDangles declaringType → FieldDangles m r
  | field {cause : Unresolved} : m.resolveField r = .error cause → FieldDangles m r

/-- The definitions that a reference names. -/
def Names (m : Model) : MemberRef → Token → Prop
  | .type r => m.TypeNames r
  | .method r => m.MethodNames r
  | .field r => m.FieldNames r

/-- A reference has a part that binds to nothing. -/
def Dangles (m : Model) : MemberRef → Prop
  | .type r => m.TypeDangles r
  | .method r => m.MethodDangles r
  | .field r => m.FieldDangles r

end Model

/-! ## Attributes -/

/-- An argument of an attribute names a type, itself or inside an array. -/
inductive Argument.NamesType : Argument → String → Prop where
  | type {name : String} : name ≠ "" → NamesType (.type name) name
  | item {items : List Argument} {item : Argument} {name : String} :
    item ∈ items → NamesType item name → NamesType (.array items) name

namespace Setting

/-- A name in metadata of a definition stands for a type. -/
def StandsFor (s : Setting) (owner : Token) (name : String) (r : TypeRef) : Prop :=
  ∃ parsed, TypeName.parse name = .ok parsed ∧
    s.model.resolveTypeName? (s.nameScopes owner) parsed = some r

/-- What an attribute of a definition keeps: its constructor, the types that its arguments name, and
the members that its named arguments set. -/
inductive AttributeRequires (s : Setting) (owner : Token) (a : Attribute) : Token → Prop where
  | constructor {y : Token} : s.model.MethodNames a.constructor y → AttributeRequires s owner a y
  | type {value : AttributeValue} {argument : Argument} {name : String} {r : TypeRef} {y : Token} :
    ¬ a.constructor.OnArray → s.model.decodeAttribute a = .ok value →
    s.options.typeArguments = true →
    (argument ∈ value.fixed ∨ ∃ named ∈ value.named, named.value = argument) →
    argument.NamesType name → s.StandsFor owner name r → s.model.TypeNames r y →
    AttributeRequires s owner a y
  | field {value : AttributeValue} {named : NamedArgument} {ctor type y : Token} :
    ¬ a.constructor.OnArray → s.model.resolveMethod a.constructor = .ok ctor →
    s.model.decodeAttribute a = .ok value → named ∈ value.named → named.isField = true →
    s.model.declaringTypeOf? ctor = some type →
    s.model.findInheritedField? type named.name = some y → AttributeRequires s owner a y
  | setter {value : AttributeValue} {named : NamedArgument} {ctor type y : Token} :
    ¬ a.constructor.OnArray → s.model.resolveMethod a.constructor = .ok ctor →
    s.model.decodeAttribute a = .ok value → named ∈ value.named → named.isField = false →
    s.model.declaringTypeOf? ctor = some type →
    s.model.findSetter? type named.name = some y → AttributeRequires s owner a y

/-- An attribute is registered as special, and its first argument is a name. -/
def SpecialName (s : Setting) (a : Attribute) (kinds : MemberKinds) (name : String) : Prop :=
  ∃ ctor type value rest, s.model.resolveMethod a.constructor = .ok ctor ∧
    s.model.declaringTypeOf? ctor = some type ∧
    s.special.get? (s.model.fullName type) = some kinds ∧
    s.model.decodeAttribute a = .ok value ∧ value.fixed = .string name :: rest ∧ name ≠ ""

/-- The members of a type that the special ones among attributes name. -/
inductive SpecialMember (s : Setting) (target : Token) (as : List Attribute) : Token → Prop where
  | method {type : TypeDef} {a : Attribute} {kinds : MemberKinds} {name : String}
    {method : MethodDef} :
    s.model.type? target = some type → a ∈ as → s.SpecialName a kinds name →
    kinds.includes .methods = true → method ∈ s.model.methodsOf type → method.name = name →
    SpecialMember s target as method.token
  | field {a : Attribute} {kinds : MemberKinds} {name : String} {y : Token} :
    a ∈ as → s.SpecialName a kinds name → kinds.includes .fields = true →
    s.model.findField? target name = some y → SpecialMember s target as y
  | accessor {a : Attribute} {kinds : MemberKinds} {name : String} {p y : Token}
    {property : PropertyDef} :
    a ∈ as → s.SpecialName a kinds name → kinds.includes .properties = true →
    s.model.findProperty? target name = some p → s.model.property? p = some property →
    (property.getter = some y ∨ property.setter = some y) → SpecialMember s target as y

/-- A marshalling descriptor names a type of a marshaler. -/
def MarshalRequires (s : Setting) (owner : Token) (spec : Option MarshalSpec) (y : Token) : Prop :=
  ∃ spec' name r, spec = some spec' ∧ spec'.customType? = some name ∧ s.StandsFor owner name r ∧
    s.model.TypeNames r y

/-! ## Types -/

/-- The references of a type that must bind. -/
inductive TypeMentions (s : Setting) (d : TypeDef) : TypeRef → Prop where
  | base {r : TypeRef} : d.base = some r → TypeMentions s d r
  | interface {r : TypeRef} : r ∈ d.interfaces → TypeMentions s d r
  | constraint {p : Token} {param : GenericParamDef} {r : TypeRef} : p ∈ d.genericParams →
    s.model.genericParam? p = some param → r ∈ param.constraints → TypeMentions s d r

/-- The attributes of a type and of its generic parameters, each with the definition that it stands
on. -/
inductive TypeAttribute (s : Setting) (t : Token) (d : TypeDef) : Token → Attribute → Prop where
  | own {a : Attribute} : a ∈ d.attributes → TypeAttribute s t d t a
  | genericParam {p : Token} {param : GenericParamDef} {a : Attribute} : p ∈ d.genericParams →
    s.model.genericParam? p = some param → a ∈ param.attributes → TypeAttribute s t d p a

/-- A method overrides, directly or not, a method of an assembly that is not linked. -/
def OverridesUnlinked (s : Setting) (method : Token) : Prop :=
  ∃ base assembly, s.overrides.Above method base ∧ s.model.assemblyOf? base = some assembly ∧
    s.policy.assemblyAction assembly ≠ .link

/-- What a type keeps. -/
inductive TypeRequires (s : Setting) (t : Token) (d : TypeDef) : Token → Prop where
  | assembly : TypeRequires s t d d.assembly
  | module : TypeRequires s t d d.module
  | enclosing {outer : Token} : d.declaringType = some outer → TypeRequires s t d outer
  | mention {r : TypeRef} {y : Token} : s.TypeMentions d r → s.model.TypeNames r y →
    TypeRequires s t d y
  | attributed {owner y : Token} {a : Attribute} : s.TypeAttribute t d owner a →
    s.AttributeRequires owner a y → TypeRequires s t d y
  | genericParam {p : Token} {param : GenericParamDef} : p ∈ d.genericParams →
    s.model.genericParam? p = some param → TypeRequires s t d p
  | delegateMethod {y : Token} : s.model.isDelegate t = true → y ∈ d.methods → TypeRequires s t d y
  /-- Serialization restores objects by a default constructor or one of its own. -/
  | serialization {method : MethodDef} : d.isSerializable = true → method ∈ s.model.methodsOf d →
    (method.isDefaultConstructor = true ∨ s.isSerializationConstructor method = true) →
    TypeRequires s t d method.token
  | special {y : Token} : s.SpecialMember t d.attributes y → TypeRequires s t d y
  | valueField {y : Token} : s.model.isValueType t = true → y ∈ d.fields → TypeRequires s t d y
  | staticConstructor {method : MethodDef} : s.options.staticConstructors = true →
    method ∈ s.model.methodsOf d → method.isStaticConstructor = true →
    TypeRequires s t d method.token
  | unlinkedOverride {y : Token} : s.options.unlinkedOverrides = true → y ∈ d.methods →
    s.OverridesUnlinked y → TypeRequires s t d y
  | keptMethod {y : Token} : y ∈ s.policy.methodsKept t → TypeRequires s t d y
  | preservedField {y : Token} : (s.policy.preserve t).keepsFields = true → y ∈ d.fields →
    TypeRequires s t d y
  | preservedMethod {method : MethodDef} : (s.policy.preserve t).keepsMethods = true →
    method ∈ s.model.methodsOf d → TypeRequires s t d method.token

/-- A reference of a type must bind and does not. -/
inductive TypeUnbound (s : Setting) (t : Token) (d : TypeDef) : Prop where
  | mention {r : TypeRef} : s.TypeMentions d r → s.model.TypeDangles r → TypeUnbound s t d
  | attributed {owner : Token} {a : Attribute} : s.TypeAttribute t d owner a →
    s.model.MethodDangles a.constructor → TypeUnbound s t d

/-! ## Fields -/

/-- What a field keeps. -/
inductive FieldRequires (s : Setting) (t : Token) (f : FieldDef) : Token → Prop where
  | owner : FieldRequires s t f f.declaringType
  | type {y : Token} : s.model.TypeNames f.type y → FieldRequires s t f y
  | attributed {a : Attribute} {y : Token} : a ∈ f.attributes → s.AttributeRequires t a y →
    FieldRequires s t f y
  | marshaler {y : Token} : s.MarshalRequires t f.marshal y → FieldRequires s t f y

/-- A reference of a field must bind and does not. -/
inductive FieldUnbound (s : Setting) (f : FieldDef) : Prop where
  | type : s.model.TypeDangles f.type → FieldUnbound s f
  | attributed {a : Attribute} : a ∈ f.attributes → s.model.MethodDangles a.constructor →
    FieldUnbound s f

/-! ## Methods -/

/-- The member that an operand refers to. -/
def operandMember? : Operand → Option MemberRef
  | .field r => some (.field r)
  | .method r => some (.method r)
  | .type r => some (.type r)
  | .token r => some r
  | _ => none

/-- The body of a method is followed: it is forced, or its assembly is linked. -/
def Follows (s : Setting) (marks : Marks) (t : Token) : Prop :=
  marks.methodAction t = .forceParse ∨
    ∀ assembly, s.model.assemblyOf? t = some assembly → s.policy.assemblyAction assembly = .link

/-- A parameter of a method, or its return value. -/
def HasParameter (d : MethodDef) (p : Parameter) : Prop :=
  p ∈ d.params ∨ p = d.result

/-- The references of a method that must bind. -/
inductive MethodMentions (s : Setting) (marks : Marks) (t : Token) (d : MethodDef) :
    MemberRef → Prop where
  | parameter {p : Parameter} : HasParameter d p → MethodMentions s marks t d (.type p.type)
  | constraint {p : Token} {param : GenericParamDef} {r : TypeRef} : p ∈ d.genericParams →
    s.model.genericParam? p = some param → r ∈ param.constraints →
    MethodMentions s marks t d (.type r)
  | explicitOverride {r : MethodRef} : r ∈ d.overrides → MethodMentions s marks t d (.method r)
  | localVariable {b : Body} {r : TypeRef} : s.Follows marks t → d.body = some b → r ∈ b.locals →
    MethodMentions s marks t d (.type r)
  | caught {b : Body} {h : Handler} {r : TypeRef} : s.Follows marks t → d.body = some b →
    h ∈ b.handlers → h.catchType? = some r → MethodMentions s marks t d (.type r)
  | operand {b : Body} {i : Instruction} {r : MemberRef} : s.Follows marks t → d.body = some b →
    i ∈ b.instructions → operandMember? i.operand = some r → MethodMentions s marks t d r

/-- The attributes of a method, of its parameters and generic parameters, and of what it is an
accessor of, each with the definition that it stands on. -/
inductive MethodAttribute (s : Setting) (t : Token) (d : MethodDef) : Token → Attribute → Prop where
  | own {a : Attribute} : a ∈ d.attributes → MethodAttribute s t d t a
  | parameter {p : Parameter} {a : Attribute} : HasParameter d p → a ∈ p.attributes →
    MethodAttribute s t d t a
  | genericParam {p : Token} {param : GenericParamDef} {a : Attribute} : p ∈ d.genericParams →
    s.model.genericParam? p = some param → a ∈ param.attributes → MethodAttribute s t d p a
  | property {o : Token} {property : PropertyDef} {a : Attribute} : d.accessorOf = some o →
    s.model.property? o = some property → a ∈ property.attributes → MethodAttribute s t d o a
  | event {o : Token} {event : EventDef} {a : Attribute} : d.accessorOf = some o →
    s.model.event? o = some event → a ∈ event.attributes → MethodAttribute s t d o a

/-- What a method keeps. -/
inductive MethodRequires (s : Setting) (marks : Marks) (t : Token) (d : MethodDef) :
    Token → Prop where
  | owner : MethodRequires s marks t d d.declaringType
  | mention {r : MemberRef} {y : Token} : s.MethodMentions marks t d r → s.model.Names r y →
    MethodRequires s marks t d y
  | attributed {owner y : Token} {a : Attribute} : s.MethodAttribute t d owner a →
    s.AttributeRequires owner a y → MethodRequires s marks t d y
  | special {y : Token} : s.SpecialMember d.declaringType d.attributes y →
    MethodRequires s marks t d y
  | marshaler {p : Parameter} {y : Token} : HasParameter d p → s.MarshalRequires t p.marshal y →
    MethodRequires s marks t d y
  | genericParam {p : Token} {param : GenericParamDef} : p ∈ d.genericParams →
    s.model.genericParam? p = some param → MethodRequires s marks t d p
  | overridden {y : Token} : s.overrides.Above t y → MethodRequires s marks t d y
  | property {o : Token} {property : PropertyDef} : d.accessorOf = some o →
    s.model.property? o = some property → MethodRequires s marks t d o
  | event {o : Token} {event : EventDef} : d.accessorOf = some o →
    s.model.event? o = some event → MethodRequires s marks t d o
  /-- All accessors of an event are kept with each of them. -/
  | accessor {o y : Token} {event : EventDef} : d.accessorOf = some o →
    s.model.event? o = some event → y ∈ event.accessors → MethodRequires s marks t d y

/-- A reference of a method must bind and does not. -/
inductive MethodUnbound (s : Setting) (marks : Marks) (t : Token) (d : MethodDef) : Prop where
  | mention {r : MemberRef} : s.MethodMentions marks t d r → s.model.Dangles r →
    MethodUnbound s marks t d
  | attributed {owner : Token} {a : Attribute} : s.MethodAttribute t d owner a →
    s.model.MethodDangles a.constructor → MethodUnbound s marks t d

/-! ## Whole models -/

/-- The attributes of assemblies and of their modules, which are always kept. -/
inductive RootAttribute (s : Setting) : Token → Attribute → Prop where
  | assembly {d : AssemblyDef} {a : Attribute} : d ∈ s.model.assemblies.toList →
    a ∈ d.attributes → RootAttribute s d.token a
  | module {d : AssemblyDef} {x : Token} {module : ModuleDef} {a : Attribute} :
    d ∈ s.model.assemblies.toList → x ∈ d.modules → s.model.module? x = some module →
    a ∈ module.attributes → RootAttribute s x a

/-- A set of definitions has with each of them what it keeps, and with a virtual method all its
overrides on types of the set. -/
structure Closed (s : Setting) (marks : Marks) (S : Token → Prop) : Prop where
  type {t y : Token} {d : TypeDef} : S t → s.model.type? t = some d → s.TypeRequires t d y → S y
  field {t y : Token} {f : FieldDef} : S t → s.model.field? t = some f →
    s.FieldRequires t f y → S y
  method {t y : Token} {d : MethodDef} : S t → s.model.method? t = some d →
    s.MethodRequires marks t d y → S y
  attributed {owner y : Token} {a : Attribute} : s.RootAttribute owner a →
    s.AttributeRequires owner a y → S y
  overrider {base o type : Token} : S base → s.model.IsVirtual base →
    o ∈ s.overrides.overridesOf base → s.model.declaringTypeOf? o = some type → S type → S o

/-- The definitions that are kept because of given roots. -/
inductive Reached (s : Setting) (marks : Marks) : Token → Prop where
  | root {t : Token} : marks.isMarked t = true → Reached s marks t
  | type {t y : Token} {d : TypeDef} : Reached s marks t → s.model.type? t = some d →
    s.TypeRequires t d y → Reached s marks y
  | field {t y : Token} {f : FieldDef} : Reached s marks t → s.model.field? t = some f →
    s.FieldRequires t f y → Reached s marks y
  | method {t y : Token} {d : MethodDef} : Reached s marks t → s.model.method? t = some d →
    s.MethodRequires marks t d y → Reached s marks y
  | attributed {owner y : Token} {a : Attribute} : s.RootAttribute owner a →
    s.AttributeRequires owner a y → Reached s marks y
  | overrider {base o type : Token} : Reached s marks base → s.model.IsVirtual base →
    o ∈ s.overrides.overridesOf base → s.model.declaringTypeOf? o = some type →
    Reached s marks type → Reached s marks o

variable {s : Setting} {marks : Marks}

/-- What is reached is closed. -/
theorem Reached.closed : s.Closed marks (s.Reached marks) :=
  ⟨.type, .field, .method, .attributed, .overrider⟩

/-- What is reached is in every closed set with the roots. -/
theorem Reached.least {S : Token → Prop} (hS : s.Closed marks S)
    (roots : ∀ t, marks.isMarked t = true → S t) {t : Token} (h : s.Reached marks t) : S t := by
  induction h with
  | root h => exact roots _ h
  | type _ hd hr ih => exact hS.type ih hd hr
  | field _ hd hr ih => exact hS.field ih hd hr
  | method _ hd hr ih => exact hS.method ih hd hr
  | attributed ha hr => exact hS.attributed ha hr
  | overrider _ hv ho hd _ ihb iht => exact hS.overrider ihb hv ho hd iht

/-- A definition of a set, or an assembly or a module, has a reference that must bind and does
not. -/
inductive Unbound (s : Setting) (marks : Marks) (S : Token → Prop) : Prop where
  | type {t : Token} {d : TypeDef} : S t → s.model.type? t = some d → s.TypeUnbound t d →
    Unbound s marks S
  | field {t : Token} {f : FieldDef} : S t → s.model.field? t = some f → s.FieldUnbound f →
    Unbound s marks S
  | method {t : Token} {d : MethodDef} : S t → s.model.method? t = some d →
    s.MethodUnbound marks t d → Unbound s marks S
  | attributed {owner : Token} {a : Attribute} : s.RootAttribute owner a →
    s.model.MethodDangles a.constructor → Unbound s marks S

theorem Unbound.mono {S S' : Token → Prop} (h : ∀ {t}, S t → S' t) (hu : s.Unbound marks S) :
    s.Unbound marks S' := by
  cases hu with
  | type hS hd hu => exact .type (h hS) hd hu
  | field hS hf hu => exact .field (h hS) hf hu
  | method hS hd hu => exact .method (h hS) hd hu
  | attributed ha hu => exact .attributed ha hu

/-- Some method of the model is reached. -/
def ReachesMethod (s : Setting) (marks : Marks) : Prop :=
  ∃ t d, s.model.method? t = some d ∧ s.Reached marks t

end Setting

end CilTrim
