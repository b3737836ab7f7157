import CilTrim.Mark.Demand

/-!
# What nodes need

The demands of whole definitions, in the order in which they are met:

* `Setting.typeNeeds`, `Setting.methodNeeds`, `Setting.fieldNeeds`, `Setting.assemblyNeeds`;
* `OverrideTable.basesAbove`: all methods that a method overrides, directly or not;
* `Setting.specialMembers`: members that special attributes name.
-/

namespace CilTrim

namespace OverrideTable

/-- The methods on a stack and all that they override, each once, with those in `visited` left out.
Every step passes a pair of the table, so `fuel` need only exceed their number twice. -/
def above (t : OverrideTable) : Nat → List Token → List Token → List Token
  | 0, _, _ => []
  | _, _, [] => []
  | fuel + 1, visited, base :: stack =>
    if base ∈ visited then t.above fuel visited stack
    else base :: t.above fuel (base :: visited) ((t.basesOf base).reverse ++ stack)

/-- All methods that a method overrides, directly or not. Of several, the last is followed to its
end first. -/
def basesAbove (t : OverrideTable) (method : Token) : List Token :=
  t.above (2 * t.size + 1) [] (t.basesOf method).reverse

end OverrideTable

namespace Setting

/-! ## Generic parameters -/

/-- The demands of a generic parameter: its attributes and the types that bound it. -/
def genericParam (s : Setting) (reason : Reason) (token : Token) : List Demand :=
  match s.model.genericParam? token with
  | none => []
  | some param =>
    .node token reason :: s.attributes token (.node token) param.attributes ++
      s.typeRefs (.node token) param.constraints

/-! ## Special attributes -/

/-- The kinds of members that an attribute names, and the name. -/
def specialName? (s : Setting) (a : Attribute) : Option (MemberKinds × String) :=
  (s.model.resolveMethod a.constructor).toOption.bind fun ctor =>
    (s.model.declaringTypeOf? ctor).bind fun type =>
      (s.special.get? (s.model.fullName type)).bind fun kinds =>
        (s.model.decodeAttribute a).toOption.bind fun value =>
          match value.fixed with
          | .string name :: _ => if name.isEmpty then none else some (kinds, name)
          | _ => none

/-- The members of a type that a name stands for. -/
def membersNamed (s : Setting) (type : TypeDef) (target : Token) (reason : Reason)
    (kinds : MemberKinds) (name : String) : List Demand :=
  (if kinds.includes .methods then s.methodsWhere type reason (·.name == name) else []) ++
    (if kinds.includes .fields then
      (s.model.findField? target name).toList.map (.field · reason)
    else []) ++
    if kinds.includes .properties then
      match (s.model.findProperty? target name).bind s.model.property? with
      | some property => (property.getter.toList ++ property.setter.toList).map (.method · reason)
      | none => []
    else []

/-- The members of a type that the special ones among attributes name. -/
def specialMembers (s : Setting) (target : Token) (reason : Reason) (as : List Attribute) :
    List Demand :=
  match s.model.type? target with
  | none => []
  | some type =>
    as.flatMap fun a =>
      match s.specialName? a with
      | some (kinds, name) => s.membersNamed type target reason kinds name
      | none => []

/-! ## Types -/

/-- A name without its namespace and without the types around it. -/
def simpleName (fullName : String) : String :=
  String.ofList (fullName.toList.reverse.takeWhile fun c => c != '.' && c != '/').reverse

/-- An instance constructor with the parameters by which serialization restores an object. -/
def isSerializationConstructor (s : Setting) (method : MethodDef) : Bool :=
  method.isConstructor && !method.isStatic &&
    method.params.map (fun param => simpleName (s.model.typeName param.type)) ==
      ["SerializationInfo", "StreamingContext"]

/-- The method overrides, directly or not, a method of an assembly that is not linked. -/
def hasUnlinkedBase (s : Setting) (method : Token) : Bool :=
  (s.overrides.basesAbove method).any fun base =>
    (s.model.assemblyOf? base).any fun assembly => s.policy.assemblyAction assembly != .link

/-- The fields of a type. -/
def allFields (type : TypeDef) (reason : Reason) : List Demand :=
  type.fields.map (.field · reason)

/-- What users have decided to keep with a type. -/
def preserved (s : Setting) (type : TypeDef) (reason : Reason) : List Demand :=
  let preserve := s.policy.preserve type.token
  (s.policy.methodsKept type.token).map (.method · reason) ++
    (if preserve.keepsFields then allFields type reason else []) ++
    if preserve.keepsMethods then s.methodsWhere type reason fun _ => true else []

/-- The demands of a type. -/
def typeNeeds (s : Setting) (token : Token) (type : TypeDef) : List Demand :=
  let reason := Reason.node token
  [.node type.assembly reason, .node type.module reason, .assembly type.assembly] ++
    type.declaringType.toList.map (.type · reason) ++
    s.typeRefs reason type.base.toList ++
    s.typeRefs reason type.interfaces ++
    s.attributes token reason type.attributes ++
    type.genericParams.flatMap (s.genericParam reason) ++
    (if s.model.isDelegate token then type.methods.map (.method · reason) else []) ++
    (if type.isSerializable then
      s.methodsWhere type reason fun method =>
        method.isDefaultConstructor || s.isSerializationConstructor method
    else []) ++
    s.specialMembers type.token (.node type.token) type.attributes ++
    (if s.model.isValueType token then allFields type reason else []) ++
    (if s.options.staticConstructors then s.methodsWhere type reason (·.isStaticConstructor)
    else []) ++
    (if s.options.unlinkedOverrides then
      (type.methods.filter s.hasUnlinkedBase).map (.method · reason)
    else []) ++
    [.arrived token] ++
    s.preserved type (.node type.token)

/-! ## Assemblies and fields -/

/-- The demands of the attributes of an assembly and of its modules. -/
def assemblyNeeds (s : Setting) (token : Token) (assembly : AssemblyDef) : List Demand :=
  s.attributes token (.node token) assembly.attributes ++
    assembly.modules.flatMap fun module =>
      match s.model.module? module with
      | some definition => s.attributes module (.node token) definition.attributes
      | none => []

/-- The demands of a field. -/
def fieldNeeds (s : Setting) (token : Token) (field : FieldDef) : List Demand :=
  .type field.declaringType (.node token) :: s.typeRef (.node token) field.type ++
    s.attributes token (.node token) field.attributes ++ s.marshal token (.node token) field.marshal

/-! ## Methods -/

/-- The demands of a parameter of a method, or of its return value. -/
def parameter (s : Setting) (token : Token) (param : Parameter) : List Demand :=
  s.typeRef (.node token) param.type ++ s.attributes token (.node token) param.attributes ++
    s.marshal token (.node token) param.marshal

/-- The demands of an operand. -/
def operand (s : Setting) (reason : Reason) : Operand → List Demand
  | .field r => s.fieldRef reason r
  | .method r => s.methodRef reason r
  | .type r => s.typeRef reason r
  | .token r => s.memberRef reason r
  | _ => []

/-- The demands of a body. -/
def body (s : Setting) (reason : Reason) (body : Body) : List Demand :=
  s.typeRefs reason body.locals ++
    s.typeRefs reason (body.handlers.filterMap (·.catchType?)) ++
    body.instructions.flatMap fun instruction => s.operand reason instruction.operand

/-- The body of a method is followed: always, or if its assembly is linked. -/
def followsBody (s : Setting) (token : Token) (action : MethodAction) : Bool :=
  let assemblyAction :=
    ((s.model.assemblyOf? token).map s.policy.assemblyAction).getD .link
  action == .forceParse || (assemblyAction == .link && action == .parse)

/-- The demands of what a method is an accessor of: the attributes of a property, or those of an
event and its other accessors. -/
def accessorOwner (s : Setting) (reason : Reason) (owner : Token) : List Demand :=
  match s.model.property? owner, s.model.event? owner with
  | some property, _ => .node owner reason :: s.attributes owner reason property.attributes
  | none, some event =>
    .node owner reason :: s.attributes owner reason event.attributes ++
      event.accessors.map (.method · reason)
  | none, none => []

/-- The demands of a method, for an action on its body. -/
def methodNeeds (s : Setting) (token : Token) (method : MethodDef) (action : MethodAction) :
    List Demand :=
  let reason := Reason.node token
  [.type method.declaringType reason] ++
    s.attributes token reason method.attributes ++
    s.specialMembers method.declaringType (.node method.token) method.attributes ++
    method.params.flatMap (s.parameter token) ++
    method.genericParams.flatMap (s.genericParam reason) ++
    method.overrides.flatMap (s.methodRef reason) ++
    (s.overrides.basesAbove token).map (.method · reason) ++
    (if method.isVirtual then [.overridable token] else []) ++
    s.parameter token method.result ++
    (if s.followsBody method.token action then method.body.toList.flatMap (s.body reason)
    else []) ++
    method.accessorOf.toList.flatMap (s.accessorOwner reason) ++
    [.finished token]

end Setting

end CilTrim
