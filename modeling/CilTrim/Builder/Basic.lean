import CilTrim.Builder.Draft
import CilTrim.Model.Names

/-!
# Building models

Definitions are added one by one. Each takes the next token of its table and enters the lists of its
owner; what has no owner in the model enters no list:

* `Model.addAssembly`, `Model.addType`, `Model.addMethod`, …: the token of the new definition, and
  the model with it;
* `Model.addAttribute`: an attribute for an assembly or a module;
* `Token.slot`: the place of an owner. Row zero stands for the first row here.
-/

namespace CilTrim

/-- The place in a table that a token stands for when an owner is updated; row zero stands for the
first place, as row one does. -/
def Token.slot (t : Token) : Nat :=
  t.row.toNat - 1

/-- Why an attribute could not be added. -/
inductive ConfigurationFault where
  /-- A token is neither of an assembly nor of a module. -/
  | notAnOwner (token : Token)
  /-- No method is marked before marking starts. -/
  | noEntryMethods
deriving Repr, DecidableEq

/-- The wording of a fault. -/
def ConfigurationFault.message : ConfigurationFault → String
  | .notAnOwner token =>
    "Invalid configuration - " ++ token.display ++ " is not an assembly or module"
  | .noEntryMethods => "Invalid configuration - No entry methods"

namespace Model

/-! ## Owners -/

/-- The model with the type at the place of a token changed. -/
def updateType (m : Model) (t : Token) (change : TypeDef → TypeDef) : Model :=
  if t.isIn .typeDef then { m with types := m.types.modify t.slot change } else m

/-- The model with the method at the place of a token changed. -/
def updateMethod (m : Model) (t : Token) (change : MethodDef → MethodDef) : Model :=
  if t.isIn .methodDef then { m with methods := m.methods.modify t.slot change } else m

/-- The model with a method as an accessor of a property or event. -/
def linkAccessor (m : Model) (owner : Token) (accessor : Token × UInt32) : Model :=
  m.updateMethod accessor.1 fun method =>
    { method with semantics := method.semantics ||| accessor.2, accessorOf := some owner }

/-! ## Assemblies -/

/-- Adds an assembly and its module. -/
def addAssembly (m : Model) (name : String) : Token × Model :=
  let token := Token.next .assembly m.assemblies.size
  let module := Token.next .module m.modules.size
  (token,
    { m with
      modules := m.modules.push
        { token := module, name := name ++ ".dll", assembly := token, types := [],
          attributes := [] }
      assemblies := m.assemblies.push { token, name, modules := [module], attributes := [] } })

/-- The model with the assembly of the primitive types. -/
def setCorlib (m : Model) (assembly : Token) : Model :=
  { m with corlib := some assembly }

/-- Adds an attribute to an assembly or a module. -/
def addAttribute (m : Model) (owner : Token) (a : Attribute) : Except ConfigurationFault Model :=
  match owner.table? with
  | some .assembly =>
    if owner.slot < m.assemblies.size then
      .ok { m with
        assemblies := m.assemblies.modify owner.slot fun assembly =>
          { assembly with attributes := assembly.attributes ++ [a] } }
    else .error (.notAnOwner owner)
  | some .module =>
    if owner.slot < m.modules.size then
      .ok { m with
        modules := m.modules.modify owner.slot fun module =>
          { module with attributes := module.attributes ++ [a] } }
    else .error (.notAnOwner owner)
  | _ => .error (.notAnOwner owner)

/-! ## Types -/

/-- Adds the generic parameters of an owner, from a number on. -/
def addGenericsFrom (m : Model) (owner : Token) (number : Nat) :
    List GenericDraft → List Token × Model
  | [] => ([], m)
  | draft :: rest =>
    let token := Token.next .genericParam m.genericParams.size
    let m :=
      { m with
        genericParams := m.genericParams.push
          { token, name := draft.name, number, owner, flags := draft.flags,
            constraints := draft.constraints, attributes := [] } }
    let (tokens, m) := m.addGenericsFrom owner (number + 1) rest
    (token :: tokens, m)

/-- Adds the generic parameters of an owner. -/
def addGenerics (m : Model) (owner : Token) (drafts : List GenericDraft) : List Token × Model :=
  m.addGenericsFrom owner 0 drafts

/-- The name under which a type is looked up: with the names of the types around it that the model
has by now. -/
def lookupNameOf (m : Model) (d : TypeDraft) : String :=
  match d.declaringType with
  | some outer => m.fullName outer ++ "/" ++ d.name
  | none => qualifiedName d.space d.name

/-- The first module of an assembly. -/
def mainModule (m : Model) (assembly : Token) : Token :=
  ((m.assembly? assembly).bind (·.modules.head?)).getD .null

/-- The model with a type in the list of the type around it, or of its module. -/
def listType (m : Model) (declaringType : Option Token) (module type : Token) : Model :=
  match declaringType with
  | some outer => m.updateType outer fun t => { t with nestedTypes := t.nestedTypes ++ [type] }
  | none =>
    { m with
      modules := m.modules.modify module.slot fun d => { d with types := d.types ++ [type] } }

/-- Adds a type. -/
def addType (m : Model) (d : TypeDraft) : Token × Model :=
  let token := Token.next .typeDef m.types.size
  let module := m.mainModule d.assembly
  let lookupName := m.lookupNameOf d
  let (genericParams, m) := m.addGenerics token d.generics
  let m := m.listType d.declaringType module token
  (token,
    { m with
      types := m.types.push
        { token, space := d.space, name := d.name, lookupName, flags := d.flags,
          assembly := d.assembly, module, declaringType := d.declaringType, base := d.base,
          interfaces := d.interfaces, fields := [], methods := [], properties := [], events := [],
          nestedTypes := [], genericParams, attributes := d.attributes } })

/-! ## Members -/

/-- Adds a method. -/
def addMethod (m : Model) (d : MethodDraft) : Token × Model :=
  let token := Token.next .methodDef m.methods.size
  let (genericParams, m) := m.addGenerics token d.generics
  let m :=
    { m with
      methods := m.methods.push
        { token, name := d.name, declaringType := d.declaringType, access := d.access,
          layout := d.layout, modifiers := d.modifiers, semantics := 0, accessorOf := none,
          params := d.params, result := d.result, genericParams, overrides := d.overrides,
          body := d.body, attributes := d.attributes } }
  (token, m.updateType d.declaringType fun t => { t with methods := t.methods ++ [token] })

/-- Adds a field. -/
def addField (m : Model) (d : FieldDraft) : Token × Model :=
  let token := Token.next .field m.fields.size
  let m :=
    { m with
      fields := m.fields.push
        { token, name := d.name, flags := d.flags, declaringType := d.declaringType,
          type := d.type, attributes := d.attributes, marshal := d.marshal } }
  (token, m.updateType d.declaringType fun t => { t with fields := t.fields ++ [token] })

/-- Adds a property and links its accessors to it. -/
def addProperty (m : Model) (d : PropertyDraft) : Token × Model :=
  let token := Token.next .property m.properties.size
  let accessors :=
    d.getter.toList.map (·, MethodSemantics.getter) ++
      d.setter.toList.map (·, MethodSemantics.setter) ++
      d.other.map (·, MethodSemantics.other)
  let m := accessors.foldl (fun m accessor => m.linkAccessor token accessor) m
  let m :=
    { m with
      properties := m.properties.push
        { token, name := d.name, declaringType := d.declaringType, type := d.type,
          getter := d.getter, setter := d.setter, other := d.other,
          attributes := d.attributes } }
  (token, m.updateType d.declaringType fun t => { t with properties := t.properties ++ [token] })

/-- Adds an event and links its accessors to it. -/
def addEvent (m : Model) (d : EventDraft) : Token × Model :=
  let token := Token.next .event m.events.size
  let accessors :=
    d.adder.toList.map (·, MethodSemantics.adder) ++
      d.remover.toList.map (·, MethodSemantics.remover) ++
      d.raiser.toList.map (·, MethodSemantics.raiser)
  let m := accessors.foldl (fun m accessor => m.linkAccessor token accessor) m
  let m :=
    { m with
      events := m.events.push
        { token, name := d.name, declaringType := d.declaringType, type := d.type,
          adder := d.adder, remover := d.remover, raiser := d.raiser,
          attributes := d.attributes } }
  (token, m.updateType d.declaringType fun t => { t with events := t.events ++ [token] })

end Model

end CilTrim
