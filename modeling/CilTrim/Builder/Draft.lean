import CilTrim.Body.Writer
import CilTrim.Model.Definition

/-!
# Drafts

Definitions before they have a token. A draft starts from what is usual and is refined step by
step; the steps are functions on drafts, so that they chain:

* `TypeDraft`: `ofClass`, `ofInterface`, `nestIn`, …;
* `MethodDraft`: `ofName`, `ofConstructor`, `asVirtual`, `asAbstract`, …;
* `FieldDraft`, `PropertyDraft`, `EventDraft`, `GenericDraft`.
-/

namespace CilTrim

/-- A generic parameter of a draft. -/
structure GenericDraft where
  name : String
  flags : UInt32
  constraints : List TypeRef
deriving Repr

/-- A type before it has a token. -/
structure TypeDraft where
  assembly : Token
  space : String
  name : String
  flags : UInt32
  base : Option TypeRef := none
  interfaces : List TypeRef := []
  declaringType : Option Token := none
  generics : List GenericDraft := []
  attributes : List Attribute := []
deriving Repr

namespace TypeDraft

/-- A public class. -/
def ofClass (assembly : Token) (space name : String) : TypeDraft where
  assembly := assembly
  space := space
  name := name
  flags := TypeFlags.publicAccess

/-- A public interface. -/
def ofInterface (assembly : Token) (space name : String) : TypeDraft where
  assembly := assembly
  space := space
  name := name
  flags := TypeFlags.publicAccess ||| TypeFlags.interfaceType ||| TypeFlags.abstractType

/-- The type with more flags. -/
def addFlags (d : TypeDraft) (flags : UInt32) : TypeDraft :=
  { d with flags := d.flags ||| flags }

/-- The type with a base. -/
def withBase (d : TypeDraft) (base : TypeRef) : TypeDraft :=
  { d with base := some base }

/-- The type as a public nested type, which has no namespace of its own. -/
def nestIn (d : TypeDraft) (outer : Token) : TypeDraft :=
  { d with
    declaringType := some outer
    space := ""
    flags := (d.flags &&& ~~~TypeFlags.visibilityMask) ||| TypeFlags.nestedPublic }

end TypeDraft

/-- A method before it has a token. -/
structure MethodDraft where
  declaringType : Token
  name : String
  access : UInt32 := MethodFlags.publicAccess
  layout : UInt32 := 0
  modifiers : UInt32 := MethodFlags.hideBySig
  params : List Parameter := []
  result : Parameter := ⟨"", .primitive .void, [], none⟩
  generics : List GenericDraft := []
  overrides : List MethodRef := []
  body : Option Body := none
  attributes : List Attribute := []
deriving Repr

namespace MethodDraft

/-- A public instance method without parameters and without a body. -/
def ofName (declaringType : Token) (name : String) : MethodDraft where
  declaringType := declaringType
  name := name

/-- The method with more modifiers. -/
def addModifiers (d : MethodDraft) (modifiers : UInt32) : MethodDraft :=
  { d with modifiers := d.modifiers ||| modifiers }

/-- The method as a private one. -/
def asPrivate (d : MethodDraft) : MethodDraft :=
  { d with access := MethodFlags.privateAccess }

/-- The method for its type and derived types only. -/
def asFamily (d : MethodDraft) : MethodDraft :=
  { d with access := MethodFlags.familyAccess }

/-- The method as a static one. -/
def asStatic (d : MethodDraft) : MethodDraft :=
  d.addModifiers MethodFlags.staticMethod

/-- The method as a virtual one. -/
def asVirtual (d : MethodDraft) : MethodDraft :=
  d.addModifiers MethodFlags.virtualMethod

/-- The method as an abstract one, which has no body. -/
def asAbstract (d : MethodDraft) : MethodDraft :=
  { d with body := none }.addModifiers (MethodFlags.virtualMethod ||| MethodFlags.abstractMethod)

/-- The method in a slot of its own, so that it overrides nothing by name. -/
def inNewSlot (d : MethodDraft) : MethodDraft :=
  { d with layout := MethodFlags.newSlot }

/-- The method with a parameter behind those it has. -/
def addParam (d : MethodDraft) (param : Parameter) : MethodDraft :=
  { d with params := d.params ++ [param] }

/-- The method with a return type. -/
def returns (d : MethodDraft) (type : TypeRef) : MethodDraft :=
  { d with result := { d.result with type } }

/-- The method with the given instructions as its body. -/
def withCode (d : MethodDraft) (instrs : List Instr) : MethodDraft :=
  { d with body := some (Body.ofInstrs instrs) }

/-- An instance constructor that returns at once. -/
def ofConstructor (declaringType : Token) : MethodDraft :=
  ((ofName declaringType constructorName).addModifiers
    (MethodFlags.specialName ||| MethodFlags.runtimeSpecialName)).withCode [.ret]

/-- A static constructor that returns at once. -/
def ofStaticConstructor (declaringType : Token) : MethodDraft :=
  ((ofName declaringType staticConstructorName).asPrivate.addModifiers
    (MethodFlags.staticMethod ||| MethodFlags.specialName |||
      MethodFlags.runtimeSpecialName)).withCode [.ret]

end MethodDraft

/-- A field before it has a token. -/
structure FieldDraft where
  declaringType : Token
  name : String
  type : TypeRef
  flags : UInt32 := FieldFlags.publicAccess
  marshal : Option MarshalSpec := none
  attributes : List Attribute := []
deriving Repr

namespace FieldDraft

/-- The field as a static one. -/
def asStatic (d : FieldDraft) : FieldDraft :=
  { d with flags := d.flags ||| FieldFlags.staticField }

/-- The field as a private one. -/
def asPrivate (d : FieldDraft) : FieldDraft :=
  { d with flags := (d.flags &&& ~~~FieldFlags.accessMask) ||| FieldFlags.privateAccess }

/-- The field with a marshalling descriptor. -/
def withMarshal (d : FieldDraft) (spec : MarshalSpec) : FieldDraft :=
  { d with flags := d.flags ||| FieldFlags.hasMarshal, marshal := some spec }

end FieldDraft

/-- A property before it has a token. -/
structure PropertyDraft where
  declaringType : Token
  name : String
  type : TypeRef
  getter : Option Token := none
  setter : Option Token := none
  other : List Token := []
  attributes : List Attribute := []
deriving Repr

/-- An event before it has a token. -/
structure EventDraft where
  declaringType : Token
  name : String
  type : TypeRef
  adder : Option Token := none
  remover : Option Token := none
  raiser : Option Token := none
  attributes : List Attribute := []
deriving Repr

end CilTrim
