import CilTrim.Attribute.Value
import CilTrim.Body.Basic
import CilTrim.Marshal

/-!
# Definitions

What a set of assemblies defines. Every definition holds its own token and refers to others by
their tokens; flags are the bits of the metadata, with the bits that matter named here.
-/

namespace CilTrim

/-- An assembly. -/
structure AssemblyDef where
  token : Token
  name : String
  modules : List Token
  attributes : List Attribute
deriving Repr

/-- A module of an assembly, with its types that are not nested. -/
structure ModuleDef where
  token : Token
  name : String
  assembly : Token
  types : List Token
  attributes : List Attribute
deriving Repr

/-- All bits of `mask` are set. -/
def hasBits (flags mask : UInt32) : Bool :=
  flags &&& mask == mask

namespace TypeFlags

/-- The bits that say who may see a type. -/
def visibilityMask : UInt32 := 0x7

/-- A type that everyone may see. -/
def publicAccess : UInt32 := 0x1

/-- A nested type that everyone may see. -/
def nestedPublic : UInt32 := 0x2

/-- An interface. -/
def interfaceType : UInt32 := 0x20

/-- A type without instances of its own. -/
def abstractType : UInt32 := 0x80

/-- A type from which none derives. -/
def sealedType : UInt32 := 0x100

/-- A type whose instances can be stored and restored. -/
def serializable : UInt32 := 0x2000

end TypeFlags

/-- A type. -/
structure TypeDef where
  token : Token
  /-- The namespace, empty for a nested type. -/
  space : String
  name : String
  /-- The name under which the type is looked up in its assembly. -/
  lookupName : String
  flags : UInt32
  assembly : Token
  module : Token
  /-- The type around a nested type. -/
  declaringType : Option Token
  base : Option TypeRef
  interfaces : List TypeRef
  fields : List Token
  methods : List Token
  properties : List Token
  events : List Token
  nestedTypes : List Token
  genericParams : List Token
  attributes : List Attribute
deriving Repr

/-- A name in a namespace. -/
def qualifiedName (space name : String) : String :=
  if space.isEmpty then name else space ++ "." ++ name

namespace TypeDef

/-- The name with its namespace, without the names of the types around it. -/
def ownName (t : TypeDef) : String :=
  qualifiedName t.space t.name

/-- The type is an interface. -/
def isInterface (t : TypeDef) : Bool := hasBits t.flags TypeFlags.interfaceType

/-- Instances of the type can be stored and restored. -/
def isSerializable (t : TypeDef) : Bool := hasBits t.flags TypeFlags.serializable

/-- The type has no instances of its own. -/
def isAbstract (t : TypeDef) : Bool := hasBits t.flags TypeFlags.abstractType

/-- No type derives from the type. -/
def isSealed (t : TypeDef) : Bool := hasBits t.flags TypeFlags.sealedType

/-- The type stands inside another. -/
def isNested (t : TypeDef) : Bool := t.declaringType.isSome

end TypeDef

/-- A parameter of a method, or its return value. -/
structure Parameter where
  name : String
  type : TypeRef
  attributes : List Attribute
  marshal : Option MarshalSpec
deriving Repr

namespace MethodFlags

/-- A method for its type only. -/
def privateAccess : UInt32 := 0x1

/-- A method for its type and derived types. -/
def familyAccess : UInt32 := 0x4

/-- A method for everyone. -/
def publicAccess : UInt32 := 0x6

/-- A method that is not called on an instance. -/
def staticMethod : UInt32 := 0x10

/-- A method that derived types may override. -/
def virtualMethod : UInt32 := 0x40

/-- A method that hides others by name and signature. -/
def hideBySig : UInt32 := 0x80

/-- A method that takes a slot of its own. -/
def newSlot : UInt32 := 0x100

/-- A method that derived types implement. -/
def abstractMethod : UInt32 := 0x400

/-- A method whose name has a meaning. -/
def specialName : UInt32 := 0x800

/-- A method whose name has a meaning for the runtime. -/
def runtimeSpecialName : UInt32 := 0x1000

end MethodFlags

namespace MethodSemantics

/-- The setter of a property. -/
def setter : UInt32 := 0x1

/-- The getter of a property. -/
def getter : UInt32 := 0x2

/-- Another accessor of a property. -/
def other : UInt32 := 0x4

/-- The accessor of an event that adds a handler. -/
def adder : UInt32 := 0x8

/-- The accessor of an event that removes a handler. -/
def remover : UInt32 := 0x10

/-- The accessor of an event that raises it. -/
def raiser : UInt32 := 0x20

end MethodSemantics

/-- The name of instance constructors. -/
def constructorName : String := ".ctor"

/-- The name of static constructors. -/
def staticConstructorName : String := ".cctor"

/-- A method. -/
structure MethodDef where
  token : Token
  name : String
  declaringType : Token
  /-- Who may call the method. -/
  access : UInt32
  /-- How the method takes its place among the virtual methods of its type. -/
  layout : UInt32
  modifiers : UInt32
  /-- What the method is to the property or event it belongs to. -/
  semantics : UInt32
  accessorOf : Option Token
  params : List Parameter
  result : Parameter
  genericParams : List Token
  /-- The methods that this one is declared to implement. -/
  overrides : List MethodRef
  body : Option Body
  attributes : List Attribute
deriving Repr

namespace MethodDef

/-- Derived types may override the method. -/
def isVirtual (m : MethodDef) : Bool := hasBits m.modifiers MethodFlags.virtualMethod

/-- The method is not called on an instance. -/
def isStatic (m : MethodDef) : Bool := hasBits m.modifiers MethodFlags.staticMethod

/-- Derived types implement the method. -/
def isAbstract (m : MethodDef) : Bool := hasBits m.modifiers MethodFlags.abstractMethod

/-- The method takes a slot of its own, so that it overrides nothing by name. -/
def isNewSlot (m : MethodDef) : Bool := hasBits m.layout MethodFlags.newSlot

/-- A constructor, static or not: it has a constructor's name and is marked as special. -/
def isConstructor (m : MethodDef) : Bool :=
  hasBits m.modifiers (MethodFlags.specialName ||| MethodFlags.runtimeSpecialName) &&
    (m.name == constructorName || m.name == staticConstructorName)

/-- The constructor that sets up a type. -/
def isStaticConstructor (m : MethodDef) : Bool :=
  m.isConstructor && m.isStatic && m.name == staticConstructorName

/-- An instance constructor without parameters. -/
def isDefaultConstructor (m : MethodDef) : Bool :=
  m.isConstructor && !m.isStatic && m.params.isEmpty

/-- The comparable part of a method. -/
def signature (m : MethodDef) : Signature where
  hasThis := !m.isStatic
  genericCount := m.genericParams.length
  returnType := m.result.type
  params := m.params.map (·.type)

end MethodDef

namespace FieldFlags

/-- The bits that say who may use a field. -/
def accessMask : UInt32 := 0x7

/-- A field for its type only. -/
def privateAccess : UInt32 := 0x1

/-- A field for everyone. -/
def publicAccess : UInt32 := 0x6

/-- A field of the type itself. -/
def staticField : UInt32 := 0x10

/-- A field with a marshalling descriptor. -/
def hasMarshal : UInt32 := 0x1000

end FieldFlags

/-- A field. -/
structure FieldDef where
  token : Token
  name : String
  flags : UInt32
  declaringType : Token
  type : TypeRef
  attributes : List Attribute
  marshal : Option MarshalSpec
deriving Repr

/-- The field belongs to the type itself. -/
def FieldDef.isStatic (f : FieldDef) : Bool := hasBits f.flags FieldFlags.staticField

/-- A property. -/
structure PropertyDef where
  token : Token
  name : String
  declaringType : Token
  type : TypeRef
  getter : Option Token
  setter : Option Token
  other : List Token
  attributes : List Attribute
deriving Repr

/-- The methods that a property is made of. -/
def PropertyDef.accessors (p : PropertyDef) : List Token :=
  p.getter.toList ++ p.setter.toList ++ p.other

/-- An event. -/
structure EventDef where
  token : Token
  name : String
  declaringType : Token
  type : TypeRef
  adder : Option Token
  remover : Option Token
  raiser : Option Token
  attributes : List Attribute
deriving Repr

/-- The methods that an event is made of. -/
def EventDef.accessors (e : EventDef) : List Token :=
  e.adder.toList ++ e.remover.toList ++ e.raiser.toList

namespace GenericFlags

/-- Arguments must be value types. -/
def valueType : UInt32 := 0x8

/-- Arguments must have a constructor without parameters. -/
def defaultConstructor : UInt32 := 0x10

end GenericFlags

/-- A generic parameter of a type or a method. -/
structure GenericParamDef where
  token : Token
  name : String
  /-- The position among the parameters of the owner. -/
  number : Nat
  owner : Token
  flags : UInt32
  constraints : List TypeRef
  attributes : List Attribute
deriving Repr

namespace GenericParamDef

/-- Arguments must have a constructor without parameters. -/
def needsDefaultConstructor (p : GenericParamDef) : Bool :=
  hasBits p.flags GenericFlags.defaultConstructor

/-- Arguments must be value types. -/
def needsValueType (p : GenericParamDef) : Bool :=
  hasBits p.flags GenericFlags.valueType

end GenericParamDef

end CilTrim
