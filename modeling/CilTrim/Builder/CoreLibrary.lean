import CilTrim.Builder.Basic

/-!
# The core library

The assembly that every program builds on, with the types that marking knows by name:

* `CoreLibrary`: the tokens of its definitions;
* `Model.addCoreLibrary`: adds the assembly and makes it the one of the primitive types;
* `Builder`: a model to which the core library is added at most once.
-/

namespace CilTrim

/-- The name of the core library. -/
def corlibName : String := "mscorlib"

/-- The definitions of the core library. -/
structure CoreLibrary where
  assembly : Token
  objectType : Token
  objectConstructor : Token
  toStringMethod : Token
  equalsMethod : Token
  getHashCodeMethod : Token
  finalizeMethod : Token
  valueType : Token
  enumType : Token
  stringType : Token
  typeType : Token
  attributeType : Token
  attributeConstructor : Token
  delegateType : Token
  multicastDelegateType : Token
  exceptionType : Token
  exceptionConstructor : Token
  serializationInfoType : Token
  streamingContextType : Token
deriving Repr, DecidableEq

/-- The definitions in the order in which they are declared. -/
def CoreLibrary.tokens (c : CoreLibrary) : List Token :=
  [c.assembly, c.objectType, c.objectConstructor, c.toStringMethod, c.equalsMethod,
    c.getHashCodeMethod, c.finalizeMethod, c.valueType, c.enumType, c.stringType, c.typeType,
    c.attributeType, c.attributeConstructor, c.delegateType, c.multicastDelegateType,
    c.exceptionType, c.exceptionConstructor, c.serializationInfoType, c.streamingContextType]

/-- The primitive types that are values of their own. -/
def Primitive.inPlace : List Primitive :=
  Primitive.all.filter fun kind => kind != .object && kind != .string

namespace Model

/-- Steps that add definitions to a model and know their tokens. -/
abbrev Build := StateM Model

/-- Adds an abstract class of the core library. -/
def addAbstractClass (assembly : Token) (name : String) (base : TypeRef) : Build Token :=
  fun m => m.addType
    (((TypeDraft.ofClass assembly "System" name).addFlags TypeFlags.abstractType).withBase base)

/-- Adds a class of the core library. -/
def addClass (assembly : Token) (space name : String) (flags : UInt32) (base : TypeRef) :
    Build Token :=
  fun m => m.addType (((TypeDraft.ofClass assembly space name).addFlags flags).withBase base)

/-- Adds a virtual method with a slot of its own. -/
def addRootVirtual (d : MethodDraft) (code : List Instr) : Build Token :=
  fun m => m.addMethod (d.asVirtual.inNewSlot.withCode code)

/-- Adds the core library. -/
def addCoreLibrary : Build CoreLibrary := do
  let assembly ← fun m => m.addAssembly corlibName
  modify (·.setCorlib assembly)
  let objectType ← fun m => m.addType (.ofClass assembly "System" "Object")
  let object := TypeRef.definition objectType
  let objectConstructor ← fun m => m.addMethod (.ofConstructor objectType)
  let toStringMethod ← addRootVirtual
    ((MethodDraft.ofName objectType "ToString").returns (.primitive .string)) [.ldnull, .ret]
  let equalsMethod ← addRootVirtual
    (((MethodDraft.ofName objectType "Equals").addParam
      ⟨"obj", .primitive .object, [], none⟩).returns (.primitive .boolean)) [.ldcI4 0, .ret]
  let getHashCodeMethod ← addRootVirtual
    ((MethodDraft.ofName objectType "GetHashCode").returns (.primitive .i4)) [.ldcI4 0, .ret]
  let finalizeMethod ← addRootVirtual (MethodDraft.ofName objectType "Finalize").asFamily [.ret]
  let valueType ← addAbstractClass assembly "ValueType" object
  let value := TypeRef.definition valueType
  let enumType ← addAbstractClass assembly "Enum" value
  for kind in Primitive.inPlace do
    discard (addClass assembly "System" kind.name TypeFlags.sealedType value)
  let stringType ← addClass assembly "System" "String" TypeFlags.sealedType object
  let typeType ← addAbstractClass assembly "Type" object
  let attributeType ← addAbstractClass assembly "Attribute" object
  let attributeConstructor ←
    fun m => m.addMethod (MethodDraft.ofConstructor attributeType).asFamily
  let delegateType ← addAbstractClass assembly "Delegate" object
  let multicastDelegateType ←
    addAbstractClass assembly "MulticastDelegate" (.definition delegateType)
  let exceptionType ← addClass assembly "System" "Exception" TypeFlags.serializable object
  let exceptionConstructor ← fun m => m.addMethod (.ofConstructor exceptionType)
  let serializationInfoType ←
    addClass assembly "System.Runtime.Serialization" "SerializationInfo" TypeFlags.sealedType object
  let streamingContextType ←
    addClass assembly "System.Runtime.Serialization" "StreamingContext" TypeFlags.sealedType value
  let _ ← fun m => m.addMethod
    (((MethodDraft.ofName typeType "GetTypeFromHandle").asStatic.returns
      (.definition typeType)).withCode [.ldnull, .ret])
  pure
    { assembly, objectType, objectConstructor, toStringMethod, equalsMethod, getHashCodeMethod,
      finalizeMethod, valueType, enumType, stringType, typeType, attributeType,
      attributeConstructor, delegateType, multicastDelegateType, exceptionType,
      exceptionConstructor, serializationInfoType, streamingContextType }

end Model

/-- A model that is being built. -/
structure Builder where
  model : Model
  /-- The core library, once it has been asked for. -/
  coreLibrary : Option CoreLibrary
deriving Repr

namespace Builder

/-- Nothing built yet. -/
def empty : Builder := ⟨.empty, none⟩

/-- The core library, which the first call adds. -/
def corlib (b : Builder) : CoreLibrary × Builder :=
  match b.coreLibrary with
  | some library => (library, b)
  | none =>
    let (library, model) := Model.addCoreLibrary b.model
    (library, ⟨model, some library⟩)

/-- A step on the model. -/
def onModel {α : Type} (b : Builder) (step : Model → α × Model) : α × Builder :=
  let (result, model) := step b.model
  (result, { b with model })

end Builder

end CilTrim
