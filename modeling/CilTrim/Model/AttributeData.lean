import CilTrim.Attribute.Decoder
import CilTrim.Attribute.Encoder
import CilTrim.Model.Resolution
import CilTrim.TypeName.Parser

/-!
# Attributes in a model

The parameters of its constructor fix how the value of an attribute is encoded, and the model knows
what enumerations are stored as and which types names stand for:

* `Model.argumentKind?`: the kind of arguments for a parameter of a type;
* `Model.resolveTypeName?`: the type that a name stands for;
* `Model.decodeAttribute`, `Model.encodeAttribute`: the value of an attribute, and an attribute with
  a value.
-/

namespace CilTrim

/-- Why an attribute cannot be decoded or encoded. -/
inductive AttributeFault where
  | unresolved (cause : Unresolved)
  /-- A parameter of a constructor has a type that arguments cannot have. -/
  | unencodable (parameter constructor : String)
  /-- A parameter has a type that arguments cannot have, found when a value was to be encoded. -/
  | unencodableArgument (parameter : String)
  | decode (cause : Attribute.DecodeFault)
  | encode (cause : Attribute.EncodeFault)
deriving Repr

/-- The wording of a fault. -/
def AttributeFault.message : AttributeFault → String
  | .unresolved cause => cause.message
  | .unencodable parameter constructor =>
    "Parameter " ++ parameter ++ " of " ++ constructor ++ " has no attribute encoding"
  | .unencodableArgument parameter => "Parameter " ++ parameter ++ " has no attribute encoding"
  | .decode cause => cause.message
  | .encode cause => cause.message

/-- The kind of arguments of a primitive type. -/
def Primitive.argumentKind? : Primitive → Option ArgKind
  | .boolean => some .boolean
  | .char => some .char
  | .i1 => some .i1
  | .u1 => some .u1
  | .i2 => some .i2
  | .u2 => some .u2
  | .i4 => some .i4
  | .u4 => some .u4
  | .i8 => some .i8
  | .u8 => some .u8
  | .r4 => some .r4
  | .r8 => some .r8
  | .string => some .string
  | .object => some .object
  | .void | .i | .u | .typedReference => none

namespace Model

/-- The kind that an enumeration is stored as: that of its instance field `value__`. -/
def enumUnderlying? (m : Model) (t : Token) : Option ArgKind :=
  (m.type? t).bind fun type =>
    ((type.fields.filterMap m.field?).find? fun field =>
      !field.isStatic && field.name == "value__").bind fun field =>
        match field.type with
        | .primitive kind => kind.argumentKind?
        | _ => none

/-- The kind of arguments for a named type: types, primitive types by their names, and
enumerations. -/
def namedArgumentKind? (m : Model) (r : TypeRef) : Option ArgKind :=
  let name := m.typeName r
  if name = "System.Type" then some .type
  else
    match Primitive.ofFullName? name with
    | some kind => kind.argumentKind?
    | none =>
      match m.resolveType r with
      | .error _ => none
      | .ok token =>
        if m.isEnum token then
          (m.enumUnderlying? token).map (.enum (m.reflectionName token))
        else none

/-- The kind of arguments for a parameter of a type. -/
def argumentKind? (m : Model) : TypeRef → Option ArgKind
  | .primitive kind => kind.argumentKind?
  | .array element rank => if rank = 1 then (m.argumentKind? element).map .array else none
  | .definition token => m.namedArgumentKind? (.definition token)
  | .external scope fullName => m.namedArgumentKind? (.external scope fullName)
  | _ => none

/-- A reference with a modifier of a type name around it. -/
def applyModifier (r : TypeRef) : TypeNameModifier → TypeRef
  | .szArray => .array r 1
  | .array rank => .array r rank
  | .pointer => .pointer r
  | .byRef => .byRef r

/-- The definition of a name: in the assembly it names, or in the first of the given assemblies that
has it. -/
def findNamed? (m : Model) (scopes : List Token) (name : TypeName) : Option Token :=
  match name.assemblyName? with
  | some assembly =>
    (m.findAssembly? assembly).bind fun assembly => m.findType? assembly.token name.fullName
  | none => scopes.findSome? fun scope => m.findType? scope name.fullName

mutual

/-- The type that a name stands for, where names without an assembly are looked up in the given
assemblies in turn. -/
def resolveTypeName? (m : Model) (scopes : List Token) : TypeName → Option TypeRef
  | ⟨space, name, nested, arguments, modifiers, assembly⟩ =>
    match m.findNamed? scopes ⟨space, name, nested, arguments, modifiers, assembly⟩ with
    | none => none
    | some token =>
      match m.resolveTypeNames? scopes arguments with
      | none => none
      | some args =>
        let named :=
          if args.isEmpty then .definition token else .generic (.definition token) args
        some (modifiers.foldl applyModifier named)

/-- The types that names stand for, if each stands for one. -/
def resolveTypeNames? (m : Model) (scopes : List Token) : List TypeName → Option (List TypeRef)
  | [] => some []
  | name :: rest =>
    match m.resolveTypeName? scopes name with
    | none => none
    | some r => (m.resolveTypeNames? scopes rest).map (r :: ·)

end

/-- What an enumeration is stored as, by its name in an encoded value. -/
def enumResolver (m : Model) (scopes : List Token) : Attribute.EnumResolver := fun name =>
  match TypeName.parse name with
  | .error _ => none
  | .ok parsed =>
    (m.resolveTypeName? scopes parsed).bind fun r => r.definition?.bind m.enumUnderlying?

/-- The kinds of arguments for parameters. -/
def argumentKinds (m : Model) (fault : Parameter → AttributeFault) :
    List Parameter → Except AttributeFault (List ArgKind)
  | [] => .ok []
  | param :: rest =>
    match m.argumentKind? param.type with
    | none => .error (fault param)
    | some kind => (m.argumentKinds fault rest).map (kind :: ·)

/-- The value of an attribute. -/
def decodeAttribute (m : Model) (a : Attribute) : Except AttributeFault AttributeValue := do
  let ctor ← (m.resolveMethod a.constructor).mapError .unresolved
  match m.method? ctor with
  | none => throw (.unresolved (.method a.constructor))
  | some method =>
    let params ←
      m.argumentKinds (fun param => .unencodable param.name (m.methodName ctor)) method.params
    let scopes := (m.assemblyOf? ctor).toList ++ m.corlib.toList
    (Attribute.decode a.blob params (m.enumResolver scopes)).mapError .decode

/-- The attribute with a constructor and a value. -/
def encodeAttribute (m : Model) (constructor : MethodRef) (value : AttributeValue) :
    Except AttributeFault Attribute := do
  let ctor ← (m.resolveMethod constructor).mapError .unresolved
  let params ←
    m.argumentKinds (fun param => .unencodableArgument param.name)
      (((m.method? ctor).map (·.params)).getD [])
  let blob ← (Attribute.encode value params).mapError .encode
  pure { constructor, blob }

end Model

end CilTrim
