import CilTrim.Model.AttributeData
import CilTrim.Override.Search

/-!
# Bodies of methods

What a model says of its definitions does not depend on the bodies of methods. A model with other
bodies has the same owners, names, bindings, attribute values and overrides:

* `Model.withBodies`: the model with other bodies for some methods;
* `Model.method?_withBodies`: the only lookup that tells the two apart;
* `Model.resolveMethod_withBodies`, `Model.decodeAttribute_withBodies`,
  `OverrideTable.ofModel_withBodies`, and what they are made of.
-/

namespace CilTrim

/-- The method with another body, if there is one for its token. -/
def MethodDef.withBody (d : MethodDef) (bodies : Token → Option Body) : MethodDef :=
  { d with body := (bodies d.token).or d.body }

namespace MethodDef

variable (d : MethodDef) (bodies : Token → Option Body)

@[simp] theorem withBody_token : (d.withBody bodies).token = d.token := rfl
@[simp] theorem withBody_name : (d.withBody bodies).name = d.name := rfl
@[simp] theorem withBody_isVirtual : (d.withBody bodies).isVirtual = d.isVirtual := rfl
@[simp] theorem withBody_signature : (d.withBody bodies).signature = d.signature := rfl

end MethodDef

namespace Model

/-- The model with other bodies for some of its methods. -/
def withBodies (m : Model) (bodies : Token → Option Body) : Model :=
  { m with methods := m.methods.map (·.withBody bodies) }

variable (m : Model) (bodies : Token → Option Body)

/-! ## Methods and where definitions stand -/

theorem method?_withBodies (t : Token) :
    (m.withBodies bodies).method? t = (m.method? t).map (·.withBody bodies) := by
  unfold method?
  cases t.index? .methodDef with
  | none => rfl
  | some i => simp [withBodies]

theorem methodsOf_withBodies (type : TypeDef) :
    (m.withBodies bodies).methodsOf type = (m.methodsOf type).map (·.withBody bodies) := by
  unfold methodsOf
  rw [List.map_filterMap]
  congr 1
  funext t
  exact m.method?_withBodies bodies t

@[simp] theorem isSome_method?_withBodies (t : Token) :
    ((m.withBodies bodies).method? t).isSome = (m.method? t).isSome := by
  rw [method?_withBodies, Option.isSome_map]

@[simp] theorem ownerOf?_withBodies : (m.withBodies bodies).ownerOf? = m.ownerOf? := by
  funext t
  unfold ownerOf?
  rw [method?_withBodies, Option.map_map]
  rfl

@[simp] theorem assemblyWithin?_withBodies :
    (m.withBodies bodies).assemblyWithin? = m.assemblyWithin? := by
  funext steps t
  induction steps generalizing t with
  | zero =>
    unfold assemblyWithin?
    rfl
  | succ steps ih =>
    unfold assemblyWithin?
    dsimp only
    rw [ownerOf?_withBodies, show (m.withBodies bodies).assemblyWithin? steps = _ from funext ih]
    rfl

@[simp] theorem assemblyOf?_withBodies : (m.withBodies bodies).assemblyOf? = m.assemblyOf? := by
  have hcount : (m.withBodies bodies).memberCount = m.memberCount := by
    simp [memberCount, withBodies]
  funext t
  rw [assemblyOf?, assemblyOf?, hcount, assemblyWithin?_withBodies]

@[simp] theorem declaringTypeOf?_withBodies :
    (m.withBodies bodies).declaringTypeOf? = m.declaringTypeOf? := by
  funext t
  unfold declaringTypeOf?
  rw [ownerOf?_withBodies]
  rfl

/-! ## Names -/

theorem fullNameWithin_withBodies (depth : Nat) (t : Token) :
    (m.withBodies bodies).fullNameWithin depth t = m.fullNameWithin depth t := by
  induction depth generalizing t with
  | zero =>
    unfold fullNameWithin
    rfl
  | succ depth ih =>
    unfold fullNameWithin
    simp only [ih]
    rfl

@[simp] theorem fullName_withBodies : (m.withBodies bodies).fullName = m.fullName :=
  funext fun t => m.fullNameWithin_withBodies bodies m.types.size t

@[simp] theorem reflectionName_withBodies :
    (m.withBodies bodies).reflectionName = m.reflectionName := by
  funext t
  rw [reflectionName, fullName_withBodies, reflectionName]

@[simp] theorem methodName_withBodies : (m.withBodies bodies).methodName = m.methodName := by
  funext t
  unfold methodName
  rw [method?_withBodies, fullName_withBodies]
  cases m.method? t <;> rfl

@[simp] theorem typeName_withBodies : (m.withBodies bodies).typeName = m.typeName := by
  funext r
  unfold typeName
  rw [fullName_withBodies]

@[simp] theorem baseName?_withBodies : (m.withBodies bodies).baseName? = m.baseName? := by
  funext t
  unfold baseName?
  rw [typeName_withBodies]
  rfl

@[simp] theorem isValueType_withBodies : (m.withBodies bodies).isValueType = m.isValueType := by
  funext t
  unfold isValueType
  rw [baseName?_withBodies, fullName_withBodies]

@[simp] theorem isEnum_withBodies : (m.withBodies bodies).isEnum = m.isEnum := by
  funext t
  rw [isEnum, baseName?_withBodies, isEnum]

@[simp] theorem isDelegate_withBodies : (m.withBodies bodies).isDelegate = m.isDelegate := by
  funext t
  rw [isDelegate, baseName?_withBodies, isDelegate]

/-! ## References -/

@[simp] theorem resolveType_withBodies : (m.withBodies bodies).resolveType = m.resolveType := rfl

@[simp] theorem identity?_withBodies : (m.withBodies bodies).identity? = m.identity? := by
  funext r
  unfold identity?
  rw [resolveType_withBodies, typeName_withBodies]

@[simp] theorem sameIdentity_withBodies :
    (m.withBodies bodies).sameIdentity = m.sameIdentity := by
  funext a b
  rw [sameIdentity, identity?_withBodies, sameIdentity]

theorem typesEqual_withBodies_and :
    (∀ x y, (m.withBodies bodies).typesEqual x y = m.typesEqual x y) ∧
      ∀ xs ys, (m.withBodies bodies).allTypesEqual xs ys = m.allTypesEqual xs ys := by
  apply typesEqual.mutual_induct
  case case9 =>
    intro x y h₁ h₂ h₃ h₄ h₅ h₆ h₇ h₈
    rw [typesEqual.eq_9 _ _ _ h₁ h₂ h₃ h₄ h₅ h₆ h₇ h₈,
      typesEqual.eq_9 _ _ _ h₁ h₂ h₃ h₄ h₅ h₆ h₇ h₈, sameIdentity_withBodies]
  case case11 =>
    intro xs ys h
    rw [allTypesEqual.eq_2 _ _ _ h, allTypesEqual.eq_2 _ _ _ h]
  all_goals
    intros
    simp only [typesEqual, allTypesEqual, *]

@[simp] theorem typesEqual_withBodies : (m.withBodies bodies).typesEqual = m.typesEqual :=
  funext fun x => funext fun y => (m.typesEqual_withBodies_and bodies).1 x y

@[simp] theorem signaturesEqual_withBodies :
    (m.withBodies bodies).signaturesEqual = m.signaturesEqual := by
  funext x y
  simp only [signaturesEqual, (m.typesEqual_withBodies_and bodies).1,
    (m.typesEqual_withBodies_and bodies).2]

@[simp] theorem hierarchyFrom_withBodies :
    (m.withBodies bodies).hierarchyFrom = m.hierarchyFrom := by
  funext limit
  induction limit with
  | zero => rfl
  | succ limit ih =>
    funext visited t args
    unfold hierarchyFrom
    rw [ih]
    rfl

@[simp] theorem hierarchy_withBodies : (m.withBodies bodies).hierarchy = m.hierarchy := by
  funext t
  rw [hierarchy, hierarchyFrom_withBodies, hierarchy]

@[simp] theorem declaredMethod?_withBodies :
    (m.withBodies bodies).declaredMethod? = m.declaredMethod? := by
  funext t name signature
  unfold declaredMethod?
  simp only [method?_withBodies, Option.any_map, signaturesEqual_withBodies]
  rfl

@[simp] theorem declaredField?_withBodies :
    (m.withBodies bodies).declaredField? = m.declaredField? := by
  funext t name type
  unfold declaredField?
  rw [typesEqual_withBodies]
  rfl

@[simp] theorem resolveMethod_withBodies :
    (m.withBodies bodies).resolveMethod = m.resolveMethod := by
  funext r
  unfold resolveMethod
  simp only [isSome_method?_withBodies, resolveType_withBodies, hierarchy_withBodies,
    declaredMethod?_withBodies]

@[simp] theorem resolveField_withBodies :
    (m.withBodies bodies).resolveField = m.resolveField := by
  funext r
  unfold resolveField
  simp only [resolveType_withBodies, hierarchy_withBodies, declaredField?_withBodies]
  rfl

@[simp] theorem findSetter?_withBodies : (m.withBodies bodies).findSetter? = m.findSetter? := by
  funext t name
  unfold findSetter?
  rw [hierarchy_withBodies]
  rfl

@[simp] theorem findInheritedField?_withBodies :
    (m.withBodies bodies).findInheritedField? = m.findInheritedField? := by
  funext t name
  unfold findInheritedField?
  rw [hierarchy_withBodies]
  rfl

/-! ## Attributes -/

@[simp] theorem namedArgumentKind?_withBodies :
    (m.withBodies bodies).namedArgumentKind? = m.namedArgumentKind? := by
  funext r
  unfold namedArgumentKind?
  simp only [typeName_withBodies, resolveType_withBodies, isEnum_withBodies,
    reflectionName_withBodies]
  rfl

@[simp] theorem argumentKind?_withBodies :
    (m.withBodies bodies).argumentKind? = m.argumentKind? := by
  funext r
  induction r using argumentKind?.induct with
  | case2 element ih => simp only [argumentKind?, ih]
  | _ => simp [argumentKind?, *]

@[simp] theorem argumentKinds_withBodies :
    (m.withBodies bodies).argumentKinds = m.argumentKinds := by
  funext fault params
  induction params with
  | nil => rfl
  | cons param rest ih => simp only [argumentKinds, argumentKind?_withBodies, ih]

@[simp] theorem findNamed?_withBodies : (m.withBodies bodies).findNamed? = m.findNamed? := rfl

theorem resolveTypeName?_withBodies_and (scopes : List Token) :
    (∀ name, (m.withBodies bodies).resolveTypeName? scopes name =
        m.resolveTypeName? scopes name) ∧
      ∀ names, (m.withBodies bodies).resolveTypeNames? scopes names =
        m.resolveTypeNames? scopes names := by
  apply resolveTypeName?.mutual_induct m scopes
  all_goals
    intros
    simp [resolveTypeName?, resolveTypeNames?, *]

@[simp] theorem resolveTypeName?_withBodies :
    (m.withBodies bodies).resolveTypeName? = m.resolveTypeName? :=
  funext fun scopes => funext (m.resolveTypeName?_withBodies_and bodies scopes).1

@[simp] theorem enumResolver_withBodies :
    (m.withBodies bodies).enumResolver = m.enumResolver := by
  funext scopes name
  unfold enumResolver
  rw [resolveTypeName?_withBodies]
  rfl

@[simp] theorem decodeAttribute_withBodies :
    (m.withBodies bodies).decodeAttribute = m.decodeAttribute := by
  funext a
  unfold decodeAttribute
  simp only [resolveMethod_withBodies, method?_withBodies, argumentKinds_withBodies,
    methodName_withBodies, assemblyOf?_withBodies, enumResolver_withBodies]
  congr 1
  funext ctor
  cases m.method? ctor <;> rfl

/-! ## Overrides -/

@[simp] theorem interfacesFrom_withBodies :
    (m.withBodies bodies).interfacesFrom = m.interfacesFrom := by
  funext fuel visited pending
  induction fuel generalizing visited pending with
  | zero => rfl
  | succ fuel ih =>
    cases pending with
    | nil => rfl
    | cons r pending =>
      simp only [interfacesFrom, resolveType_withBodies, ih]
      rfl

@[simp] theorem virtualOn?_withBodies : (m.withBodies bodies).virtualOn? = m.virtualOn? := by
  funext name signature base
  unfold virtualOn?
  simp only [methodsOf_withBodies, signaturesEqual_withBodies, List.find?_map, Option.map_map]
  rfl

@[simp] theorem nearestVirtual?_withBodies :
    (m.withBodies bodies).nearestVirtual? = m.nearestVirtual? := by
  funext bases name signature
  rw [nearestVirtual?, virtualOn?_withBodies, nearestVirtual?]

theorem overriddenBy_withBodies (bases : List (Token × List TypeRef)) (method : MethodDef) :
    (m.withBodies bodies).overriddenBy bases (method.withBody bodies) =
      m.overriddenBy bases method := by
  unfold overriddenBy
  rw [resolveMethod_withBodies, nearestVirtual?_withBodies]
  rfl

theorem implementation?_withBodies (virtuals : List MethodDef)
    (bases : List (Token × List TypeRef)) (args : List TypeRef) (slot : MethodDef) :
    (m.withBodies bodies).implementation? (virtuals.map (·.withBody bodies)) bases args
        (slot.withBody bodies) =
      m.implementation? virtuals bases args slot := by
  simp only [implementation?, signaturesEqual_withBodies, nearestVirtual?_withBodies,
    List.find?_map, Function.comp_def, MethodDef.withBody_name, MethodDef.withBody_signature]
  cases virtuals.find? fun method => method.name == slot.name &&
      m.signaturesEqual (slot.signature.substitute args) method.signature <;> rfl

theorem interfacePairs_withBodies (virtuals : List MethodDef)
    (bases : List (Token × List TypeRef)) :
    (m.withBodies bodies).interfacePairs (virtuals.map (·.withBody bodies)) bases =
      m.interfacePairs virtuals bases := by
  funext interface
  unfold interfacePairs
  simp only [methodsOf_withBodies, List.filterMap_map, Function.comp_def,
    implementation?_withBodies]
  rfl

@[simp] theorem overridePairs_withBodies :
    (m.withBodies bodies).overridePairs = m.overridePairs := by
  funext type
  have hvirtuals : ((m.withBodies bodies).methodsOf type).filter (·.isVirtual) =
      ((m.methodsOf type).filter (·.isVirtual)).map (·.withBody bodies) := by
    rw [methodsOf_withBodies, List.filter_map]
    rfl
  have hinterfaces : (m.withBodies bodies).interfacesOf type = m.interfacesOf type := by
    rw [interfacesOf, interfacesFrom_withBodies]
    rfl
  unfold overridePairs
  simp only [hvirtuals, hinterfaces, hierarchy_withBodies, List.flatMap_map,
    overriddenBy_withBodies, interfacePairs_withBodies, MethodDef.withBody_token]

end Model

@[simp] theorem OverrideTable.ofModel_withBodies (m : Model) (bodies : Token → Option Body) :
    OverrideTable.ofModel (m.withBodies bodies) = .ofModel m := by
  unfold ofModel
  rw [Model.overridePairs_withBodies]
  rfl

end CilTrim
