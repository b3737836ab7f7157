import CilTrim.Mark.Run
import CilTrim.Proofs.Model.Bodies

/-!
# Where marking reads bodies

What definitions need depends on the bodies of methods in one place only: a method needs what its
body refers to, if it is followed. Everything else that marking does is the same for a model with
other bodies:

* `Setting.withBodies`: the setting with other bodies for some methods;
* `Setting.typeNeeds_withBodies`, `Setting.fieldNeeds_withBodies`,
  `Setting.assemblyNeeds_withBodies`, and what they are made of;
* `Setting.methodNeeds_withBodies`: a method whose body is the same or not followed;
* `Marking.settle_withBodies`, `Marking.expandType_withBodies`, `Marking.seed_withBodies`,
  `Marking.sweep_withBodies`: the steps that read no body.
-/

namespace CilTrim

namespace Setting

/-- The setting with other bodies for some of the methods of the model. -/
def withBodies (s : Setting) (bodies : Token → Option Body) : Setting :=
  { s with model := s.model.withBodies bodies }

variable (s : Setting) (bodies : Token → Option Body)

@[simp] theorem withBodies_model : (s.withBodies bodies).model = s.model.withBodies bodies := rfl

/-! ## References -/

theorem methodsWhere_withBodies (type : TypeDef) (reason : Reason) (test : MethodDef → Bool)
    (h : ∀ d : MethodDef, test (d.withBody bodies) = test d) :
    (s.withBodies bodies).methodsWhere type reason test = s.methodsWhere type reason test := by
  unfold methodsWhere
  simp only [withBodies_model, Model.methodsOf_withBodies, List.filter_map, List.map_map,
    Function.comp_def, h, MethodDef.withBody_token]

@[simp] theorem constructorsFor_withBodies :
    (s.withBodies bodies).constructorsFor = s.constructorsFor := by
  funext reason param argument
  have hmethods (type : TypeDef) := s.methodsWhere_withBodies bodies type reason
    (·.isDefaultConstructor) fun _ => rfl
  simp only [constructorsFor, withBodies_model, Model.resolveType_withBodies, hmethods]
  rfl

@[simp] theorem constructors_withBodies :
    (s.withBodies bodies).constructors = s.constructors := by
  funext reason params arguments
  rw [constructors, constructorsFor_withBodies, constructors]

@[simp] theorem methodParams_withBodies :
    (s.withBodies bodies).methodParams = s.methodParams := by
  funext element
  simp only [methodParams, withBodies_model, Model.resolveMethod_withBodies]
  cases (s.model.resolveMethod element).toOption with
  | none => rfl
  | some t =>
    simp only [Option.bind_some, Model.method?_withBodies]
    cases s.model.method? t <;> rfl

@[simp] theorem typeParams_withBodies :
    (s.withBodies bodies).typeParams = s.typeParams := rfl

@[simp] theorem namedType_withBodies : (s.withBodies bodies).namedType = s.namedType := rfl

theorem typeRef_withBodies_and (reason : Reason) :
    (∀ r, (s.withBodies bodies).typeRef reason r = s.typeRef reason r) ∧
      ∀ rs, (s.withBodies bodies).typeRefs reason rs = s.typeRefs reason rs := by
  apply typeRef.mutual_induct
  all_goals
    intros
    simp [typeRef, typeRefs, *]

@[simp] theorem typeRef_withBodies : (s.withBodies bodies).typeRef = s.typeRef :=
  funext fun reason => funext (s.typeRef_withBodies_and bodies reason).1

@[simp] theorem typeRefs_withBodies : (s.withBodies bodies).typeRefs = s.typeRefs :=
  funext fun reason => funext (s.typeRef_withBodies_and bodies reason).2

@[simp] theorem methodArguments_withBodies :
    (s.withBodies bodies).methodArguments = s.methodArguments := by
  funext reason r
  induction r with
  | generic e args ih => simp [methodArguments, ih]
  | _ => rfl

@[simp] theorem genericOwner_withBodies :
    (s.withBodies bodies).genericOwner = s.genericOwner := by
  funext reason declaringType
  rw [genericOwner, typeRef_withBodies, genericOwner]

@[simp] theorem methodRef_withBodies : (s.withBodies bodies).methodRef = s.methodRef := by
  funext reason r
  simp [methodRef]

@[simp] theorem boundMethod?_withBodies :
    (s.withBodies bodies).boundMethod? = s.boundMethod? := by
  funext r
  simp [boundMethod?]

@[simp] theorem fieldRef_withBodies : (s.withBodies bodies).fieldRef = s.fieldRef := by
  funext reason r
  simp [fieldRef]

@[simp] theorem memberRef_withBodies : (s.withBodies bodies).memberRef = s.memberRef := by
  funext reason r
  simp [memberRef]

/-! ## Attributes -/

@[simp] theorem nameScopes_withBodies : (s.withBodies bodies).nameScopes = s.nameScopes := by
  funext owner
  simp only [nameScopes, withBodies_model, Model.assemblyOf?_withBodies]
  rfl

@[simp] theorem typeName_withBodies : (s.withBodies bodies).typeName = s.typeName := by
  funext scopes reason name
  simp [typeName]

theorem argument_withBodies_and (scopes : List Token) (reason : Reason) :
    (∀ a, (s.withBodies bodies).argument scopes reason a = s.argument scopes reason a) ∧
      ∀ as, (s.withBodies bodies).arguments scopes reason as = s.arguments scopes reason as := by
  apply argument.mutual_induct
  all_goals
    intros
    simp [argument, arguments, *]

@[simp] theorem argument_withBodies : (s.withBodies bodies).argument = s.argument :=
  funext fun scopes => funext fun reason =>
    funext (s.argument_withBodies_and bodies scopes reason).1

@[simp] theorem namedMember_withBodies : (s.withBodies bodies).namedMember = s.namedMember := by
  funext ctor reason argument
  simp [namedMember]

@[simp] theorem attributeValue_withBodies :
    (s.withBodies bodies).attributeValue = s.attributeValue := by
  funext owner ctor reason value
  simp only [attributeValue, namedMember_withBodies, argument_withBodies, nameScopes_withBodies]
  rfl

@[simp] theorem oneAttribute_withBodies :
    (s.withBodies bodies).oneAttribute = s.oneAttribute := by
  funext owner reason a
  simp [oneAttribute]

@[simp] theorem attributes_withBodies : (s.withBodies bodies).attributes = s.attributes := by
  funext owner reason as
  rw [attributes, oneAttribute_withBodies, attributes]

@[simp] theorem marshal_withBodies : (s.withBodies bodies).marshal = s.marshal := by
  funext owner reason spec
  rw [marshal, typeName_withBodies, nameScopes_withBodies, marshal]

/-! ## Definitions -/

@[simp] theorem genericParam_withBodies :
    (s.withBodies bodies).genericParam = s.genericParam := by
  funext reason token
  unfold genericParam
  rw [attributes_withBodies, typeRefs_withBodies]
  rfl

@[simp] theorem specialName?_withBodies :
    (s.withBodies bodies).specialName? = s.specialName? := by
  funext a
  simp only [specialName?, withBodies_model, Model.resolveMethod_withBodies,
    Model.declaringTypeOf?_withBodies, Model.fullName_withBodies, Model.decodeAttribute_withBodies]
  rfl

@[simp] theorem membersNamed_withBodies :
    (s.withBodies bodies).membersNamed = s.membersNamed := by
  funext type target reason kinds name
  unfold membersNamed
  rw [s.methodsWhere_withBodies bodies type reason _ fun _ => rfl]
  rfl

@[simp] theorem specialMembers_withBodies :
    (s.withBodies bodies).specialMembers = s.specialMembers := by
  funext target reason as
  unfold specialMembers
  simp only [specialName?_withBodies, membersNamed_withBodies]
  rfl

@[simp] theorem preserved_withBodies : (s.withBodies bodies).preserved = s.preserved := by
  funext type reason
  unfold preserved
  rw [s.methodsWhere_withBodies bodies type reason _ fun _ => rfl]
  rfl

@[simp] theorem hasUnlinkedBase_withBodies :
    (s.withBodies bodies).hasUnlinkedBase = s.hasUnlinkedBase := by
  funext method
  simp only [hasUnlinkedBase, withBodies_model, Model.assemblyOf?_withBodies]
  rfl

@[simp] theorem isSerializationConstructor_withBodies (d : MethodDef) :
    (s.withBodies bodies).isSerializationConstructor d = s.isSerializationConstructor d := by
  simp [isSerializationConstructor]

/-- What a type needs does not depend on bodies. -/
@[simp] theorem typeNeeds_withBodies : (s.withBodies bodies).typeNeeds = s.typeNeeds := by
  funext token type
  have hserialization := s.methodsWhere_withBodies bodies type (.node token)
    (fun method => method.isDefaultConstructor || s.isSerializationConstructor method)
    fun _ => rfl
  have hstatic := s.methodsWhere_withBodies bodies type (.node token)
    (·.isStaticConstructor) fun _ => rfl
  simp only [typeNeeds, typeRefs_withBodies, attributes_withBodies, genericParam_withBodies,
    withBodies_model, Model.isDelegate_withBodies, isSerializationConstructor_withBodies,
    hserialization, specialMembers_withBodies, Model.isValueType_withBodies, hstatic,
    hasUnlinkedBase_withBodies, preserved_withBodies]
  rfl

@[simp] theorem assemblyNeeds_withBodies :
    (s.withBodies bodies).assemblyNeeds = s.assemblyNeeds := by
  funext token assembly
  unfold assemblyNeeds
  simp only [attributes_withBodies]
  rfl

@[simp] theorem fieldNeeds_withBodies : (s.withBodies bodies).fieldNeeds = s.fieldNeeds := by
  funext token field
  simp [fieldNeeds]

@[simp] theorem parameter_withBodies : (s.withBodies bodies).parameter = s.parameter := by
  funext token param
  simp [parameter]

@[simp] theorem body_withBodies : (s.withBodies bodies).body = s.body := by
  funext reason b
  have operand (x : Operand) : (s.withBodies bodies).operand reason x = s.operand reason x := by
    simp [Setting.operand]
  simp only [Setting.body, typeRefs_withBodies, operand]

@[simp] theorem followsBody_withBodies :
    (s.withBodies bodies).followsBody = s.followsBody := by
  funext token action
  simp only [followsBody, withBodies_model, Model.assemblyOf?_withBodies]
  rfl

@[simp] theorem accessorOwner_withBodies :
    (s.withBodies bodies).accessorOwner = s.accessorOwner := by
  funext reason owner
  unfold accessorOwner
  simp only [attributes_withBodies]
  rfl

/-- What a method needs does not depend on its body, unless it is followed. -/
theorem methodNeeds_withBodies (token : Token) (d : MethodDef) (action : MethodAction)
    (h : (bodies d.token).isSome → s.followsBody d.token action = false) :
    (s.withBodies bodies).methodNeeds token (d.withBody bodies) action =
      s.methodNeeds token d action := by
  have hbody : (if s.followsBody d.token action then
        (d.withBody bodies).body.toList.flatMap (s.body (.node token)) else []) =
      if s.followsBody d.token action then d.body.toList.flatMap (s.body (.node token))
      else [] := by
    cases hb : bodies d.token with
    | none => rw [show (d.withBody bodies).body = d.body by simp [MethodDef.withBody, hb]]
    | some b =>
      rw [hb] at h
      simp [h rfl]
  simp only [methodNeeds, attributes_withBodies, specialMembers_withBodies, parameter_withBodies,
    genericParam_withBodies, methodRef_withBodies, followsBody_withBodies, body_withBodies,
    accessorOwner_withBodies, MethodDef.withBody_token, hbody]
  rfl

end Setting

/-! ## The state -/

namespace MarkState

variable (m : Model) (bodies : Token → Option Body) (t : OverrideTable)

@[simp] theorem offer_withBodies : offer (m.withBodies bodies) = offer m := by
  funext st base o
  rw [offer, Model.declaringTypeOf?_withBodies, offer]

@[simp] theorem offerAll_withBodies : offerAll (m.withBodies bodies) = offerAll m := by
  funext base os result
  induction os generalizing result with
  | nil => rfl
  | cons o rest ih => simp only [offerAll, offer_withBodies, ih]

@[simp] theorem spread_withBodies : spread (m.withBodies bodies) t = spread m t := by
  funext method st
  unfold spread
  generalize Token.count + 1 = fuel, [method] = stack
  induction fuel generalizing stack st with
  | zero => rfl
  | succ fuel ih =>
    cases stack with
    | nil => rfl
    | cons base stack => simp only [spreadFrom, offerAll_withBodies, ih]

@[simp] theorem register_withBodies : register (m.withBodies bodies) t = register m t := by
  funext method st
  rw [register, spread_withBodies, register]

@[simp] theorem arrive_withBodies : arrive (m.withBodies bodies) t = arrive m t := by
  have hrelease (entries : List Parked) (st : MarkState) :
      release (m.withBodies bodies) t entries st = release m t entries st := by
    induction entries generalizing st with
    | nil => rfl
    | cons entry rest ih => simp only [release, offer_withBodies, spread_withBodies, ih]
  funext type st
  rw [arrive, hrelease, arrive]

end MarkState

/-! ## Steps -/

namespace Marking

variable (s : Setting) (bodies : Token → Option Body)

@[simp] theorem meet_withBodies : meet (s.withBodies bodies) = meet s := by
  have field : meetField (s.withBodies bodies) = meetField s := by
    funext token reason
    simp only [meetField, Setting.fieldNeeds_withBodies]
    rfl
  have assembly : meetAssembly (s.withBodies bodies) = meetAssembly s := by
    funext token
    simp only [meetAssembly, Setting.assemblyNeeds_withBodies]
    rfl
  funext demand
  cases demand with
  | field token reason => simp only [meet, field]
  | assembly token => simp only [meet, assembly]
  | overridable method =>
    simp only [meet, Setting.withBodies_model, MarkState.register_withBodies]
    rfl
  | arrived type =>
    simp only [meet, Setting.withBodies_model, MarkState.arrive_withBodies]
    rfl
  | _ => rfl

@[simp] theorem settle_withBodies : settle (s.withBodies bodies) = settle s := by
  funext demands
  unfold settle
  generalize 2 * Token.count + 2 = levels
  induction levels generalizing demands with
  | zero => rfl
  | succ levels ih =>
    unfold settleWithin
    simp only [meet_withBodies, ih]

@[simp] theorem expandType_withBodies : expandType (s.withBodies bodies) = expandType s := by
  funext token
  simp only [expandType, settle_withBodies, Setting.typeNeeds_withBodies]
  rfl

@[simp] theorem seedMethod_withBodies : seedMethod (s.withBodies bodies) = seedMethod s := by
  funext token
  simp only [seedMethod, Setting.withBodies_model, Model.method?_withBodies, Option.any_map,
    MarkState.register_withBodies, MethodDef.withBody_isVirtual]
  rfl

@[simp] theorem fill_withBodies : fill (s.withBodies bodies) = fill s := by
  have type : seedType (s.withBodies bodies) = seedType s := by
    funext type
    simp only [seedType, settle_withBodies, seedMethod_withBodies]
  simp only [fill, settle_withBodies, type]
  rfl

/-- The start of a run reads no body. -/
@[simp] theorem seed_withBodies : seed (s.withBodies bodies) = seed s := by
  have types : drainTypes (s.withBodies bodies) = drainTypes s := by
    funext fuel
    induction fuel with
    | zero => rfl
    | succ fuel ih => simp only [drainTypes, expandType_withBodies, ih]
  simp only [seed, fill_withBodies, types]

@[simp] theorem sweep_withBodies : sweep (s.withBodies bodies) = sweep s := by
  simp only [sweep, Setting.withBodies_model, MarkState.spread_withBodies]
  rfl

end Marking

end CilTrim
