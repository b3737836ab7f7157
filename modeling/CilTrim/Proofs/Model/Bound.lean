import CilTrim.Model.AttributeData
import CilTrim.Proofs.Builder.WellFormed

/-!
# What resolution finds

Whatever a lookup by name or by reference finds is a definition of the model:

* `type_of_resolveType`, `method_of_resolveMethod`, `field_of_resolveField`: the targets of
  references;
* `field_of_findField?`, `method_of_findSetter?`, …: the members that names stand for;
* `resolveType_element`, `resolveMethod_element`: a reference binds as what it is built around;
* `resolveType_of_baseWith?`, `hierarchyFrom_subset`: the bases of a type, if they name types.
-/

namespace CilTrim

namespace TypeRef

theorem element_idem : (r : TypeRef) → r.element.element = r.element
  | .generic e _ | .array e _ | .pointer e | .byRef e | .pinned e | .modified _ _ e =>
    element_idem e
  | .definition _ | .external _ _ | .primitive _ | .typeParameter _ | .methodParameter _ => rfl

/-- Putting arguments in does not change what a reference is built around, unless that is a
parameter. -/
theorem element_substitute (typeArgs methodArgs : List TypeRef) :
    (r : TypeRef) → r.element.isParameter = false →
      (r.substitute typeArgs methodArgs).element = r.element
  | .generic e _, h | .array e _, h | .pointer e, h | .byRef e, h | .pinned e, h
  | .modified _ _ e, h => by
    rw [substitute, element, element, element_substitute typeArgs methodArgs e h]
  | .definition _, _ | .external _ _, _ | .primitive _, _ => by rw [substitute]

end TypeRef

namespace MethodRef

theorem element_idem (r : MethodRef) : r.element.element = r.element := by
  induction r with
  | definition => rfl
  | member => rfl
  | generic e args ih => exact ih

end MethodRef

namespace Model

variable {m : Model}

/-! ## Types -/

/-- A reference to a type binds as what it is built around. -/
theorem resolveType_element (r : TypeRef) : m.resolveType r.element = m.resolveType r := by
  rw [resolveType, TypeRef.element_idem, resolveType]

theorem type_of_findType? (wf : m.WellFormed) (fits : m.Fits) {assembly t : Token} {name : String}
    (h : m.findType? assembly name = some t) : (m.type? t).isSome := by
  obtain ⟨d, hd, rfl⟩ := Option.map_eq_some_iff.mp h
  have hmem : d ∈ m.types.toList := List.mem_reverse.mp (List.mem_of_find?_eq_some hd)
  rw [wf.type_of_mem fits hmem]
  rfl

/-- A reference to a type that binds binds to a type of the model. -/
theorem type_of_resolveType (wf : m.WellFormed) (fits : m.Fits) {r : TypeRef} {t : Token}
    (h : m.resolveType r = .ok t) : (m.type? t).isSome := by
  unfold resolveType at h
  split at h
  · split at h
    · rename_i hs
      cases h
      exact hs
    · cases h
  · split at h
    · rename_i hf
      cases h
      obtain ⟨assembly, -, hf⟩ := Option.bind_eq_some_iff.mp hf
      exact type_of_findType? wf fits hf
    · cases h
  · split at h
    · rename_i hf
      cases h
      obtain ⟨corlib, -, hf⟩ := Option.bind_eq_some_iff.mp hf
      exact type_of_findType? wf fits hf
    · cases h
  · cases h

/-! ## Bases -/

/-- The bases of types name types: what they are built around is no generic parameter. -/
def NamesBases (m : Model) : Prop :=
  ∀ type ∈ m.types.toList, ∀ base, type.base = some base → base.element.isParameter = false

/-- The base of an instantiated type is what the type itself names as its base. -/
theorem resolveType_of_baseWith? (names : m.NamesBases) {t : Token} {args : List TypeRef}
    {base : Token × List TypeRef}
    (h : m.baseWith? t args = some base) :
    ∃ type r, m.type? t = some type ∧ type.base = some r ∧ m.resolveType r = .ok base.1 := by
  obtain ⟨type, ht, h⟩ := Option.bind_eq_some_iff.mp h
  obtain ⟨r, hr, h⟩ := Option.bind_eq_some_iff.mp h
  refine ⟨type, r, ht, hr, ?_⟩
  dsimp only at h
  split at h
  · rename_i hres
    cases h
    rwa [← resolveType_element,
      TypeRef.element_substitute _ _ r (names type (Rows.mem_of_find? ht) r hr),
      resolveType_element] at hres
  · cases h

/-- A set that has the bases of its types has all that a type inherits from. -/
theorem hierarchyFrom_subset {S : Token → Prop}
    (step : ∀ {t args base}, S t → m.baseWith? t args = some base → S base.1) {limit : Nat}
    {t : Token} {args : List TypeRef}
    {visited : List Token} (ht : S t) : ∀ e ∈ m.hierarchyFrom limit visited t args, S e.1 := by
  induction limit generalizing visited t args with
  | zero => exact nofun
  | succ limit ih =>
    unfold hierarchyFrom
    split
    · exact nofun
    · refine List.forall_mem_cons.mpr ⟨ht, ?_⟩
      split
      · rename_i base baseArgs hbase
        exact ih (step ht hbase)
      · exact nofun

/-! ## Members -/

theorem method_of_declaredMethod? {t x : Token} {name : String} {signature : Signature}
    (h : m.declaredMethod? t name signature = some x) : (m.method? x).isSome := by
  obtain ⟨type, -, hf⟩ := Option.bind_eq_some_iff.mp h
  have := List.find?_some hf
  exact Option.isSome_of_any this

theorem field_of_declaredField? {t x : Token} {name : String} {type : TypeRef}
    (h : m.declaredField? t name type = some x) : (m.field? x).isSome := by
  obtain ⟨type, -, hf⟩ := Option.bind_eq_some_iff.mp h
  have := List.find?_some hf
  exact Option.isSome_of_any this

/-- A reference to a method that binds binds to a method of the model. -/
theorem method_of_resolveMethod {r : MethodRef} {t : Token} (h : m.resolveMethod r = .ok t) :
    (m.method? t).isSome := by
  unfold resolveMethod at h
  split at h
  · split at h
    · rename_i hs
      cases h
      exact hs
    · cases h
  · rename_i declaringType name signature _
    cases hr : m.resolveType declaringType with
    | error cause => simp only [hr, bind, Except.bind, reduceCtorEq] at h
    | ok start =>
      simp only [hr, bind, Except.bind] at h
      split at h
      · rename_i hf
        cases h
        obtain ⟨⟨base, args⟩, -, hd⟩ := List.exists_of_findSome?_eq_some hf
        exact method_of_declaredMethod? hd
      · cases h
  · cases h

/-- A reference to a field that binds binds to a field of the model. -/
theorem field_of_resolveField {r : FieldRef} {t : Token} (h : m.resolveField r = .ok t) :
    (m.field? t).isSome := by
  unfold resolveField at h
  split at h
  · split at h
    · rename_i hs
      cases h
      exact hs
    · cases h
  · rename_i declaringType name fieldType
    cases hr : m.resolveType declaringType with
    | error cause => simp only [hr, bind, Except.bind, reduceCtorEq] at h
    | ok start =>
      simp only [hr, bind, Except.bind] at h
      split at h
      · rename_i hf
        cases h
        obtain ⟨⟨base, args⟩, -, hd⟩ := List.exists_of_findSome?_eq_some hf
        exact field_of_declaredField? hd
      · cases h

/-- A reference to a method binds as the method it is built around. -/
theorem resolveMethod_element (r : MethodRef) :
    (m.resolveMethod r.element).toOption = (m.resolveMethod r).toOption := by
  unfold resolveMethod
  rw [r.element_idem]
  cases r.element with
  | definition token => rfl
  | member declaringType name signature =>
    simp only [bind, Except.bind]
    cases m.resolveType declaringType with
    | error cause => rfl
    | ok start =>
      dsimp only
      split <;> rfl
  | generic e args => rfl

theorem field_of_findField? {t x : Token} {name : String} (h : m.findField? t name = some x) :
    (m.field? x).isSome := by
  obtain ⟨type, -, hf⟩ := Option.bind_eq_some_iff.mp h
  have := List.find?_some hf
  exact Option.isSome_of_any this

theorem field_of_findInheritedField? {t x : Token} {name : String}
    (h : m.findInheritedField? t name = some x) : (m.field? x).isSome := by
  obtain ⟨⟨base, args⟩, -, hf⟩ := List.exists_of_findSome?_eq_some h
  exact field_of_findField? hf

theorem method_of_findSetter? (wf : m.WellFormed) {t x : Token} {name : String}
    (h : m.findSetter? t name = some x) : (m.method? x).isSome := by
  obtain ⟨⟨base, args⟩, -, hf⟩ := List.exists_of_findSome?_eq_some h
  obtain ⟨p, -, hp⟩ := Option.bind_eq_some_iff.mp hf
  obtain ⟨property, hp, hx⟩ := Option.bind_eq_some_iff.mp hp
  refine wf.property_accessors hp ?_
  simp only [PropertyDef.accessors, hx, Option.toList_some, List.mem_append, List.mem_singleton,
    or_true, true_or]

/-- What a type lists as its methods are methods, which hold their tokens. -/
theorem mem_methodsOf (wf : m.WellFormed) {type : TypeDef} {method : MethodDef}
    (h : method ∈ m.methodsOf type) :
    method.token ∈ type.methods ∧ m.method? method.token = some method := by
  obtain ⟨x, hx, hm⟩ := List.mem_filterMap.mp h
  rw [wf.method_token hm]
  exact ⟨hx, hm⟩

/-- A method is declared where its definition says. -/
theorem declaringTypeOf?_method {t : Token} {d : MethodDef} (h : m.method? t = some d) :
    m.declaringTypeOf? t = some d.declaringType := by
  have hin : t.table? = some .methodDef := by
    rw [Token.table?, beq_iff_eq.mp (Rows.isIn_of_find? h : t.isIn .methodDef = true)]
    rfl
  simp only [declaringTypeOf?, ownerOf?, hin, h, Option.map_some]

/-! ## Kinds of definitions -/

theorem isIn_of_type? {t : Token} (h : (m.type? t).isSome) : t.isIn .typeDef = true := by
  obtain ⟨d, hd⟩ := Option.isSome_iff_exists.mp h
  exact Rows.isIn_of_find? hd

theorem isIn_of_field? {t : Token} (h : (m.field? t).isSome) : t.isIn .field = true := by
  obtain ⟨d, hd⟩ := Option.isSome_iff_exists.mp h
  exact Rows.isIn_of_find? hd

/-- A property is no event. -/
theorem property_of_event {t : Token} {e : EventDef} (h : m.event? t = some e) :
    m.property? t = none := by
  cases hp : m.property? t with
  | none => rfl
  | some p =>
    have := Token.table_unique (Rows.isIn_of_find? h : t.isIn .event = true)
      (Rows.isIn_of_find? hp : t.isIn .property = true)
    cases this

end Model

end CilTrim
