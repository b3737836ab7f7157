import CilTrim.Builder.Basic
import CilTrim.Proofs.Model.Bound
import CilTrim.Proofs.Model.Equality

/-!
# References to members

Which member a reference binds to depends on what the reference denotes only: the type in which the
search starts, the name, and the signature or type up to equality. Generic arguments around a
reference to a method play no role:

* `MethodRef.instantiate`: a reference with generic arguments around it;
* `Model.resolveMethod_member`, `Model.resolveField_member`: what the search starts from and what it
  compares;
* `Model.resolve_congr`: references that denote the same bind to the same member.
-/

namespace CilTrim

/-- A reference to a method with lists of generic arguments around it, the first one innermost. -/
def MethodRef.instantiate (r : MethodRef) (arguments : List (List TypeRef)) : MethodRef :=
  arguments.foldl .generic r

theorem MethodRef.element_instantiate (r : MethodRef) (arguments : List (List TypeRef)) :
    (r.instantiate arguments).element = r.element := by
  induction arguments generalizing r with
  | nil => rfl
  | cons args rest ih => exact ih (.generic r args)

namespace Model

variable {m : Model}

/-! ## What a search compares -/

/-- Equal signatures are equal to the same signatures. -/
theorem signaturesEqual_congr {s s' : Signature} (h : m.signaturesEqual s s' = true)
    (x : Signature) : m.signaturesEqual x s = m.signaturesEqual x s' := by
  rw [Bool.eq_iff_iff, signaturesEqual_iff, signaturesEqual_iff, (signaturesEqual_iff s s').mp h]

/-- Equal types are equal to the same types. -/
theorem typesEqual_congr {r r' : TypeRef} (h : m.typesEqual r r' = true) (x : TypeRef) :
    m.typesEqual x r = m.typesEqual x r' := by
  rw [Bool.eq_iff_iff, typesEqual_iff, typesEqual_iff, (typesEqual_iff r r').mp h]

theorem declaredMethod?_congr {s s' : Signature} (h : m.signaturesEqual s s' = true) (t : Token)
    (name : String) : m.declaredMethod? t name s = m.declaredMethod? t name s' := by
  simp only [declaredMethod?, signaturesEqual_congr h]

theorem declaredField?_congr {r r' : TypeRef} (h : m.typesEqual r r' = true) (t : Token)
    (name : String) : m.declaredField? t name r = m.declaredField? t name r' := by
  simp only [declaredField?, typesEqual_congr h]

/-! ## Searches -/

/-- A method is searched for on the type that its reference names and on the bases of the type. -/
theorem resolveMethod_member (declaringType : TypeRef) (name : String) (signature : Signature) :
    (m.resolveMethod (.member declaringType name signature)).toOption =
      (m.resolveType declaringType).toOption.bind fun start =>
        (m.hierarchy start).findSome? fun on => m.declaredMethod? on.1 name signature := by
  unfold resolveMethod
  dsimp only [MethodRef.element, bind, Except.bind]
  cases m.resolveType declaringType with
  | error cause => rfl
  | ok start =>
    dsimp only [Except.toOption, Option.bind_some]
    cases (m.hierarchy start).findSome? fun on => m.declaredMethod? on.1 name signature <;> rfl

/-- A field is searched for on the type that its reference names and on the bases of the type. -/
theorem resolveField_member (declaringType : TypeRef) (name : String) (fieldType : TypeRef) :
    (m.resolveField (.member declaringType name fieldType)).toOption =
      (m.resolveType declaringType).toOption.bind fun start =>
        (m.hierarchy start).findSome? fun on => m.declaredField? on.1 name fieldType := by
  unfold resolveField
  dsimp only [bind, Except.bind]
  cases m.resolveType declaringType with
  | error cause => rfl
  | ok start =>
    dsimp only [Except.toOption, Option.bind_some]
    cases (m.hierarchy start).findSome? fun on => m.declaredField? on.1 name fieldType <;> rfl

/-- A reference to a method with generic arguments binds as without them. -/
theorem resolveMethod_instantiate (r : MethodRef) (arguments : List (List TypeRef)) :
    (m.resolveMethod (r.instantiate arguments)).toOption = (m.resolveMethod r).toOption := by
  rw [← resolveMethod_element, r.element_instantiate, resolveMethod_element]

/-- References to methods that have the same name, start from the same type and have equal
signatures bind to the same method, if one of them binds at all, and so do references to fields of
equal types. -/
theorem resolve_congr (m : Model) {start : Token} {declaringType declaringType' : TypeRef}
    (h : m.resolveType declaringType = .ok start) (h' : m.resolveType declaringType' = .ok start)
    (name : String) :
    (∀ {s s' : Signature} (arguments arguments' : List (List TypeRef)),
      m.signaturesEqual s s' = true →
        (m.resolveMethod ((MethodRef.member declaringType name s).instantiate arguments)).toOption =
          (m.resolveMethod
            ((MethodRef.member declaringType' name s').instantiate arguments')).toOption) ∧
      ∀ {r r' : TypeRef}, m.typesEqual r r' = true →
        (m.resolveField (.member declaringType name r)).toOption =
          (m.resolveField (.member declaringType' name r')).toOption := by
  refine ⟨fun arguments arguments' hs => ?_, fun hr => ?_⟩
  · rw [resolveMethod_instantiate, resolveMethod_instantiate, resolveMethod_member,
      resolveMethod_member, h, h']
    simp only [declaredMethod?_congr hs]
  · rw [resolveField_member, resolveField_member, h, h']
    simp only [declaredField?_congr hr]

end Model

namespace Streams

/-- A base writes strings and has a field for the last one; what derives from it writes objects. -/
def model : Model :=
  let m := (Model.empty.addAssembly "mscorlib").2.setCorlib ⟨0x20000001⟩
  let m := (m.addType (.ofClass ⟨0x20000001⟩ "System" "String")).2
  let m := (m.addType (.ofClass ⟨0x20000001⟩ "App" "Stream")).2
  let m := (m.addType
    ((TypeDraft.ofClass ⟨0x20000001⟩ "App" "FileStream").withBase (.definition ⟨0x02000002⟩))).2
  let m := (m.addMethod ((MethodDraft.ofName ⟨0x02000003⟩ "Write").addParam
    ⟨"item", .primitive .object, [], none⟩)).2
  let m := (m.addMethod ((MethodDraft.ofName ⟨0x02000002⟩ "Write").addParam
    ⟨"item", .primitive .string, [], none⟩)).2
  (m.addField { declaringType := ⟨0x02000002⟩, name := "Last", type := .primitive .string }).2

/-- The type that derives from the base, by its name. -/
def derived : TypeRef := .external "mscorlib" "App.FileStream"

/-- The signature of a method that writes what a reference denotes. -/
def writes (r : TypeRef) : Signature := ⟨true, 0, .primitive .void, [r]⟩

end Streams

namespace Model

/-- Both members are found on the base, however strings and the type that derives from the base are
referred to. -/
theorem resolve_congr_streams :
    Streams.model.resolveType Streams.derived = .ok ⟨0x02000003⟩ ∧
      Streams.model.resolveType (.definition ⟨0x02000003⟩) = .ok ⟨0x02000003⟩ ∧
      Streams.model.signaturesEqual (Streams.writes (.primitive .string))
        (Streams.writes (.definition ⟨0x02000001⟩)) = true ∧
      Streams.model.typesEqual (.primitive .string) (.definition ⟨0x02000001⟩) = true ∧
      (Streams.model.resolveMethod ((MethodRef.member (.definition ⟨0x02000003⟩) "Write"
        (Streams.writes (.definition ⟨0x02000001⟩))).instantiate
          [[], [.typeParameter 0]])).toOption = some ⟨0x06000002⟩ ∧
      (Streams.model.resolveField (.member (.definition ⟨0x02000003⟩) "Last"
        (.definition ⟨0x02000001⟩))).toOption = some ⟨0x04000001⟩ := by
  have hderived : Streams.model.resolveType Streams.derived = .ok ⟨0x02000003⟩ := rfl
  have htoken : Streams.model.resolveType (.definition ⟨0x02000003⟩) = .ok ⟨0x02000003⟩ := rfl
  have hsignatures : Streams.model.signaturesEqual (Streams.writes (.primitive .string))
      (Streams.writes (.definition ⟨0x02000001⟩)) = true := by decide +kernel
  have htypes :
      Streams.model.typesEqual (.primitive .string) (.definition ⟨0x02000001⟩) = true := by
    decide +kernel
  have hmethod : (Streams.model.resolveMethod ((MethodRef.member Streams.derived "Write"
      (Streams.writes (.primitive .string))).instantiate [])).toOption = some ⟨0x06000002⟩ := by
    decide +kernel
  have hfield : (Streams.model.resolveField (.member Streams.derived "Last"
      (.primitive .string))).toOption = some ⟨0x04000001⟩ := by
    decide +kernel
  exact ⟨hderived, htoken, hsignatures, htypes,
    ((resolve_congr _ hderived htoken "Write").1 [] [[], [.typeParameter 0]] hsignatures).symm.trans
      hmethod,
    ((resolve_congr _ hderived htoken "Last").2 htypes).symm.trans hfield⟩

end Model

end CilTrim
