import CilTrim.TypeRef

/-!
# The parts of type references

References are trees with lists of generic arguments in them:

* `TypeRef.induct`: induction on references, with a hypothesis for each generic argument;
* `TypeRef.Part`: the parts of a reference, those of its modifiers included;
* `TypeRef.isNamed`: the references that are built from no others and are no generic parameters;
* `TypeRef.part_generic`, `TypeRef.part_modified`, `TypeRef.part_leaf` and others: the parts of each
  form of reference.
-/

namespace CilTrim.TypeRef

/-- What holds of a reference if it holds of the references it is made of holds of all. -/
@[elab_as_elim]
theorem induct {motive : TypeRef → Prop} (definition : ∀ token, motive (.definition token))
    (external : ∀ scope fullName, motive (.external scope fullName))
    (primitive : ∀ kind, motive (.primitive kind))
    (generic : ∀ e args, motive e → (∀ a ∈ args, motive a) → motive (.generic e args))
    (array : ∀ e rank, motive e → motive (.array e rank))
    (pointer : ∀ e, motive e → motive (.pointer e)) (byRef : ∀ e, motive e → motive (.byRef e))
    (pinned : ∀ e, motive e → motive (.pinned e))
    (modified : ∀ m required e, motive m → motive e → motive (.modified m required e))
    (typeParameter : ∀ index, motive (.typeParameter index))
    (methodParameter : ∀ index, motive (.methodParameter index)) (r : TypeRef) : motive r :=
  TypeRef.rec (motive_1 := motive) (motive_2 := fun args => ∀ a ∈ args, motive a) definition
    external primitive (fun e args he hargs => generic e args he hargs) array pointer byRef pinned
    modified typeParameter methodParameter (fun _ ha => nomatch ha)
    (fun _ _ ha hargs => List.forall_mem_cons.mpr ⟨ha, hargs⟩) r

/-- The parts of a reference that matter: itself, what it is built around, and the parts of its
generic arguments and modifiers. -/
inductive Part : TypeRef → TypeRef → Prop where
  | self (r : TypeRef) : Part r r
  | argument {e a p : TypeRef} {args : List TypeRef} : a ∈ args → Part a p →
    Part (.generic e args) p
  | instantiated {e p : TypeRef} {args : List TypeRef} : Part e p → Part (.generic e args) p
  | modifier {m e p : TypeRef} {required : Bool} : Part m p → Part (.modified m required e) p
  | modified {m e p : TypeRef} {required : Bool} : Part e p → Part (.modified m required e) p
  | array {e p : TypeRef} {rank : UInt32} : Part e p → Part (.array e rank) p
  | pointer {e p : TypeRef} : Part e p → Part (.pointer e) p
  | byRef {e p : TypeRef} : Part e p → Part (.byRef e) p
  | pinned {e p : TypeRef} : Part e p → Part (.pinned e) p

/-- A reference that names a type and is not built from others. -/
def isNamed : TypeRef → Bool
  | .definition _ | .external _ _ | .primitive _ => true
  | _ => false

/-! ## The parts of each form of reference -/

/-- What a reference is built around is a part of it. -/
theorem part_element : (r : TypeRef) → r.Part r.element
  | .generic e _ => .instantiated (part_element e)
  | .array e _ => .array (part_element e)
  | .pointer e => .pointer (part_element e)
  | .byRef e => .byRef (part_element e)
  | .pinned e => .pinned (part_element e)
  | .modified _ _ e => .modified (part_element e)
  | .definition _ | .external _ _ | .primitive _ | .typeParameter _ | .methodParameter _ => .self _

variable {e m p : TypeRef}

theorem part_generic {args : List TypeRef} : Part (.generic e args) p ↔
    p = .generic e args ∨ (∃ a ∈ args, Part a p) ∨ Part e p := by
  constructor
  · intro h
    cases h with
    | self => exact .inl rfl
    | argument ha hp => exact .inr (.inl ⟨_, ha, hp⟩)
    | instantiated hp => exact .inr (.inr hp)
  · rintro (rfl | ⟨a, ha, hp⟩ | hp)
    · exact .self _
    · exact .argument ha hp
    · exact .instantiated hp

theorem part_modified {required : Bool} : Part (.modified m required e) p ↔
    p = .modified m required e ∨ Part m p ∨ Part e p := by
  constructor
  · intro h
    cases h with
    | self => exact .inl rfl
    | modifier hp => exact .inr (.inl hp)
    | modified hp => exact .inr (.inr hp)
  · rintro (rfl | hp | hp)
    · exact .self _
    · exact .modifier hp
    · exact .modified hp

theorem part_array {rank : UInt32} : Part (.array e rank) p ↔ p = .array e rank ∨ Part e p :=
  ⟨fun h => by cases h with | self => exact .inl rfl | array hp => exact .inr hp,
    fun h => h.elim (fun h => h ▸ .self _) .array⟩

theorem part_pointer : Part (.pointer e) p ↔ p = .pointer e ∨ Part e p :=
  ⟨fun h => by cases h with | self => exact .inl rfl | pointer hp => exact .inr hp,
    fun h => h.elim (fun h => h ▸ .self _) .pointer⟩

theorem part_byRef : Part (.byRef e) p ↔ p = .byRef e ∨ Part e p :=
  ⟨fun h => by cases h with | self => exact .inl rfl | byRef hp => exact .inr hp,
    fun h => h.elim (fun h => h ▸ .self _) .byRef⟩

theorem part_pinned : Part (.pinned e) p ↔ p = .pinned e ∨ Part e p :=
  ⟨fun h => by cases h with | self => exact .inl rfl | pinned hp => exact .inr hp,
    fun h => h.elim (fun h => h ▸ .self _) .pinned⟩

/-- A reference that is built from no others is its only part. -/
theorem part_leaf (r : TypeRef) (h : r.isNamed = true ∨ r.isParameter = true) :
    Part r p ↔ p = r := by
  constructor
  · intro hp
    cases hp with
    | self => rfl
    | _ => rcases h with h | h <;> cases h
  · rintro rfl
    exact .self _

end CilTrim.TypeRef
