import CilTrim.Proofs.TypeRef.Parts

/-!
# The leaves of type references

A reference is peeled one layer after another down to the innermost type, which is one leaf. The
generic arguments and modifiers that are met on the way have leaves of their own:

* `TypeRef.attachments`: what is met on the way to the innermost type;
* `TypeRef.Leaf`: the leaves;
* `TypeRef.leaf_iff`: they are the parts that are built from no others.
-/

namespace CilTrim.TypeRef

variable {a e l m p r : TypeRef} {args : List TypeRef}

/-- The generic arguments and modifiers that are met on the way to the innermost type. -/
def attachments : TypeRef → List TypeRef
  | .generic e args => args ++ e.attachments
  | .modified m _ e => m :: e.attachments
  | .array e _ | .pointer e | .byRef e | .pinned e => e.attachments
  | _ => []

/-- The innermost type of a reference, and the leaves of what is met on the way to it. -/
inductive Leaf : TypeRef → TypeRef → Prop where
  | innermost (r : TypeRef) : Leaf r r.element
  | attached {r a l : TypeRef} : a ∈ r.attachments → Leaf a l → Leaf r l

/-- The innermost type is built from no others. -/
theorem isNamed_or_isParameter_element :
    (r : TypeRef) → r.element.isNamed = true ∨ r.element.isParameter = true
  | .generic e _ | .array e _ | .pointer e | .byRef e | .pinned e | .modified _ _ e =>
    isNamed_or_isParameter_element e
  | .definition _ | .external _ _ | .primitive _ => .inl rfl
  | .typeParameter _ | .methodParameter _ => .inr rfl

/-- A type that is built from no others is its own innermost type. -/
theorem element_eq_self (h : l.isNamed = true ∨ l.isParameter = true) : l.element = l := by
  cases l with
  | definition | external | primitive | typeParameter | methodParameter => rfl
  | _ => rcases h with h | h <;> cases h

theorem Part.trans (hp : r.Part p) (hl : p.Part l) : r.Part l := by
  induction hp with
  | self => exact hl
  | argument ha _ ih => exact .argument ha (ih hl)
  | instantiated _ ih => exact .instantiated (ih hl)
  | modifier _ ih => exact .modifier (ih hl)
  | modified _ ih => exact .modified (ih hl)
  | array _ ih => exact .array (ih hl)
  | pointer _ ih => exact .pointer (ih hl)
  | byRef _ ih => exact .byRef (ih hl)
  | pinned _ ih => exact .pinned (ih hl)

theorem part_of_mem_attachments (h : a ∈ r.attachments) : r.Part a := by
  induction r using induct with
  | generic e args he _ =>
    rcases List.mem_append.mp h with ha | ha
    · exact .argument ha (.self a)
    · exact .instantiated (he ha)
  | modified m required e _ he =>
    rcases List.mem_cons.mp h with rfl | ha
    · exact .modifier (.self a)
    · exact .modified (he ha)
  | array e rank he => exact .array (he h)
  | pointer e he => exact .pointer (he h)
  | byRef e he => exact .byRef (he h)
  | pinned e he => exact .pinned (he h)
  | _ => cases h

/-- A layer around a reference has its leaves. -/
theorem Leaf.around (h : e.Leaf l) (helement : r.element = e.element)
    (hattached : ∀ a ∈ e.attachments, a ∈ r.attachments) : r.Leaf l := by
  cases h with
  | innermost => exact helement ▸ .innermost r
  | attached ha hl => exact .attached (hattached _ ha) hl

/-- The leaves of a reference are those of its parts that are built from no others. -/
theorem leaf_iff : r.Leaf l ↔ r.Part l ∧ (l.isNamed = true ∨ l.isParameter = true) := by
  constructor
  · intro h
    induction h with
    | innermost r => exact ⟨r.part_element, r.isNamed_or_isParameter_element⟩
    | attached ha _ ih => exact ⟨(part_of_mem_attachments ha).trans ih.1, ih.2⟩
  · rintro ⟨hp, hl⟩
    induction hp with
    | self r =>
      have hinnermost : r.Leaf r.element := .innermost r
      rwa [element_eq_self hl] at hinnermost
    | argument ha _ ih => exact .attached (List.mem_append_left _ ha) (ih hl)
    | instantiated _ ih => exact (ih hl).around rfl fun _ => List.mem_append_right _
    | modifier _ ih => exact .attached List.mem_cons_self (ih hl)
    | modified _ ih => exact (ih hl).around rfl fun _ => List.mem_cons_of_mem _
    | array _ ih => exact (ih hl).around rfl fun _ => id
    | pointer _ ih => exact (ih hl).around rfl fun _ => id
    | byRef _ ih => exact (ih hl).around rfl fun _ => id
    | pinned _ ih => exact (ih hl).around rfl fun _ => id

end CilTrim.TypeRef
