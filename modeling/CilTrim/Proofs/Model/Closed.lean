import CilTrim.Proofs.Model.Equality
import CilTrim.Proofs.TypeRef.Signature

/-!
# Closed types

Arguments are put into all of a reference but its modifiers, so that a generic parameter stays there
even if there is an argument for it:

* `TypeRef.IsClosed`: references without generic parameters;
* `TypeRef.part_substitute_iff`: where the parameters of a reference with arguments come from;
* `Model.isClosed_canonical`: canonical forms have parameters where their references have some;
* `Model.modifiers_closed_of_signaturesEqual`: open modifiers of a slot hide it from its overrides;
* `Model.substitute_isClosed_iff`: a reference with arguments for all that substitution reaches is
  closed, and can equal a closed one, exactly as far as its modifiers are closed;
* `Model.substitute_open_items`: a parameter that stays although there is an argument for it.
-/

namespace CilTrim

namespace TypeRef

/-! ## References without parameters -/

/-- A reference without generic parameters, in its generic arguments and modifiers as well. -/
def IsClosed (r : TypeRef) : Prop :=
  ∀ p, p.isParameter = true → ¬ r.Part p

variable {e m p r : TypeRef} {args typeArgs methodArgs : List TypeRef}

/-- A named type has no parts but itself. -/
theorem isClosed_of_isNamed (h : r.isNamed = true) : r.IsClosed := by
  intro p hparam hp
  rw [(part_leaf r (.inl h)).mp hp] at hparam
  cases r with
  | definition | external | primitive => cases hparam
  | _ => cases h

/-- A generic parameter is a part of itself. -/
theorem not_isClosed (h : r.isParameter = true) : ¬ r.IsClosed :=
  fun hr => hr r h (.self r)

theorem isClosed_generic :
    IsClosed (.generic e args) ↔ e.IsClosed ∧ ∀ a ∈ args, a.IsClosed := by
  constructor
  · exact fun h => ⟨fun p hparam hp => h p hparam (.instantiated hp),
      fun a ha p hparam hp => h p hparam (.argument ha hp)⟩
  · rintro ⟨he, hargs⟩ p hparam hp
    obtain rfl | ⟨a, ha, hp⟩ | hp := part_generic.mp hp
    · cases hparam
    · exact hargs a ha p hparam hp
    · exact he p hparam hp

theorem isClosed_modified {required : Bool} :
    IsClosed (.modified m required e) ↔ m.IsClosed ∧ e.IsClosed := by
  constructor
  · exact fun h => ⟨fun p hparam hp => h p hparam (.modifier hp),
      fun p hparam hp => h p hparam (.modified hp)⟩
  · rintro ⟨hm, he⟩ p hparam hp
    obtain rfl | hp | hp := part_modified.mp hp
    · cases hparam
    · exact hm p hparam hp
    · exact he p hparam hp

/-- A reference is closed if the only other one it is built from is. -/
theorem isClosed_iff_of_part (hr : r.isParameter = false)
    (hpart : ∀ {p}, r.Part p ↔ p = r ∨ e.Part p) : r.IsClosed ↔ e.IsClosed := by
  refine forall₂_congr fun p hparam => not_congr (hpart.trans (or_iff_right ?_))
  rintro rfl
  exact nomatch hparam.symm.trans hr

theorem isClosed_array {rank : UInt32} : IsClosed (.array e rank) ↔ e.IsClosed :=
  isClosed_iff_of_part rfl part_array

theorem isClosed_pointer : IsClosed (.pointer e) ↔ e.IsClosed :=
  isClosed_iff_of_part rfl part_pointer

theorem isClosed_byRef : IsClosed (.byRef e) ↔ e.IsClosed :=
  isClosed_iff_of_part rfl part_byRef

theorem isClosed_pinned : IsClosed (.pinned e) ↔ e.IsClosed :=
  isClosed_iff_of_part rfl part_pinned

/-! ## Where parameters come from -/

/-- The modifiers that substitution comes by, which are those outside other modifiers. -/
def HasModifier (r m : TypeRef) : Prop :=
  ∃ required e, r.Exposed (.modified m required e)

/-- Where a part of a reference with arguments comes from: from what is in the place of a parameter,
or from a modifier. -/
def Origin (typeArgs methodArgs : List TypeRef) (r p : TypeRef) : Prop :=
  (∃ q, r.Exposed q ∧ q.isParameter = true ∧ (q.substitute typeArgs methodArgs).Part p) ∨
    ∃ m, r.HasModifier m ∧ m.Part p

theorem Origin.of_exposed {s : TypeRef} (hexposed : ∀ q, r.Exposed q → s.Exposed q)
    (h : r.Origin typeArgs methodArgs p) : s.Origin typeArgs methodArgs p := by
  obtain ⟨q, hq, hparam, hp⟩ | ⟨m, ⟨required, e, hm⟩, hp⟩ := h
  · exact .inl ⟨q, hexposed q hq, hparam, hp⟩
  · exact .inr ⟨m, ⟨required, e, hexposed _ hm⟩, hp⟩

theorem Exposed.part {q : TypeRef} (hq : r.Exposed q) : r.Part q := by
  induction hq with
  | self => exact .self _
  | argument ha _ ih => exact .argument ha ih
  | instantiated _ ih => exact .instantiated ih
  | modified _ ih => exact .modified ih
  | array _ ih => exact .array ih
  | pointer _ ih => exact .pointer ih
  | byRef _ ih => exact .byRef ih
  | pinned _ ih => exact .pinned ih

/-- What a part that substitution reaches becomes is a part of what the reference becomes. -/
theorem Exposed.part_substitute {q : TypeRef} (hq : r.Exposed q)
    (hp : (q.substitute typeArgs methodArgs).Part p) :
    (r.substitute typeArgs methodArgs).Part p := by
  induction hq with
  | self => exact hp
  | argument ha _ ih =>
    rw [substitute, substituteAll_eq_map]
    exact .argument (List.mem_map_of_mem ha) (ih hp)
  | instantiated _ ih => exact .instantiated (ih hp)
  | modified _ ih => exact .modified (ih hp)
  | array _ ih => exact .array (ih hp)
  | pointer _ ih => exact .pointer (ih hp)
  | byRef _ ih => exact .byRef (ih hp)
  | pinned _ ih => exact .pinned (ih hp)

/-- The parameters of a reference with arguments are those that stand in the place of its own, and
those of its modifiers. -/
theorem part_substitute_iff (hparam : p.isParameter = true) :
    (r.substitute typeArgs methodArgs).Part p ↔ r.Origin typeArgs methodArgs p := by
  constructor
  · intro hp
    induction r using induct with
    | definition | external | primitive =>
      rw [(part_leaf _ (.inl rfl)).mp hp] at hparam
      cases hparam
    | typeParameter | methodParameter => exact .inl ⟨_, .self _, rfl, hp⟩
    | generic e args he hargs =>
      rw [substitute, substituteAll_eq_map] at hp
      obtain rfl | ⟨_, ha', hp⟩ | hp := part_generic.mp hp
      · cases hparam
      · obtain ⟨a, ha, rfl⟩ := List.mem_map.mp ha'
        exact (hargs a ha hp).of_exposed fun _ => .argument ha
      · exact (he hp).of_exposed fun _ => .instantiated
    | modified m required e _ he =>
      obtain rfl | hp | hp := part_modified.mp hp
      · cases hparam
      · exact .inr ⟨m, ⟨required, e, .self _⟩, hp⟩
      · exact (he hp).of_exposed fun _ => .modified
    | array e rank he =>
      obtain rfl | hp := part_array.mp hp
      · cases hparam
      · exact (he hp).of_exposed fun _ => .array
    | pointer e he =>
      obtain rfl | hp := part_pointer.mp hp
      · cases hparam
      · exact (he hp).of_exposed fun _ => .pointer
    | byRef e he =>
      obtain rfl | hp := part_byRef.mp hp
      · cases hparam
      · exact (he hp).of_exposed fun _ => .byRef
    | pinned e he =>
      obtain rfl | hp := part_pinned.mp hp
      · cases hparam
      · exact (he hp).of_exposed fun _ => .pinned
  · rintro (⟨q, hq, -, hp⟩ | ⟨m, ⟨required, e, hm⟩, hp⟩)
    · exact hq.part_substitute hp
    · exact hm.part_substitute (.modifier hp)

/-- What stands in the place of a parameter with a closed argument is closed. -/
theorem isClosed_of_hasArgument (htype : ∀ a ∈ typeArgs, a.IsClosed)
    (hmethod : ∀ a ∈ methodArgs, a.IsClosed) (h : p.HasArgument typeArgs methodArgs) :
    (p.substitute typeArgs methodArgs).IsClosed := by
  cases p with
  | typeParameter index =>
    rw [substitute, List.getElem?_eq_getElem h]
    exact htype _ (List.getElem_mem h)
  | methodParameter index =>
    rw [substitute, List.getElem?_eq_getElem h]
    exact hmethod _ (List.getElem_mem h)
  | _ => cases h

/-- With closed arguments for all that substitution reaches, the parameters that stay are those of
the modifiers. -/
theorem part_substitute_iff_of_closed (htype : ∀ a ∈ typeArgs, a.IsClosed)
    (hmethod : ∀ a ∈ methodArgs, a.IsClosed)
    (hcovered : ∀ p, r.Exposed p → p.isParameter = true → p.HasArgument typeArgs methodArgs)
    (hparam : p.isParameter = true) :
    (r.substitute typeArgs methodArgs).Part p ↔ ∃ m, r.HasModifier m ∧ m.Part p := by
  rw [part_substitute_iff hparam, Origin, or_iff_right]
  rintro ⟨q, hq, hparam', hp⟩
  exact isClosed_of_hasArgument htype hmethod (hcovered q hq hparam') p hparam hp

theorem isClosed_substitute_iff (htype : ∀ a ∈ typeArgs, a.IsClosed)
    (hmethod : ∀ a ∈ methodArgs, a.IsClosed)
    (hcovered : ∀ p, r.Exposed p → p.isParameter = true → p.HasArgument typeArgs methodArgs) :
    (r.substitute typeArgs methodArgs).IsClosed ↔ ∀ m, r.HasModifier m → m.IsClosed := by
  have hstays {p : TypeRef} := part_substitute_iff_of_closed (p := p) htype hmethod hcovered
  constructor
  · intro h m hm p hparam hp
    exact h p hparam ((hstays hparam).mpr ⟨m, hm, hp⟩)
  · intro h p hparam hp
    obtain ⟨m, hm, hp⟩ := (hstays hparam).mp hp
    exact h m hm p hparam hp

end TypeRef

namespace Model

open TypeRef

/-! ## Equality with closed types -/

theorem isClosed_canonical {m : Model} (r : TypeRef) : (m.canonical r).IsClosed ↔ r.IsClosed := by
  induction r using induct with
  | definition | external | primitive =>
    exact iff_of_true (isClosed_of_isNamed (isNamed_representative _)) (isClosed_of_isNamed rfl)
  | typeParameter | methodParameter => exact Iff.rfl
  | generic e args he hargs =>
    simp only [canonical, canonicalAll_eq_map, isClosed_generic, List.forall_mem_map, he]
    exact and_congr_right fun _ => forall₂_congr hargs
  | modified modifier required e hm he => simp only [canonical, isClosed_modified, hm, he]
  | array e rank he => simp only [canonical, isClosed_array, he]
  | pointer e he => simp only [canonical, isClosed_pointer, he]
  | byRef e he => simp only [canonical, isClosed_byRef, he]
  | pinned e he => simp only [canonical, isClosed_pinned, he]

/-- No open type equals a closed one. -/
theorem isClosed_of_typesEqual {m : Model} {a b : TypeRef} (h : m.typesEqual a b = true)
    (hb : b.IsClosed) : a.IsClosed := by
  rw [← isClosed_canonical (m := m), (typesEqual_iff a b).mp h, isClosed_canonical]
  exact hb

/-- No signature with an open type equals one with closed types only. -/
theorem isClosed_of_signaturesEqual {m : Model} {a b : Signature}
    (h : m.signaturesEqual a b = true) (hb : ∀ r ∈ b.types, r.IsClosed) :
    ∀ r ∈ a.types, r.IsClosed := by
  have hforms : a.types.map m.canonical = b.types.map m.canonical := by
    have hsame := (signaturesEqual_iff a b).mp h
    simp only [canonicalSignature, Prod.mk.injEq] at hsame
    rw [Signature.types, Signature.types, List.map_cons, List.map_cons, hsame.2.1, hsame.2.2]
  intro r hr
  have hmem : m.canonical r ∈ b.types.map m.canonical := hforms ▸ List.mem_map_of_mem hr
  obtain ⟨r', hr', hform⟩ := List.mem_map.mp hmem
  rw [← isClosed_canonical (m := m), ← hform, isClosed_canonical]
  exact hb r' hr'

/-- A slot of a generic type with an open modifier is overridden by no method with a closed
signature, whatever closed arguments are put into it. -/
theorem modifiers_closed_of_signaturesEqual {m : Model} {slot overrider : Signature}
    {args : List TypeRef} (hargs : ∀ a ∈ args, a.IsClosed)
    (hcovered : ∀ r ∈ slot.types, ∀ p, r.Exposed p → p.isParameter = true → p.HasArgument args [])
    (hclosed : ∀ r ∈ overrider.types, r.IsClosed)
    (h : m.signaturesEqual (slot.substitute args) overrider = true) :
    ∀ r ∈ slot.types, ∀ modifier, r.HasModifier modifier → modifier.IsClosed := by
  intro r hr
  have htypes := isClosed_of_signaturesEqual h hclosed
  rw [Signature.substitute_eq] at htypes
  have hr' : r.substitute args [] ∈ slot.types.map (substitute args []) := List.mem_map_of_mem hr
  exact (isClosed_substitute_iff hargs (List.forall_mem_nil _) (hcovered r hr)).mp (htypes _ hr')

/-- With closed arguments for all parameters outside modifiers, the parameters that stay are those
of the modifiers, whether there are arguments for them or not. The reference becomes closed exactly
if its modifiers are closed, and otherwise it equals no closed type in any model. -/
theorem substitute_isClosed_iff {r : TypeRef} {ts ms : List TypeRef}
    (hts : ∀ t ∈ ts, t.IsClosed) (hms : ∀ t ∈ ms, t.IsClosed)
    (hcovered : ∀ p, r.Exposed p → p.isParameter = true → p.HasArgument ts ms) :
    (∀ p, p.isParameter = true →
      ((r.substitute ts ms).Part p ↔ ∃ modifier, r.HasModifier modifier ∧ modifier.Part p)) ∧
    ((r.substitute ts ms).IsClosed ↔ ∀ modifier, r.HasModifier modifier → modifier.IsClosed) ∧
    ∀ (m : Model) (b : TypeRef), b.IsClosed → m.typesEqual (r.substitute ts ms) b = true →
      ∀ modifier, r.HasModifier modifier → modifier.IsClosed := by
  have hiff := isClosed_substitute_iff hts hms hcovered
  refine ⟨fun p => part_substitute_iff_of_closed hts hms hcovered, hiff, fun m b hb h => ?_⟩
  exact hiff.mp (isClosed_of_typesEqual h hb)

end Model

namespace Items

/-- A list of what its parameter is, which callers must not cache. -/
def listed : TypeRef :=
  .generic (.external "App" "App.List")
    [.modified (.external "App" "App.IsVolatile") true (.typeParameter 0)]

/-- What a parameter is, with the parameter itself as a hint. -/
def hinted : TypeRef :=
  .modified (.typeParameter 0) false (.typeParameter 0)

theorem part_listed {p : TypeRef} : listed.Part p ↔ p = listed ∨
    (p = .modified (.external "App" "App.IsVolatile") true (.typeParameter 0) ∨
      p = .external "App" "App.IsVolatile" ∨ p = .typeParameter 0) ∨
    p = .external "App" "App.List" := by
  simp [listed, TypeRef.part_generic, TypeRef.part_modified, TypeRef.part_leaf, TypeRef.isNamed,
    TypeRef.isParameter]

theorem part_hinted {p : TypeRef} :
    hinted.Part p ↔ p = hinted ∨ p = .typeParameter 0 := by
  simp [hinted, TypeRef.part_modified, TypeRef.part_leaf, TypeRef.isParameter]

end Items

namespace Model

open TypeRef

/-- A list of volatile strings is closed, and a string with an open hint equals no closed type. -/
theorem substitute_isClosed_iff_items :
    (Items.listed.substitute [.primitive .string] []).IsClosed ∧
      ∀ (m : Model) (b : TypeRef), b.IsClosed →
        m.typesEqual (Items.hinted.substitute [.primitive .string] []) b = false := by
  have hts : ∀ t ∈ [TypeRef.primitive .string], t.IsClosed :=
    List.forall_mem_singleton.mpr (isClosed_of_isNamed rfl)
  have hms : ∀ t ∈ ([] : List TypeRef), t.IsClosed := List.forall_mem_nil _
  constructor
  · refine (substitute_isClosed_iff hts hms fun p hp hparam => ?_).2.1.mpr ?_
    · obtain rfl | (rfl | rfl | rfl) | rfl := Items.part_listed.mp hp.part
      case inr.inl.inr.inr => exact Nat.zero_lt_one
      all_goals cases hparam
    · rintro modifier ⟨required, e, hmodifier⟩
      obtain h | (h | h | h) | h := Items.part_listed.mp hmodifier.part
      case inr.inl.inl =>
        cases h
        exact isClosed_of_isNamed rfl
      all_goals cases h
  · intro m b hb
    rw [← Bool.not_eq_true]
    intro h
    refine not_isClosed rfl ((substitute_isClosed_iff hts hms fun p hp hparam => ?_).2.2 m b hb h
      (.typeParameter 0) ⟨_, _, .self _⟩)
    obtain rfl | rfl := Items.part_hinted.mp hp.part
    · cases hparam
    · exact Nat.zero_lt_one

/-- All parameters of a hinted item have closed arguments, and yet one stays. -/
theorem substitute_open_items :
    (∀ t ∈ [TypeRef.primitive .string], t.IsClosed) ∧
      (∀ p, Items.hinted.Part p → p.isParameter = true →
        p.HasArgument [.primitive .string] []) ∧
      Items.hinted.substitute [.primitive .string] [] =
        .modified (.typeParameter 0) false (.primitive .string) ∧
      ¬ (Items.hinted.substitute [.primitive .string] []).IsClosed := by
  refine ⟨List.forall_mem_singleton.mpr (isClosed_of_isNamed rfl), fun p hp hparam => ?_, rfl,
    fun h => h (.typeParameter 0) rfl (.modifier (.self _))⟩
  obtain rfl | rfl := Items.part_hinted.mp hp
  · cases hparam
  · exact Nat.zero_lt_one

end Model

end CilTrim
