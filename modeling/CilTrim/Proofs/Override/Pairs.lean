import CilTrim.Override.Search
import CilTrim.Proofs.Model.Bound
import CilTrim.Proofs.Override.Above

/-!
# What the table of a model pairs

Every pair of the override table of a model has methods of the model on both sides, and a virtual
one on the side that overrides:

* `OverrideTable.mem_ofModel`: the pairs that the table has;
* `Model.overridePairs_holds`, `Model.overridePairs_methods`: what a pair is made of.
-/

namespace CilTrim

/-- The table of a model has the pairs that its types contribute, unless they pair a method with
itself. Interfaces contribute nothing. -/
theorem OverrideTable.mem_ofModel {m : Model} {edge : Token × Token} :
    edge ∈ (ofModel m).edges ↔ edge.1 ≠ edge.2 ∧
      ∃ type ∈ m.types.toList, type.isInterface = false ∧ edge ∈ m.overridePairs type := by
  have mem_foldr (pairs : List (Token × Token)) :
      edge ∈ pairs.foldr insertEdge [] ↔ edge ∈ pairs := by
    induction pairs with
    | nil => exact Iff.rfl
    | cons pair rest ih => rw [List.foldr_cons, mem_insertEdge, ih, List.mem_cons]
  simp only [ofModel, mem_foldr, List.mem_filter, List.mem_flatMap, bne_iff_ne, ne_eq,
    Bool.not_eq_true']
  constructor
  · rintro ⟨⟨type, ⟨ht, hi⟩, he⟩, hne⟩
    exact ⟨hne, type, ht, hi, he⟩
  · rintro ⟨hne, type, ht, hi, he⟩
    exact ⟨⟨type, ⟨ht, hi⟩, he⟩, hne⟩

namespace Model

variable {m : Model} {bases : List (Token × List TypeRef)}

/-- A token names a virtual method of a model. -/
def IsVirtual (m : Model) (t : Token) : Prop :=
  ∃ d, m.method? t = some d ∧ d.isVirtual = true

theorem IsVirtual.isSome {t : Token} (h : m.IsVirtual t) : (m.method? t).isSome := by
  obtain ⟨d, hd, -⟩ := h
  rw [hd]
  rfl

/-- A token is held by a virtual method of a model. -/
def HoldsVirtual (m : Model) (t : Token) : Prop :=
  ∃ x d, m.method? x = some d ∧ d.isVirtual = true ∧ d.token = t

theorem HoldsVirtual.isVirtual (wf : m.WellFormed) {t : Token} (h : m.HoldsVirtual t) :
    m.IsVirtual t := by
  obtain ⟨x, d, hd, hv, rfl⟩ := h
  exact ⟨d, (wf.method_token hd).symm ▸ hd, hv⟩

theorem holdsVirtual_of_mem {type : TypeDef} {d : MethodDef} (hd : d ∈ m.methodsOf type)
    (hv : d.isVirtual = true) : m.HoldsVirtual d.token := by
  obtain ⟨x, -, hx⟩ := List.mem_filterMap.mp hd
  exact ⟨x, d, hx, hv, rfl⟩

/-- The nearest virtual method of a list of bases is one. -/
theorem holdsVirtual_of_nearestVirtual? {name : String} {signature : Signature} {t : Token}
    (h : m.nearestVirtual? bases name signature = some t) : m.HoldsVirtual t := by
  obtain ⟨base, -, hb⟩ := List.exists_of_findSome?_eq_some h
  obtain ⟨type, -, hf⟩ := Option.bind_eq_some_iff.mp hb
  obtain ⟨d, hd, rfl⟩ := Option.map_eq_some_iff.mp hf
  have hp := List.find?_some hd
  simp only [Bool.and_eq_true] at hp
  exact holdsVirtual_of_mem (List.mem_of_find?_eq_some hd) hp.1.1

theorem holdsVirtual_of_implementation? {type : TypeDef} {args : List TypeRef} {slot : MethodDef}
    {t : Token}
    (h : m.implementation? ((m.methodsOf type).filter (·.isVirtual)) bases args slot = some t) :
    m.HoldsVirtual t := by
  unfold implementation? at h
  dsimp only at h
  split at h
  · rename_i d hd
    cases h
    obtain ⟨hm, hv⟩ := List.mem_filter.mp (List.mem_of_find?_eq_some hd)
    exact holdsVirtual_of_mem hm hv
  · exact holdsVirtual_of_nearestVirtual? h

/-- A pair that a type contributes has a virtual method on the side that overrides. The other one
is a method if tokens lead to what they are held by. -/
theorem overridePairs_holds {type : TypeDef} {base overrider : Token}
    (h : (base, overrider) ∈ m.overridePairs type) :
    (m.WellFormed → (m.method? base).isSome) ∧ m.HoldsVirtual overrider := by
  unfold overridePairs at h
  rcases List.mem_append.mp h with h | h
  · obtain ⟨d, hd, h⟩ := List.mem_flatMap.mp h
    obtain ⟨hm, hv⟩ := List.mem_filter.mp hd
    obtain ⟨b, hb, he⟩ := List.mem_map.mp h
    cases he
    refine ⟨fun wf => ?_, holdsVirtual_of_mem hm hv⟩
    unfold overriddenBy at hb
    rcases List.mem_append.mp hb with hb | hb
    · obtain ⟨r, -, hr⟩ := List.mem_filterMap.mp hb
      cases hres : m.resolveMethod r with
      | error cause => rw [hres] at hr; cases hr
      | ok t =>
        rw [hres] at hr
        cases hr
        exact method_of_resolveMethod hres
    · split at hb
      · cases hb
      · exact ((holdsVirtual_of_nearestVirtual? (Option.mem_toList.mp hb)).isVirtual wf).isSome
  · obtain ⟨interface, -, h⟩ := List.mem_flatMap.mp h
    unfold interfacePairs at h
    split at h
    · cases h
    · obtain ⟨slot, hs, h⟩ := List.mem_filterMap.mp h
      obtain ⟨t, ht, he⟩ := Option.map_eq_some_iff.mp h
      cases he
      refine ⟨fun wf => ?_, holdsVirtual_of_implementation? ht⟩
      rw [(mem_methodsOf wf hs).2]
      rfl

/-- A pair that a type contributes has a method and a virtual method. -/
theorem overridePairs_methods (wf : m.WellFormed) {type : TypeDef} {base overrider : Token}
    (h : (base, overrider) ∈ m.overridePairs type) :
    (m.method? base).isSome ∧ m.IsVirtual overrider :=
  ⟨(overridePairs_holds h).1 wf, (overridePairs_holds h).2.isVirtual wf⟩

end Model

/-- A pair of the table of a model has a method and a virtual method. -/
theorem OverrideTable.ofModel_methods {m : Model} (wf : m.WellFormed) {base overrider : Token}
    (h : (base, overrider) ∈ (ofModel m).edges) :
    (m.method? base).isSome ∧ m.IsVirtual overrider := by
  obtain ⟨-, type, -, -, h⟩ := mem_ofModel.mp h
  exact Model.overridePairs_methods wf h

end CilTrim
