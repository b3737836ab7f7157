import CilTrim.Override.Table
import Mathlib.Algebra.BigOperators.Group.Finset.Piecewise
import Mathlib.Data.Set.Card

/-!
# Tables made by insertion

A table of which pairs are inserted one after the other is the same relation seen from both sides.
To find both sides by a look at a map, the pairs can be kept twice, and then each insertion has to
write both maps or none:

* `OverrideTable.overridesOf_insert`, `OverrideTable.basesOf_insert`: what an insertion adds to the
  lists of a table;
* `OverrideTable.Sound`: a table without repetition, in which no method overrides itself;
* `OverrideIndex`: the pairs in two maps, one for each side;
* `OverrideIndex.Mirrors`: both maps hold what a table holds, which every insertion keeps.
-/

namespace CilTrim

namespace OverrideTable

variable {t : OverrideTable} {base overrider : Token}

/-! ## Insertion -/

/-- A pair that is new to a table, and not one of a method with itself. -/
def Fresh (t : OverrideTable) (base overrider : Token) : Prop :=
  base ≠ overrider ∧ overrider ∉ t.overridesOf base

instance (t : OverrideTable) (base overrider : Token) : Decidable (t.Fresh base overrider) :=
  inferInstanceAs (Decidable (_ ∧ _))

/-- A fresh pair goes to the end, any other one nowhere. -/
theorem edges_insert (t : OverrideTable) (base overrider : Token) :
    (t.insert base overrider).edges =
      t.edges ++ if t.Fresh base overrider then [(base, overrider)] else [] := by
  have hfresh : (base = overrider ∨ (base, overrider) ∈ t.edges) ↔ ¬ t.Fresh base overrider := by
    rw [Fresh, mem_overridesOf, not_and_not_right, or_iff_not_imp_left]
  unfold insert
  rw [if_congr hfresh rfl rfl, ite_not]
  split
  · rfl
  · rw [List.append_nil]

theorem overridesOf_insert (t : OverrideTable) (base overrider method : Token) :
    (t.insert base overrider).overridesOf method =
      t.overridesOf method ++
        if t.Fresh base overrider ∧ base = method then [overrider] else [] := by
  rw [overridesOf, edges_insert, List.filter_append, List.map_append, ← overridesOf]
  congr 1
  by_cases hf : t.Fresh base overrider
  · rw [if_pos hf, if_congr (and_iff_right hf) rfl rfl]
    by_cases hm : base = method <;> simp [hm]
  · rw [if_neg hf, if_neg fun h => hf h.1]
    rfl

theorem basesOf_insert (t : OverrideTable) (base overrider method : Token) :
    (t.insert base overrider).basesOf method =
      t.basesOf method ++
        if t.Fresh base overrider ∧ overrider = method then [base] else [] := by
  rw [basesOf, edges_insert, List.filter_append, List.map_append, ← basesOf]
  congr 1
  by_cases hf : t.Fresh base overrider
  · rw [if_pos hf, if_congr (and_iff_right hf) rfl rfl]
    by_cases hm : overrider = method <;> simp [hm]
  · rw [if_neg hf, if_neg fun h => hf h.1]
    rfl

/-! ## Tables without repetition -/

/-- No pair stands twice in a table, and none is one of a method with itself. -/
structure Sound (t : OverrideTable) : Prop where
  nodup : t.edges.Nodup
  irrefl : ∀ edge ∈ t.edges, edge.1 ≠ edge.2

theorem sound_empty : Sound empty :=
  ⟨List.nodup_nil, nofun⟩

theorem Sound.insert (h : t.Sound) (base overrider : Token) : (t.insert base overrider).Sound := by
  have hedges := edges_insert t base overrider
  split at hedges <;> rename_i hf
  · refine ⟨?_, fun edge he => ?_⟩
    · rw [hedges]
      refine List.nodup_append.mpr ⟨h.nodup, List.nodup_singleton _, fun a ha b hb => ?_⟩
      rw [List.mem_singleton.mp hb]
      rintro rfl
      exact hf.2 (mem_overridesOf.mpr ha)
    · rw [hedges, List.mem_append, List.mem_singleton] at he
      rcases he with he | rfl
      · exact h.irrefl edge he
      · exact hf.1
  · rw [List.append_nil] at hedges
    exact ⟨hedges ▸ h.nodup, hedges ▸ h.irrefl⟩

theorem Sound.insertAll (h : t.Sound) (pairs : List (Token × Token)) :
    (t.insertAll pairs).Sound := by
  induction pairs generalizing t with
  | nil => exact h
  | cons pair rest ih => exact ih (h.insert pair.1 pair.2)

/-- What insertions leave in a table: what has been there, and the pairs of two methods. -/
theorem mem_edges_insertAll {pairs : List (Token × Token)} {edge : Token × Token} :
    edge ∈ (t.insertAll pairs).edges ↔ edge ∈ t.edges ∨ (edge.1 ≠ edge.2 ∧ edge ∈ pairs) := by
  induction pairs generalizing t with
  | nil => simp [insertAll]
  | cons pair rest ih =>
    have hstep : t.insertAll (pair :: rest) = (t.insert pair.1 pair.2).insertAll rest := rfl
    have hpair : pair.1 ≠ pair.2 ∧ edge = (pair.1, pair.2) ↔ edge.1 ≠ edge.2 ∧ edge = pair :=
      ⟨fun ⟨hne, he⟩ => ⟨he ▸ hne, he⟩, fun ⟨hne, he⟩ => ⟨he ▸ hne, he⟩⟩
    rw [hstep, ih, mem_edges_insert, hpair, List.mem_cons, and_or_left, or_assoc]

namespace Sound

variable (h : t.Sound)
include h

theorem overridesOf_nodup (method : Token) : (t.overridesOf method).Nodup := by
  refine List.Nodup.map_on (fun a ha b hb hab => ?_) (h.nodup.filter _)
  rw [List.mem_filter, beq_iff_eq] at ha hb
  exact Prod.ext (ha.2.trans hb.2.symm) hab

theorem basesOf_nodup (method : Token) : (t.basesOf method).Nodup := by
  refine List.Nodup.map_on (fun a ha b hb hab => ?_) (h.nodup.filter _)
  rw [List.mem_filter, beq_iff_eq] at ha hb
  exact Prod.ext hab (ha.2.trans hb.2.symm)

theorem not_mem_overridesOf (method : Token) : method ∉ t.overridesOf method :=
  fun hm => h.irrefl _ (mem_overridesOf.mp hm) rfl

theorem not_mem_basesOf (method : Token) : method ∉ t.basesOf method :=
  fun hm => h.irrefl _ (mem_basesOf.mp hm) rfl

/-- The size counts the pairs that the lists show. -/
theorem size_eq : t.size = {edge : Token × Token | edge.2 ∈ t.overridesOf edge.1}.ncard := by
  have hset : {edge : Token × Token | edge.2 ∈ t.overridesOf edge.1} = t.edges.toFinset := by
    ext edge
    simp [mem_overridesOf]
  rw [hset, Set.ncard_coe_finset, List.toFinset_card_of_nodup h.nodup]
  rfl

end Sound

theorem isEmpty_iff : t.isEmpty = true ↔ t.size = 0 := by
  rw [isEmpty, size, List.isEmpty_iff, List.length_eq_zero_iff]

end OverrideTable

namespace OverrideTable

/-- The lists of all methods together have the length of the table. -/
theorem sum_length_overridesOf {t : OverrideTable} {methods : List Token} (nodup : methods.Nodup)
    (all : ∀ edge ∈ t.edges, edge.1 ∈ methods) :
    (methods.map fun method => (t.overridesOf method).length).sum = t.size := by
  obtain ⟨edges⟩ := t
  induction edges with
  | nil => simp [overridesOf, size]
  | cons edge rest ih =>
    obtain ⟨hedge, hrest⟩ := List.forall_mem_cons.mp all
    have hcount : (methods.map fun method => if edge.1 = method then 1 else 0).sum = 1 := by
      rw [← List.sum_toFinset _ nodup, Finset.sum_ite_eq, if_pos (List.mem_toFinset.mpr hedge)]
    have hcons (method : Token) : (overridesOf ⟨edge :: rest⟩ method).length =
        (overridesOf ⟨rest⟩ method).length + if edge.1 = method then 1 else 0 := by
      by_cases hm : edge.1 = method <;> simp [overridesOf, hm]
    simp only [hcons, List.sum_map_add, hcount, ih hrest]
    rfl

end OverrideTable

/-! ## Both sides in maps -/

/-- Pairs of a method and one that overrides it, found from either of them by a look at a map. -/
structure OverrideIndex where
  overriders : TokenMap (List Token)
  bases : TokenMap (List Token)

namespace OverrideIndex

/-- An index without pairs. -/
def empty : OverrideIndex := ⟨∅, ∅⟩

/-- The methods that override a method. -/
def overridesOf (x : OverrideIndex) (method : Token) : List Token :=
  x.overriders[method]?.getD []

/-- The methods that a method overrides. -/
def basesOf (x : OverrideIndex) (method : Token) : List Token :=
  x.bases[method]?.getD []

/-- Writes a pair into both maps, unless it pairs a method with itself or the first map has it. -/
def insert (x : OverrideIndex) (base overrider : Token) : OverrideIndex :=
  if base = overrider then x
  else if overrider ∈ x.overridesOf base then x
  else
    ⟨x.overriders.insert base (x.overridesOf base ++ [overrider]),
      x.bases.insert overrider (x.basesOf overrider ++ [base])⟩

/-- Adds pairs in order. -/
def insertAll (x : OverrideIndex) (pairs : List (Token × Token)) : OverrideIndex :=
  pairs.foldl (fun x pair => x.insert pair.1 pair.2) x

/-- The lengths of the lists of the first map together. -/
def size (x : OverrideIndex) : Nat :=
  (x.overriders.toList.map fun entry => entry.2.length).sum

/-- The first map has no entries. -/
def isEmpty (x : OverrideIndex) : Bool := x.overriders.isEmpty

/-- What a map holds for a list: nothing for the empty one. -/
def stored? (tokens : List Token) : Option (List Token) :=
  if tokens = [] then none else some tokens

theorem stored?_getD (tokens : List Token) : (stored? tokens).getD [] = tokens := by
  unfold stored?
  split
  · rename_i hnil
    rw [hnil, Option.getD_none]
  · rfl

theorem stored?_eq_some_iff {tokens list : List Token} :
    stored? tokens = some list ↔ tokens ≠ [] ∧ tokens = list := by
  unfold stored?
  split
  · rename_i hnil
    simp [hnil]
  · rename_i hne
    simp [hne]

/-- Both maps hold the lists of a table, as far as they are not empty. -/
structure Mirrors (x : OverrideIndex) (t : OverrideTable) : Prop where
  overriders (method : Token) : x.overriders[method]? = stored? (t.overridesOf method)
  bases (method : Token) : x.bases[method]? = stored? (t.basesOf method)

variable {x : OverrideIndex} {t : OverrideTable}

theorem mirrors_empty : Mirrors empty .empty :=
  ⟨fun _ => Std.ExtTreeMap.getElem?_empty, fun _ => Std.ExtTreeMap.getElem?_empty⟩

namespace Mirrors

variable (h : x.Mirrors t)
include h

theorem overridesOf_eq (method : Token) : x.overridesOf method = t.overridesOf method := by
  rw [OverrideIndex.overridesOf, h.overriders, stored?_getD]

theorem basesOf_eq (method : Token) : x.basesOf method = t.basesOf method := by
  rw [OverrideIndex.basesOf, h.bases, stored?_getD]

/-- An insertion writes both maps or none, as it adds the pair to the table or not. -/
theorem insert (base overrider : Token) :
    (x.insert base overrider).Mirrors (t.insert base overrider) := by
  by_cases hf : t.Fresh base overrider
  · have hnew : overrider ∉ x.overridesOf base := h.overridesOf_eq base ▸ hf.2
    rw [OverrideIndex.insert, if_neg hf.1, if_neg hnew, h.overridesOf_eq, h.basesOf_eq]
    refine ⟨fun method => ?_, fun method => ?_⟩
    · rw [Std.ExtTreeMap.getElem?_insert, t.overridesOf_insert, h.overriders]
      split <;> rename_i hm
      · obtain rfl := Std.compare_eq_iff_eq.mp hm
        rw [if_pos ⟨hf, rfl⟩, stored?, if_neg (List.append_ne_nil_of_right_ne_nil _ (by simp))]
      · rw [if_neg fun he => hm (Std.compare_eq_iff_eq.mpr he.2), List.append_nil]
    · rw [Std.ExtTreeMap.getElem?_insert, t.basesOf_insert, h.bases]
      split <;> rename_i hm
      · obtain rfl := Std.compare_eq_iff_eq.mp hm
        rw [if_pos ⟨hf, rfl⟩, stored?, if_neg (List.append_ne_nil_of_right_ne_nil _ (by simp))]
      · rw [if_neg fun he => hm (Std.compare_eq_iff_eq.mpr he.2), List.append_nil]
  · have hsame : x.insert base overrider = x := by
      rw [OverrideIndex.insert]
      split <;> rename_i hne
      · rfl
      · rw [if_pos (h.overridesOf_eq base ▸ not_not.mp fun hnew => hf ⟨hne, hnew⟩)]
    rw [hsame]
    refine ⟨fun method => ?_, fun method => ?_⟩
    · rw [t.overridesOf_insert, if_neg fun he => hf he.1, List.append_nil, h.overriders]
    · rw [t.basesOf_insert, if_neg fun he => hf he.1, List.append_nil, h.bases]

theorem insertAll (pairs : List (Token × Token)) :
    (x.insertAll pairs).Mirrors (t.insertAll pairs) := by
  induction pairs generalizing x t with
  | nil => exact h
  | cons pair rest ih => exact ih (h.insert pair.1 pair.2)

theorem size_eq : x.size = t.size := by
  have hlist : (x.overriders.toList.map fun entry => entry.2.length) =
      x.overriders.keys.map fun method => (t.overridesOf method).length := by
    rw [← Std.ExtTreeMap.map_fst_toList_eq_keys, List.map_map]
    refine List.map_congr_left fun entry he => ?_
    have hentry := h.overriders entry.1
    rw [Std.ExtTreeMap.mem_toList_iff_getElem?_eq_some.mp he] at hentry
    rw [Function.comp_apply, (stored?_eq_some_iff.mp hentry.symm).2]
  rw [size, hlist]
  refine OverrideTable.sum_length_overridesOf Std.ExtTreeMap.nodup_keys fun edge he => ?_
  have hne : t.overridesOf edge.1 ≠ [] :=
    List.ne_nil_of_mem (OverrideTable.mem_overridesOf.mpr he)
  rw [Std.ExtTreeMap.mem_keys, Std.ExtTreeMap.mem_iff_isSome_getElem?, h.overriders, stored?,
    if_neg hne]
  rfl

theorem isEmpty_eq : x.isEmpty = t.isEmpty := by
  rw [Bool.eq_iff_iff, OverrideTable.isEmpty_iff, ← h.size_eq, size, isEmpty,
    Std.ExtTreeMap.isEmpty_iff, ← Std.ExtTreeMap.toList_eq_nil_iff]
  refine ⟨fun hnil => by rw [hnil]; rfl, fun hsum => ?_⟩
  -- No entry has length zero, so there is none if all lengths together are zero.
  refine List.eq_nil_iff_forall_not_mem.mpr fun entry he => ?_
  have hzero := List.sum_eq_zero_iff_forall_eq_nat.mp hsum _ (List.mem_map_of_mem he)
  have hentry := h.overriders entry.1
  rw [Std.ExtTreeMap.mem_toList_iff_getElem?_eq_some.mp he] at hentry
  obtain ⟨hne, heq⟩ := stored?_eq_some_iff.mp hentry.symm
  exact hne (heq.trans (List.length_eq_zero_iff.mp hzero))

end Mirrors

/-- An index answers as a table does. -/
structure Agrees (x : OverrideIndex) (t : OverrideTable) : Prop where
  overridesOf (method : Token) : x.overridesOf method = t.overridesOf method
  basesOf (method : Token) : x.basesOf method = t.basesOf method
  size : x.size = t.size
  isEmpty : x.isEmpty = t.isEmpty

theorem Mirrors.agrees (h : x.Mirrors t) : x.Agrees t :=
  ⟨h.overridesOf_eq, h.basesOf_eq, h.size_eq, h.isEmpty_eq⟩

end OverrideIndex

end CilTrim
