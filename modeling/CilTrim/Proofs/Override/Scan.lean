import CilTrim.Proofs.Override.Insertion
import CilTrim.Proofs.Override.Pairs
import Mathlib.Data.List.Destutter
import Mathlib.Data.List.Sort

/-!
# The table of a model, in any order of its types

The pairs that types contribute are sorted before they enter the table, and several types may
contribute the same pair. So it does not matter in which order the types are scanned:

* `OverrideTable.weight`: the number of a pair in token order, with `edgeLt_iff`;
* `OverrideTable.ofScan`: the table after a scan of types, by insertions;
* `OverrideTable.ofScan_eq`: it is the table of the model, whatever the order of the scan;
* `OverrideTable.two_sided`: what holds of every table made by insertions, and of that of a model.
-/

namespace CilTrim

namespace OverrideTable

variable {edge a b : Token × Token} {edges pairs : List (Token × Token)}

/-! ## Token order -/

/-- The number of a pair in token order. -/
def weight (edge : Token × Token) : Nat :=
  edge.1.value.toNat * UInt32.size + edge.2.value.toNat

theorem weight_injective : Function.Injective weight := by
  intro a b h
  have ha := a.2.value.toNat_lt
  have hb := b.2.value.toNat_lt
  rw [weight, weight, UInt32.size] at h
  exact Prod.ext (Token.ext_value (by omega)) (Token.ext_value (by omega))

/-- Pairs are ordered by their numbers. -/
theorem edgeLt_iff : edgeLt a b = true ↔ weight a < weight b := by
  have ha := a.2.value.toNat_lt
  have hb := b.2.value.toNat_lt
  simp only [edgeLt, Bool.or_eq_true, Bool.and_eq_true, decide_eq_true_eq, beq_iff_eq,
    UInt32.lt_iff_toNat_lt, ← UInt32.toNat_inj, weight, UInt32.size]
  omega

/-- Pairs in token order, without repetition. -/
abbrev Increasing (edges : List (Token × Token)) : Prop :=
  edges.Pairwise fun a b => weight a < weight b

theorem Increasing.nodup (h : Increasing edges) : edges.Nodup :=
  h.imp fun hlt heq => Nat.ne_of_lt hlt (congrArg weight heq)

/-- Pairs in token order are determined by which pairs they are. -/
theorem Increasing.eq_of_mem_iff {edges' : List (Token × Token)} (h : Increasing edges)
    (h' : Increasing edges') (hmem : ∀ edge, edge ∈ edges ↔ edge ∈ edges') : edges = edges' := by
  refine List.Perm.eq_of_pairwise (fun a b _ _ hab hba => absurd hab (Nat.lt_asymm hba)) h h' ?_
  exact (List.perm_ext_iff_of_nodup h.nodup h'.nodup).mpr hmem

theorem increasing_insertEdge (h : Increasing edges) : Increasing (insertEdge edge edges) := by
  induction edges with
  | nil => exact List.pairwise_singleton _ _
  | cons head rest ih =>
    obtain ⟨hhead, hrest⟩ := List.pairwise_cons.mp h
    unfold insertEdge
    split <;> rename_i hlt
    · rw [edgeLt_iff] at hlt
      exact List.pairwise_cons.mpr ⟨fun x hx => (List.mem_cons.mp hx).elim (fun hx => hx ▸ hlt)
        fun hx => Nat.lt_trans hlt (hhead x hx), h⟩
    · split <;> rename_i hne
      · exact h
      · refine List.pairwise_cons.mpr ⟨fun x hx => ?_, ih hrest⟩
        rcases mem_insertEdge.mp hx with rfl | hx
        · rw [edgeLt_iff] at hlt
          have hweight : weight x ≠ weight head := fun heq => hne (weight_injective heq)
          omega
        · exact hhead x hx

theorem increasing_ofModel (m : Model) : Increasing (ofModel m).edges := by
  have sorted (pairs : List (Token × Token)) : Increasing (pairs.foldr insertEdge []) := by
    induction pairs with
    | nil => exact List.Pairwise.nil
    | cons pair rest ih => exact increasing_insertEdge ih
  exact sorted _

/-- The lists of a table in token order are in token order. -/
theorem increasing_overridesOf {t : OverrideTable} (h : Increasing t.edges) (method : Token) :
    (t.overridesOf method).Pairwise fun a b => a.value < b.value := by
  refine List.pairwise_map.mpr ((List.Pairwise.and_mem.mp (h.filter _)).imp ?_)
  rintro a b ⟨ha, hb, hlt⟩
  have hsame : a.1 = b.1 := by
    rw [List.mem_filter, beq_iff_eq] at ha hb
    exact ha.2.trans hb.2.symm
  rw [weight, weight, hsame] at hlt
  exact UInt32.lt_iff_toNat_lt.mpr (Nat.lt_of_add_lt_add_left hlt)

theorem increasing_basesOf {t : OverrideTable} (h : Increasing t.edges) (method : Token) :
    (t.basesOf method).Pairwise fun a b => a.value < b.value := by
  refine List.pairwise_map.mpr ((List.Pairwise.and_mem.mp (h.filter _)).imp ?_)
  rintro a b ⟨ha, hb, hlt⟩
  have hsame : a.2 = b.2 := by
    rw [List.mem_filter, beq_iff_eq] at ha hb
    exact ha.2.trans hb.2.symm
  rw [weight, weight, hsame] at hlt
  exact UInt32.lt_iff_toNat_lt.mpr
    (Nat.lt_of_mul_lt_mul_right (Nat.lt_of_add_lt_add_right hlt))

/-! ## Scans -/

/-- Pairs in token order, each of them once. -/
def arrange (pairs : List (Token × Token)) : List (Token × Token) :=
  (pairs.mergeSort fun a b => !edgeLt b a).destutter (· ≠ ·)

/-- The table after a scan of types: what they contribute is sorted, repetitions are dropped, and
what is left is inserted. -/
def ofScan (m : Model) (types : List TypeDef) : OverrideTable :=
  empty.insertAll (arrange ((types.filter (!·.isInterface)).flatMap m.overridePairs))

theorem mem_destutter' {first x : Token × Token} :
    x ∈ edges.destutter' (· ≠ ·) first ↔ x = first ∨ x ∈ edges := by
  induction edges generalizing first with
  | nil => simp
  | cons head rest ih =>
    rw [List.destutter'_cons, List.mem_cons]
    split <;> rename_i hne
    · rw [List.mem_cons, ih]
    · rw [ih, not_not.mp hne, or_self_left]

/-- What is sorted increases strictly once its repetitions are dropped. -/
theorem increasing_destutter' {first : Token × Token}
    (h : (first :: edges).Pairwise fun a b => weight a ≤ weight b) :
    Increasing (edges.destutter' (· ≠ ·) first) := by
  induction edges generalizing first with
  | nil => exact List.pairwise_singleton _ _
  | cons head rest ih =>
    obtain ⟨hfirst, hrest⟩ := List.pairwise_cons.mp h
    obtain ⟨hle, hfirst⟩ := List.forall_mem_cons.mp hfirst
    rw [List.destutter'_cons]
    split <;> rename_i hne
    · refine List.pairwise_cons.mpr ⟨fun x hx => ?_, ih hrest⟩
      have hlt : weight first < weight head :=
        Nat.lt_of_le_of_ne hle fun heq => hne (weight_injective heq)
      rcases mem_destutter'.mp hx with rfl | hx
      · exact hlt
      · exact Nat.lt_of_lt_of_le hlt ((List.pairwise_cons.mp hrest).1 x hx)
    · exact ih (List.pairwise_cons.mpr ⟨hfirst, (List.pairwise_cons.mp hrest).2⟩)

theorem mem_arrange : edge ∈ arrange pairs ↔ edge ∈ pairs := by
  have hperm := List.mergeSort_perm pairs fun a b => !edgeLt b a
  rw [← hperm.mem_iff, arrange]
  cases pairs.mergeSort fun a b => !edgeLt b a with
  | nil => rfl
  | cons first rest => rw [List.destutter_cons', mem_destutter', List.mem_cons]

theorem increasing_arrange : Increasing (arrange pairs) := by
  have hle : ∀ a b : Token × Token, (!edgeLt b a) = true ↔ weight a ≤ weight b := fun a b => by
    rw [Bool.not_eq_true', ← Bool.not_eq_true, edgeLt_iff, Nat.not_lt]
  have hsorted : (pairs.mergeSort fun a b => !edgeLt b a).Pairwise
      fun a b => weight a ≤ weight b := by
    refine (List.pairwise_mergeSort (fun a b c hab hbc => ?_) (fun a b => ?_) pairs).imp
      fun {a b} h => (hle a b).mp h
    · exact (hle a c).mpr (Nat.le_trans ((hle a b).mp hab) ((hle b c).mp hbc))
    · rw [Bool.or_eq_true, hle, hle]
      exact Nat.le_total _ _
  unfold arrange
  cases hm : pairs.mergeSort fun a b => !edgeLt b a with
  | nil => exact List.Pairwise.nil
  | cons first rest =>
    rw [List.destutter_cons']
    exact increasing_destutter' (hm ▸ hsorted)

/-- Pairs that are not repeated enter a table in their order, those of a method with itself left
out. -/
theorem edges_insertAll (h : (edges ++ pairs).Nodup) :
    (insertAll ⟨edges⟩ pairs).edges = edges ++ pairs.filter fun edge => edge.1 != edge.2 := by
  induction pairs generalizing edges with
  | nil => exact (List.append_nil edges).symm
  | cons pair rest ih =>
    have hstep : insertAll ⟨edges⟩ (pair :: rest) = (insert ⟨edges⟩ pair.1 pair.2).insertAll rest :=
      rfl
    have hnew : pair ∉ edges := fun he =>
      (List.nodup_append.mp h).2.2 pair he pair List.mem_cons_self rfl
    rw [hstep, insert]
    by_cases hp : pair.1 = pair.2
    · rw [if_pos (Or.inl hp), List.filter_cons_of_neg (by simp [hp])]
      exact ih (h.sublist ((List.sublist_cons_self pair rest).append_left edges))
    · rw [if_neg (not_or.mpr ⟨hp, hnew⟩), List.filter_cons_of_pos (by simp [hp]),
        ih (List.append_cons edges pair rest ▸ h), ← List.append_cons]

theorem edges_ofScan (m : Model) (types : List TypeDef) :
    (ofScan m types).edges =
      (arrange ((types.filter (!·.isInterface)).flatMap m.overridePairs)).filter
        fun edge => edge.1 != edge.2 :=
  @edges_insertAll [] _ increasing_arrange.nodup

/-- Whatever the order of the scan, the table is that of the model. -/
theorem ofScan_eq {m : Model} {types : List TypeDef} (h : types.Perm m.types.toList) :
    ofScan m types = ofModel m := by
  have hinc : Increasing (ofScan m types).edges :=
    edges_ofScan m types ▸ increasing_arrange.filter _
  have hmem (edge : Token × Token) : edge ∈ (ofScan m types).edges ↔ edge ∈ (ofModel m).edges := by
    rw [edges_ofScan, List.mem_filter, mem_arrange, mem_ofModel, bne_iff_ne, and_comm]
    simp only [List.mem_flatMap, List.mem_filter, h.mem_iff, Bool.not_eq_true', and_assoc]
  exact congrArg mk (hinc.eq_of_mem_iff (increasing_ofModel m) hmem)

/-! ## The relation -/

/-- Both sides of a table show one relation between two methods, each pair once. -/
structure TwoSided (t : OverrideTable) : Prop where
  mem_iff (base overrider : Token) : overrider ∈ t.overridesOf base ↔ base ∈ t.basesOf overrider
  nodup (method : Token) : (t.overridesOf method).Nodup ∧ (t.basesOf method).Nodup
  irrefl (method : Token) : method ∉ t.overridesOf method ∧ method ∉ t.basesOf method
  size : t.size = {edge : Token × Token | edge.2 ∈ t.overridesOf edge.1}.ncard
  isEmpty : t.isEmpty = true ↔ t.size = 0

theorem Sound.twoSided {t : OverrideTable} (h : t.Sound) : t.TwoSided where
  mem_iff _ _ := mem_overridesOf.trans mem_basesOf.symm
  nodup method := ⟨h.overridesOf_nodup method, h.basesOf_nodup method⟩
  irrefl method := ⟨h.not_mem_overridesOf method, h.not_mem_basesOf method⟩
  size := h.size_eq
  isEmpty := isEmpty_iff

/-- A table made by insertions is two-sided and relates what has been inserted, and maps that are
written by the same insertions show the same. The table of a model pairs methods with virtual
methods, lists them in token order, and is the same for every order of its types. -/
theorem two_sided :
    (∀ pairs : List (Token × Token), (empty.insertAll pairs).TwoSided ∧
      (∀ base overrider, overrider ∈ (empty.insertAll pairs).overridesOf base ↔
        base ≠ overrider ∧ (base, overrider) ∈ pairs) ∧
      (OverrideIndex.empty.insertAll pairs).Agrees (empty.insertAll pairs)) ∧
    ∀ m : Model,
      (∀ base, ∀ overrider ∈ (ofModel m).overridesOf base, m.HoldsVirtual overrider) ∧
      (∀ method, ((ofModel m).overridesOf method).Pairwise (fun a b => a.value < b.value) ∧
        ((ofModel m).basesOf method).Pairwise fun a b => a.value < b.value) ∧
      ∀ types : List TypeDef, types.Perm m.types.toList → ofScan m types = ofModel m := by
  refine ⟨fun pairs => ⟨(sound_empty.insertAll pairs).twoSided, fun base overrider => ?_,
    (OverrideIndex.mirrors_empty.insertAll pairs).agrees⟩, fun m => ⟨fun base overrider ho => ?_,
    fun method => ?_, fun types => ofScan_eq⟩⟩
  · rw [mem_overridesOf, mem_edges_insertAll]
    exact or_iff_right List.not_mem_nil
  · obtain ⟨-, type, -, -, hpair⟩ := mem_ofModel.mp (mem_overridesOf.mp ho)
    exact (Model.overridePairs_holds hpair).2
  · exact ⟨increasing_overridesOf (increasing_ofModel m) method,
      increasing_basesOf (increasing_ofModel m) method⟩

end OverrideTable

/-- An interface with a method, a class that implements it, and one derived from that class which
says again that it implements the interface. -/
def Climbers.model : Model :=
  let m := (Model.empty.addAssembly "App").2
  let m := (m.addType (TypeDraft.ofInterface ⟨0x20000001⟩ "App" "IClimber")).2
  let m := (m.addType { TypeDraft.ofClass ⟨0x20000001⟩ "App" "Climber" with
    interfaces := [.definition ⟨0x02000001⟩] }).2
  let m := (m.addType { TypeDraft.ofClass ⟨0x20000001⟩ "App" "Sherpa" with
    base := some (.definition ⟨0x02000002⟩), interfaces := [.definition ⟨0x02000001⟩] }).2
  let m := (m.addMethod (MethodDraft.ofName ⟨0x02000001⟩ "Climb").asAbstract.inNewSlot).2
  (m.addMethod (MethodDraft.ofName ⟨0x02000002⟩ "Climb").asVirtual.inNewSlot).2

/-- Both classes contribute the method of the first one. From the last type to the first, it is
listed once as well. -/
theorem OverrideTable.two_sided_climbers :
    (ofScan Climbers.model Climbers.model.types.toList.reverse).overridesOf ⟨0x06000001⟩ =
      [⟨0x06000002⟩] := by
  rw [(two_sided.2 Climbers.model).2.2 _ (List.reverse_perm _)]
  decide +kernel

end CilTrim
