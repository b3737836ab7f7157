import CilTrim.Proofs.Attribute.Written

/-!
# Reading kinds and values

The bytes of a kind or of a value are read to their end, and give back what was written, with
enumerations named as the kinds say. Only what nests too deep is not read:

* `valueFits`: the parts of a value and the kinds in front of them are within a limit;
* `takes_kindAt`: kinds are read back, with so many levels left;
* `ReadsBack`, `readsBack_valueAt`: values are read back, from one lemma for each form of value.
-/

namespace CilTrim.Attribute

open Blob Decode

variable {resolver : EnumResolver} {bytes : List UInt8} {k : ArgKind} {v : Argument}
  {items : List Argument} {name : String} {depth levels limit : Nat}

/-- The part and the kind that is written in front of it nest less deep than the limit. -/
def Part.fits (limit : Nat) (p : Part) : Bool :=
  p.depth < limit && p.tag?.all fun tag => tag.nesting < limit

/-- The enumeration that is named by the kind in front of a part, if any, is known. -/
def Part.isKnown (resolver : EnumResolver) (p : Part) : Bool :=
  p.tag?.all fun tag => tag.kind.isKnown resolver

theorem takes_read {α : Type} {r : Read α} {result : Option α} (h : Takes r bytes result) :
    Takes (read r) bytes result := by
  cases result with
  | none =>
    intro position rest
    obtain ⟨fault, r', hr⟩ := h position rest
    refine ⟨.blob fault, r', ?_⟩
    simp only [Decode.read, hr]
  | some a =>
    intro position rest
    simp only [Decode.read, h position rest]

/-- A read that needs a condition to hold. -/
theorem takes_ite {α : Type} {m : Decode α} {a : α} {P : Prop} [Decidable P]
    (pos : P → Takes m bytes (some a)) (neg : ¬ P → Takes m bytes none) :
    Takes m bytes (if P then some a else none) := by
  by_cases h : P
  · rw [if_pos h]
    exact pos h
  · rw [if_neg h]
    exact neg h

/-- A result in front of those of the reads that follow. -/
theorem takes_cons {α : Type} {m : Decode α} {loop : Decode (List α)} {bytes' : List UInt8} {a : α}
    {as : List α} {P Q R : Prop} [Decidable P] [Decidable Q] [Decidable R] (hR : R ↔ P ∧ Q)
    (first : Takes m bytes (if P then some a else none))
    (others : Takes loop bytes' (if Q then some as else none)) :
    Takes (do
      let a ← m
      pure (a :: (← loop))) (bytes ++ bytes') (if R then some (a :: as) else none) := by
  refine takes_ite (fun h => ?_) fun h => ?_
  · obtain ⟨hP, hQ⟩ := hR.mp h
    rw [if_pos hP] at first
    rw [if_pos hQ] at others
    exact first.bind (others.map (a :: ·))
  · by_cases hP : P
    · rw [if_pos hP] at first
      rw [if_neg fun hQ => h (hR.mpr ⟨hP, hQ⟩)] at others
      exact first.bind others.bind_none
    · rw [if_neg hP] at first
      exact first.bind_none.append_none

/-! ## Kinds -/

theorem ofTag?_tag (h : k ∈ ArgKind.simple) : ArgKind.ofTag? k.tag = some k := by
  revert k
  decide

theorem takes_kindAt_simple (h : k ∈ ArgKind.simple) :
    Takes (kindAt resolver (levels + 1)) [k.tag] (some k) := by
  refine (takes_read (takes_byte k.tag)).bind_last ?_
  rw [ofTag?_tag h]
  exact takes_pure k

/-- A kind is read back if its arrays nest less deep than the levels that are left, and only
then. -/
theorem takes_kindAt (h : kindBytes k = .ok bytes) (known : k.isKnown resolver = true) :
    Takes (kindAt resolver levels) bytes (if k.nesting < levels then some k else none) := by
  induction k generalizing bytes levels with
  | array element ih =>
    cases levels with
    | zero => exact takes_throw _
    | succ levels =>
      obtain ⟨own, hown, rfl⟩ := kindBytes_array.mp h
      have htag : ArgKind.ofTag? 0x1d = none := rfl
      have hinner : Takes (kindAt resolver levels) own
          (if element.nesting < levels then some element else none) := ih hown known
      refine (takes_read (takes_byte 0x1d)).bind ?_
      rw [htag]
      dsimp only
      rw [if_pos rfl]
      refine takes_ite (fun hlevels => ?_) fun hlevels => ?_
      · rw [if_pos (Nat.lt_of_succ_lt_succ hlevels)] at hinner
        exact hinner.map ArgKind.array
      · rw [if_neg fun hlt => hlevels (Nat.succ_lt_succ hlt)] at hinner
        exact hinner.bind_none
  | enum name underlying ih =>
    cases levels with
    | zero => exact takes_throw _
    | succ levels =>
      obtain ⟨text, htext, rfl⟩ := kindBytes_enum.mp h
      have htag : ArgKind.ofTag? 0x55 = none := rfl
      obtain ⟨hresolver, hintegral⟩ : resolver name = some underlying ∧
          underlying.isIntegral = true := by simpa [ArgKind.isKnown] using known
      have hunderlying : enumUnderlying resolver name = pure underlying := by
        simp [enumUnderlying, hresolver, hintegral]
      have hlevels : (ArgKind.enum name underlying).nesting < levels + 1 := Nat.zero_lt_succ levels
      rw [if_pos hlevels]
      refine (takes_read (takes_byte 0x55)).bind ?_
      rw [htag]
      dsimp only
      rw [if_neg (by decide), if_pos rfl]
      refine (takes_read (takes_serString htext)).bind_last ?_
      dsimp only
      rw [hunderlying, pure_bind]
      exact takes_pure (ArgKind.enum name underlying)
  | _ =>
    cases levels with
    | zero => exact takes_throw _
    | succ levels =>
      cases h
      exact takes_kindAt_simple (by decide)

/-! ## Values without parts -/

theorem takes_word_map {width n : Nat} (g : Nat → Argument) (hn : n < Nat.pow 256 width) :
    Takes (do pure (g (← read (Read.word width)))) (littleEndian width n) (some (g n)) :=
  (takes_read (takes_word hn)).map g

/-- A value without parts is read back. -/
theorem takes_leaf (hv : v.isLeaf = true) (h : leafBytes v k = .ok bytes) :
    Takes (valueAt resolver (levels + 1) k) bytes (some v) := by
  have hkind := kind_of_leafBytes hv h
  subst hkind
  cases v with
  | array items | enum name v => cases hv
  | bool b =>
    cases h
    have hn : (if b then 1 else 0) < Nat.pow 256 1 := by cases b <;> decide
    have hread := takes_word_map (fun w => .bool (w != 0)) hn
    have hb : ((if b then 1 else 0) != 0) = b := by cases b <;> rfl
    rwa [hb] at hread
  | char c =>
    simp only [leafBytes, Argument.kind] at h
    split at h <;> cases h
    rename_i hc
    have hn : c.toNat < Nat.pow 256 2 := hc
    have hread := takes_word_map (fun w => .char (charOfUnit w)) hn
    have hvalid : c.toNat.isValidChar := c.valid
    have hunit : charOfUnit c.toNat = c := by
      rw [charOfUnit, if_pos hvalid, Char.ofNat_toNat]
    rwa [hunit] at hread
  | i1 n =>
    cases h
    have hn : n.toUInt8.toNat < Nat.pow 256 1 := n.toUInt8.toNat_lt
    have hread := takes_word_map (fun w => .i1 (UInt8.ofNat w).toInt8) hn
    rwa [UInt8.ofNat_toNat] at hread
  | u1 n =>
    cases h
    have hn : n.toNat < Nat.pow 256 1 := n.toNat_lt
    have hread := takes_word_map (fun w => .u1 (UInt8.ofNat w)) hn
    rwa [UInt8.ofNat_toNat] at hread
  | i2 n =>
    cases h
    have hn : n.toUInt16.toNat < Nat.pow 256 2 := n.toUInt16.toNat_lt
    have hread := takes_word_map (fun w => .i2 (UInt16.ofNat w).toInt16) hn
    rwa [UInt16.ofNat_toNat] at hread
  | u2 n =>
    cases h
    have hn : n.toNat < Nat.pow 256 2 := n.toNat_lt
    have hread := takes_word_map (fun w => .u2 (UInt16.ofNat w)) hn
    rwa [UInt16.ofNat_toNat] at hread
  | i4 n =>
    cases h
    have hn : n.toUInt32.toNat < Nat.pow 256 4 := n.toUInt32.toNat_lt
    have hread := takes_word_map (fun w => .i4 (UInt32.ofNat w).toInt32) hn
    rwa [UInt32.ofNat_toNat] at hread
  | u4 n =>
    cases h
    have hn : n.toNat < Nat.pow 256 4 := n.toNat_lt
    have hread := takes_word_map (fun w => .u4 (UInt32.ofNat w)) hn
    rwa [UInt32.ofNat_toNat] at hread
  | i8 n =>
    cases h
    have hn : n.toUInt64.toNat < Nat.pow 256 8 := n.toUInt64.toNat_lt
    have hread := takes_word_map (fun w => .i8 (UInt64.ofNat w).toInt64) hn
    rwa [UInt64.ofNat_toNat] at hread
  | u8 n =>
    cases h
    have hn : n.toNat < Nat.pow 256 8 := n.toNat_lt
    have hread := takes_word_map (fun w => .u8 (UInt64.ofNat w)) hn
    rwa [UInt64.ofNat_toNat] at hread
  | r4 bits =>
    cases h
    have hn : bits.toNat < Nat.pow 256 4 := bits.toNat_lt
    have hread := takes_word_map (fun w => .r4 (UInt32.ofNat w)) hn
    rwa [UInt32.ofNat_toNat] at hread
  | r8 bits =>
    cases h
    have hn : bits.toNat < Nat.pow 256 8 := bits.toNat_lt
    have hread := takes_word_map (fun w => .r8 (UInt64.ofNat w)) hn
    rwa [UInt64.ofNat_toNat] at hread
  | string s =>
    have htext := textBytes_eq_ok_iff.mp h
    exact (takes_read (takes_serString htext)).map fun text => Argument.string (text.getD "")
  | type name =>
    have htext := textBytes_eq_ok_iff.mp h
    have hname : (if name.isEmpty then none else some name).getD "" = name := by
      split <;> rename_i hempty
      · exact (String.isEmpty_iff.mp hempty).symm
      · rfl
    have hread := (takes_read (takes_serString htext)).map fun text => Argument.type (text.getD "")
    rwa [hname] at hread

/-! ## Values -/

/-- All parts of a value and the kinds in front of them nest less deep than the limit. -/
def valueFits (v : Argument) (k : ArgKind) (depth limit : Nat) : Bool :=
  (valueParts v k depth).all (Part.fits limit)

theorem fits_of_ne (hk : k ≠ .object) :
    Part.fits limit ⟨depth, v, k⟩ = true ↔ depth < limit := by
  cases k with
  | object => exact absurd rfl hk
  | _ => simp [Part.fits, Part.tag?]

theorem valueFits_object :
    valueFits v .object depth limit = true ↔
      (depth < limit ∧ depth + 1 + v.kind.nesting < limit) ∧
        valueFits v v.kind (depth + 1) limit = true := by
  simp only [valueFits, valueParts_object, List.all_cons, Part.fits, Part.tag?, Option.all_some,
    Bool.and_eq_true, decide_eq_true_eq]
  rfl

theorem valueFits_enum (hk : k ≠ .object) :
    valueFits (.enum name v) k depth limit = true ↔
      depth < limit ∧ valueFits v k.inner (depth + 1) limit = true := by
  rw [valueFits, valueParts_enum hk, List.all_cons, Bool.and_eq_true, fits_of_ne hk]
  rfl

theorem valueFits_array (hk : k ≠ .object) :
    valueFits (.array items) k depth limit = true ↔
      depth < limit ∧ ∀ item ∈ items, valueFits item k.inner (depth + 1) limit = true := by
  rw [valueFits, valueParts_array hk, List.all_cons, Bool.and_eq_true, fits_of_ne hk,
    List.all_flatMap, List.all_eq_true]
  rfl

theorem valueFits_leaf (hv : v.isLeaf = true) (hk : k ≠ .object) :
    valueFits v k depth limit = true ↔ depth < limit := by
  rw [valueFits, valueParts_leaf hv hk, List.all_cons, Bool.and_eq_true, fits_of_ne hk]
  exact and_iff_left rfl

/-- A value is a part of itself. -/
theorem lt_of_valueFits (h : valueFits v k depth limit = true) : depth < limit := by
  induction v, k using Argument.byWriting with
  | object v => exact (valueFits_object.mp h).1.1
  | leaf v k hv hk => exact (valueFits_leaf hv hk).mp h
  | array items k hk => exact ((valueFits_array hk).mp h).1
  | enum name v k hk => exact ((valueFits_enum hk).mp h).1

/-- A value of a kind is read back at a depth, with so many levels left, if it fits, and otherwise
it is not read. -/
def ReadsBack (resolver : EnumResolver) (v : Argument) (k : ArgKind) (depth levels limit : Nat) :
    Prop :=
  ∀ {bytes : List UInt8}, valueBytes v k = .ok bytes → Takes (valueAt resolver levels k) bytes
    (if valueFits v k depth limit then some (renamed v k) else none)

/-- Where no level is left, nothing is read. -/
theorem readsBack_zero : ReadsBack resolver v k depth 0 depth := by
  intro bytes _
  rw [if_neg fun h => Nat.lt_irrefl depth (lt_of_valueFits h)]
  exact takes_throw _

/-- A value in a box is read back behind its kind. -/
theorem readsBack_object (known : v.kind.isKnown resolver = true)
    (hlimit : depth + (levels + 1) = limit)
    (own : ReadsBack resolver v v.kind (depth + 1) levels limit) :
    ReadsBack resolver v .object depth (levels + 1) limit := by
  intro bytes h
  obtain ⟨front, body, hfront, hbody, rfl⟩ := valueBytes_object.mp h
  have hkind : Takes (kindAt resolver levels) front
      (if v.kind.nesting < levels then some v.kind else none) := takes_kindAt hfront known
  have hvalue := own hbody
  refine takes_ite (fun hfits => ?_) fun hfits => ?_
  · obtain ⟨⟨-, hroom⟩, hown⟩ := valueFits_object.mp hfits
    rw [if_pos (by omega)] at hkind
    rw [if_pos hown] at hvalue
    rw [renamed_object]
    exact hkind.bind hvalue
  · rw [valueFits_object] at hfits
    by_cases hroom : v.kind.nesting < levels
    · rw [if_pos hroom] at hkind
      rw [if_neg fun hown => hfits ⟨by omega, hown⟩] at hvalue
      exact hkind.bind hvalue
    · rw [if_neg hroom] at hkind
      exact hkind.bind_none.append_none

theorem readsBack_leaf (hv : v.isLeaf = true) (hk : k ≠ .object)
    (hlimit : depth + (levels + 1) = limit) : ReadsBack resolver v k depth (levels + 1) limit := by
  intro bytes h
  rw [valueBytes_leaf hv hk] at h
  rw [if_pos ((valueFits_leaf hv hk).mpr (by omega)), renamed_leaf hv]
  exact takes_leaf hv h

/-- The items of an array are read back if each of them is. -/
theorem takes_items
    (own : ∀ item ∈ items, ReadsBack resolver item k depth levels limit)
    (h : itemBytes items k = .ok bytes) :
    Takes (times (valueAt resolver levels k) items.length) bytes
      (if ∀ item ∈ items, valueFits item k depth limit = true
        then some (items.map fun item => renamed item k) else none) := by
  induction items generalizing bytes with
  | nil =>
    cases h
    rw [if_pos (List.forall_mem_nil _)]
    exact takes_pure []
  | cons item rest ih =>
    obtain ⟨first, others, hfirst, hothers, rfl⟩ := itemBytes_cons.mp h
    have hitem := own item List.mem_cons_self hfirst
    have hrest := ih (fun x hx => own x (List.mem_cons_of_mem _ hx)) hothers
    exact takes_cons List.forall_mem_cons hitem hrest

/-- The length of an array is read back as it is, and not as a negative number. -/
theorem toInt_ofNat_length {n : Nat} (h : n < 0x80000000) :
    (UInt32.ofNat n).toInt32.toInt = n := by
  have hbits : (BitVec.ofNat 32 n).toNat = n := by
    rw [BitVec.toNat_ofNat]
    omega
  show (BitVec.ofNat 32 n).toInt = n
  rw [BitVec.toInt_eq_toNat_of_lt (by omega), hbits]

/-- An array is read back behind its length. -/
theorem readsBack_array (hk : k ≠ .object) (hlimit : depth + (levels + 1) = limit)
    (own : ∀ item ∈ items, ReadsBack resolver item k.inner (depth + 1) levels limit) :
    ReadsBack resolver (.array items) k depth (levels + 1) limit := by
  intro bytes h
  obtain ⟨element, body, rfl, hlength, hbody, rfl⟩ := (valueBytes_array hk).mp h
  have hitems := takes_items own hbody
  have hn : items.length < Nat.pow 256 4 := Nat.lt_trans hlength (by decide)
  refine (takes_read (takes_word hn)).bind ?_
  dsimp only
  rw [toInt_ofNat_length hlength, if_neg (by omega), if_neg (by omega), Int.toNat_natCast]
  refine Takes.get_bind fun r hroom => ?_
  -- An item has at least one byte, so there is room for as many as the length says.
  have hlong : ¬ r.remaining < items.length :=
    Nat.not_lt.mpr (Nat.le_trans (length_le_itemBytes items element hbody) hroom)
  rw [if_neg hlong]
  refine takes_ite (fun hfits => ?_) fun hfits => ?_
  · rw [if_pos ((valueFits_array hk).mp hfits).2] at hitems
    rw [renamed_array hk]
    exact hitems.map Argument.array
  · rw [if_neg fun hall => hfits ((valueFits_array hk).mpr ⟨by omega, hall⟩)] at hitems
    exact hitems.bind_none

/-- An enumeration is read back as the underlying value is. -/
theorem readsBack_enum (hk : k ≠ .object) (hlimit : depth + (levels + 1) = limit)
    (own : ReadsBack resolver v k.inner (depth + 1) levels limit) :
    ReadsBack resolver (.enum name v) k depth (levels + 1) limit := by
  intro bytes h
  obtain ⟨name', underlying, rfl, hv⟩ := (valueBytes_enum hk).mp h
  have hvalue := own hv
  refine takes_ite (fun hfits => ?_) fun hfits => ?_
  · rw [if_pos ((valueFits_enum hk).mp hfits).2] at hvalue
    rw [renamed_enum hk]
    exact hvalue.map (Argument.enum name')
  · rw [if_neg fun hown => hfits ((valueFits_enum hk).mpr ⟨by omega, hown⟩)] at hvalue
    exact hvalue.bind_none

/-- A value is read back, with its enumerations named as the kind says, if its parts and the kinds
in front of them nest less deep than the levels that are left, and only then. -/
theorem readsBack_valueAt (v : Argument) (k : ArgKind) :
    ∀ {depth levels : Nat}, depth + levels = limit →
      (∀ p ∈ valueParts v k depth, p.isKnown resolver = true) →
      ReadsBack resolver v k depth levels limit := by
  induction v, k using Argument.byWriting with
  | object v ih =>
    intro depth levels hlimit known
    rw [valueParts_object, List.forall_mem_cons] at known
    cases levels with
    | zero => exact hlimit ▸ readsBack_zero
    | succ levels => exact readsBack_object known.1 hlimit (ih (by omega) known.2)
  | leaf v k hv hk =>
    intro depth levels hlimit _
    cases levels with
    | zero => exact hlimit ▸ readsBack_zero
    | succ levels => exact readsBack_leaf hv hk hlimit
  | array items k hk ih =>
    intro depth levels hlimit known
    rw [valueParts_array hk, List.forall_mem_cons, List.forall_mem_flatMap] at known
    cases levels with
    | zero => exact hlimit ▸ readsBack_zero
    | succ levels =>
      exact readsBack_array hk hlimit fun item hitem =>
        ih item hitem (by omega) (known.2 item hitem)
  | enum name v k hk ih =>
    intro depth levels hlimit known
    rw [valueParts_enum hk, List.forall_mem_cons] at known
    cases levels with
    | zero => exact hlimit ▸ readsBack_zero
    | succ levels => exact readsBack_enum hk hlimit (ih (by omega) known.2)

end CilTrim.Attribute
