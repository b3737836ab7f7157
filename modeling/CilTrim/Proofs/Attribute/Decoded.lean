import CilTrim.Proofs.Attribute.Written
import CilTrim.Proofs.Blob.Bounds

/-!
# What the decoder makes of bytes

Whatever bytes an attribute value is read from, it is one for the given parameters, and its texts,
its characters and its arrays are such that they can be written. A value that is read as an object
had a kind in front of it, which the value itself need not have:

* `Decoded`: the values that are read as a kind;
* `yields_kindAt`, `yields_valueAt`: what is read is one of them;
* `decoded_of_decode`: the same for all arguments of an attribute.
-/

namespace CilTrim.Attribute

open Blob Decode

variable {resolver : EnumResolver} {k : ArgKind} {v : Argument}

/-- A kind that can stand in front of a value: it is known, and it can be written. -/
def IsTag (resolver : EnumResolver) (k : ArgKind) : Prop :=
  k.isKnown resolver = true ∧ ∃ bytes, kindBytes k = .ok bytes

/-- The values that are read as a kind. The kind in front of an object is not part of its value. -/
inductive Decoded (resolver : EnumResolver) : ArgKind → Argument → Prop where
  | leaf {k : ArgKind} {v : Argument} (isLeaf : v.isLeaf = true) (kind : v.kind = k)
    (written : ∃ bytes, leafBytes v k = .ok bytes) : Decoded resolver k v
  | object {k : ArgKind} {v : Argument} (tag : IsTag resolver k) (value : Decoded resolver k v) :
    Decoded resolver .object v
  | enum {name : String} {underlying : ArgKind} {v : Argument}
    (value : Decoded resolver underlying v) :
    Decoded resolver (.enum name underlying) (.enum name v)
  | array {element : ArgKind} {items : List Argument} (length : items.length < 0x80000000)
    (all : ∀ item ∈ items, Decoded resolver element item) :
    Decoded resolver (.array element) (.array items)

/-- A result of decoding by a plain read is one of the read. -/
theorem eq_ok_of_read {α : Type} {m : Read α} {r r' : Reader} {a : α} (h : read m r = .ok a r') :
    m r = .ok a r' := by
  unfold Decode.read at h
  cases hm : m r with
  | ok b r₁ =>
    rw [hm] at h
    cases h
    rfl
  | error fault r₁ =>
    rw [hm] at h
    cases h

theorem yields_read {α : Type} {m : Read α} {P : α → Prop} (h : Yields m P) :
    Yields (read m) P :=
  fun r a r' ha => h r a r' (eq_ok_of_read ha)

/-- A step that is repeated yields as many results as it is repeated, each of them one of its
own. -/
theorem yields_times {α : Type} {step : Decode α} {P : α → Prop} (h : Yields step P) (n : Nat) :
    Yields (times step n) fun as => as.length = n ∧ ∀ a ∈ as, P a := by
  induction n with
  | zero => exact yields_pure ⟨rfl, List.forall_mem_nil P⟩
  | succ n ih =>
    refine h.bind fun a ha => ih.bind fun as has => yields_pure ?_
    exact ⟨congrArg Nat.succ has.1, List.forall_mem_cons.mpr ⟨ha, has.2⟩⟩

/-! ## Kinds -/

theorem isTag_simple (h : k ∈ ArgKind.simple) : IsTag resolver k := by
  refine ⟨?_, [k.tag], kindBytes_simple h⟩
  cases k with
  | enum name underlying | array element => simp [ArgKind.simple] at h
  | _ => rfl

theorem isTag_array : IsTag resolver (.array k) ↔ IsTag resolver k := by
  have hwritten :
      (∃ bytes, kindBytes (.array k) = .ok bytes) ↔ ∃ bytes, kindBytes k = .ok bytes := by
    simp only [kindBytes_array]
    exact ⟨fun ⟨_, own, hown, _⟩ => ⟨own, hown⟩, fun ⟨own, hown⟩ => ⟨_, own, hown, rfl⟩⟩
  exact and_congr Iff.rfl hwritten

theorem isTag_enum {name : String} {underlying : ArgKind} :
    IsTag resolver (.enum name underlying) ↔
      (resolver name = some underlying ∧ underlying.isIntegral = true) ∧
        ∃ bytes, serStringBytes? (some name) = .ok bytes := by
  have hwritten : (∃ bytes, kindBytes (.enum name underlying) = .ok bytes) ↔
      ∃ bytes, serStringBytes? (some name) = .ok bytes := by
    simp only [kindBytes_enum]
    exact ⟨fun ⟨_, text, htext, _⟩ => ⟨text, htext⟩, fun ⟨text, htext⟩ => ⟨_, text, htext, rfl⟩⟩
  have hknown : ArgKind.isKnown resolver (.enum name underlying) = true ↔
      resolver name = some underlying ∧ underlying.isIntegral = true := by
    simp [ArgKind.isKnown]
  exact and_congr hknown hwritten

theorem yields_enumUnderlying (name : String) :
    Yields (enumUnderlying resolver name) fun underlying =>
      resolver name = some underlying ∧ underlying.isIntegral = true := by
  unfold enumUnderlying
  cases hname : resolver name with
  | none => exact yields_throw _
  | some kind =>
    dsimp only
    split <;> rename_i hintegral
    · exact yields_pure ⟨rfl, hintegral⟩
    · exact yields_throw _

/-- Every kind that is read can stand in front of a value. -/
theorem yields_kindAt (levels : Nat) : Yields (kindAt resolver levels) (IsTag resolver) := by
  induction levels with
  | zero => exact yields_throw _
  | succ levels ih =>
    refine (yields_any _).bind fun tag _ => ?_
    cases hsimple : ArgKind.ofTag? tag with
    | some kind => exact yields_pure (isTag_simple (List.mem_of_find?_eq_some hsimple))
    | none =>
      dsimp only
      split
      · exact ih.bind fun element helement => yields_pure (isTag_array.mpr helement)
      · split
        · refine (yields_read yields_serString).bind fun name hname => ?_
          cases name with
          | none => exact yields_throw _
          | some name =>
            refine (yields_enumUnderlying name).bind fun underlying hunderlying => ?_
            exact yields_pure (isTag_enum.mpr ⟨hunderlying, hname⟩)
        · exact yields_throw _

/-! ## Values -/

theorem exists_textBytes_iff {s : Option String} :
    (∃ bytes, textBytes s = .ok bytes) ↔ ∃ bytes, serStringBytes? s = .ok bytes := by
  simp only [textBytes_eq_ok_iff]

/-- No text is read as the empty one, which can be written. -/
theorem exists_serStringBytes?_getD {s : Option String}
    (h : ∃ bytes, serStringBytes? s = .ok bytes) :
    ∃ bytes, serStringBytes? (some (s.getD "")) = .ok bytes := by
  cases s with
  | none => exact ⟨[0], rfl⟩
  | some s => exact h

theorem charOfUnit_lt {unit : Nat} (h : unit < Nat.pow 256 2) :
    (charOfUnit unit).toNat < UInt16.size := by
  unfold charOfUnit
  split <;> rename_i hvalid
  · have hunit : (Char.ofNat unit).toNat = unit := by
      rw [Char.ofNat, dif_pos hvalid]
      rfl
    rw [hunit]
    exact h
  · decide

/-- The length of an array is a positive number of 32 bits with a sign. -/
theorem toNat_toInt32_lt (n : UInt32) : n.toInt32.toInt.toNat < 0x80000000 := by
  have h : n.toInt32.toInt < 2 ^ 31 := Int32.toInt_lt _
  omega

theorem yields_word_leaf (width : Nat) {f : Nat → Argument} {k : ArgKind}
    (h : ∀ n, n < Nat.pow 256 width →
      (f n).isLeaf = true ∧ (f n).kind = k ∧ ∃ bytes, leafBytes (f n) k = .ok bytes) :
    Yields (do pure (f (← read (Read.word width)))) (Decoded resolver k) := by
  refine (yields_read (yields_word width)).bind fun n hn => yields_pure ?_
  obtain ⟨hleaf, hkind, hwritten⟩ := h n hn
  exact .leaf hleaf hkind hwritten

/-- Every value that is read as a kind is one of its values. -/
theorem yields_valueAt (levels : Nat) (k : ArgKind) :
    Yields (valueAt resolver levels k) (Decoded resolver k) := by
  induction levels generalizing k with
  | zero => exact yields_throw _
  | succ levels ih =>
    cases k with
    | boolean => exact yields_word_leaf 1 fun _ _ => ⟨rfl, rfl, _, rfl⟩
    | char =>
      refine yields_word_leaf 2 fun n hn => ⟨rfl, rfl, ?_⟩
      have hunit := charOfUnit_lt hn
      simp only [leafBytes, if_pos hunit]
      exact ⟨_, rfl⟩
    | string =>
      refine (yields_read yields_serString).bind fun s hs => yields_pure ?_
      exact .leaf rfl rfl (exists_textBytes_iff.mpr (exists_serStringBytes?_getD hs))
    | type =>
      refine (yields_read yields_serString).bind fun s hs => yields_pure (.leaf rfl rfl ?_)
      refine exists_textBytes_iff.mpr ?_
      split
      · exact ⟨_, rfl⟩
      · exact exists_serStringBytes?_getD hs
    | object =>
      refine (yields_kindAt levels).bind fun k hk => ?_
      exact (ih k).mono fun v hv => .object hk hv
    | enum name underlying => exact (ih underlying).bind fun v hv => yields_pure (.enum hv)
    | array element =>
      refine (yields_read (yields_word 4)).bind fun n hn => ?_
      dsimp only
      split
      · exact yields_pure (.array (by decide) (List.forall_mem_nil _))
      · split
        · exact yields_throw _
        · refine yields_get_bind fun r => ?_
          split
          · exact yields_throw _
          · refine (yields_times (ih element) _).bind fun items hitems => yields_pure ?_
            refine .array ?_ hitems.2
            rw [hitems.1]
            exact toNat_toInt32_lt _
    | i1 | u1 => exact yields_word_leaf 1 fun _ _ => ⟨rfl, rfl, _, rfl⟩
    | i2 | u2 => exact yields_word_leaf 2 fun _ _ => ⟨rfl, rfl, _, rfl⟩
    | i4 | u4 | r4 => exact yields_word_leaf 4 fun _ _ => ⟨rfl, rfl, _, rfl⟩
    | i8 | u8 | r8 => exact yields_word_leaf 8 fun _ _ => ⟨rfl, rfl, _, rfl⟩

/-! ## Attributes -/

/-- What is known of a named argument that was read. -/
structure DecodedNamed (resolver : EnumResolver) (argument : NamedArgument) : Prop where
  tag : IsTag resolver argument.kind
  name : ∃ bytes, serStringBytes? (some argument.name) = .ok bytes
  value : Decoded resolver argument.kind argument.value

/-- What is known of an attribute value that was read. -/
structure DecodedFor (resolver : EnumResolver) (params : List ArgKind) (value : AttributeValue) :
    Prop where
  length : value.fixed.length = params.length
  fixed : ∀ pair ∈ value.fixed.zip params, Decoded resolver pair.2 pair.1
  count : value.named.length < UInt16.size
  named : ∀ argument ∈ value.named, DecodedNamed resolver argument

theorem yields_fixedArguments (params : List ArgKind) :
    Yields (fixedArguments resolver params) fun arguments =>
      arguments.length = params.length ∧
        ∀ pair ∈ arguments.zip params, Decoded resolver pair.2 pair.1 := by
  induction params with
  | nil => exact yields_pure ⟨rfl, List.forall_mem_nil _⟩
  | cons kind kinds ih =>
    refine (yields_valueAt (maxDepth + 1) kind).bind fun argument hargument => ?_
    refine ih.bind fun arguments harguments => yields_pure ⟨?_, ?_⟩
    · exact congrArg Nat.succ harguments.1
    · rw [List.zip_cons_cons, List.forall_mem_cons]
      exact ⟨hargument, harguments.2⟩

theorem yields_namedArgument? :
    Yields (namedArgument? resolver) fun argument? =>
      ∀ argument, argument? = some argument → DecodedNamed resolver argument := by
  unfold namedArgument?
  refine yields_get_bind fun r => ?_
  split
  · exact yields_pure nofun
  · refine (yields_any _).bind fun member _ => ?_
    split
    · exact yields_pure nofun
    · dsimp only
      split
      · exact yields_throw_bind _
      · refine (yields_kindAt (maxDepth + 1)).bind fun kind hkind => ?_
        refine (yields_read yields_serString).bind fun name hname => ?_
        cases name with
        | none => exact yields_throw _
        | some name =>
          refine (yields_valueAt (maxDepth + 1) kind).bind fun value hvalue => yields_pure ?_
          intro argument hargument
          cases hargument
          exact ⟨hkind, hname, hvalue⟩

theorem yields_namedArguments (n : Nat) :
    Yields (namedArguments resolver n) fun arguments =>
      arguments.length ≤ n ∧ ∀ argument ∈ arguments, DecodedNamed resolver argument := by
  induction n with
  | zero => exact yields_pure ⟨Nat.le_refl 0, List.forall_mem_nil _⟩
  | succ n ih =>
    refine yields_namedArgument?.bind fun argument? hargument => ?_
    cases argument? with
    | none => exact yields_pure ⟨Nat.zero_le _, List.forall_mem_nil _⟩
    | some argument =>
      refine ih.bind fun arguments harguments => yields_pure ⟨?_, ?_⟩
      · exact Nat.succ_le_succ harguments.1
      · exact List.forall_mem_cons.mpr ⟨hargument argument rfl, harguments.2⟩

theorem yields_attributeValue (params : List ArgKind) :
    Yields (attributeValue resolver params) (DecodedFor resolver params) := by
  have few : 0 < UInt16.size := by decide
  unfold attributeValue
  refine yields_get_bind fun r => ?_
  dsimp only
  split
  · split <;> rename_i hempty
    · rw [List.isEmpty_iff] at hempty
      subst hempty
      exact yields_pure ⟨rfl, List.forall_mem_nil _, few, List.forall_mem_nil _⟩
    · exact yields_throw_bind _
  · refine (yields_any _).bind fun prolog _ => ?_
    split
    · exact yields_throw_bind _
    · refine (yields_fixedArguments params).bind fun fixed hfixed => yields_get_bind fun r => ?_
      split
      · exact yields_pure ⟨hfixed.1, hfixed.2, few, List.forall_mem_nil _⟩
      · refine (yields_read (yields_word 2)).bind fun count hcount => ?_
        refine (yields_namedArguments count).bind fun named hnamed => yields_pure ?_
        exact ⟨hfixed.1, hfixed.2, Nat.lt_of_le_of_lt hnamed.1 hcount, hnamed.2⟩

/-- Whatever bytes an attribute value is read from, it is one for the given parameters. -/
theorem decodedFor_of_decode {params : List ArgKind} {blob : List UInt8} {value : AttributeValue}
    (h : decode blob params resolver = .ok value) : DecodedFor resolver params value := by
  unfold decode at h
  split at h <;> rename_i hread
  · cases h
    exact yields_attributeValue params _ _ _ hread
  · cases h

end CilTrim.Attribute
