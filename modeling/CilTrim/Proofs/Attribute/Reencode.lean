import CilTrim.Proofs.Attribute.Decoded
import CilTrim.Proofs.Attribute.RoundTrip

/-!
# Writing again what was read

An attribute value that was read from some bytes can be written again, and is then read as it was,
as far as the kinds of its objects can be told from their values: an array in an object has the kind
of its first item, whatever kind stood in front of it:

* `Writable`: a value that has an encoding, whose kinds in front of objects are known;
* `writable_of_tag`, `writable_of_decoded`: a value that was read is writable if its parts fit;
* `encode_of_decode`: what becomes of an attribute value that was read.
-/

namespace CilTrim.Attribute

open Blob Decode

variable {resolver : EnumResolver} {k : ArgKind} {v : Argument} {items : List Argument}
  {name : String} {depth : Nat}

/-- A value has an encoding, and the kinds that are written in front of its objects are known. -/
def Writable (resolver : EnumResolver) (v : Argument) (k : ArgKind) (depth : Nat) : Prop :=
  (∃ bytes, valueBytes v k = .ok bytes) ∧ ∀ p ∈ valueParts v k depth, p.isKnown resolver = true

theorem isKnown_of_ne (hk : k ≠ .object) : Part.isKnown resolver ⟨depth, v, k⟩ = true := by
  cases k with
  | object => exact absurd rfl hk
  | _ => rfl

theorem writable_object (tag : IsTag resolver v.kind)
    (own : Writable resolver v v.kind (depth + 1)) : Writable resolver v .object depth := by
  obtain ⟨known, front, hfront⟩ := tag
  obtain ⟨⟨bytes, hbytes⟩, parts⟩ := own
  refine ⟨⟨_, valueBytes_object.mpr ⟨front, bytes, hfront, hbytes, rfl⟩⟩, ?_⟩
  rw [valueParts_object, List.forall_mem_cons]
  exact ⟨known, parts⟩

theorem writable_leaf (hv : v.isLeaf = true) (hk : k ≠ .object)
    (written : ∃ bytes, leafBytes v k = .ok bytes) : Writable resolver v k depth := by
  rw [Writable, valueBytes_leaf hv hk, valueParts_leaf hv hk, List.forall_mem_singleton]
  exact ⟨written, isKnown_of_ne hk⟩

theorem writable_enum {name' : String} {underlying : ArgKind}
    (own : Writable resolver v underlying (depth + 1)) :
    Writable resolver (.enum name v) (.enum name' underlying) depth := by
  have hk : ArgKind.enum name' underlying ≠ .object := nofun
  obtain ⟨⟨bytes, hbytes⟩, parts⟩ := own
  refine ⟨⟨bytes, (valueBytes_enum hk).mpr ⟨name', underlying, rfl, hbytes⟩⟩, ?_⟩
  rw [valueParts_enum hk, List.forall_mem_cons]
  exact ⟨isKnown_of_ne hk, parts⟩

theorem writable_array {element : ArgKind} (length : items.length < 0x80000000)
    (all : ∀ item ∈ items, Writable resolver item element (depth + 1)) :
    Writable resolver (.array items) (.array element) depth := by
  have hk : ArgKind.array element ≠ .object := nofun
  obtain ⟨body, hbody⟩ := exists_itemBytes_iff.mpr fun item hitem => (all item hitem).1
  refine ⟨⟨_, (valueBytes_array hk).mpr ⟨element, body, rfl, length, hbody, rfl⟩⟩, ?_⟩
  rw [valueParts_array hk, List.forall_mem_cons, List.forall_mem_flatMap]
  exact ⟨isKnown_of_ne hk, fun item hitem => (all item hitem).2⟩

/-! ## Objects -/

/-- An integral kind stands for itself. -/
theorem mem_simple_of_isIntegral (h : k.isIntegral = true) : k ∈ ArgKind.simple := by
  cases k with
  | enum name underlying | array element => cases h
  | string | type | object | r4 | r8 => cases h
  | _ => decide

theorem Decoded.kind_of_isIntegral (h : Decoded resolver k v) (hk : k.isIntegral = true) :
    v.kind = k := by
  cases h with
  | leaf _ kind => exact kind
  | object | enum | array => cases hk

/-- The kind of a value that was read behind a kind can stand in front of the value as well. -/
theorem Decoded.isTag_kind (h : Decoded resolver k v) (tag : IsTag resolver k) :
    IsTag resolver v.kind := by
  induction h with
  | leaf _ kind => rwa [kind]
  | object own _ ih => exact ih own
  | @enum name underlying v value ih =>
    have hkind : v.kind = underlying := value.kind_of_isIntegral (isTag_enum.mp tag).1.2
    rwa [Argument.kind, hkind]
  | @array element items _ _ ih =>
    cases items with
    | nil => exact isTag_array.mpr (isTag_simple (by decide))
    | cons item rest => exact isTag_array.mpr (ih item List.mem_cons_self (isTag_array.mp tag))

/-- A value whose own kind can stand in front of it is writable as an object if it is writable as
its own kind. -/
theorem writable_unbox (tag : IsTag resolver v.kind)
    (own : ∀ (k : ArgKind) (depth : Nat), k ≠ .object →
      (∀ p ∈ valueParts v k depth, p.conforms = true) → Writable resolver v k depth)
    (k : ArgKind) (depth : Nat) (conforms : ∀ p ∈ valueParts v k depth, p.conforms = true) :
    Writable resolver v k depth := by
  by_cases hk : k = .object
  · subst hk
    rw [valueParts_object, List.forall_mem_cons] at conforms
    exact writable_object tag (own v.kind (depth + 1) v.kind_ne_object conforms.2)
  · exact own k depth hk conforms

/-- A value that was read behind a kind is writable as any kind that its parts fit. -/
theorem writable_of_tag (h : Decoded resolver k v) (tag : IsTag resolver k) :
    ∀ (k' : ArgKind) (depth : Nat), (∀ p ∈ valueParts v k' depth, p.conforms = true) →
      Writable resolver v k' depth := by
  induction h with
  | @leaf k v isLeaf kind written =>
    refine writable_unbox (by rwa [kind]) fun k' depth hk conforms => ?_
    rw [valueParts_leaf isLeaf hk, List.forall_mem_singleton, conforms_leaf isLeaf hk] at conforms
    rw [← conforms, kind]
    exact writable_leaf isLeaf (by rw [← kind]; exact v.kind_ne_object) written
  | object own _ ih => exact ih own
  | @enum name underlying v value ih =>
    have hintegral : underlying.isIntegral = true := (isTag_enum.mp tag).1.2
    refine writable_unbox ((Decoded.enum value).isTag_kind tag) fun k' depth hk conforms => ?_
    rw [valueParts_enum hk, List.forall_mem_cons, conforms_enum hk] at conforms
    obtain ⟨⟨name', underlying', rfl⟩, parts⟩ := conforms
    exact writable_enum
      (ih (isTag_simple (mem_simple_of_isIntegral hintegral)) underlying' (depth + 1) parts)
  | @array element items length all ih =>
    refine writable_unbox ((Decoded.array length all).isTag_kind tag) fun k' depth hk conforms => ?_
    rw [valueParts_array hk, List.forall_mem_cons, List.forall_mem_flatMap, conforms_array hk]
      at conforms
    obtain ⟨⟨element', rfl⟩, parts⟩ := conforms
    exact writable_array length fun item hitem =>
      ih item hitem (isTag_array.mp tag) element' (depth + 1) (parts item hitem)

/-- A value that was read as a kind is writable as that kind if its parts fit. -/
theorem writable_of_decoded (h : Decoded resolver k v) :
    ∀ depth : Nat, (∀ p ∈ valueParts v k depth, p.conforms = true) →
      Writable resolver v k depth := by
  induction h with
  | @leaf k v isLeaf kind written =>
    intro depth conforms
    exact writable_leaf isLeaf (by rw [← kind]; exact v.kind_ne_object) written
  | object tag value _ => exact writable_of_tag value tag .object
  | @enum name underlying v value ih =>
    intro depth conforms
    have hk : ArgKind.enum name underlying ≠ .object := nofun
    rw [valueParts_enum hk, List.forall_mem_cons] at conforms
    exact writable_enum (ih (depth + 1) conforms.2)
  | @array element items length all ih =>
    intro depth conforms
    have hk : ArgKind.array element ≠ .object := nofun
    rw [valueParts_array hk, List.forall_mem_cons, List.forall_mem_flatMap] at conforms
    exact writable_array length fun item hitem => ih item hitem (depth + 1) (conforms.2 item hitem)

/-! ## Attributes -/

section

variable {value : AttributeValue} {params : List ArgKind} {blob : List UInt8}

/-- Whatever has an encoding fits the kinds that it is written as. -/
theorem conforms_of_encode (h : encode value params = .ok blob) :
    ∀ p ∈ value.parts params, p.conforms = true := by
  obtain ⟨_, _, fixed, named, hfixed, hnamed, _⟩ := encode_eq_ok_iff.mp h
  rw [AttributeValue.forall_parts_iff]
  refine ⟨fun pair hpair => ?_, fun argument hargument => ?_⟩
  · obtain ⟨bytes, hbytes⟩ := exists_fixedBytes_iff.mp ⟨fixed, hfixed⟩ pair hpair
    exact conforms_of_valueBytes pair.1 pair.2 0 hbytes
  · obtain ⟨bytes, hbytes⟩ := exists_allNamedBytes_iff.mp ⟨named, hnamed⟩ argument hargument
    obtain ⟨_, _, own, hown⟩ := exists_namedBytes_iff.mp ⟨bytes, hbytes⟩
    exact conforms_of_valueBytes argument.value argument.kind 0 hown

/-- The arguments of an attribute value that was read are writable if its parts fit. -/
theorem writable_of_conforms (h : DecodedFor resolver params value)
    (conforms : ∀ p ∈ value.parts params, p.conforms = true) :
    (∀ pair ∈ value.fixed.zip params, Writable resolver pair.1 pair.2 0) ∧
      ∀ argument ∈ value.named, Writable resolver argument.value argument.kind 0 := by
  rw [AttributeValue.forall_parts_iff] at conforms
  exact ⟨fun pair hpair => writable_of_decoded (h.fixed pair hpair) 0 (conforms.1 pair hpair),
    fun argument hargument =>
      writable_of_decoded (h.named argument hargument).value 0 (conforms.2 argument hargument)⟩

/-- An attribute value that was read has an encoding if its parts fit the kinds that they are
written as. -/
theorem exists_encode (h : DecodedFor resolver params value)
    (conforms : ∀ p ∈ value.parts params, p.conforms = true) :
    ∃ blob, encode value params = .ok blob := by
  obtain ⟨fixedWritable, namedWritable⟩ := writable_of_conforms h conforms
  obtain ⟨fixed, hfixed⟩ := exists_fixedBytes_iff.mpr fun pair hpair => (fixedWritable pair hpair).1
  have hargument (argument : NamedArgument) (hargument : argument ∈ value.named) :
      ∃ bytes, namedBytes argument = .ok bytes :=
    exists_namedBytes_iff.mpr ⟨(h.named argument hargument).tag.2,
      (h.named argument hargument).name, (namedWritable argument hargument).1⟩
  obtain ⟨named, hnamed⟩ := exists_allNamedBytes_iff.mpr hargument
  exact ⟨_, encode_eq_ok_iff.mpr ⟨h.length, h.count, fixed, named, hfixed, hnamed, rfl⟩⟩

/-- The kinds that are written in front of the values of an attribute value that was read are
known. -/
theorem known_of_conforms (h : DecodedFor resolver params value)
    (conforms : ∀ p ∈ value.parts params, p.conforms = true) :
    ∀ tag ∈ value.tags params, tag.kind.isKnown resolver = true := by
  obtain ⟨fixedWritable, namedWritable⟩ := writable_of_conforms h conforms
  rw [forall_tags_known_iff]
  exact ⟨fun pair hpair => (fixedWritable pair hpair).2,
    fun argument hargument =>
      ⟨(h.named argument hargument).tag.1, (namedWritable argument hargument).2⟩⟩

/-- What becomes of an attribute value that was read from some bytes. It can be written again
exactly if each part fits the kind that it is then written as: items of an array in an object are
written as the kind of the first of them. It is read again as it was exactly if, in addition, its
enumerations are named as these kinds, and these kinds do not nest too deep. -/
theorem encode_of_decode (h : decode blob params resolver = .ok value) :
    ((∃ blob', encode value params = .ok blob') ↔
      ∀ p ∈ value.parts params, p.conforms = true) ∧
    ∀ blob', encode value params = .ok blob' →
      (decode blob' params resolver = .ok value ↔
        (∀ p ∈ value.parts params, p.agrees = true) ∧ value.nesting params ≤ maxDepth) := by
  have hdecoded : DecodedFor resolver params value := decodedFor_of_decode h
  refine ⟨⟨fun ⟨blob', h'⟩ => conforms_of_encode h', exists_encode hdecoded⟩, fun blob' h' => ?_⟩
  have known : ∀ tag ∈ value.tags params, tag.kind.isKnown resolver = true :=
    known_of_conforms hdecoded (conforms_of_encode h')
  constructor
  · intro hagain
    have depth : value.nesting params ≤ maxDepth :=
      Decidable.byContradiction fun deep => decode_ne_ok h' known deep value hagain
    rw [decode_eq_renamed h' known depth, Except.ok.injEq] at hagain
    exact ⟨(AttributeValue.renamed_eq_iff hdecoded.length).mp hagain, depth⟩
  · rintro ⟨names, depth⟩
    rw [decode_eq_renamed h' known depth,
      (AttributeValue.renamed_eq_iff hdecoded.length).mpr names]

end

theorem encode_of_decode_levels :
    decode Levels.encoded [.array .object] Levels.known = .ok Levels.written ∧
      (∃ blob', encode Levels.written [.array .object] = .ok blob') ∧
      ∀ blob', encode Levels.written [.array .object] = .ok blob' →
        decode blob' [.array .object] Levels.known = .ok Levels.written := by
  have h : decode Levels.encoded [.array .object] Levels.known = .ok Levels.written := by rfl
  have conforms : ∀ p ∈ Levels.written.parts [.array .object], p.conforms = true := by decide
  have names : ∀ p ∈ Levels.written.parts [.array .object], p.agrees = true := by decide
  have depth : Levels.written.nesting [.array .object] ≤ maxDepth := by decide
  obtain ⟨written, again⟩ := encode_of_decode h
  exact ⟨h, written.mpr conforms, fun blob' h' => (again blob' h').mpr ⟨names, depth⟩⟩

namespace Mixed

/-- Every enumeration is stored as a byte. -/
def bytes : EnumResolver := fun _ => some .u1

/-- Objects of two kinds, in an object. -/
def objects : AttributeValue := ⟨[.array [.i4 1, .bool true]], []⟩

/-- A blob that the objects are read from. -/
def objectsBlob : List UInt8 := [1, 0, 0x1d, 0x51, 2, 0, 0, 0, 0x08, 1, 0, 0, 0, 0x02, 1, 0, 0]

/-- Objects of two enumerations that are stored alike, in an object. -/
def levels : AttributeValue := ⟨[.array [.enum "A" (.u1 1), .enum "B" (.u1 2)]], []⟩

/-- A blob that the enumerations are read from. -/
def levelsBlob : List UInt8 :=
  [1, 0, 0x1d, 0x51, 2, 0, 0, 0, 0x55, 1, 0x41, 1, 0x55, 1, 0x42, 2, 0, 0]

/-- What the enumerations are written as: an array of the first one. -/
def levelsWritten : List UInt8 := [1, 0, 0x1d, 0x55, 1, 0x41, 2, 0, 0, 0, 1, 2, 0, 0]

end Mixed

/-- Not all that is read can be written again, and not all that is written again is what was
read. -/
theorem encode_of_decode_mixed :
    (decode Mixed.objectsBlob [.object] Mixed.bytes = .ok Mixed.objects ∧
      ¬ ∃ blob', encode Mixed.objects [.object] = .ok blob') ∧
    decode Mixed.levelsBlob [.object] Mixed.bytes = .ok Mixed.levels ∧
      ∃ blob', encode Mixed.levels [.object] = .ok blob' ∧
        decode blob' [.object] Mixed.bytes ≠ .ok Mixed.levels := by
  have hobjects : decode Mixed.objectsBlob [.object] Mixed.bytes = .ok Mixed.objects := by rfl
  have hlevels : decode Mixed.levelsBlob [.object] Mixed.bytes = .ok Mixed.levels := by rfl
  refine ⟨⟨hobjects, ?_⟩, hlevels, ?_⟩
  · rintro ⟨blob', h⟩
    cases h
  · have hencode : encode Mixed.levels [.object] = .ok Mixed.levelsWritten := by rfl
    have hdecode : decode Mixed.levelsWritten [.object] Mixed.bytes =
        .ok ⟨[.array [.enum "A" (.u1 1), .enum "A" (.u1 2)]], []⟩ := by rfl
    refine ⟨_, hencode, fun h => ?_⟩
    rw [hdecode] at h
    simp [Mixed.levels] at h

end CilTrim.Attribute
