import CilTrim.Proofs.Attribute.Reading

/-!
# Attribute values through their encoding

What an attribute value is written as is read back: the arguments for the parameters of the
constructor, and the named arguments:

* `takes_fixedArguments`, `takes_namedArguments`: arguments one after another;
* `takes_attributeValue`: a whole attribute value, with its enumerations named as its kinds say;
* `decode_of_encode`: an attribute value that names its enumerations so is read back as it is.
-/

namespace CilTrim.Attribute

open Blob Decode

variable {resolver : EnumResolver} {bytes : List UInt8} {k : ArgKind} {v : Argument}

/-! ## Arguments -/

/-- An argument has nothing around it. -/
theorem takes_value (h : valueBytes v k = .ok bytes)
    (known : ∀ p ∈ valueParts v k 0, p.isKnown resolver = true) :
    Takes (value resolver k) bytes
      (if valueFits v k 0 (maxDepth + 1) then some (renamed v k) else none) :=
  readsBack_valueAt v k (Nat.zero_add _) known h

/-- The arguments for the parameters of a constructor are read back. -/
theorem takes_fixedArguments {arguments : List Argument} {kinds : List ArgKind}
    (hlength : arguments.length = kinds.length) (h : fixedBytes arguments kinds = .ok bytes)
    (known : ∀ pair ∈ arguments.zip kinds, ∀ p ∈ valueParts pair.1 pair.2 0,
      p.isKnown resolver = true) :
    Takes (fixedArguments resolver kinds) bytes
      (if ∀ pair ∈ arguments.zip kinds, valueFits pair.1 pair.2 0 (maxDepth + 1) = true
        then some (List.zipWith renamed arguments kinds) else none) := by
  induction arguments generalizing kinds bytes with
  | nil =>
    cases kinds with
    | nil =>
      cases h
      exact takes_pure []
    | cons kind kinds => cases hlength
  | cons argument arguments ih =>
    cases kinds with
    | nil => cases hlength
    | cons kind kinds =>
      obtain ⟨first, others, hfirst, hothers, rfl⟩ := fixedBytes_cons.mp h
      rw [List.zip_cons_cons, List.forall_mem_cons] at known
      have hargument := takes_value hfirst known.1
      have hrest := ih (Nat.succ.inj hlength) hothers known.2
      exact takes_cons List.forall_mem_cons hargument hrest

/-- A named argument is read as it is written if its kind and its value do not nest too deep. -/
def namedFits (argument : NamedArgument) : Bool :=
  argument.kind.nesting < maxDepth + 1 &&
    valueFits argument.value argument.kind 0 (maxDepth + 1)

/-- A named argument is read back. -/
theorem takes_namedArgument? {argument : NamedArgument} (h : namedBytes argument = .ok bytes)
    (knownKind : argument.kind.isKnown resolver = true)
    (known : ∀ p ∈ valueParts argument.value argument.kind 0, p.isKnown resolver = true) :
    Takes (namedArgument? resolver) bytes
      (if namedFits argument
        then some (some { argument with value := renamed argument.value argument.kind })
        else none) := by
  obtain ⟨kind, name, value, hkind, hname, hvalue, rfl⟩ := namedBytes_eq_ok_iff.mp h
  unfold namedArgument?
  refine Takes.get_bind fun r hroom => ?_
  have hmore : r.hasMore = true := by
    rw [Reader.hasMore_iff]
    simp only [List.length_append, List.length_singleton] at hroom
    omega
  have hmarker : (if argument.isField then 0x53 else 0x54 : UInt8) ≠ 0 := by
    split <;> decide
  have hmember : ¬ ((if argument.isField then 0x53 else 0x54 : UInt8) ≠ 0x53 ∧
      (if argument.isField then 0x53 else 0x54 : UInt8) ≠ 0x54) := by
    split <;> decide
  have hfield : ((if argument.isField then 0x53 else 0x54 : UInt8) == 0x53) = argument.isField := by
    cases argument.isField <;> rfl
  rw [hmore, if_neg (by decide)]
  refine (takes_read (takes_byte _)).bind ?_
  rw [if_neg hmarker]
  dsimp only
  rw [if_neg hmember, hfield]
  have hreadKind : Takes (kindAt resolver (maxDepth + 1)) kind
      (if argument.kind.nesting < maxDepth + 1 then some argument.kind else none) :=
    takes_kindAt hkind knownKind
  have hreadName : Takes (read Read.serString) name (some (some argument.name)) :=
    takes_read (takes_serString hname)
  have hreadValue : Takes (Attribute.value resolver argument.kind) value
      (if valueFits argument.value argument.kind 0 (maxDepth + 1)
        then some (renamed argument.value argument.kind) else none) := takes_value hvalue known
  refine takes_ite (fun hfits => ?_) fun hfits => ?_
  · obtain ⟨hnesting, hparts⟩ : argument.kind.nesting < maxDepth + 1 ∧
        valueFits argument.value argument.kind 0 (maxDepth + 1) = true := by
      simpa [namedFits] using hfits
    rw [if_pos hnesting] at hreadKind
    rw [if_pos hparts] at hreadValue
    refine hreadKind.bind (hreadName.bind ?_)
    exact hreadValue.map fun value => some
      ({ isField := argument.isField, name := argument.name, kind := argument.kind, value } :
        NamedArgument)
  · by_cases hnesting : argument.kind.nesting < maxDepth + 1
    · have hparts : ¬ valueFits argument.value argument.kind 0 (maxDepth + 1) = true := by
        intro h
        exact hfits (by simp [namedFits, hnesting, h])
      rw [if_pos hnesting] at hreadKind
      rw [if_neg hparts] at hreadValue
      exact hreadKind.bind (hreadName.bind hreadValue.bind_none)
    · rw [if_neg hnesting] at hreadKind
      exact hreadKind.bind_none.append_none

/-- As many named arguments as there are, are read back. -/
theorem takes_namedArguments {arguments : List NamedArgument}
    (h : allNamedBytes arguments = .ok bytes)
    (known : ∀ argument ∈ arguments, argument.kind.isKnown resolver = true ∧
      ∀ p ∈ valueParts argument.value argument.kind 0, p.isKnown resolver = true) :
    Takes (namedArguments resolver arguments.length) bytes
      (if ∀ argument ∈ arguments, namedFits argument = true
        then some (arguments.map fun argument =>
          { argument with value := renamed argument.value argument.kind })
        else none) := by
  induction arguments generalizing bytes with
  | nil =>
    cases h
    rw [if_pos (List.forall_mem_nil _)]
    exact takes_pure []
  | cons argument rest ih =>
    obtain ⟨first, others, hfirst, hothers, rfl⟩ := allNamedBytes_cons.mp h
    rw [List.forall_mem_cons] at known
    have hargument := takes_namedArgument? hfirst known.1.1 known.1.2
    have hrest := ih hothers known.2
    rw [List.length_cons, namedArguments]
    refine takes_ite (fun hfits => ?_) fun hfits => ?_
    · rw [List.forall_mem_cons] at hfits
      rw [if_pos hfits.1] at hargument
      rw [if_pos hfits.2] at hrest
      refine hargument.bind ?_
      exact hrest.map _
    · rw [List.forall_mem_cons] at hfits
      by_cases hfirstFits : namedFits argument = true
      · rw [if_pos hfirstFits] at hargument
        rw [if_neg fun hall => hfits ⟨hfirstFits, hall⟩] at hrest
        exact hargument.bind hrest.bind_none
      · rw [if_neg hfirstFits] at hargument
        exact hargument.bind_none.append_none

/-! ## Attribute values -/

section

variable {value : AttributeValue} {params : List ArgKind} {blob : List UInt8}

/-- The kinds in front of values are known if those of named arguments are, and those of parts. -/
theorem forall_tags_known_iff :
    (∀ tag ∈ value.tags params, tag.kind.isKnown resolver = true) ↔
      (∀ pair ∈ value.fixed.zip params, ∀ p ∈ valueParts pair.1 pair.2 0,
        p.isKnown resolver = true) ∧
      ∀ argument ∈ value.named, argument.kind.isKnown resolver = true ∧
        ∀ p ∈ valueParts argument.value argument.kind 0, p.isKnown resolver = true := by
  have hpart (p : Part) : (∀ tag, p.tag? = some tag → tag.kind.isKnown resolver = true) ↔
      p.isKnown resolver = true := by
    cases htag : p.tag? <;> simp [Part.isKnown, htag]
  rw [AttributeValue.forall_tags_iff, forall₂_congr fun p _ => hpart p,
    AttributeValue.forall_parts_iff, and_left_comm]
  simp only [imp_and, forall_and]

/-- An attribute value does not nest too deep if none of its arguments does. -/
theorem nesting_le_maxDepth_iff :
    value.nesting params ≤ maxDepth ↔
      (∀ pair ∈ value.fixed.zip params, valueFits pair.1 pair.2 0 (maxDepth + 1) = true) ∧
      ∀ argument ∈ value.named, namedFits argument = true := by
  have hpart (p : Part) :
      (p.depth ≤ maxDepth ∧ ∀ tag, p.tag? = some tag → tag.nesting ≤ maxDepth) ↔
        p.fits (maxDepth + 1) = true := by
    simp only [Part.fits, Bool.and_eq_true, decide_eq_true_eq, Option.all_eq_true, Nat.lt_succ_iff]
  have hvalue (v : Argument) (k : ArgKind) :
      valueFits v k 0 (maxDepth + 1) = true ↔
        ∀ p ∈ valueParts v k 0, p.fits (maxDepth + 1) = true := List.all_eq_true
  have hnamed (argument : NamedArgument) : namedFits argument = true ↔
      (Tag.mk 0 argument.kind).nesting ≤ maxDepth ∧
        ∀ p ∈ valueParts argument.value argument.kind 0, p.fits (maxDepth + 1) = true := by
    rw [namedFits, Bool.and_eq_true, decide_eq_true_eq, hvalue, Tag.nesting, Nat.zero_add,
      Nat.lt_succ_iff]
  have hparts : ((∀ p ∈ value.parts params, p.depth ≤ maxDepth) ∧
        ∀ p ∈ value.parts params, ∀ tag, p.tag? = some tag → tag.nesting ≤ maxDepth) ↔
      ∀ p ∈ value.parts params, p.fits (maxDepth + 1) = true := by
    simp only [← hpart, imp_and, forall_and]
  rw [AttributeValue.nesting_le_iff, AttributeValue.forall_tags_iff, and_left_comm, hparts,
    AttributeValue.forall_parts_iff, and_left_comm]
  simp only [hvalue, hnamed, imp_and, forall_and]

theorem takes_attributeValue (h : encode value params = .ok blob)
    (known : ∀ tag ∈ value.tags params, tag.kind.isKnown resolver = true) :
    Takes (attributeValue resolver params) blob
      (if value.nesting params ≤ maxDepth then some (value.renamed params) else none) := by
  obtain ⟨hlength, hcount, fixed, named, hfixed, hnamed, rfl⟩ := encode_eq_ok_iff.mp h
  rw [forall_tags_known_iff] at known
  have hreadFixed := takes_fixedArguments hlength hfixed known.1
  have hreadNamed := takes_namedArguments hnamed known.2
  unfold attributeValue
  refine Takes.get_bind fun r hroom => ?_
  have hmore : r.hasMore = true := by
    rw [Reader.hasMore_iff]
    simp only [List.length_append, length_littleEndian] at hroom
    omega
  have hprolog : Takes (read (Read.word 2)) (littleEndian 2 1) (some 1) :=
    takes_read (takes_word (by decide))
  have hreadCount : Takes (read (Read.word 2)) (littleEndian 2 value.named.length)
      (some value.named.length) := takes_read (takes_word hcount)
  rw [hmore, if_neg (by decide)]
  refine hprolog.bind ?_
  rw [if_neg (by decide)]
  refine takes_ite (fun hnesting => ?_) fun hnesting => ?_
  · rw [nesting_le_maxDepth_iff] at hnesting
    rw [if_pos hnesting.1] at hreadFixed
    rw [if_pos hnesting.2] at hreadNamed
    refine hreadFixed.bind (Takes.get_bind fun r' hroom' => ?_)
    have htwo : ¬ r'.remaining < 2 := by
      simp only [List.length_append, length_littleEndian] at hroom'
      omega
    rw [if_neg htwo]
    refine hreadCount.bind ?_
    exact hreadNamed.map fun named =>
      ({ fixed := List.zipWith renamed value.fixed params, named } : AttributeValue)
  · rw [nesting_le_maxDepth_iff] at hnesting
    by_cases hfits : ∀ pair ∈ value.fixed.zip params,
        valueFits pair.1 pair.2 0 (maxDepth + 1) = true
    · rw [if_pos hfits] at hreadFixed
      rw [if_neg fun hall => hnesting ⟨hfits, hall⟩] at hreadNamed
      refine hreadFixed.bind (Takes.get_bind fun r' hroom' => ?_)
      have htwo : ¬ r'.remaining < 2 := by
        simp only [List.length_append, length_littleEndian] at hroom'
        omega
      rw [if_neg htwo]
      exact hreadCount.bind hreadNamed.bind_none
    · rw [if_neg hfits] at hreadFixed
      exact hreadFixed.bind_none.append_none

/-- What is written is read with its enumerations named as its kinds say. -/
theorem decode_eq_renamed (h : encode value params = .ok blob)
    (known : ∀ tag ∈ value.tags params, tag.kind.isKnown resolver = true)
    (depth : value.nesting params ≤ maxDepth) :
    decode blob params resolver = .ok (value.renamed params) := by
  have hread := takes_attributeValue h known
  rw [if_pos depth] at hread
  have hblob := hread 0 []
  rw [List.append_nil] at hblob
  rw [decode, Reader.ofBytes, hblob]

/-- What nests too deep is written, and is not read. -/
theorem decode_ne_ok (h : encode value params = .ok blob)
    (known : ∀ tag ∈ value.tags params, tag.kind.isKnown resolver = true)
    (depth : ¬ value.nesting params ≤ maxDepth) (found : AttributeValue) :
    decode blob params resolver ≠ .ok found := by
  have hread := takes_attributeValue h known
  rw [if_neg depth] at hread
  obtain ⟨fault, r, hblob⟩ := hread 0 []
  rw [List.append_nil] at hblob
  rw [decode, Reader.ofBytes, hblob]
  exact nofun

/-- An attribute value that has an encoding is read back from it as it is, if its enumerations are
named as the kinds that they are written as, the enumerations that are named by the kinds in front
of values are known, and nothing nests too deep. -/
theorem decode_of_encode (h : encode value params = .ok blob)
    (names : ∀ p ∈ value.parts params, p.agrees = true)
    (known : ∀ tag ∈ value.tags params, tag.kind.isKnown resolver = true)
    (depth : value.nesting params ≤ maxDepth) :
    decode blob params resolver = .ok value := by
  have hlength : value.fixed.length = params.length := (encode_eq_ok_iff.mp h).1
  have hrenamed : value.renamed params = value :=
    (AttributeValue.renamed_eq_iff hlength).mpr names
  rw [decode_eq_renamed h known depth, hrenamed]

end

namespace Levels

/-- An enumeration that is stored as a byte. -/
def known : EnumResolver := fun name => if name = "App.Level" then some .u1 else none

/-- Objects of several kinds, one of them an array of levels, and a level by name. -/
def written : AttributeValue where
  fixed := [.array [.i4 (-2), .array [.enum "App.Level" (.u1 1), .enum "App.Level" (.u1 2)],
    .type "", .string "x"]]
  named := [⟨true, "Level", .enum "App.Level" .u1, .enum "App.Level" (.u1 3)⟩]

/-- The bytes of the attribute. -/
def encoded : List UInt8 :=
  [1, 0, 4, 0, 0, 0, 8, 254, 255, 255, 255, 29, 85, 9, 65, 112, 112, 46, 76, 101, 118, 101, 108, 2,
    0, 0, 0, 1, 2, 80, 255, 14, 1, 120, 1, 0, 83, 85, 9, 65, 112, 112, 46, 76, 101, 118, 101, 108,
    5, 76, 101, 118, 101, 108, 3]

end Levels

theorem decode_of_encode_levels :
    encode Levels.written [.array .object] = .ok Levels.encoded ∧
      (∀ p ∈ Levels.written.parts [.array .object], p.agrees = true) ∧
      (∀ tag ∈ Levels.written.tags [.array .object], tag.kind.isKnown Levels.known = true) ∧
      Levels.written.nesting [.array .object] ≤ maxDepth ∧
      decode Levels.encoded [.array .object] Levels.known = .ok Levels.written := by
  have h : encode Levels.written [.array .object] = .ok Levels.encoded := by rfl
  have names : ∀ p ∈ Levels.written.parts [.array .object], p.agrees = true := by decide
  have known : ∀ tag ∈ Levels.written.tags [.array .object],
      tag.kind.isKnown Levels.known = true := by decide
  have depth : Levels.written.nesting [.array .object] ≤ maxDepth := by decide
  exact ⟨h, names, known, depth, decode_of_encode h names known depth⟩

end CilTrim.Attribute
