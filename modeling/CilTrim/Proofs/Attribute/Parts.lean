import CilTrim.Attribute.Decoder
import CilTrim.Attribute.Encoder

/-!
# The parts of attribute values

A value is written part by part, each part as a kind: an object as the kind of its value, an
enumeration as the kind that it is stored as, and an array as its items. What can be said of the
encoding of a value is said of its parts:

* `Part`: a value, the kind that it is written as, and how much is around it;
* `valueParts`, `AttributeValue.parts`: the parts of a value, and of all values of an attribute;
* `AttributeValue.tags`: the kinds that are written in front of objects and of named arguments;
* `AttributeValue.nesting`: how deep parts and tags nest;
* `renamed`, `AttributeValue.renamed`: a value with the names that its parts are written with;
* `Argument.byWriting`: induction over the steps of writing a value.
-/

namespace CilTrim

namespace ArgKind

/-- How many arrays a kind has, one around the other. -/
def nesting : ArgKind → Nat
  | .array element => element.nesting + 1
  | _ => 0

/-- The kind of what is inside the values of a kind. -/
def inner : ArgKind → ArgKind
  | .enum _ underlying => underlying
  | .array element => element
  | k => k

/-- The enumeration that a kind names, if any, is known, and is stored as the kind says. -/
def isKnown (resolver : Attribute.EnumResolver) : ArgKind → Bool
  | .enum name underlying => resolver name == some underlying && underlying.isIntegral
  | .array element => element.isKnown resolver
  | _ => true

end ArgKind

namespace Argument

/-- A value without parts of its own. -/
def isLeaf : Argument → Bool
  | .array _ | .enum _ _ => false
  | _ => true

/-- No value is of the kind of objects: an object has the kind of its value. -/
theorem kind_ne_object (v : Argument) : v.kind ≠ .object := by
  cases v with
  | array items => cases items <;> exact nofun
  | _ => exact nofun

/-- A statement about values and the kinds that they are written as, by the steps of writing. -/
theorem byWriting {P : Argument → ArgKind → Prop} (object : ∀ v, P v v.kind → P v .object)
    (leaf : ∀ v k, v.isLeaf = true → k ≠ .object → P v k)
    (array : ∀ items k, k ≠ .object → (∀ item ∈ items, P item k.inner) → P (.array items) k)
    (enum : ∀ name v k, k ≠ .object → P v k.inner → P (.enum name v) k) (v : Argument)
    (k : ArgKind) : P v k := by
  have unbox {v : Argument} (own : ∀ k, k ≠ .object → P v k) (k : ArgKind) : P v k := by
    by_cases hk : k = .object
    · rw [hk]
      exact object v (own _ v.kind_ne_object)
    · exact own k hk
  match v with
  | .array items => exact unbox (fun k hk => array items k hk fun item _ =>
      byWriting object leaf array enum item k.inner) k
  | .enum name v => exact unbox (fun k hk => enum name v k hk
      (byWriting object leaf array enum v k.inner)) k
  | .bool _ | .char _ | .i1 _ | .u1 _ | .i2 _ | .u2 _ | .i4 _ | .u4 _ | .i8 _ | .u8 _ | .r4 _
  | .r8 _ | .string _ | .type _ => exact unbox (fun k hk => leaf _ k rfl hk) k

end Argument

namespace Attribute

/-- A kind that is written in front of a value. -/
structure Tag where
  /-- How many arrays, objects and enumerations are around it. -/
  depth : Nat
  kind : ArgKind

/-- How deep a tag nests, with the arrays of its kind. -/
def Tag.nesting (tag : Tag) : Nat := tag.depth + tag.kind.nesting

/-- A part of a value. -/
structure Part where
  /-- How many arrays, objects and enumerations are around the part. -/
  depth : Nat
  value : Argument
  /-- The kind that the part is written as. -/
  kind : ArgKind

namespace Part

/-- The value fits the kind, whatever the names of enumerations are. -/
def conforms (p : Part) : Bool :=
  match p.value, p.kind with
  | _, .object | .enum _ _, .enum _ _ | .array _, .array _ => true
  | v, k => v.isLeaf && v.kind == k

/-- An enumeration has the name of the kind that it is written as. -/
def agrees (p : Part) : Bool :=
  match p.value, p.kind with
  | .enum name _, .enum name' _ => name == name'
  | _, _ => true

/-- The kind that is written in front of an object. -/
def tag? (p : Part) : Option Tag :=
  match p.kind with
  | .object => some ⟨p.depth + 1, p.value.kind⟩
  | _ => none

end Part

/-- The kind that a value is written as behind its own kind, if it is written as an object. -/
def ownKind (v : Argument) : ArgKind → ArgKind
  | .object => v.kind
  | k => k

/-- An object, which is a part as well as its value is. -/
def boxParts (v : Argument) (depth : Nat) : ArgKind → List Part
  | .object => [⟨depth, v, .object⟩]
  | _ => []

mutual

/-- The parts of a value that is written as a kind. -/
def valueParts (v : Argument) (k : ArgKind) (depth : Nat) : List Part :=
  let box := boxParts v depth k
  let depth := depth + box.length
  let k := ownKind v k
  box ++ ⟨depth, v, k⟩ ::
    match v with
    | .enum _ v => valueParts v k.inner (depth + 1)
    | .array items => itemParts items k.inner (depth + 1)
    | _ => []

/-- The parts of the items of an array. -/
def itemParts (items : List Argument) (element : ArgKind) (depth : Nat) : List Part :=
  match items with
  | [] => []
  | item :: rest => valueParts item element depth ++ itemParts rest element depth

end

/-- The name that is read for an enumeration that is written as a kind. -/
def enumName (name : String) : ArgKind → String
  | .enum name' _ => name'
  | _ => name

mutual

/-- A value with each enumeration named as the kind that it is written as. -/
def renamed (v : Argument) (k : ArgKind) : Argument :=
  let k := ownKind v k
  match v with
  | .enum name v => .enum (enumName name k) (renamed v k.inner)
  | .array items => .array (itemsRenamed items k.inner)
  | v => v

/-- The items of an array with their enumerations named as the kind that they are written as. -/
def itemsRenamed (items : List Argument) (element : ArgKind) : List Argument :=
  match items with
  | [] => []
  | item :: rest => renamed item element :: itemsRenamed rest element

end

/-! ## From part to part -/

section

variable {v : Argument} {items : List Argument} {name : String} {k : ArgKind} {depth : Nat}

theorem ownKind_of_ne (hk : k ≠ .object) : ownKind v k = k := by
  cases k with
  | object => exact absurd rfl hk
  | _ => rfl

theorem boxParts_of_ne (hk : k ≠ .object) : boxParts v depth k = [] := by
  cases k with
  | object => exact absurd rfl hk
  | _ => rfl

theorem itemParts_eq :
    itemParts items k depth = items.flatMap fun item => valueParts item k depth := by
  induction items with
  | nil => rfl
  | cons item rest ih => simp only [itemParts, ih, List.flatMap_cons]

theorem valueParts_object :
    valueParts v .object depth = ⟨depth, v, .object⟩ :: valueParts v v.kind (depth + 1) := by
  cases v with
  | array items => cases items <;> rfl
  | _ => rfl

theorem valueParts_enum (hk : k ≠ .object) :
    valueParts (.enum name v) k depth =
      ⟨depth, .enum name v, k⟩ :: valueParts v k.inner (depth + 1) := by
  rw [valueParts, boxParts_of_ne hk, ownKind_of_ne hk]
  rfl

theorem valueParts_array (hk : k ≠ .object) :
    valueParts (.array items) k depth =
      ⟨depth, .array items, k⟩ ::
        items.flatMap fun item => valueParts item k.inner (depth + 1) := by
  rw [valueParts, boxParts_of_ne hk, ownKind_of_ne hk, ← itemParts_eq]
  rfl

theorem valueParts_leaf (hv : v.isLeaf = true) (hk : k ≠ .object) :
    valueParts v k depth = [⟨depth, v, k⟩] := by
  cases v with
  | array items | enum name v => cases hv
  | _ =>
    rw [valueParts, boxParts_of_ne hk, ownKind_of_ne hk]
    · rfl
    · exact nofun
    · exact nofun

theorem itemsRenamed_eq : itemsRenamed items k = items.map fun item => renamed item k := by
  induction items with
  | nil => rfl
  | cons item rest ih => simp only [itemsRenamed, ih, List.map_cons]

theorem renamed_object : renamed v .object = renamed v v.kind := by
  cases v with
  | array items => cases items <;> rfl
  | _ => rfl

theorem renamed_enum (hk : k ≠ .object) :
    renamed (.enum name v) k = .enum (enumName name k) (renamed v k.inner) := by
  rw [renamed, ownKind_of_ne hk]

theorem renamed_array (hk : k ≠ .object) :
    renamed (.array items) k = .array (items.map fun item => renamed item k.inner) := by
  rw [renamed, ownKind_of_ne hk, itemsRenamed_eq]

theorem renamed_leaf (hv : v.isLeaf = true) : renamed v k = v := by
  cases v with
  | array items | enum name v => cases hv
  | _ => rfl

theorem conforms_object : Part.conforms ⟨depth, v, .object⟩ = true := by
  cases v <;> rfl

theorem conforms_leaf (hv : v.isLeaf = true) (hk : k ≠ .object) :
    Part.conforms ⟨depth, v, k⟩ = true ↔ v.kind = k := by
  cases k with
  | object => exact absurd rfl hk
  | _ =>
    cases v with
    | array items | enum name v => cases hv
    | _ => exact beq_iff_eq

theorem conforms_enum (hk : k ≠ .object) :
    Part.conforms ⟨depth, .enum name v, k⟩ = true ↔
      ∃ name' underlying, k = .enum name' underlying := by
  cases k with
  | object => exact absurd rfl hk
  | enum name' underlying => exact iff_of_true rfl ⟨name', underlying, rfl⟩
  | _ => exact iff_of_false Bool.false_ne_true nofun

theorem conforms_array (hk : k ≠ .object) :
    Part.conforms ⟨depth, .array items, k⟩ = true ↔ ∃ element, k = .array element := by
  cases k with
  | object => exact absurd rfl hk
  | array element => exact iff_of_true rfl ⟨element, rfl⟩
  | _ => exact iff_of_false Bool.false_ne_true nofun

@[simp] theorem agrees_object : Part.agrees ⟨depth, v, .object⟩ = true := by
  cases v <;> rfl

theorem agrees_leaf (hv : v.isLeaf = true) : Part.agrees ⟨depth, v, k⟩ = true := by
  cases v with
  | enum name v => cases hv
  | _ => rfl

@[simp] theorem agrees_array : Part.agrees ⟨depth, .array items, k⟩ = true := rfl

theorem agrees_enum :
    Part.agrees ⟨depth, .enum name v, k⟩ = true ↔ enumName name k = name := by
  cases k with
  | enum name' underlying => exact beq_iff_eq.trans eq_comm
  | _ => exact ⟨fun _ => rfl, fun _ => rfl⟩

end

/-- A list stays as it is if each of its elements does, and only then. -/
theorem map_eq_self_iff {α : Type} {f : α → α} {xs : List α} :
    xs.map f = xs ↔ ∀ x ∈ xs, f x = x := by
  have h : xs.map f = xs.map id ↔ ∀ x ∈ xs, f x = id x := List.map_inj_left
  rwa [List.map_id] at h

/-- A value stays as it is if each of its enumerations has the name that it is written with, and
only then. -/
theorem renamed_eq_iff (v : Argument) (k : ArgKind) : ∀ depth : Nat,
    renamed v k = v ↔ ∀ p ∈ valueParts v k depth, p.agrees = true := by
  induction v, k using Argument.byWriting with
  | object v ih =>
    intro depth
    rw [renamed_object, valueParts_object, List.forall_mem_cons, ih (depth + 1)]
    exact (and_iff_right agrees_object).symm
  | leaf v k hv hk =>
    intro depth
    rw [renamed_leaf hv, valueParts_leaf hv hk, List.forall_mem_singleton]
    exact iff_of_true rfl (agrees_leaf hv)
  | array items k hk ih =>
    intro depth
    have hitems : (items.map fun item => renamed item k.inner) = items ↔
        ∀ item ∈ items, ∀ p ∈ valueParts item k.inner (depth + 1), p.agrees = true := by
      rw [map_eq_self_iff]
      exact forall₂_congr fun item hitem => ih item hitem (depth + 1)
    rw [renamed_array hk, valueParts_array hk, List.forall_mem_cons, Argument.array.injEq, hitems,
      List.forall_mem_flatMap]
    exact (and_iff_right agrees_array).symm
  | enum name v k hk ih =>
    intro depth
    rw [renamed_enum hk, valueParts_enum hk, List.forall_mem_cons, Argument.enum.injEq,
      ih (depth + 1), agrees_enum]

end Attribute

/-! ## Attributes -/

namespace AttributeValue

/-- The parts of all arguments, for parameters of the given kinds. -/
def parts (v : AttributeValue) (params : List ArgKind) : List Attribute.Part :=
  ((v.fixed.zip params).flatMap fun (argument, kind) => Attribute.valueParts argument kind 0) ++
    v.named.flatMap fun argument => Attribute.valueParts argument.value argument.kind 0

/-- The kinds that are written in front of values: those of named arguments, and of objects. -/
def tags (v : AttributeValue) (params : List ArgKind) : List Attribute.Tag :=
  (v.named.map fun argument => ⟨0, argument.kind⟩) ++
    (v.parts params).filterMap Attribute.Part.tag?

/-- How deep arrays, objects and enumerations nest, in values and in the kinds in front of them. -/
def nesting (v : AttributeValue) (params : List ArgKind) : Nat :=
  ((v.parts params).map Attribute.Part.depth ++
    (v.tags params).map Attribute.Tag.nesting).foldr max 0

/-- All arguments with their enumerations named as the kinds that they are written as. -/
def renamed (v : AttributeValue) (params : List ArgKind) : AttributeValue where
  fixed := List.zipWith Attribute.renamed v.fixed params
  named := v.named.map fun argument =>
    { argument with value := Attribute.renamed argument.value argument.kind }

variable {v : AttributeValue} {params : List ArgKind}

/-- The parts are those of the arguments for parameters, and those of named arguments. -/
theorem forall_parts_iff {P : Attribute.Part → Prop} :
    (∀ p ∈ v.parts params, P p) ↔
      (∀ pair ∈ v.fixed.zip params, ∀ p ∈ Attribute.valueParts pair.1 pair.2 0, P p) ∧
        ∀ argument ∈ v.named, ∀ p ∈ Attribute.valueParts argument.value argument.kind 0, P p := by
  rw [parts, List.forall_mem_append, List.forall_mem_flatMap, List.forall_mem_flatMap]

/-- The kinds in front of values are those of named arguments, and those of parts. -/
theorem forall_tags_iff {P : Attribute.Tag → Prop} :
    (∀ tag ∈ v.tags params, P tag) ↔
      (∀ argument ∈ v.named, P ⟨0, argument.kind⟩) ∧
        ∀ p ∈ v.parts params, ∀ tag, p.tag? = some tag → P tag := by
  rw [tags, List.forall_mem_append, List.forall_mem_map, List.forall_mem_filterMap]

/-- Nesting is bounded if each part and each tag nests so deep only. -/
theorem nesting_le_iff {limit : Nat} :
    v.nesting params ≤ limit ↔
      (∀ p ∈ v.parts params, p.depth ≤ limit) ∧
        ∀ tag ∈ v.tags params, tag.nesting ≤ limit := by
  have foldr_le (depths : List Nat) : depths.foldr max 0 ≤ limit ↔ ∀ n ∈ depths, n ≤ limit := by
    induction depths with
    | nil => simp
    | cons n rest ih => rw [List.foldr_cons, Nat.max_le, ih, List.forall_mem_cons]
  rw [nesting, foldr_le, List.forall_mem_append, List.forall_mem_map, List.forall_mem_map]

/-- Arguments stay as they are if each enumeration has the name that it is written with, and only
then. -/
theorem renamed_eq_iff (h : v.fixed.length = params.length) :
    v.renamed params = v ↔ ∀ p ∈ v.parts params, p.agrees = true := by
  have fixed (arguments : List Argument) (kinds : List ArgKind)
      (hlength : arguments.length = kinds.length) :
      List.zipWith Attribute.renamed arguments kinds = arguments ↔
        ∀ pair ∈ arguments.zip kinds, ∀ p ∈ Attribute.valueParts pair.1 pair.2 0,
          p.agrees = true := by
    induction arguments generalizing kinds with
    | nil => simp
    | cons argument rest ih =>
      cases kinds with
      | nil => cases hlength
      | cons kind kinds =>
        rw [List.zipWith_cons_cons, List.cons.injEq, List.zip_cons_cons, List.forall_mem_cons,
          ih kinds (Nat.succ.inj hlength), Attribute.renamed_eq_iff argument kind 0]
  have named : (v.named.map fun argument =>
        { argument with value := Attribute.renamed argument.value argument.kind }) = v.named ↔
      ∀ argument ∈ v.named, ∀ p ∈ Attribute.valueParts argument.value argument.kind 0,
        p.agrees = true := by
    rw [Attribute.map_eq_self_iff]
    refine forall₂_congr fun argument _ => ?_
    rw [← Attribute.renamed_eq_iff argument.value argument.kind 0]
    exact ⟨fun h => congrArg NamedArgument.value h, fun h => by rw [h]⟩
  rw [forall_parts_iff, ← fixed v.fixed params h, ← named]
  exact ⟨fun heq => ⟨congrArg AttributeValue.fixed heq, congrArg AttributeValue.named heq⟩,
    fun ⟨hfixed, hnamed⟩ => by rw [renamed, hfixed, hnamed]⟩

end AttributeValue

end CilTrim
