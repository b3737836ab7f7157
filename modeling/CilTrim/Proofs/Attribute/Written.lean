import CilTrim.Proofs.Attribute.Parts
import CilTrim.Proofs.Blob.Stream
import CilTrim.Proofs.Except

/-!
# What the encoder writes

The bytes of a kind, of a value and of an attribute value, taken apart into the bytes of what they
are made of. Whatever has an encoding is written as kinds that it fits, and in at least one byte:

* `kindBytes_enum`, `kindBytes_array`: the bytes of kinds;
* `valueBytes_object`, `valueBytes_enum`, `valueBytes_array`, `kind_of_leafBytes`: those of values;
* `valueBytes_pos`: no value is written in no bytes;
* `conforms_of_valueBytes`: only what fits its kind is written.
-/

namespace CilTrim.Attribute

variable {bytes : List UInt8} {k : ArgKind} {v : Argument} {items : List Argument}
  {name : String}

/-- Two encodings, one behind the other, exist if each of them does. -/
theorem exists_append_iff {x y : Encoded} :
    (∃ bytes first others, x = .ok first ∧ y = .ok others ∧ first ++ others = bytes) ↔
      (∃ first, x = .ok first) ∧ ∃ others, y = .ok others := by
  constructor
  · rintro ⟨_, first, others, hfirst, hothers, _⟩
    exact ⟨⟨first, hfirst⟩, others, hothers⟩
  · rintro ⟨⟨first, hfirst⟩, others, hothers⟩
    exact ⟨_, first, others, hfirst, hothers, rfl⟩

theorem textBytes_eq_ok_iff {s : Option String} :
    textBytes s = .ok bytes ↔ Blob.serStringBytes? s = .ok bytes := by
  unfold textBytes
  cases Blob.serStringBytes? s with
  | ok text =>
    show Except.ok text = .ok bytes ↔ _
    simp only [Except.ok.injEq]
  | error fault => exact ⟨nofun, nofun⟩

/-! ## Kinds -/

theorem kindBytes_enum {underlying : ArgKind} :
    kindBytes (.enum name underlying) = .ok bytes ↔
      ∃ text, Blob.serStringBytes? (some name) = .ok text ∧ 0x55 :: text = bytes := by
  simp only [kindBytes, bind_eq_ok_iff, textBytes_eq_ok_iff, pure, Except.pure, Except.ok.injEq,
    ArgKind.tag]

theorem kindBytes_array :
    kindBytes (.array k) = .ok bytes ↔
      ∃ element, kindBytes k = .ok element ∧ 0x1d :: element = bytes := by
  simp only [kindBytes, bind_eq_ok_iff, pure, Except.pure, Except.ok.injEq, ArgKind.tag]

theorem kindBytes_simple (h : k ∈ ArgKind.simple) : kindBytes k = .ok [k.tag] := by
  cases k with
  | enum name underlying | array element => simp [ArgKind.simple] at h
  | _ => rfl

/-! ## Values -/

theorem boxedBytes_of_ne {own : ArgKind → Encoded} (hk : k ≠ .object) :
    boxedBytes own v k = own k := by
  cases k with
  | object => exact absurd rfl hk
  | _ => rfl

theorem valueBytes_object :
    valueBytes v .object = .ok bytes ↔
      ∃ front own, kindBytes v.kind = .ok front ∧ valueBytes v v.kind = .ok own ∧
        front ++ own = bytes := by
  rw [valueBytes, valueBytes, boxedBytes_of_ne v.kind_ne_object]
  simp only [boxedBytes, bind_eq_ok_iff, pure, Except.pure, Except.ok.injEq,
    exists_and_left]

theorem valueBytes_enum (hk : k ≠ .object) :
    valueBytes (.enum name v) k = .ok bytes ↔
      ∃ name' underlying, k = .enum name' underlying ∧ valueBytes v underlying = .ok bytes := by
  rw [valueBytes, boxedBytes_of_ne hk]
  cases k with
  | enum name' underlying =>
    constructor
    · exact fun h => ⟨name', underlying, rfl, h⟩
    · rintro ⟨_, _, ⟨rfl, rfl⟩, h⟩
      exact h
  | _ => simp [ownBytes, throw, throwThe, MonadExceptOf.throw]

theorem valueBytes_array (hk : k ≠ .object) :
    valueBytes (.array items) k = .ok bytes ↔
      ∃ element body, k = .array element ∧ items.length < 0x80000000 ∧
        itemBytes items element = .ok body ∧
        Blob.littleEndian 4 items.length ++ body = bytes := by
  rw [valueBytes, boxedBytes_of_ne hk]
  cases k with
  | array element =>
    by_cases hlength : items.length < 0x80000000
    · simp [ownBytes, bind_eq_ok_iff, hlength, pure, Except.pure]
    · simp [ownBytes, hlength, throw, throwThe, MonadExceptOf.throw]
  | _ => simp [ownBytes, throw, throwThe, MonadExceptOf.throw]

theorem itemBytes_cons {item : Argument} :
    itemBytes (item :: items) k = .ok bytes ↔
      ∃ first others, valueBytes item k = .ok first ∧ itemBytes items k = .ok others ∧
        first ++ others = bytes := by
  simp only [itemBytes, bind_eq_ok_iff, pure, Except.pure, Except.ok.injEq,
    exists_and_left]
  rfl

theorem valueBytes_leaf (hv : v.isLeaf = true) (hk : k ≠ .object) :
    valueBytes v k = leafBytes v k := by
  rw [valueBytes, boxedBytes_of_ne hk]
  cases v with
  | array items | enum name v => cases hv
  | _ => rfl

/-- A value without parts has an encoding as its own kind only. -/
theorem kind_of_leafBytes (hv : v.isLeaf = true) (h : leafBytes v k = .ok bytes) : v.kind = k := by
  cases v with
  | array items | enum name v => cases hv
  | _ => cases k <;> first | rfl | cases h

/-- A value without parts takes some bytes. -/
theorem leafBytes_pos (hv : v.isLeaf = true) (h : leafBytes v k = .ok bytes) :
    0 < bytes.length := by
  have hkind := kind_of_leafBytes hv h
  subst hkind
  cases v with
  | array items | enum name v => cases hv
  | char c =>
    simp only [leafBytes, Argument.kind] at h
    split at h <;> cases h
    simp
  | string s => exact Blob.serStringBytes?_pos (textBytes_eq_ok_iff.mp h)
  | type name => exact Blob.serStringBytes?_pos (textBytes_eq_ok_iff.mp h)
  | _ =>
    cases h
    simp

/-- No value is written in no bytes. -/
theorem valueBytes_pos (v : Argument) (k : ArgKind) :
    ∀ {bytes : List UInt8}, valueBytes v k = .ok bytes → 0 < bytes.length := by
  induction v, k using Argument.byWriting with
  | object v ih =>
    intro bytes h
    obtain ⟨front, own, _, hown, rfl⟩ := valueBytes_object.mp h
    have hpos := ih hown
    rw [List.length_append]
    omega
  | leaf v k hv hk =>
    intro bytes h
    rw [valueBytes_leaf hv hk] at h
    exact leafBytes_pos hv h
  | array items k hk ih =>
    intro bytes h
    obtain ⟨element, body, rfl, _, _, rfl⟩ := (valueBytes_array hk).mp h
    rw [List.length_append, Blob.length_littleEndian]
    omega
  | enum name v k hk ih =>
    intro bytes h
    obtain ⟨name', underlying, rfl, hv⟩ := (valueBytes_enum hk).mp h
    exact ih hv

/-- An array is written in at least as many bytes as it has items. -/
theorem length_le_itemBytes (items : List Argument) (k : ArgKind) :
    ∀ {bytes : List UInt8}, itemBytes items k = .ok bytes → items.length ≤ bytes.length := by
  induction items with
  | nil => exact fun _ => Nat.zero_le _
  | cons item rest ih =>
    intro bytes h
    obtain ⟨first, others, hfirst, hothers, rfl⟩ := itemBytes_cons.mp h
    have hpos := valueBytes_pos item k hfirst
    have hrest := ih hothers
    rw [List.length_append, List.length_cons]
    omega

/-- The items of an array have an encoding if each of them has one. -/
theorem exists_itemBytes_iff :
    (∃ body, itemBytes items k = .ok body) ↔
      ∀ item ∈ items, ∃ own, valueBytes item k = .ok own := by
  induction items with
  | nil => exact ⟨fun _ => List.forall_mem_nil _, fun _ => ⟨[], rfl⟩⟩
  | cons item rest ih =>
    rw [List.forall_mem_cons, ← ih]
    simp only [itemBytes_cons]
    exact exists_append_iff

/-- Only what fits its kind is written, part by part. -/
theorem conforms_of_valueBytes (v : Argument) (k : ArgKind) :
    ∀ {bytes : List UInt8} (depth : Nat), valueBytes v k = .ok bytes →
      ∀ p ∈ valueParts v k depth, p.conforms = true := by
  induction v, k using Argument.byWriting with
  | object v ih =>
    intro bytes depth h
    obtain ⟨front, own, _, hown, rfl⟩ := valueBytes_object.mp h
    rw [valueParts_object, List.forall_mem_cons]
    exact ⟨conforms_object, ih (depth + 1) hown⟩
  | leaf v k hv hk =>
    intro bytes depth h
    rw [valueBytes_leaf hv hk] at h
    rw [valueParts_leaf hv hk, List.forall_mem_singleton, conforms_leaf hv hk]
    exact kind_of_leafBytes hv h
  | array items k hk ih =>
    intro bytes depth h
    obtain ⟨element, body, rfl, _, hbody, rfl⟩ := (valueBytes_array hk).mp h
    rw [valueParts_array hk, List.forall_mem_cons, List.forall_mem_flatMap]
    refine ⟨rfl, fun item hitem => ?_⟩
    obtain ⟨own, hown⟩ := exists_itemBytes_iff.mp ⟨body, hbody⟩ item hitem
    exact ih item hitem (depth + 1) hown
  | enum name v k hk ih =>
    intro bytes depth h
    obtain ⟨name', underlying, rfl, hv⟩ := (valueBytes_enum hk).mp h
    rw [valueParts_enum hk, List.forall_mem_cons]
    exact ⟨rfl, ih (depth + 1) hv⟩

/-! ## Attributes -/

theorem fixedBytes_cons {argument : Argument} {arguments : List Argument} {kinds : List ArgKind} :
    fixedBytes (argument :: arguments) (k :: kinds) = .ok bytes ↔
      ∃ first others, valueBytes argument k = .ok first ∧ fixedBytes arguments kinds = .ok others ∧
        first ++ others = bytes := by
  simp only [fixedBytes, bind_eq_ok_iff, pure, Except.pure, Except.ok.injEq, exists_and_left]

theorem namedBytes_eq_ok_iff {argument : NamedArgument} :
    namedBytes argument = .ok bytes ↔
      ∃ kind name value, kindBytes argument.kind = .ok kind ∧
        Blob.serStringBytes? (some argument.name) = .ok name ∧
        valueBytes argument.value argument.kind = .ok value ∧
        [if argument.isField then 0x53 else 0x54] ++ (kind ++ (name ++ value)) = bytes := by
  simp only [namedBytes, bind_eq_ok_iff, textBytes_eq_ok_iff, pure, Except.pure, Except.ok.injEq,
    exists_and_left, List.cons_append, List.nil_append, List.append_assoc]

theorem allNamedBytes_cons {argument : NamedArgument} {rest : List NamedArgument} :
    allNamedBytes (argument :: rest) = .ok bytes ↔
      ∃ first others, namedBytes argument = .ok first ∧ allNamedBytes rest = .ok others ∧
        first ++ others = bytes := by
  simp only [allNamedBytes, bind_eq_ok_iff, pure, Except.pure, Except.ok.injEq, exists_and_left]

section

variable {value : AttributeValue} {params : List ArgKind} {blob : List UInt8}

/-- What an attribute value is written as. -/
theorem encode_eq_ok_iff :
    encode value params = .ok blob ↔
      value.fixed.length = params.length ∧ value.named.length < UInt16.size ∧
        ∃ fixed named, fixedBytes value.fixed params = .ok fixed ∧
          allNamedBytes value.named = .ok named ∧
          Blob.littleEndian 2 1 ++
            (fixed ++ (Blob.littleEndian 2 value.named.length ++ named)) = blob := by
  have throw_bind {α β : Type} (fault : EncodeFault) (f : α → Except EncodeFault β) :
      (throw fault >>= f) = Except.error fault := rfl
  unfold encode
  dsimp only
  by_cases hlength : value.fixed.length = params.length
  · rw [if_neg (not_not_intro hlength)]
    by_cases hcount : UInt16.size ≤ value.named.length
    · have hmany : ¬ value.named.length < UInt16.size := Nat.not_lt.mpr hcount
      simp [bind_eq_ok_iff, hcount, hmany, throw_bind]
    · have hfew : value.named.length < UInt16.size := Nat.lt_of_not_le hcount
      simp [bind_eq_ok_iff, hlength, hcount, hfew, pure, Except.pure]
  · simp [hlength, throw_bind]

end

/-- The arguments for parameters have an encoding if each of them has one. -/
theorem exists_fixedBytes_iff {arguments : List Argument} {kinds : List ArgKind} :
    (∃ bytes, fixedBytes arguments kinds = .ok bytes) ↔
      ∀ pair ∈ arguments.zip kinds, ∃ bytes, valueBytes pair.1 pair.2 = .ok bytes := by
  induction arguments generalizing kinds with
  | nil => exact ⟨fun _ => List.forall_mem_nil _, fun _ => ⟨[], rfl⟩⟩
  | cons argument arguments ih =>
    cases kinds with
    | nil => exact ⟨fun _ => List.forall_mem_nil _, fun _ => ⟨[], rfl⟩⟩
    | cons kind kinds =>
      rw [List.zip_cons_cons, List.forall_mem_cons, ← ih]
      simp only [fixedBytes_cons]
      exact exists_append_iff

/-- A named argument has an encoding if its kind, its name and its value have one. -/
theorem exists_namedBytes_iff {argument : NamedArgument} :
    (∃ bytes, namedBytes argument = .ok bytes) ↔
      (∃ kind, kindBytes argument.kind = .ok kind) ∧
        (∃ name, Blob.serStringBytes? (some argument.name) = .ok name) ∧
        ∃ value, valueBytes argument.value argument.kind = .ok value := by
  simp only [namedBytes_eq_ok_iff]
  constructor
  · rintro ⟨_, kind, name, value, hkind, hname, hvalue, _⟩
    exact ⟨⟨kind, hkind⟩, ⟨name, hname⟩, value, hvalue⟩
  · rintro ⟨⟨kind, hkind⟩, ⟨name, hname⟩, value, hvalue⟩
    exact ⟨_, kind, name, value, hkind, hname, hvalue, rfl⟩

/-- Named arguments have an encoding if each of them has one. -/
theorem exists_allNamedBytes_iff {arguments : List NamedArgument} :
    (∃ bytes, allNamedBytes arguments = .ok bytes) ↔
      ∀ argument ∈ arguments, ∃ bytes, namedBytes argument = .ok bytes := by
  induction arguments with
  | nil => exact ⟨fun _ => List.forall_mem_nil _, fun _ => ⟨[], rfl⟩⟩
  | cons argument rest ih =>
    rw [List.forall_mem_cons, ← ih]
    simp only [allNamedBytes_cons]
    exact exists_append_iff

end CilTrim.Attribute
