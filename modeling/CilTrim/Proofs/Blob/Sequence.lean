import CilTrim.Proofs.Blob.Stream

/-!
# Reading back a sequence of writes

Items are added to a buffer one after another. A write that fails leaves the buffer as it was, so
that the items behind it are added as if it had never been tried. The buffer holds just the items
that have been written, and tells them apart by their kinds:

* `Item.Fits`: the items that can be written;
* `write_eq_adds`: a write adds all bytes of an item, or it adds none;
* `takes_shape`: the read of an item's kind takes its bytes and gives the item back;
* `appendAll`, `readAll`: many items;
* `readAll_appendAll`: all items that have been written are read back.
-/

namespace CilTrim.Blob

variable {item : Item} {bytes : List UInt8}

/-- A number or a text whose number or length has a compressed form; other items always fit. -/
def Item.fits : Item → Bool
  | .compressed v => v.toNat ≤ 0x1fffffff
  | .text (some s) => (Text.Utf8.encode s).length ≤ 0x1fffffff
  | _ => true

/-- Just the items that fit have bytes. -/
theorem exists_encode_iff : (∃ bytes, item.encode = .ok bytes) ↔ item.fits = true := by
  cases item with
  | compressed v =>
    rw [Item.fits, decide_eq_true_iff, ← Nat.lt_succ_iff]
    exact exists_compressedBytes?_iff
  | text s =>
    cases s with
    | none => exact ⟨fun _ => rfl, fun _ => ⟨[0xff], rfl⟩⟩
    | some s =>
      rw [Item.fits, decide_eq_true_iff, ← Nat.lt_succ_iff]
      exact exists_serStringBytes?_iff
  | _ => exact ⟨fun _ => rfl, fun _ => ⟨_, rfl⟩⟩

/-! ## One write -/

/-- Adds all bytes at once, or fails before any of them. -/
def adds : Except Fault (List UInt8) → Write PUnit
  | .ok bytes => Write.bytes bytes
  | .error fault => throw fault

/-- Bytes that are added one part after another are added together. -/
theorem bytes_bind_bytes (first second : List UInt8) :
    (do Write.bytes first; Write.bytes second) = Write.bytes (first ++ second) := by
  funext buffer
  exact congrArg (EStateM.Result.ok PUnit.unit) (List.append_assoc buffer first second)

theorem compressed_eq_adds (n : Nat) : Write.compressed n = adds (compressedBytes? n) := by
  unfold Write.compressed compressedBytes? Write.byte
  split
  · rfl
  · split
    · exact bytes_bind_bytes _ _
    · split
      · simp only [bytes_bind_bytes]
        rfl
      · rfl

theorem serString_eq_adds (s : Option String) : Write.serString s = adds (serStringBytes? s) := by
  cases s with
  | none => rfl
  | some s =>
    unfold Write.serString serStringBytes?
    dsimp only
    by_cases hlong : UInt32.size ≤ (Text.Utf8.encode s).length
    · rw [if_pos hlong, if_neg (Nat.not_lt.mpr hlong)]
      rfl
    · rw [if_neg hlong, if_pos (Nat.not_le.mp hlong), compressed_eq_adds]
      cases compressedBytes? (Text.Utf8.encode s).length with
      | ok length => exact bytes_bind_bytes _ _
      | error fault => rfl

/-- What a write does to the buffer is all or nothing, although it adds its bytes in several
steps. -/
theorem write_eq_adds (item : Item) : item.write = adds item.encode := by
  cases item with
  | compressed v => exact compressed_eq_adds v.toNat
  | text s => exact serString_eq_adds s
  | _ => rfl

theorem append_of_encode (buffer : List UInt8) (h : item.encode = .ok bytes) :
    append buffer item = (buffer ++ bytes, none) := by
  unfold append
  rw [write_eq_adds, h]
  rfl

theorem append_of_not_fits (buffer : List UInt8) (h : ¬ item.fits = true) :
    ∃ fault, append buffer item = (buffer, some fault) := by
  cases hencode : item.encode with
  | ok bytes => exact absurd (exists_encode_iff.mp ⟨bytes, hencode⟩) h
  | error fault =>
    refine ⟨fault, ?_⟩
    unfold append
    rw [write_eq_adds, hencode]
    rfl

/-! ## One read -/

section Words

variable {α : Type}

theorem takes_word8 (f : UInt8 → α) (v : UInt8) :
    Takes (do pure (f (UInt8.ofNat (← Read.word 1)))) (littleEndian 1 v.toNat) (some (f v)) := by
  have hv : v.toNat < Nat.pow 256 1 := v.toNat_lt
  have hread := (takes_word hv).map fun n => f (UInt8.ofNat n)
  rwa [UInt8.ofNat_toNat] at hread

theorem takes_word16 (f : UInt16 → α) (v : UInt16) :
    Takes (do pure (f (UInt16.ofNat (← Read.word 2)))) (littleEndian 2 v.toNat) (some (f v)) := by
  have hv : v.toNat < Nat.pow 256 2 := v.toNat_lt
  have hread := (takes_word hv).map fun n => f (UInt16.ofNat n)
  rwa [UInt16.ofNat_toNat] at hread

theorem takes_word32 (f : UInt32 → α) (v : UInt32) :
    Takes (do pure (f (UInt32.ofNat (← Read.word 4)))) (littleEndian 4 v.toNat) (some (f v)) := by
  have hv : v.toNat < Nat.pow 256 4 := v.toNat_lt
  have hread := (takes_word hv).map fun n => f (UInt32.ofNat n)
  rwa [UInt32.ofNat_toNat] at hread

theorem takes_word64 (f : UInt64 → α) (v : UInt64) :
    Takes (do pure (f (UInt64.ofNat (← Read.word 8)))) (littleEndian 8 v.toNat) (some (f v)) := by
  have hv : v.toNat < Nat.pow 256 8 := v.toNat_lt
  have hread := (takes_word hv).map fun n => f (UInt64.ofNat n)
  rwa [UInt64.ofNat_toNat] at hread

end Words

/-- The read of its kind takes all bytes of an item, whatever stands behind them. -/
theorem takes_shape (h : item.encode = .ok bytes) : Takes item.shape.read bytes (some item) := by
  cases item with
  | compressed v =>
    have hread := (takes_compressed h).map fun n => Item.compressed (UInt32.ofNat n)
    rwa [UInt32.ofNat_toNat] at hread
  | text s => exact (takes_serString h).map Item.text
  | raw added =>
    cases h
    exact (takes_bytes bytes).map Item.raw
  | u8 v =>
    cases h
    exact takes_word8 Item.u8 v
  | u16 v =>
    cases h
    exact takes_word16 Item.u16 v
  | u32 v =>
    cases h
    exact takes_word32 Item.u32 v
  | u64 v =>
    cases h
    exact takes_word64 Item.u64 v
  | f32 bits =>
    cases h
    exact takes_word32 Item.f32 bits
  | f64 bits =>
    cases h
    exact takes_word64 Item.f64 bits
  | i8 v =>
    cases h
    exact takes_word8 (fun b => Item.i8 b.toInt8) v.toUInt8
  | i16 v =>
    cases h
    exact takes_word16 (fun b => Item.i16 b.toInt16) v.toUInt16
  | i32 v =>
    cases h
    exact takes_word32 (fun b => Item.i32 b.toInt32) v.toUInt32
  | i64 v =>
    cases h
    exact takes_word64 (fun b => Item.i64 b.toInt64) v.toUInt64

/-! ## Sequences -/

/-- Adds items one after another, also behind one that cannot be written, and keeps those that have
been written. -/
def appendAll (buffer : List UInt8) : List Item → List UInt8 × List Item
  | [] => (buffer, [])
  | item :: items =>
    match append buffer item with
    | (buffer, none) =>
      let (final, written) := appendAll buffer items
      (final, item :: written)
    | (buffer, some _) => appendAll buffer items

/-- Reads items of the given kinds one after another. -/
def readAll : List Shape → Read (List Item)
  | [] => pure []
  | shape :: shapes => do
    let item ← shape.read
    pure (item :: (← readAll shapes))

/-- The items that have been written are those that fit, and what has been added is read as them. -/
theorem takes_appendAll (buffer : List UInt8) (items : List Item) :
    ∃ added, appendAll buffer items = (buffer ++ added, items.filter Item.fits) ∧
      Takes (readAll ((items.filter Item.fits).map Item.shape)) added
        (some (items.filter Item.fits)) := by
  induction items generalizing buffer with
  | nil => exact ⟨[], by rw [List.append_nil]; rfl, takes_pure []⟩
  | cons item items ih =>
    by_cases hfits : item.fits = true
    · obtain ⟨bytes, hencode⟩ := exists_encode_iff.mpr hfits
      obtain ⟨added, happend, htakes⟩ := ih (buffer ++ bytes)
      rw [List.filter_cons_of_pos hfits]
      refine ⟨bytes ++ added, ?_, (takes_shape hencode).bind (htakes.map (item :: ·))⟩
      simp only [appendAll, append_of_encode buffer hencode, happend, List.append_assoc]
    · obtain ⟨fault, hfault⟩ := append_of_not_fits buffer hfits
      rw [List.filter_cons_of_neg hfits]
      simp only [appendAll, hfault]
      exact ih buffer

/-- Items are written to an empty buffer one after another. A write fails just for a number or a
text that does not fit, and leaves the buffer as it was. The buffer at the end is read as the items
that have been written, up to its end. -/
theorem readAll_appendAll (items : List Item) :
    (∀ buffer item, (append buffer item).2 = none ↔ item.fits = true) ∧
      (∀ buffer item, (append buffer item).2 ≠ none → (append buffer item).1 = buffer) ∧
        ∃ buffer, appendAll [] items = (buffer, items.filter Item.fits) ∧
          readAll ((items.filter Item.fits).map Item.shape) (.ofBytes buffer) =
            .ok (items.filter Item.fits) ⟨buffer.length, []⟩ := by
  refine ⟨fun buffer item => ?_, fun buffer item => ?_, ?_⟩
  · by_cases hfits : item.fits = true
    · obtain ⟨bytes, hencode⟩ := exists_encode_iff.mpr hfits
      simp [append_of_encode buffer hencode, hfits]
    · obtain ⟨fault, hfault⟩ := append_of_not_fits buffer hfits
      simp [hfault, hfits]
  · by_cases hfits : item.fits = true
    · obtain ⟨bytes, hencode⟩ := exists_encode_iff.mpr hfits
      simp [append_of_encode buffer hencode]
    · obtain ⟨fault, hfault⟩ := append_of_not_fits buffer hfits
      simp [hfault]
  · obtain ⟨buffer, happend, htakes⟩ := takes_appendAll [] items
    refine ⟨buffer, happend, ?_⟩
    have hread := htakes 0 []
    rwa [List.append_nil, Nat.zero_add] at hread

end CilTrim.Blob
