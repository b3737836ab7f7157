import CilTrim.Blob.Writer

/-!
# Reading what was written

What a read makes of bytes that stand somewhere in a blob does not depend on what stands before and
behind them. Reads that run one after another take the bytes one after another:

* `Takes`: a read takes just the given bytes and has a result, or it fails on them;
* `Takes.bind`, `Takes.get_bind`, `Takes.map`: the rules for composed reads;
* `takes_word`, `takes_compressed`, `takes_serString`: the reads of what the writer writes.
-/

namespace CilTrim.Blob

variable {ε α β : Type}

/-- What a read makes of bytes, whatever stands behind them: it takes them all and gives a result,
or there is no result and it fails. -/
def Takes (m : EStateM ε Reader α) (bytes : List UInt8) : Option α → Prop
  | some a => ∀ position rest,
    m ⟨position, bytes ++ rest⟩ = .ok a ⟨position + bytes.length, rest⟩
  | none => ∀ position rest, ∃ fault r, m ⟨position, bytes ++ rest⟩ = .error fault r

section

variable {m : EStateM ε Reader α} {f : α → EStateM ε Reader β} {bytes bytes' : List UInt8}

theorem takes_pure (a : α) : Takes (pure a : EStateM ε Reader α) [] (some a) :=
  fun _ _ => rfl

theorem takes_throw (fault : ε) : Takes (throw fault : EStateM ε Reader α) bytes none :=
  fun position rest => ⟨fault, ⟨position, bytes ++ rest⟩, rfl⟩

/-- A read that goes on takes its bytes first. -/
theorem Takes.bind {a : α} {result : Option β} (h : Takes m bytes (some a))
    (h' : Takes (f a) bytes' result) : Takes (m >>= f) (bytes ++ bytes') result := by
  have first (position : Nat) (rest : List UInt8) :
      (m >>= f) ⟨position, bytes ++ bytes' ++ rest⟩ =
        f a ⟨position + bytes.length, bytes' ++ rest⟩ := by
    have hm := h position (bytes' ++ rest)
    simp only [Bind.bind, EStateM.bind, List.append_assoc, hm]
  cases result with
  | none =>
    intro position rest
    rw [first]
    exact h' _ rest
  | some b =>
    intro position rest
    rw [first, h', List.length_append, Nat.add_assoc]

/-- A read may be followed by a step that reads nothing. -/
theorem Takes.bind_last {a : α} {result : Option β} (h : Takes m bytes (some a))
    (h' : Takes (f a) [] result) : Takes (m >>= f) bytes result := by
  simpa using h.bind h'

/-- A read whose result is only converted. -/
theorem Takes.map {a : α} (g : α → β) (h : Takes m bytes (some a)) :
    Takes (do pure (g (← m))) bytes (some (g a)) :=
  h.bind_last (takes_pure (g a))

/-- Nothing is read behind a failure. -/
theorem Takes.bind_none (h : Takes m bytes none) : Takes (m >>= f) bytes none := by
  intro position rest
  obtain ⟨fault, r, hm⟩ := h position rest
  refine ⟨fault, r, ?_⟩
  simp only [Bind.bind, EStateM.bind, hm]

/-- A read that fails on bytes fails as well if more bytes follow. -/
theorem Takes.append_none (h : Takes m bytes none) : Takes m (bytes ++ bytes') none := by
  intro position rest
  rw [List.append_assoc]
  exact h position (bytes' ++ rest)

/-- A read that looks at what is left finds its own bytes there. -/
theorem Takes.get_bind {f : Reader → EStateM ε Reader α} {result : Option α}
    (h : ∀ r : Reader, bytes.length ≤ r.remaining → Takes (f r) bytes result) :
    Takes (get >>= f) bytes result := by
  have room (position : Nat) (rest : List UInt8) :
      bytes.length ≤ (Reader.mk position (bytes ++ rest)).remaining := by
    simp [Reader.remaining]
  cases result with
  | none => exact fun position rest => h _ (room position rest) position rest
  | some a => exact fun position rest => h _ (room position rest) position rest

end

theorem Reader.hasMore_iff {r : Reader} : r.hasMore = true ↔ 0 < r.remaining := by
  cases hr : r.rest <;> simp [hasMore, remaining, hr]

/-! ## What is written -/

/-- No compressed number begins with the mark for no text. -/
theorem head_ne_of_compressedBytes? {n : Nat} {bytes : List UInt8}
    (h : compressedBytes? n = .ok bytes) : ∃ first rest, bytes = first :: rest ∧ first ≠ 0xff := by
  have ne_mark {k : Nat} (hk : k < 0xff) : UInt8.ofNat k ≠ 0xff := by
    intro heq
    have hnat : (UInt8.ofNat k).toNat = k := UInt8.toNat_ofNat_of_lt (Nat.lt_succ_of_lt hk)
    rw [heq] at hnat
    exact Nat.ne_of_gt hk hnat
  unfold compressedBytes? at h
  split at h
  · cases h
    exact ⟨_, _, rfl, ne_mark (by omega)⟩
  · split at h
    · cases h
      exact ⟨_, _, rfl, ne_mark (by omega)⟩
    · split at h <;> rename_i hlimit
      · cases h
        rw [compressedLimit] at hlimit
        exact ⟨_, _, rfl, ne_mark (by omega)⟩
      · cases h

/-- Just the numbers below the limit have a compressed form. -/
theorem exists_compressedBytes?_iff {n : Nat} :
    (∃ bytes, compressedBytes? n = .ok bytes) ↔ n < compressedLimit := by
  unfold compressedBytes? compressedLimit
  split
  · exact ⟨fun _ => by omega, fun _ => ⟨_, rfl⟩⟩
  · split
    · exact ⟨fun _ => by omega, fun _ => ⟨_, rfl⟩⟩
    · split <;> rename_i hlimit
      · exact ⟨fun _ => hlimit, fun _ => ⟨_, rfl⟩⟩
      · exact ⟨nofun, fun h => absurd h hlimit⟩

/-- A text is written behind its length. -/
theorem serStringBytes?_some {s : String} {bytes : List UInt8} :
    serStringBytes? (some s) = .ok bytes ↔
      ∃ length, compressedBytes? (Text.Utf8.encode s).length = .ok length ∧
        bytes = length ++ Text.Utf8.encode s := by
  unfold serStringBytes?
  dsimp only
  split <;> rename_i hsize
  · cases compressedBytes? (Text.Utf8.encode s).length with
    | error fault => simp [bind, Except.bind]
    | ok length => simp [bind, Except.bind, pure, Except.pure, eq_comm]
  · refine ⟨nofun, fun ⟨length, hlength, _⟩ => ?_⟩
    have hlimit := exists_compressedBytes?_iff.mp ⟨length, hlength⟩
    rw [UInt32.size] at hsize
    rw [compressedLimit] at hlimit
    omega

/-- Just the texts below the limit can be written. -/
theorem exists_serStringBytes?_iff {s : String} :
    (∃ bytes, serStringBytes? (some s) = .ok bytes) ↔
      (Text.Utf8.encode s).length < compressedLimit := by
  rw [← exists_compressedBytes?_iff]
  constructor
  · rintro ⟨bytes, h⟩
    obtain ⟨length, hlength, _⟩ := serStringBytes?_some.mp h
    exact ⟨length, hlength⟩
  · rintro ⟨length, hlength⟩
    exact ⟨_, serStringBytes?_some.mpr ⟨length, hlength, rfl⟩⟩

/-- Even an empty text and no text take a byte. -/
theorem serStringBytes?_pos {s : Option String} {bytes : List UInt8}
    (h : serStringBytes? s = .ok bytes) : 0 < bytes.length := by
  cases s with
  | none =>
    cases h
    exact Nat.one_pos
  | some s =>
    obtain ⟨length, hlength, rfl⟩ := serStringBytes?_some.mp h
    obtain ⟨first, rest, rfl, _⟩ := head_ne_of_compressedBytes? hlength
    simp

/-! ## Bytes and words -/

theorem takes_bytes (bytes : List UInt8) : Takes (Read.bytes bytes.length) bytes (some bytes) := by
  intro position rest
  have htaken : (bytes ++ rest).take bytes.length = bytes := List.take_left
  have hskip : Reader.skip ⟨position, bytes ++ rest⟩ bytes.length =
      ⟨position + bytes.length, rest⟩ := by
    simp [Reader.skip]
  unfold Read.bytes
  show (if ((bytes ++ rest).take bytes.length).length = bytes.length then do
      set (Reader.skip ⟨position, bytes ++ rest⟩ bytes.length)
      pure ((bytes ++ rest).take bytes.length)
    else throw (.tooShort bytes.length position _) : Read (List UInt8))
      ⟨position, bytes ++ rest⟩ = _
  rw [htaken, if_pos rfl, hskip]
  rfl

theorem takes_word {width n : Nat} (h : n < Nat.pow 256 width) :
    Takes (Read.word width) (littleEndian width n) (some n) := by
  have hbytes : Takes (Read.bytes width) (littleEndian width n) (some (littleEndian width n)) := by
    simpa using takes_bytes (littleEndian width n)
  have hword := hbytes.map Read.ofLittleEndian
  rwa [ofLittleEndian_littleEndian, Nat.mod_eq_of_lt h] at hword

theorem takes_byte (b : UInt8) : Takes Read.byte [b] (some b) := by
  have hb : b.toNat < Nat.pow 256 1 := b.toNat_lt
  have hword := (takes_word hb).map UInt8.ofNat
  have hbyte : littleEndian 1 b.toNat = [b] := by
    simp [littleEndian, Nat.mod_eq_of_lt b.toNat_lt]
  rwa [hbyte, UInt8.ofNat_toNat] at hword

theorem takes_byte_bind {f : UInt8 → Read α} {b : UInt8} {bytes : List UInt8} {result : Option α}
    (h : Takes (f b) bytes result) : Takes (Read.byte >>= f) (b :: bytes) result :=
  (takes_byte b).bind h

/-- The next byte decides how to go on, and is still to be read. -/
theorem takes_peek_bind {f : UInt8 → Read α} {b : UInt8} {bytes : List UInt8} {result : Option α}
    (h : Takes (f b) (b :: bytes) result) : Takes (Read.peek >>= f) (b :: bytes) result := by
  have hpeek (position : Nat) (rest : List UInt8) :
      (Read.peek >>= f) ⟨position, b :: bytes ++ rest⟩ = f b ⟨position, b :: bytes ++ rest⟩ := rfl
  cases result with
  | none =>
    intro position rest
    rw [hpeek]
    exact h position rest
  | some a =>
    intro position rest
    rw [hpeek]
    exact h position rest

/-! ## Numbers and texts -/

/-- The first byte of a compressed number tells the three lengths apart. -/
theorem takes_compressed {n : Nat} {bytes : List UInt8} (h : compressedBytes? n = .ok bytes) :
    Takes Read.compressed bytes (some n) := by
  have toNat_ofNat {k : Nat} (hk : k < 0x100) : (UInt8.ofNat k).toNat = k :=
    UInt8.toNat_ofNat_of_lt hk
  have ofNat_lt {k : Nat} {b : UInt8} (hk : k < 0x100) : UInt8.ofNat k < b ↔ k < b.toNat := by
    rw [UInt8.lt_iff_toNat_lt, toNat_ofNat hk]
  unfold compressedBytes? at h
  unfold Read.compressed
  split at h
  next hn =>
    cases h
    refine takes_byte_bind ?_
    rw [if_pos ((ofNat_lt (by omega)).mpr hn), toNat_ofNat (by omega)]
    exact takes_pure n
  next =>
    split at h
    next hn =>
      cases h
      have hfirst : 0x80 + n / 0x100 < 0xc0 := by omega
      have hone : ¬ UInt8.ofNat (0x80 + n / 0x100) < 0x80 := by
        rw [ofNat_lt (by omega)]
        exact Nat.not_lt.mpr (Nat.le_add_right _ _)
      have hsum : n = (0x80 + n / 0x100 - 0x80) * 0x100 + n % 0x100 := by omega
      refine takes_byte_bind ?_
      rw [if_neg hone, if_pos ((ofNat_lt (by omega)).mpr hfirst)]
      refine takes_byte_bind ?_
      rw [toNat_ofNat (by omega), toNat_ofNat (by omega), ← hsum]
      exact takes_pure n
    next =>
      split at h
      next hn =>
        cases h
        have hlimit : n < 0x20000000 := hn
        have hfirst : 0xc0 + n / 0x1000000 < 0xe0 := by omega
        have hone : ¬ UInt8.ofNat (0xc0 + n / 0x1000000) < 0x80 := by
          rw [ofNat_lt (by omega)]
          show ¬ 0xc0 + n / 0x1000000 < 0x80
          omega
        have htwo : ¬ UInt8.ofNat (0xc0 + n / 0x1000000) < 0xc0 := by
          rw [ofNat_lt (by omega)]
          exact Nat.not_lt.mpr (Nat.le_add_right _ _)
        have hsum : n = (0xc0 + n / 0x1000000 - 0xc0) * 0x1000000 + n / 0x10000 % 0x100 * 0x10000 +
            n / 0x100 % 0x100 * 0x100 + n % 0x100 := by omega
        refine takes_byte_bind ?_
        rw [if_neg hone, if_neg htwo, if_pos ((ofNat_lt (by omega)).mpr hfirst)]
        refine takes_byte_bind (takes_byte_bind (takes_byte_bind ?_))
        rw [toNat_ofNat (by omega), toNat_ofNat (by omega), toNat_ofNat (by omega),
          toNat_ofNat (by omega), ← hsum]
        exact takes_pure n
      next => cases h

/-- A text is read back, and so is the mark for no text. -/
theorem takes_serString {s : Option String} {bytes : List UInt8}
    (h : serStringBytes? s = .ok bytes) : Takes Read.serString bytes (some s) := by
  unfold Read.serString
  cases s with
  | none =>
    cases h
    refine takes_peek_bind ?_
    rw [if_pos rfl]
    exact fun _ _ => rfl
  | some s =>
    obtain ⟨length, hlength, rfl⟩ := serStringBytes?_some.mp h
    obtain ⟨first, others, rfl, hfirst⟩ := head_ne_of_compressedBytes? hlength
    refine takes_peek_bind ?_
    rw [if_neg hfirst]
    refine (takes_compressed hlength).bind (Takes.get_bind fun r _ => ?_)
    refine (takes_bytes (Text.Utf8.encode s)).bind_last ?_
    rw [Text.Utf8.decode_encode]
    exact takes_pure (some s)

end CilTrim.Blob
