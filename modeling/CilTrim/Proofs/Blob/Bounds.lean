import CilTrim.Proofs.Blob.Stream

/-!
# What reads can give

Whatever the bytes of a blob are, what is read from them can be written again: numbers below the
limit that their form has, and texts that are short enough:

* `Yields`: what holds of every result of a read, wherever it starts;
* `Yields.bind`, `yields_get_bind`: the rules for composed reads;
* `yields_word`, `yields_compressed`, `yields_serString`: the bounds.
-/

namespace CilTrim.Blob

variable {ε α β : Type} {P Q : α → Prop} {m : EStateM ε Reader α}

/-- What holds of every result of a read, wherever the read starts. -/
def Yields (m : EStateM ε Reader α) (P : α → Prop) : Prop :=
  ∀ r a r', m r = .ok a r' → P a

theorem yields_any (m : EStateM ε Reader α) : Yields m fun _ => True :=
  fun _ _ _ _ => trivial

theorem yields_pure {a : α} (h : P a) : Yields (pure a : EStateM ε Reader α) P := by
  intro r b r' hb
  cases hb
  exact h

theorem yields_throw (fault : ε) : Yields (throw fault : EStateM ε Reader α) P := by
  intro r b r' hb
  cases hb

theorem Yields.mono (h : Yields m P) (hPQ : ∀ a, P a → Q a) : Yields m Q :=
  fun r a r' hm => hPQ a (h r a r' hm)

theorem Yields.bind {f : α → EStateM ε Reader β} {Q : β → Prop} (h : Yields m P)
    (h' : ∀ a, P a → Yields (f a) Q) : Yields (m >>= f) Q := by
  intro r b r' hb
  simp only [Bind.bind, EStateM.bind] at hb
  cases hm : m r with
  | ok a r₁ =>
    rw [hm] at hb
    exact h' a (h r a r₁ hm) r₁ b r' hb
  | error fault r₁ =>
    rw [hm] at hb
    cases hb

/-- Nothing comes of what is left to read behind a fault. -/
theorem yields_throw_bind (fault : ε) {f : β → EStateM ε Reader α} :
    Yields ((throw fault : EStateM ε Reader β) >>= f) P := by
  have hnone : Yields (throw fault : EStateM ε Reader β) fun _ => False := yields_throw fault
  exact hnone.bind fun _ => False.elim

theorem yields_get_bind {f : Reader → EStateM ε Reader α} (h : ∀ r, Yields (f r) P) :
    Yields (get >>= f) P :=
  fun r a r' hb => h r r a r' hb

/-! ## Bytes and words -/

theorem yields_bytes (n : Nat) : Yields (Read.bytes n) fun bytes => bytes.length = n := by
  unfold Read.bytes
  refine yields_get_bind fun r => ?_
  dsimp only
  split <;> rename_i hlength
  · exact (yields_any _).bind fun _ _ => yields_pure hlength
  · exact yields_throw _

theorem ofLittleEndian_lt (bytes : List UInt8) :
    Read.ofLittleEndian bytes < Nat.pow 256 bytes.length := by
  induction bytes with
  | nil => decide
  | cons b rest ih =>
    have hb : b.toNat < 256 := b.toNat_lt
    rw [Nat.pow_eq] at ih ⊢
    rw [Read.ofLittleEndian, List.length_cons, Nat.pow_succ]
    omega

theorem yields_word (width : Nat) : Yields (Read.word width) fun n => n < Nat.pow 256 width := by
  refine (yields_bytes width).bind fun bytes hlength => yields_pure ?_
  rw [← hlength]
  exact ofLittleEndian_lt bytes

/-! ## Numbers and texts -/

theorem yields_compressed : Yields Read.compressed fun n => n < compressedLimit := by
  have hbyte (b : UInt8) : b.toNat < 0x100 := b.toNat_lt
  refine (yields_any Read.byte).bind fun first _ => ?_
  unfold compressedLimit
  split <;> rename_i hone
  · have hfirst : first.toNat < 0x80 := UInt8.lt_iff_toNat_lt.mp hone
    exact yields_pure (by omega)
  · split <;> rename_i htwo
    · have hfirst : first.toNat < 0xc0 := UInt8.lt_iff_toNat_lt.mp htwo
      refine (yields_any Read.byte).bind fun second _ => yields_pure ?_
      have hsecond := hbyte second
      omega
    · split <;> rename_i hfour
      · have hfirst : first.toNat < 0xe0 := UInt8.lt_iff_toNat_lt.mp hfour
        refine (yields_any Read.byte).bind fun second _ => ?_
        refine (yields_any Read.byte).bind fun third _ => ?_
        refine (yields_any Read.byte).bind fun fourth _ => yields_pure ?_
        have hsecond := hbyte second
        have hthird := hbyte third
        have hfourth := hbyte fourth
        omega
      · exact yields_throw _

/-- Bytes of a text are the bytes that it is written in. -/
theorem encode_eq_of_decode {bytes : List UInt8} {s : String} (h : Text.Utf8.decode bytes = .ok s) :
    Text.Utf8.encode s = bytes := by
  unfold Text.Utf8.decode String.fromUTF8? at h
  split at h <;> rename_i hs
  · cases h
    split at hs
    · cases hs
      rfl
    · cases hs
  · cases h

theorem yields_serString :
    Yields Read.serString fun s => ∃ bytes, serStringBytes? s = .ok bytes := by
  unfold Read.serString
  refine (yields_any Read.peek).bind fun first _ => ?_
  split
  · exact (yields_any _).bind fun _ _ => yields_pure ⟨_, rfl⟩
  · refine yields_compressed.bind fun length hlength => yields_get_bind fun r => ?_
    refine (yields_bytes length).bind fun bytes hbytes => ?_
    split <;> rename_i hs
    · refine yields_pure (exists_serStringBytes?_iff.mpr ?_)
      rw [encode_eq_of_decode hs, hbytes]
      exact hlength
    · exact yields_throw _

end CilTrim.Blob
