import CilTrim.Proofs.Blob.Truncation

/-!
# What reads cost

A read that succeeds goes on in the same blob, behind bytes that were all there. How many they are
may depend on what was read, so both are spoken of together:

* `Reader.IsIn`: places in a blob;
* `Costs`: what holds of every result of a read and of the number of bytes that it costs;
* `Costs.bind`, `costs_get_bind`: the rules for composed reads;
* `costs_word`, `costs_compressed`, `costs_serString`: plain reads.
-/

namespace CilTrim.Blob

namespace Reader

variable {blob : List UInt8} {n k : Nat}

/-- A place in a blob. Behind the last byte there is one more. -/
structure IsIn (blob : List UInt8) (r : Reader) : Prop where
  position : r.position ≤ blob.length
  rest : r.rest = blob.drop r.position

theorem skip_skip (r : Reader) (n k : Nat) : (r.skip n).skip k = r.skip (n + k) := by
  simp only [skip, List.drop_drop, Nat.add_assoc]

theorem remaining_skip (r : Reader) (n : Nat) : (r.skip n).remaining = r.remaining - n :=
  List.length_drop

theorem IsIn.skip {r : Reader} (h : r.IsIn blob) (hn : n ≤ r.remaining) :
    (r.skip n).IsIn blob := by
  have hposition := h.position
  rw [remaining, h.rest, List.length_drop] at hn
  refine ⟨?_, ?_⟩
  · show r.position + n ≤ blob.length
    omega
  · show r.rest.drop n = blob.drop (r.position + n)
    rw [h.rest, List.drop_drop]

end Reader

variable {ε α β : Type} {m : EStateM ε Reader α} {f : α → EStateM ε Reader β}
  {P Q : α → Nat → Prop}

/-- What holds of every result of a read and of the number of bytes that it costs. So many bytes
are there, and the read goes on behind them. -/
def Costs (m : EStateM ε Reader α) (P : α → Nat → Prop) : Prop :=
  ∀ r a r', m r = .ok a r' → ∃ n, n ≤ r.remaining ∧ r' = r.skip n ∧ P a n

/-! ## Composed reads -/

theorem costs_pure {a : α} (h : P a 0) : Costs (pure a : EStateM ε Reader α) P := by
  intro r b r' hb
  cases hb
  exact ⟨0, Nat.zero_le _, rfl, h⟩

theorem costs_throw (fault : ε) : Costs (throw fault : EStateM ε Reader α) P := by
  intro r a r' ha
  cases ha

theorem Costs.mono (h : Costs m P) (hPQ : ∀ a n, P a n → Q a n) : Costs m Q := by
  intro r a r' ha
  obtain ⟨n, hn, hr, hP⟩ := h r a r' ha
  exact ⟨n, hn, hr, hPQ a n hP⟩

/-- Reads in turn cost what they cost together. -/
theorem Costs.bind {Q : β → Nat → Prop} (h : Costs m P)
    (h' : ∀ a n, P a n → Costs (f a) fun b k => Q b (n + k)) : Costs (m >>= f) Q := by
  intro r b r' hb
  obtain ⟨a, r₁, ha, hb⟩ := exists_of_bind_eq_ok hb
  obtain ⟨n, hn, rfl, hP⟩ := h r a r₁ ha
  obtain ⟨k, hk, rfl, hQ⟩ := h' a n hP _ b r' hb
  rw [Reader.remaining_skip] at hk
  exact ⟨n + k, by omega, Reader.skip_skip r n k, hQ⟩

theorem costs_get_bind {f : Reader → EStateM ε Reader α} (h : ∀ r, Costs (f r) P) :
    Costs (get >>= f) P :=
  fun r a r' ha => h r r a r' ha

/-! ## Plain reads -/

theorem costs_bytes (n : Nat) : Costs (Read.bytes n) fun _ cost => cost = n := by
  intro r bytes r' h
  by_cases hlength : (r.rest.take n).length = n
  · rw [Read.bytes, get_bind_apply, if_pos hlength] at h
    cases h
    refine ⟨n, ?_, rfl, rfl⟩
    rw [← hlength]
    exact List.length_take_le' n r.rest
  · rw [Read.bytes, get_bind_apply, if_neg hlength] at h
    cases h

theorem costs_word (width : Nat) : Costs (Read.word width) fun _ cost => cost = width :=
  (costs_bytes width).bind fun _ _ h => costs_pure h

theorem costs_byte : Costs Read.byte fun _ cost => cost = 1 :=
  (costs_word 1).bind fun _ _ h => costs_pure h

/-- A byte that is looked at is still there. -/
theorem peek_eq_ok {r r' : Reader} {b : UInt8} (h : Read.peek r = .ok b r') :
    r' = r ∧ 0 < r.remaining := by
  obtain ⟨position, rest⟩ := r
  cases rest with
  | nil => cases h
  | cons b' rest =>
    cases h
    exact ⟨rfl, Nat.succ_pos _⟩

theorem costs_compressed : Costs Read.compressed fun _ cost => 1 ≤ cost := by
  refine costs_byte.bind fun first n hn => ?_
  subst hn
  split
  · exact costs_pure (Nat.le_refl 1)
  · split
    · exact costs_byte.bind fun _ _ _ => costs_pure (Nat.le_add_right 1 _)
    · split
      · exact costs_byte.bind fun _ _ _ => costs_byte.bind fun _ _ _ =>
          costs_byte.bind fun _ _ _ => costs_pure (Nat.le_add_right 1 _)
      · exact costs_throw _

theorem costs_serString : Costs Read.serString fun _ cost => 1 ≤ cost := by
  intro r s r' h
  obtain ⟨first, r₁, hpeek, hnext⟩ := exists_of_bind_eq_ok h
  obtain ⟨rfl, hmore⟩ := peek_eq_ok hpeek
  revert hnext
  split
  · intro hnext
    cases hnext
    exact ⟨1, hmore, rfl, Nat.le_refl 1⟩
  · refine (?_ : Costs _ fun _ cost => 1 ≤ cost) r₁ s r'
    refine costs_compressed.bind fun length n hn => costs_get_bind fun r => ?_
    refine (costs_bytes length).bind fun bytes k _ => ?_
    split
    · exact costs_pure (Nat.le_add_right_of_le hn)
    · exact costs_throw _

end CilTrim.Blob
