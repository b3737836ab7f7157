import CilTrim.Proofs.Blob.Bounds
import Mathlib.Data.List.Infix

/-!
# Reading what was cut short

A blob may end too early, anywhere. A read of what is left fails, or it gives what it gives on the
whole blob: it never gives anything else. Reads that look at how many bytes are left may do
otherwise where they do so, and so two reads are compared, one on what is left and one on all:

* `Reader.CutOf`: a reader at the same place of a blob that ends earlier;
* `Agrees`: on what is left, one read fails or does what another does on all of it;
* `Agrees.bind`, `Agrees.get_bind`: the rules for composed reads;
* `agrees_word`, `agrees_serString`: plain reads;
* `Shortens`: the same for reads that nothing follows, whose results may differ in a known way.
-/

namespace CilTrim.Blob

/-- A reader at the same place of a blob that ends earlier. -/
structure Reader.CutOf (r₀ r : Reader) : Prop where
  position : r₀.position = r.position
  rest : r₀.rest <+: r.rest

namespace Reader.CutOf

variable {r₀ r : Reader}

theorem skip (h : r₀.CutOf r) (n : Nat) : (r₀.skip n).CutOf (r.skip n) :=
  ⟨congrArg (· + n) h.position, List.IsPrefix.drop h.rest n⟩

theorem remaining_le (h : r₀.CutOf r) : r₀.remaining ≤ r.remaining :=
  h.rest.length_le

/-- Where there are bytes left, there are bytes on the whole blob. -/
theorem hasMore (h : r₀.CutOf r) (more : r₀.hasMore = true) : r.hasMore = true := by
  have hle := h.remaining_le
  unfold Reader.hasMore Reader.remaining at *
  cases hr : r.rest with
  | nil =>
    rw [hr, List.length_nil, Nat.le_zero, List.length_eq_zero_iff] at hle
    simp [hle] at more
  | cons b rest => rfl

end Reader.CutOf

variable {ε α β : Type}

/-- On what is left of a blob, one read fails, or it gives what another gives on all of it and goes
on from the same place. -/
def Agrees (m₀ m : EStateM ε Reader α) : Prop :=
  ∀ (r₀ r : Reader) (a : α) (r' : Reader), r₀.CutOf r → m r = .ok a r' →
    (∃ fault r₀', m₀ r₀ = .error fault r₀') ∨ ∃ r₀', m₀ r₀ = .ok a r₀' ∧ r₀'.CutOf r'

/-- On what is left of a blob, one read fails, or its result is related to what another gives on all
of it. -/
def Shortens (post : α → α → Prop) (m₀ m : EStateM ε Reader α) : Prop :=
  ∀ (r₀ r : Reader) (a : α) (r' : Reader), r₀.CutOf r → m r = .ok a r' →
    (∃ fault r₀', m₀ r₀ = .error fault r₀') ∨ ∃ a₀ r₀', m₀ r₀ = .ok a₀ r₀' ∧ post a₀ a

/-! ## Composed reads -/

section

variable {m₀ m : EStateM ε Reader α} {f₀ f : α → EStateM ε Reader β}
  {post : β → β → Prop}

theorem agrees_pure (a : α) : Agrees (pure a : EStateM ε Reader α) (pure a) := by
  intro r₀ r a r' hcut h
  cases h
  exact .inr ⟨r₀, rfl, hcut⟩

/-- Whatever a read gives on the whole blob, it may fail on what is left. -/
theorem agrees_throw (fault : ε) (m : EStateM ε Reader α) : Agrees (throw fault) m :=
  fun r₀ _ _ _ _ _ => .inl ⟨fault, r₀, rfl⟩

theorem agrees_skip (n : Nat) :
    Agrees (modify (·.skip n) : EStateM ε Reader PUnit) (modify (·.skip n)) := by
  intro r₀ r a r' hcut h
  cases h
  exact .inr ⟨r₀.skip n, rfl, hcut.skip n⟩

theorem agrees_set {r₀ r : Reader} (hcut : r₀.CutOf r) :
    Agrees (set r₀ : EStateM ε Reader PUnit) (set r) := by
  intro _ _ a r' _ h
  cases h
  exact .inr ⟨r₀, rfl, hcut⟩

/-- A result of two reads in turn is one of each. -/
theorem exists_of_bind_eq_ok {r r' : Reader} {b : β} (h : (m >>= f) r = .ok b r') :
    ∃ a r₁, m r = .ok a r₁ ∧ f a r₁ = .ok b r' := by
  simp only [Bind.bind, EStateM.bind] at h
  cases hm : m r with
  | ok a r₁ =>
    rw [hm] at h
    exact ⟨a, r₁, rfl, h⟩
  | error fault r₁ =>
    rw [hm] at h
    cases h

theorem bind_eq_error {r r' : Reader} {fault : ε} (h : m r = .error fault r') :
    (m >>= f) r = .error fault r' := by
  simp only [Bind.bind, EStateM.bind, h]

theorem bind_eq_of_ok {r r' : Reader} {a : α} (h : m r = .ok a r') : (m >>= f) r = f a r' := by
  simp only [Bind.bind, EStateM.bind, h]

theorem get_bind_apply (f : Reader → EStateM ε Reader α) (r : Reader) : (get >>= f) r = f r r :=
  rfl

/-- Where the first of two reads agrees, both together fail on what is left, or the second one goes
on from the same place. -/
theorem Agrees.bind_cases (h : Agrees m₀ m) {r₀ r r' : Reader} {b : β} (hcut : r₀.CutOf r)
    (hb : (m >>= f) r = .ok b r') :
    (∃ fault r₀', (m₀ >>= f₀) r₀ = .error fault r₀') ∨
      ∃ a r₀₁ r₁, (m₀ >>= f₀) r₀ = f₀ a r₀₁ ∧ r₀₁.CutOf r₁ ∧ f a r₁ = .ok b r' := by
  obtain ⟨a, r₁, ha, hb⟩ := exists_of_bind_eq_ok hb
  rcases h _ _ _ _ hcut ha with ⟨fault, r₀', hfault⟩ | ⟨r₀₁, ha₀, hcut₁⟩
  · exact .inl ⟨fault, r₀', bind_eq_error hfault⟩
  · exact .inr ⟨a, r₀₁, r₁, bind_eq_of_ok ha₀, hcut₁, hb⟩

theorem Agrees.bind (h : Agrees m₀ m) (h' : ∀ a, Agrees (f₀ a) (f a)) :
    Agrees (m₀ >>= f₀) (m >>= f) := by
  intro r₀ r b r' hcut hb
  rcases h.bind_cases hcut hb with hfault | ⟨a, r₀₁, r₁, heq, hcut₁, hb⟩
  · exact .inl hfault
  · rw [heq]
    exact h' a _ _ _ _ hcut₁ hb

theorem Agrees.bind_shortens (h : Agrees m₀ m) (h' : ∀ a, Shortens post (f₀ a) (f a)) :
    Shortens post (m₀ >>= f₀) (m >>= f) := by
  intro r₀ r b r' hcut hb
  rcases h.bind_cases hcut hb with hfault | ⟨a, r₀₁, r₁, heq, hcut₁, hb⟩
  · exact .inl hfault
  · rw [heq]
    exact h' a _ _ _ _ hcut₁ hb

/-- Reads that look at what is left are compared where one has less left than the other. -/
theorem Agrees.get_bind {f₀ f : Reader → EStateM ε Reader α}
    (h : ∀ {r₀ r}, r₀.CutOf r → Agrees (f₀ r₀) (f r)) : Agrees (get >>= f₀) (get >>= f) :=
  fun _ _ _ _ hcut hb => h hcut _ _ _ _ hcut hb

theorem Shortens.get_bind {post : α → α → Prop} {f₀ f : Reader → EStateM ε Reader α}
    (h : ∀ {r₀ r}, r₀.CutOf r → Shortens post (f₀ r₀) (f r)) :
    Shortens post (get >>= f₀) (get >>= f) :=
  fun _ _ _ _ hcut hb => h hcut _ _ _ _ hcut hb

theorem shortens_pure {post : α → α → Prop} {a₀ a : α} (h : post a₀ a) :
    Shortens post (pure a₀ : EStateM ε Reader α) (pure a) := by
  intro r₀ r b r' _ hb
  cases hb
  exact .inr ⟨a₀, r₀, rfl, h⟩

/-- A read that ends at once on what is left, whatever is read behind it on the whole blob. -/
theorem shortens_pure_of_yields {post : α → α → Prop} {a₀ : α} (h : Yields m (post a₀)) :
    Shortens post (pure a₀) m :=
  fun r₀ r a r' _ ha => .inr ⟨a₀, r₀, rfl, h r a r' ha⟩

/-- Where reading the whole blob fails, nothing is asked of what is left. -/
theorem shortens_of_throw {post : α → α → Prop} (m₀ : EStateM ε Reader α) (fault : ε) :
    Shortens post m₀ (throw fault) :=
  fun _ _ _ _ _ h => nomatch h

/-- A read whose result is only converted. -/
theorem Shortens.map {pre : α → α → Prop} {g : α → β} (h : Shortens pre m₀ m)
    (himp : ∀ {a₀ a}, pre a₀ a → post (g a₀) (g a)) :
    Shortens post (do pure (g (← m₀))) (do pure (g (← m))) := by
  intro r₀ r b r' hcut hb
  obtain ⟨a, r₁, ha, hb⟩ := exists_of_bind_eq_ok hb
  cases hb
  rcases h _ _ _ _ hcut ha with ⟨fault, r₀', hfault⟩ | ⟨a₀, r₀', ha₀, hpre⟩
  · exact .inl ⟨fault, r₀', bind_eq_error hfault⟩
  · exact .inr ⟨g a₀, r₀', bind_eq_of_ok ha₀, himp hpre⟩

end

/-! ## Plain reads -/

/-- Bytes are all there, or too few are left. -/
theorem agrees_bytes (n : Nat) : Agrees (Read.bytes n) (Read.bytes n) := by
  refine Agrees.get_bind fun {r₀ r} hcut => ?_
  dsimp only
  by_cases hlen : (r₀.rest.take n).length = n
  · have htake : r₀.rest.take n = r.rest.take n :=
      (List.IsPrefix.take hcut.rest n).eq_of_length_le (by
        rw [hlen]
        exact List.length_take_le n r.rest)
    rw [if_pos hlen, ← htake, if_pos hlen]
    exact (agrees_set (hcut.skip n)).bind fun _ => agrees_pure _
  · rw [if_neg hlen]
    exact agrees_throw _ _

theorem agrees_word (width : Nat) : Agrees (Read.word width) (Read.word width) :=
  (agrees_bytes width).bind fun _ => agrees_pure _

theorem agrees_byte : Agrees Read.byte Read.byte :=
  (agrees_word 1).bind fun _ => agrees_pure _

theorem agrees_peek : Agrees Read.peek Read.peek := by
  refine Agrees.get_bind fun {r₀ r} hcut => ?_
  obtain ⟨lost, hrest⟩ := hcut.rest
  rw [← hrest]
  cases r₀.rest with
  | nil => exact agrees_throw (Fault.endOfBlob r₀.position) _
  | cons b rest₀ => exact agrees_pure b

theorem agrees_compressed : Agrees Read.compressed Read.compressed := by
  refine agrees_byte.bind fun first => ?_
  split
  · exact agrees_pure _
  · split
    · exact agrees_byte.bind fun second => agrees_pure _
    · split
      · exact agrees_byte.bind fun second => agrees_byte.bind fun third =>
          agrees_byte.bind fun fourth => agrees_pure _
      · exact agrees_throw _ _

theorem agrees_serString : Agrees Read.serString Read.serString := by
  refine agrees_peek.bind fun first => ?_
  split
  · exact (agrees_skip 1).bind fun _ => agrees_pure none
  · refine agrees_compressed.bind fun length => Agrees.get_bind fun {r₀ r} hcut => ?_
    rw [hcut.position]
    refine (agrees_bytes length).bind fun bytes => ?_
    split
    · exact agrees_pure _
    · exact agrees_throw _ _

end CilTrim.Blob
