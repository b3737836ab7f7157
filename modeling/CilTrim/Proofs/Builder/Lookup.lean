import CilTrim.Builder.Basic
import CilTrim.Proofs.Token

/-!
# Tables of definitions

What a token finds in a table after a definition is added at its end or changed in place. All
tables of a model are read in the same way, so this is said once, of any table:

* `Rows.find?_push`, `Rows.find?_modify`: lookup after the two kinds of change;
* `Rows.Numbered`: every definition holds the token of its own place;
* `Rows.Numbered.find?_token`, `Rows.Numbered.token_of_find?`: then a definition is found by its
  own token, and by no other.
-/

namespace CilTrim

namespace Rows

variable {α : Type} {table : Table} {rows : Array α} {token : α → Token}

/-- The definition of a table that a token names. -/
def find? (table : Table) (rows : Array α) (t : Token) : Option α :=
  (t.index? table).bind (rows[·]?)

theorem find?_empty {t : Token} {d : α} : find? table #[] t ≠ some d := by
  intro h
  obtain ⟨i, -, hi⟩ := Option.bind_eq_some_iff.mp h
  simp at hi

theorem isIn_of_find? {t : Token} {d : α} (h : find? table rows t = some d) :
    t.isIn table = true := by
  obtain ⟨i, hi, -⟩ := Option.bind_eq_some_iff.mp h
  exact Token.isIn_of_index? hi

/-- A definition added at the end is found by the next token, and nothing else changes. -/
theorem find?_push (room : rows.size + 1 < Token.rowLimit) (d : α) (t : Token) :
    find? table (rows.push d) t =
      if t = Token.next table rows.size then some d else find? table rows t := by
  split
  · rename_i h
    rw [h, find?, Token.index?_next room, Option.bind_some, Array.getElem?_push_size]
  · rename_i h
    unfold find?
    cases hi : t.index? table with
    | none => rfl
    | some i =>
      have hne : i ≠ rows.size := fun e => h (e ▸ Token.eq_next_of_index? hi)
      rw [Option.bind_some, Option.bind_some, Array.getElem?_push, if_neg hne]

/-- A change at the place of a token that names a definition changes that definition. -/
theorem find?_modify {owner : Token} (h : (find? table rows owner).isSome) (change : α → α)
    (t : Token) :
    find? table (rows.modify owner.slot change) t =
      if t = owner then (find? table rows t).map change else find? table rows t := by
  obtain ⟨d, hd⟩ := Option.isSome_iff_exists.mp h
  obtain ⟨i, hi, -⟩ := Option.bind_eq_some_iff.mp hd
  have hslot : owner.slot = i := Token.slot_of_row hi
  rw [hslot]
  unfold find?
  split
  · rename_i e
    rw [e, hi, Option.bind_some, Option.bind_some, Array.getElem?_modify, if_pos rfl]
  · rename_i hne
    cases hj : t.index? table with
    | none => rfl
    | some j =>
      have hij : i ≠ j := fun e => hne (Token.index?_inj hj (e ▸ hi))
      rw [Option.bind_some, Option.bind_some, Array.getElem?_modify, if_neg hij]

/-- After a change at any place, what a token finds is what it found before, or that changed. -/
theorem find?_of_modify {i : Nat} {change : α → α} {t : Token} {d : α}
    (h : find? table (rows.modify i change) t = some d) :
    ∃ d₀, find? table rows t = some d₀ ∧ (d = change d₀ ∨ d = d₀) := by
  obtain ⟨j, hj, hd⟩ := Option.bind_eq_some_iff.mp h
  rw [Array.getElem?_modify] at hd
  unfold find?
  rw [hj, Option.bind_some]
  split at hd
  · obtain ⟨d₀, h₀, rfl⟩ := Option.map_eq_some_iff.mp hd
    exact ⟨d₀, h₀, .inl rfl⟩
  · exact ⟨d, hd, .inr rfl⟩

/-- A change at any place leaves every definition in its place. -/
theorem find?_modify_of (i : Nat) (change : α → α) {t : Token} {d₀ : α}
    (h : find? table rows t = some d₀) :
    ∃ d, find? table (rows.modify i change) t = some d ∧ (d = change d₀ ∨ d = d₀) := by
  obtain ⟨j, hj, hd⟩ := Option.bind_eq_some_iff.mp h
  unfold find?
  rw [hj, Option.bind_some, Array.getElem?_modify, hd]
  split
  · exact ⟨change d₀, rfl, .inl rfl⟩
  · exact ⟨d₀, rfl, .inr rfl⟩

/-- A change at any place leaves every token that names a definition with one. -/
theorem isSome_modify {i : Nat} {change : α → α} {t : Token} (h : (find? table rows t).isSome) :
    (find? table (rows.modify i change) t).isSome := by
  obtain ⟨d, hd⟩ := Option.isSome_iff_exists.mp h
  obtain ⟨d', hd', -⟩ := find?_modify_of i change hd
  exact Option.isSome_iff_exists.mpr ⟨d', hd'⟩

/-- What is found after an addition was there before, or is what was added. -/
theorem find?_of_push (room : rows.size + 1 < Token.rowLimit) {d e : α} {t : Token}
    (h : find? table (rows.push d) t = some e) :
    (t = Token.next table rows.size ∧ e = d) ∨ find? table rows t = some e := by
  rw [find?_push room] at h
  split at h
  · rename_i ht
    exact .inl ⟨ht, (Option.some.inj h).symm⟩
  · exact .inr h

/-- What was there before an addition is still found. -/
theorem find?_push_of {d e : α} {t : Token} (h : find? table rows t = some e) :
    find? table (rows.push d) t = some e := by
  obtain ⟨i, hi, hr⟩ := Option.bind_eq_some_iff.mp h
  have hlt : i < rows.size := (Array.getElem?_eq_some_iff.mp hr).1
  rw [find?, hi, Option.bind_some, Array.getElem?_push, if_neg (Nat.ne_of_lt hlt), hr]

theorem isSome_push {d : α} {t : Token} (h : (find? table rows t).isSome) :
    (find? table (rows.push d) t).isSome := by
  obtain ⟨e, he⟩ := Option.isSome_iff_exists.mp h
  exact Option.isSome_iff_exists.mpr ⟨e, find?_push_of he⟩

/-- What a token finds is a row of the table. -/
theorem mem_of_find? {d : α} {t : Token} (h : find? table rows t = some d) : d ∈ rows.toList := by
  obtain ⟨i, -, hr⟩ := Option.bind_eq_some_iff.mp h
  exact Array.mem_toList_iff.mpr (Array.mem_of_getElem? hr)

/-! ## Numbered tables -/

/-- Every definition holds the token of its own place. -/
def Numbered (table : Table) (token : α → Token) (rows : Array α) : Prop :=
  ∀ i d, rows[i]? = some d → token d = Token.next table i

theorem numbered_empty : Numbered table token #[] := by
  intro i d h
  simp at h

theorem Numbered.push (h : Numbered table token rows) {d : α}
    (hd : token d = Token.next table rows.size) : Numbered table token (rows.push d) := by
  intro i e he
  rw [Array.getElem?_push] at he
  split at he
  · rename_i hi
    rw [← Option.some.inj he, hd, hi]
  · exact h i e he

theorem Numbered.modify (h : Numbered table token rows) {change : α → α}
    (hc : ∀ d, token (change d) = token d) (i : Nat) :
    Numbered table token (rows.modify i change) := by
  intro j e he
  rw [Array.getElem?_modify] at he
  split at he
  · obtain ⟨d, hd, rfl⟩ := Option.map_eq_some_iff.mp he
    rw [hc, h j d hd]
  · exact h j e he

/-- A definition that a token finds holds that token. -/
theorem Numbered.token_of_find? (h : Numbered table token rows) {t : Token} {d : α}
    (hd : find? table rows t = some d) : token d = t := by
  obtain ⟨i, hi, hr⟩ := Option.bind_eq_some_iff.mp hd
  rw [h i d hr, ← Token.eq_next_of_index? hi]

/-- A definition of a table is found by its token. -/
theorem Numbered.find?_token (h : Numbered table token rows) (fits : rows.size < Token.rowLimit)
    {d : α} (hd : d ∈ rows.toList) : find? table rows (token d) = some d := by
  obtain ⟨i, hi⟩ := List.mem_iff_getElem?.mp hd
  rw [Array.getElem?_toList] at hi
  have hlt : i < rows.size := (Array.getElem?_eq_some_iff.mp hi).1
  rw [h i d hi, find?, Token.index?_next (by omega), Option.bind_some, hi]

/-- No two definitions of a table hold the same token. -/
theorem Numbered.nodup (h : Numbered table token rows) (fits : rows.size < Token.rowLimit) :
    (rows.toList.map token).Nodup := by
  refine List.nodup_iff_getElem?_ne_getElem?.mpr fun i j hij hj he => ?_
  have row {k : Nat} (hk : k < rows.size) :
      (rows.toList.map token)[k]? = some (Token.next table k) := by
    have hd : rows[k]? = some rows[k] := Array.getElem?_eq_getElem hk
    rw [List.getElem?_map, Array.getElem?_toList, hd, Option.map_some, h k _ hd]
  have hj' : j < rows.size := by simpa using hj
  rw [row (hij.trans hj'), row hj'] at he
  have hindex := congrArg (Token.index? · table) (Option.some.inj he)
  rw [Token.index?_next (by omega), Token.index?_next (by omega)] at hindex
  exact absurd (Option.some.inj hindex) (Nat.ne_of_lt hij)

/-- A predicate that takes in one more token takes in one more definition, if the token names
one. -/
theorem Numbered.countP_insert (h : Numbered table token rows)
    (fits : rows.size < Token.rowLimit) {p q : Token → Prop} [DecidablePred p] [DecidablePred q]
    {t : Token} (hp : ¬ p t) (hq : ∀ x, q x ↔ x = t ∨ p x) :
    rows.toList.countP (q <| token ·) =
      rows.toList.countP (p <| token ·) + if (find? table rows t).isSome then 1 else 0 := by
  have listed : (find? table rows t).isSome = true ↔ t ∈ rows.toList.map token := by
    constructor
    · intro hs
      obtain ⟨d, hd⟩ := Option.isSome_iff_exists.mp hs
      exact List.mem_map.mpr ⟨d, mem_of_find? hd, h.token_of_find? hd⟩
    · intro ht
      obtain ⟨d, hd, rfl⟩ := List.mem_map.mp ht
      rw [h.find?_token fits hd]
      rfl
  have count (xs : List Token) (nodup : xs.Nodup) :
      xs.countP (q ·) = xs.countP (p ·) + if t ∈ xs then 1 else 0 := by
    induction xs with
    | nil => rfl
    | cons x xs ih =>
      obtain ⟨hx, hxs⟩ := List.nodup_cons.mp nodup
      rw [List.countP_cons, List.countP_cons, ih hxs]
      by_cases hxt : x = t
      · subst hxt
        simp [hp, hq, hx]
      · simp only [hq, hxt, false_or, List.mem_cons, Ne.symm hxt]
        omega
  have := count _ (h.nodup fits)
  rw [List.countP_map, List.countP_map] at this
  simp only [listed]
  exact this

end Rows

end CilTrim
