import CilTrim.Token
import Mathlib.Data.Set.Card
import Mathlib.Data.Fintype.EquivFin

/-!
# Rows and counts of tokens

Tokens are taken apart and put together without loss as long as rows fit into three bytes, and
there are only finitely many of them:

* `Token.value_toNat`: a word from its table byte and its row;
* `Token.index?_next`, `Token.eq_next_of_index?`: the next token of a table names the next place,
  and no other token does;
* `Token.free`: how many tokens a predicate leaves out, which only falls while the predicate grows.
-/

namespace CilTrim

namespace Token

/-! ## Rows -/

/-- The number of rows that a table can have. -/
def rowLimit : Nat := 2 ^ 24

theorem row_toNat (t : Token) : t.row.toNat = t.value.toNat % 2 ^ 24 := by
  rw [row, UInt32.toNat_and]
  exact Nat.and_two_pow_sub_one_eq_mod t.value.toNat 24

theorem tableNumber_toNat (t : Token) : t.tableNumber.toNat = t.value.toNat / 2 ^ 24 := by
  have h := t.value.toNat_lt
  rw [tableNumber, UInt32.toNat_toUInt8, UInt32.toNat_shiftRight, Nat.shiftRight_eq_div_pow]
  have e : (24 : UInt32).toNat % 32 = 24 := rfl
  rw [e]
  omega

/-- A word is its table byte followed by its row. -/
theorem value_toNat (t : Token) : t.value.toNat = t.tableNumber.toNat * 2 ^ 24 + t.row.toNat := by
  rw [tableNumber_toNat, row_toNat]
  omega

theorem ext_value {a b : Token} (h : a.value.toNat = b.value.toNat) : a = b := by
  cases a; cases b
  exact congrArg Token.mk (UInt32.toNat_inj.mp h)

theorem ofParts_toNat (table : Table) (row : UInt32) :
    (ofParts table row).value.toNat = table.number.toNat * 2 ^ 24 + row.toNat % 2 ^ 24 := by
  have hrow : row.toNat % 2 ^ 24 < 2 ^ 24 := Nat.mod_lt _ (by decide)
  have hnum : table.number.toNat < 2 ^ 8 := table.number.toNat_lt
  have hand : (row &&& 0x00ffffff).toNat = row.toNat % 2 ^ 24 := by
    rw [UInt32.toNat_and]
    exact Nat.and_two_pow_sub_one_eq_mod row.toNat 24
  have hshift : (table.number.toUInt32 <<< 24).toNat = table.number.toNat * 2 ^ 24 := by
    have e : (24 : UInt32).toNat % 32 = 24 := rfl
    rw [UInt32.toNat_shiftLeft, e, UInt8.toNat_toUInt32, Nat.shiftLeft_eq]
    omega
  show ((table.number.toUInt32 <<< 24) ||| (row &&& 0x00ffffff)).toNat = _
  rw [UInt32.toNat_or, hand, hshift, ← Nat.shiftLeft_eq, ← Nat.shiftLeft_add_eq_or_of_lt hrow]

theorem tableNumber_ofParts (table : Table) (row : UInt32) :
    (ofParts table row).tableNumber = table.number := by
  apply UInt8.toNat_inj.mp
  rw [tableNumber_toNat, ofParts_toNat]
  have := Nat.mod_lt row.toNat (show 2 ^ 24 > 0 by decide)
  omega

theorem row_ofParts (table : Table) (row : UInt32) :
    (ofParts table row).row.toNat = row.toNat % 2 ^ 24 := by
  rw [row_toNat, ofParts_toNat]
  omega

/-- A token is in one table only. -/
theorem table_unique {t : Token} {a b : Table} (ha : t.isIn a = true) (hb : t.isIn b = true) :
    a = b := by
  simp only [isIn, beq_iff_eq] at ha hb
  exact Table.number_injective (ha.symm.trans hb)

theorem isIn_of_table? {t : Token} {table : Table} (h : t.table? = some table) :
    t.isIn table = true := by
  have hnumber := List.find?_some h
  rw [isIn, beq_iff_eq]
  exact (beq_iff_eq.mp hnumber).symm

theorem table?_of_isIn {t : Token} {table : Table} (h : t.isIn table = true) :
    t.table? = some table := by
  rw [table?, beq_iff_eq.mp h, Table.ofNumber?_number]

theorem isIn_of_index? {t : Token} {table : Table} {i : Nat} (h : t.index? table = some i) :
    t.isIn table = true := by
  simp only [index?] at h
  split at h
  · rename_i hc
    exact (Bool.and_eq_true_iff.mp hc).1
  · cases h

/-- The token at the end of a table names the place at the end. -/
theorem index?_next {table : Table} {size : Nat} (h : size + 1 < rowLimit) :
    (next table size).index? table = some size := by
  have hlt : size + 1 < UInt32.size := Nat.lt_trans h (by decide)
  have hrow : (next table size).row.toNat = size + 1 := by
    rw [next, if_pos hlt, row_ofParts, UInt32.toNat_ofNat_of_lt' hlt]
    exact Nat.mod_eq_of_lt h
  have hne : (next table size).row ≠ 0 := by
    intro e
    rw [e] at hrow
    exact absurd hrow.symm (Nat.succ_ne_zero size)
  have hin : (next table size).isIn table = true := by
    rw [isIn, next, tableNumber_ofParts, beq_self_eq_true]
  simp only [index?, hin, bne_iff_ne.mpr hne, Bool.and_self, ite_true, hrow, Nat.add_sub_cancel]

/-- Rows are counted from one, places from zero. -/
theorem row_of_index? {t : Token} {table : Table} {i : Nat} (h : t.index? table = some i) :
    t.row.toNat = i + 1 := by
  simp only [index?] at h
  split at h
  · rename_i hc
    have hne := bne_iff_ne.mp (Bool.and_eq_true_iff.mp hc).2
    have hpos : t.row.toNat ≠ 0 := fun e => hne (UInt32.toNat_inj.mp e)
    have := Option.some.inj h
    omega
  · cases h

/-- Only the next token of a table names the next place in it. -/
theorem eq_next_of_index? {t : Token} {table : Table} {i : Nat} (h : t.index? table = some i) :
    t = next table i := by
  have hin := isIn_of_index? h
  simp only [isIn, beq_iff_eq] at hin
  have hlt : t.row.toNat < 2 ^ 24 := by
    rw [row_toNat]
    exact Nat.mod_lt _ (by decide)
  have hrow := row_of_index? h
  have hsize : i + 1 < UInt32.size := Nat.lt_trans (hrow ▸ hlt) (by decide)
  apply ext_value
  rw [value_toNat, next, if_pos hsize, ofParts_toNat, UInt32.toNat_ofNat_of_lt' hsize, hin, hrow]
  omega

/-- Only the next token of a table names the next place in it. -/
theorem index?_inj {a b : Token} {table : Table} {i : Nat} (ha : a.index? table = some i)
    (hb : b.index? table = some i) : a = b :=
  (eq_next_of_index? ha).trans (eq_next_of_index? hb).symm

/-- The place of a token in its table is where owners are updated. -/
theorem slot_of_row {t : Token} {table : Table} {i : Nat} (h : t.index? table = some i) :
    t.row.toNat - 1 = i := by
  rw [row_of_index? h, Nat.add_sub_cancel]

/-! ## Counts -/

instance : Finite Token :=
  Finite.of_injective (fun t : Token => (⟨t.value.toNat, t.value.toNat_lt⟩ : Fin UInt32.size))
    fun _ _ h => ext_value (Fin.mk.inj h)

theorem card_le_count : Nat.card Token ≤ count := by
  have h := Nat.card_le_card_of_injective
    (fun t : Token => (⟨t.value.toNat, t.value.toNat_lt⟩ : Fin UInt32.size))
    fun _ _ h => ext_value (Fin.mk.inj h)
  rwa [Nat.card_fin] at h

/-- The number of tokens that a predicate leaves out. -/
noncomputable def free (p : Token → Prop) : Nat := Set.ncard {t | ¬ p t}

theorem free_le_count (p : Token → Prop) : free p ≤ count :=
  Nat.le_trans (Set.ncard_le_card _) card_le_count

theorem free_mono {p q : Token → Prop} (h : ∀ t, p t → q t) : free q ≤ free p :=
  Set.ncard_le_ncard (fun _ hq hp => hq (h _ hp)) (Set.toFinite _)

theorem free_lt {p q : Token → Prop} (h : ∀ t, p t → q t) {t : Token} (hp : ¬ p t) (hq : q t) :
    free q < free p :=
  Set.ncard_lt_ncard ⟨fun _ hq hp => hq (h _ hp), fun hsub => hsub hp hq⟩ (Set.toFinite _)

/-- Taking one more token leaves one token less. -/
theorem free_insert {p q : Token → Prop} {t : Token} (hp : ¬ p t)
    (h : ∀ x, q x ↔ x = t ∨ p x) : free q + 1 = free p := by
  have hset : {x | ¬ p x} = insert t {x | ¬ q x} := by
    ext x
    by_cases hx : x = t
    · simp [hx, hp]
    · simp [hx, h]
  have hnot : t ∉ {x | ¬ q x} := by simp [h]
  unfold free
  rw [hset, Set.ncard_insert_of_notMem hnot (Set.toFinite _)]

end Token

end CilTrim
