import CilTrim.Proofs.Attribute.Decoded
import CilTrim.Proofs.Blob.Costs

/-!
# What values cost

Every value that is read is paid for with bytes. A scalar, a text, a type and an empty array cost at
least one byte each, wherever they stand in a value, and what is around them only adds to that:

* `Argument.leaves`, `Argument.height`: what a value is made of, and how deep it nests;
* `Paid`, `PaidAll`: a value that costs a byte for each leaf, and a list of them;
* `costs_kindAt`, `costs_valueAt`: what the decoder reads is paid for;
* `le_remaining_of_times`: so many values need so many bytes.
-/

namespace CilTrim

namespace Argument

mutual

/-- How many scalars, texts, types and empty arrays a value is made of. -/
def leaves : Argument → Nat
  | .array [] => 1
  | .array (item :: rest) => item.leaves + leavesAll rest
  | .enum _ value => value.leaves
  | _ => 1

/-- How many of them the values of a list are made of. -/
def leavesAll : List Argument → Nat
  | [] => 0
  | item :: rest => item.leaves + leavesAll rest

end

mutual

/-- How many levels a value nests: itself, and those of what is in it. -/
def height : Argument → Nat
  | .array items => heightAll items + 1
  | .enum _ value => value.height + 1
  | _ => 1

/-- How many levels the values of a list nest. -/
def heightAll : List Argument → Nat
  | [] => 0
  | item :: rest => max item.height (heightAll rest)

end

theorem leaves_leaf {v : Argument} (h : v.isLeaf = true) : v.leaves = 1 := by
  cases v with
  | array | enum => cases h
  | _ => rfl

theorem height_leaf {v : Argument} (h : v.isLeaf = true) : v.height = 1 := by
  cases v with
  | array | enum => cases h
  | _ => rfl

theorem leaves_array_le (items : List Argument) :
    (Argument.array items).leaves ≤ leavesAll items + 1 := by
  cases items with
  | nil => exact Nat.le_refl 1
  | cons item rest => exact Nat.le_succ _

theorem leaves_pos (v : Argument) : 1 ≤ v.leaves := by
  match v with
  | .array [] => exact Nat.le_refl 1
  | .array (item :: rest) => exact Nat.le_add_right_of_le item.leaves_pos
  | .enum _ value => exact value.leaves_pos
  | .bool _ | .char _ | .i1 _ | .u1 _ | .i2 _ | .u2 _ | .i4 _ | .u4 _ | .i8 _ | .u8 _ | .r4 _
  | .r8 _ | .string _ | .type _ => exact Nat.le_refl 1

theorem length_le_leavesAll (items : List Argument) : items.length ≤ leavesAll items := by
  induction items with
  | nil => exact Nat.le_refl 0
  | cons item rest ih =>
    have hitem := item.leaves_pos
    rw [List.length_cons, leavesAll]
    omega

end Argument

namespace Attribute

open Blob Decode

variable {resolver : EnumResolver} {levels cost : Nat} {v : Argument}

/-- A value costs a byte for each of its leaves, and nests no deeper than it may. -/
structure Paid (levels : Nat) (v : Argument) (cost : Nat) : Prop where
  leaves : v.leaves ≤ cost
  height : v.height ≤ levels

/-- As many values as there should be cost a byte for each of their leaves, and nest no deeper than
they may. -/
structure PaidAll (levels length : Nat) (items : List Argument) (cost : Nat) : Prop where
  length : items.length = length
  leaves : Argument.leavesAll items ≤ cost
  height : Argument.heightAll items ≤ levels

theorem paid_leaf (hleaf : v.isLeaf = true) (hcost : 1 ≤ cost) : Paid (levels + 1) v cost where
  leaves := (Argument.leaves_leaf hleaf).trans_le hcost
  height := (Argument.height_leaf hleaf).trans_le (Nat.le_add_left 1 levels)

/-- What is read on a lower level, behind more bytes. -/
theorem Paid.mono (h : Paid levels v cost) (more : Nat) : Paid (levels + 1) v (more + cost) where
  leaves := Nat.le_add_left_of_le h.leaves
  height := Nat.le_succ_of_le h.height

theorem Paid.enum (h : Paid levels v cost) (name : String) :
    Paid (levels + 1) (.enum name v) cost where
  leaves := h.leaves
  height := Nat.succ_le_succ h.height

theorem PaidAll.cons {length cost' : Nat} {items : List Argument} (h : Paid levels v cost)
    (h' : PaidAll levels length items cost') :
    PaidAll levels (length + 1) (v :: items) (cost + cost') where
  length := congrArg Nat.succ h'.length
  leaves := Nat.add_le_add h.leaves h'.leaves
  height := Nat.max_le.mpr ⟨h.height, h'.height⟩

/-- The length in front of its items pays for an empty array. -/
theorem PaidAll.array {length more : Nat} {items : List Argument}
    (h : PaidAll levels length items cost) (hmore : 1 ≤ more) :
    Paid (levels + 1) (.array items) (more + cost) where
  leaves := by
    have harray := Argument.leaves_array_le items
    have hitems := h.leaves
    omega
  height := Nat.succ_le_succ h.height

/-! ## Reads -/

theorem costs_read {α : Type} {m : Read α} {P : α → Nat → Prop} (h : Costs m P) :
    Costs (read m) P :=
  fun r a r' ha => h r a r' (eq_ok_of_read ha)

theorem costs_enumUnderlying (name : String) :
    Costs (enumUnderlying resolver name) fun _ cost => cost = 0 := by
  unfold enumUnderlying
  split
  · exact costs_throw _
  · split
    · exact costs_pure rfl
    · exact costs_throw _

/-- A kind costs its tag at least. -/
theorem costs_kindAt (levels : Nat) : Costs (kindAt resolver levels) fun _ cost => 1 ≤ cost := by
  induction levels with
  | zero => exact costs_throw _
  | succ levels ih =>
    refine (costs_read costs_byte).bind fun tag n hn => ?_
    subst hn
    split
    · exact costs_pure (Nat.le_refl 1)
    · split
      · exact ih.bind fun _ _ _ => costs_pure (Nat.le_add_right 1 _)
      · split
        · refine (costs_read costs_serString).bind fun name _ _ => ?_
          split
          · exact costs_throw _
          · exact (costs_enumUnderlying _).bind fun _ _ _ => costs_pure (Nat.le_add_right 1 _)
        · exact costs_throw _

/-- Steps that are repeated, each of which reads a value that is paid for. -/
theorem costs_times {step : Decode Argument} (h : Costs step (Paid levels)) (n : Nat) :
    Costs (times step n) (PaidAll levels n) := by
  induction n with
  | zero => exact costs_pure ⟨rfl, Nat.le_refl 0, Nat.zero_le levels⟩
  | succ n ih =>
    exact h.bind fun v cost hv => ih.bind fun items cost' hitems => costs_pure (.cons hv hitems)

/-! ## Values -/

theorem costs_word_leaf (width : Nat) {f : Nat → Argument} (hwidth : 1 ≤ width)
    (hleaf : ∀ n, (f n).isLeaf = true) :
    Costs (do pure (f (← read (Read.word width)))) (Paid (levels + 1)) := by
  refine (costs_read (costs_word width)).bind fun n cost hcost => costs_pure ?_
  rw [hcost]
  exact paid_leaf (hleaf n) hwidth

theorem costs_text_leaf {f : Option String → Argument} (hleaf : ∀ s, (f s).isLeaf = true) :
    Costs (do pure (f (← read Read.serString))) (Paid (levels + 1)) :=
  (costs_read costs_serString).bind fun s _ hcost => costs_pure (paid_leaf (hleaf s) hcost)

/-- Every value that is read is paid for. -/
theorem costs_valueAt (levels : Nat) (k : ArgKind) :
    Costs (valueAt resolver levels k) (Paid levels) := by
  induction levels generalizing k with
  | zero => exact costs_throw _
  | succ levels ih =>
    cases k with
    | string | type => exact costs_text_leaf fun _ => rfl
    | object => exact (costs_kindAt levels).bind fun k n _ => (ih k).mono fun v _ h => h.mono n
    | enum name underlying => exact (ih underlying).bind fun v _ h => costs_pure (h.enum name)
    | array element =>
      refine (costs_read (costs_word 4)).bind fun length n hn => ?_
      subst hn
      dsimp only
      split
      · exact costs_pure ⟨by decide, Nat.succ_le_succ (Nat.zero_le levels)⟩
      · split
        · exact costs_throw _
        · refine costs_get_bind fun r => ?_
          split
          · exact costs_throw _
          · refine (costs_times (ih element) _).bind fun items _ hitems => costs_pure ?_
            exact hitems.array (by decide)
    | _ => exact costs_word_leaf _ (by decide) fun _ => rfl

/-- Values that follow one another are no more than the bytes that are left. -/
theorem le_remaining_of_times {k : ArgKind} {length : Nat} {r r' : Reader} {items : List Argument}
    (h : times (valueAt resolver levels k) length r = .ok items r') : length ≤ r.remaining := by
  obtain ⟨cost, hcost, -, hitems⟩ := costs_times (costs_valueAt levels k) length r items r' h
  have hlength := Argument.length_le_leavesAll items
  have hleaves := hitems.leaves
  rw [hitems.length] at hlength
  omega

end Attribute

end CilTrim
