import CilTrim.Mark.Rules
import Mathlib.Logic.Relation

/-!
# Methods above a method

`OverrideTable.basesAbove` lists exactly the methods that a method overrides, directly or through
others. Its loop passes a pair of the table in every step, which bounds the steps:

* `OverrideTable.pending`: the steps that are left;
* `OverrideTable.above_closed`: the list has all of the stack and is closed under bases;
* `OverrideTable.mem_basesAbove`: the methods of the list.
-/

namespace CilTrim

namespace OverrideTable

variable {t : OverrideTable} {visited stack : List Token} {fuel : Nat}

/-- A method overrides another, directly or through others. -/
def Above (t : OverrideTable) : Token → Token → Prop :=
  Relation.TransGen fun method base => (base, method) ∈ t.edges

/-- What is above a method is overridden by some method. -/
theorem Above.edge {method base : Token} (h : t.Above method base) :
    ∃ overrider, (base, overrider) ∈ t.edges := by
  cases h with
  | single h => exact ⟨method, h⟩
  | tail _ h => exact ⟨_, h⟩

/-- The steps that the loop may still take: the stack, and the pairs of methods that have not been
visited. -/
def pending (t : OverrideTable) (visited stack : List Token) : Nat :=
  stack.length + t.edges.countP fun edge => edge.2 ∉ visited

/-- The pairs of a method that is visited move to the stack. -/
theorem pending_visit {base : Token} (h : base ∉ visited) :
    t.pending (base :: visited) ((t.basesOf base).reverse ++ stack) + 1 =
      t.pending visited (base :: stack) := by
  have split : ∀ edges : List (Token × Token),
      edges.countP (fun edge => edge.2 ∉ visited) =
        (edges.filter (·.2 == base)).length +
          edges.countP fun edge => edge.2 ∉ base :: visited := by
    intro edges
    induction edges with
    | nil => rfl
    | cons edge rest ih =>
      rw [List.countP_cons, List.countP_cons, ih]
      by_cases he : edge.2 = base
      · simp only [he, h, List.mem_cons, beq_self_eq_true, List.filter_cons_of_pos,
          List.length_cons, true_or, not_true, not_false_eq_true, decide_true, decide_false,
          ite_true, Bool.false_eq_true, ite_false]
        omega
      · simp only [he, List.mem_cons, false_or, List.filter_cons_of_neg, beq_iff_eq,
          not_false_eq_true]
        omega
  simp only [pending, basesOf, List.length_append, List.length_reverse, List.length_map,
    List.length_cons, split t.edges]
  omega

theorem pending_skip {base : Token} :
    t.pending visited stack + 1 = t.pending visited (base :: stack) := by
  simp only [pending, List.length_cons]
  omega

/-- Whatever is listed is on the stack or above a method of it. -/
theorem of_mem_above {b : Token} (h : b ∈ t.above fuel visited stack) :
    ∃ x ∈ stack, b = x ∨ t.Above x b := by
  induction fuel generalizing visited stack with
  | zero => cases h
  | succ fuel ih =>
    cases stack with
    | nil => cases h
    | cons base stack =>
      unfold above at h
      split at h
      · obtain ⟨x, hx, hb⟩ := ih h
        exact ⟨x, List.mem_cons_of_mem _ hx, hb⟩
      · rcases List.mem_cons.mp h with rfl | h
        · exact ⟨b, List.mem_cons_self, .inl rfl⟩
        · obtain ⟨x, hx, hb⟩ := ih h
          rcases List.mem_append.mp hx with hx | hx
          · have hxb := mem_basesOf.mp (List.mem_reverse.mp hx)
            refine ⟨base, List.mem_cons_self, .inr ?_⟩
            rcases hb with rfl | hb
            · exact .single hxb
            · exact .head hxb hb
          · exact ⟨x, List.mem_cons_of_mem _ hx, hb⟩

/-- What is visited or listed in the end has all of the stack, and with each listed method its
bases. -/
theorem above_closed (h : t.pending visited stack < fuel) :
    (∀ x ∈ stack, x ∈ visited ∨ x ∈ t.above fuel visited stack) ∧
      ∀ x ∈ t.above fuel visited stack, ∀ b ∈ t.basesOf x,
        b ∈ visited ∨ b ∈ t.above fuel visited stack := by
  induction fuel generalizing visited stack with
  | zero => omega
  | succ fuel ih =>
    cases stack with
    | nil =>
      refine ⟨fun x hx => (by cases hx), fun x hx => ?_⟩
      cases hx
    | cons base stack =>
      unfold above
      by_cases hv : base ∈ visited
      · rw [if_pos hv]
        rw [← pending_skip] at h
        obtain ⟨all, closed⟩ := ih (Nat.lt_of_succ_lt_succ h)
        refine ⟨fun x hx => ?_, closed⟩
        rcases List.mem_cons.mp hx with rfl | hx
        · exact .inl hv
        · exact all x hx
      · rw [if_neg hv]
        rw [← pending_visit hv] at h
        obtain ⟨all, closed⟩ := ih (Nat.lt_of_succ_lt_succ h)
        -- What the rest of the loop takes for visited is visited, or is the method at hand.
        have lift {x : Token} (hx : x ∈ base :: visited ∨ x ∈ t.above fuel (base :: visited)
            ((t.basesOf base).reverse ++ stack)) :
            x ∈ visited ∨ x ∈ base :: t.above fuel (base :: visited)
              ((t.basesOf base).reverse ++ stack) := by
          rcases hx with hx | hx
          · rcases List.mem_cons.mp hx with rfl | hx
            · exact .inr List.mem_cons_self
            · exact .inl hx
          · exact .inr (List.mem_cons_of_mem _ hx)
        refine ⟨fun x hx => ?_, fun x hx b hb => ?_⟩
        · rcases List.mem_cons.mp hx with rfl | hx
          · exact .inr List.mem_cons_self
          · exact lift (all x (List.mem_append_right _ hx))
        · rcases List.mem_cons.mp hx with rfl | hx
          · exact lift (all b (List.mem_append_left _ (List.mem_reverse.mpr hb)))
          · exact lift (closed x hx b hb)

/-- The steps that the loop has are enough, wherever it starts. -/
theorem pending_start (t : OverrideTable) (method : Token) :
    t.pending [] (t.basesOf method).reverse < 2 * t.size + 1 := by
  have h₁ : (t.basesOf method).length ≤ t.edges.length := by
    rw [basesOf, List.length_map]
    exact List.length_filter_le _ _
  have h₂ := List.countP_le_length (l := t.edges) (p := fun edge => edge.2 ∉ ([] : List Token))
  simp only [pending, List.length_reverse, size]
  omega

/-- The methods above a method are those that it overrides, directly or through others. -/
theorem mem_basesAbove {method base : Token} :
    base ∈ t.basesAbove method ↔ t.Above method base := by
  unfold basesAbove
  obtain ⟨all, closed⟩ := above_closed (t.pending_start method)
  constructor
  · intro h
    obtain ⟨x, hx, rfl | hb⟩ := of_mem_above h
    · exact .single (mem_basesOf.mp (List.mem_reverse.mp hx))
    · exact .head (mem_basesOf.mp (List.mem_reverse.mp hx)) hb
  · intro h
    induction h with
    | single he =>
      exact (all _ (List.mem_reverse.mpr (mem_basesOf.mpr he))).resolve_left List.not_mem_nil
    | tail _ he ih => exact (closed _ ih _ (mem_basesOf.mpr he)).resolve_left List.not_mem_nil

end OverrideTable

end CilTrim
