import CilTrim.Annotation.Store

/-!
# Changes of marks

What each change of marks does to each node: one lemma for each pair of a change and a view.
`Marks.markAll` makes roots of nodes.
-/

namespace CilTrim

namespace Marks

variable {m : Marks} {t node : Token} {reason : Reason}

theorem getElem?_insert {α : Type} {map : TokenMap α} {value : α} :
    (map.insert node value)[t]? = if t = node then some value else map[t]? := by
  rw [Std.ExtTreeMap.getElem?_insert]
  by_cases h : t = node
  · rw [if_pos h, if_pos (Std.compare_eq_iff_eq.mpr h.symm)]
  · rw [if_neg h, if_neg fun e => h (Std.compare_eq_iff_eq.mp e).symm]

/-! ## Marked nodes -/

@[simp] theorem isMarked_mark : (m.mark node reason).isMarked t = true ↔
    t = node ∨ m.isMarked t = true := by
  unfold mark
  split <;> rename_i h
  · constructor
    · exact .inr
    · rintro (rfl | h')
      · exact h
      · exact h'
  · unfold isMarked status
    dsimp only
    rw [getElem?_insert]
    by_cases ht : t = node <;> simp [ht]

@[simp] theorem isMarked_setProcessed : (m.setProcessed node).isMarked t = true ↔
    t = node ∨ m.isMarked t = true := by
  unfold isMarked status setProcessed
  dsimp only
  rw [getElem?_insert]
  by_cases ht : t = node <;> simp [ht]

@[simp] theorem isMarked_ensureParsed : (m.ensureParsed node).isMarked t = m.isMarked t := by
  unfold ensureParsed
  split <;> rfl

/-! ## Processed nodes -/

@[simp] theorem isProcessed_mark : (m.mark node reason).isProcessed t = m.isProcessed t := by
  unfold mark
  split <;> rename_i h
  · rfl
  · unfold isProcessed status
    dsimp only
    rw [getElem?_insert]
    by_cases ht : t = node
    · have hn : m.status node = .unmarked := by simpa [isMarked] using h
      unfold status at hn
      rw [if_pos ht, ht, hn]
      rfl
    · rw [if_neg ht]

@[simp] theorem isProcessed_setProcessed : (m.setProcessed node).isProcessed t = true ↔
    t = node ∨ m.isProcessed t = true := by
  unfold isProcessed status setProcessed
  dsimp only
  rw [getElem?_insert]
  by_cases ht : t = node <;> simp [ht]

@[simp] theorem isProcessed_ensureParsed :
    (m.ensureParsed node).isProcessed t = m.isProcessed t := by
  unfold ensureParsed
  split <;> rfl

theorem isMarked_of_isProcessed (h : m.isProcessed t = true) : m.isMarked t = true := by
  unfold isProcessed at h
  unfold isMarked
  rw [beq_iff_eq.mp h]
  rfl

/-! ## Actions -/

@[simp] theorem methodAction_mark : (m.mark node reason).methodAction t = m.methodAction t := by
  unfold mark
  split <;> rfl

@[simp] theorem methodAction_setProcessed :
    (m.setProcessed node).methodAction t = m.methodAction t :=
  rfl

/-- An action that a method has is never changed, and one is given at most to parse the body. -/
theorem methodAction_ensureParsed :
    (m.ensureParsed node).methodAction t =
      if t = node ∧ m.methodAction node = .nothing then .parse else m.methodAction t := by
  unfold ensureParsed
  by_cases hn : m.methodAction node = .nothing
  · have set : (m.setMethodAction node .parse).methodAction t =
        if t = node then .parse else m.methodAction t := by
      unfold setMethodAction methodAction
      dsimp only
      rw [getElem?_insert]
      split <;> rfl
    rw [if_pos hn, set]
    simp only [hn, and_true]
  · rw [if_neg hn, if_neg fun h => hn h.2]

/-- A method whose body is to be parsed has an action. -/
theorem methodAction_ensureParsed_ne (h : t = node ∨ m.methodAction t ≠ .nothing) :
    (m.ensureParsed node).methodAction t ≠ .nothing := by
  rw [methodAction_ensureParsed]
  split <;> rename_i hc
  · decide
  · intro hn
    rcases h with rfl | h
    · exact hc ⟨rfl, hn⟩
    · exact h hn

/-- An action that a method has stays. -/
theorem ensureParsed_of_ne (h : m.methodAction node ≠ .nothing) : m.ensureParsed node = m :=
  if_neg h

theorem methodAction_ensureParsed_forced :
    (m.ensureParsed node).methodAction t = .forceParse ↔ m.methodAction t = .forceParse := by
  rw [methodAction_ensureParsed]
  split <;> rename_i hc
  · obtain ⟨rfl, hn⟩ := hc
    rw [hn]
    decide
  · exact Iff.rfl

/-! ## Roots -/

/-- The marks with nodes that are asked for. -/
def markAll (m : Marks) (nodes : List Token) : Marks :=
  nodes.foldl (fun m node => m.mark node .root) m

variable {nodes : List Token}

@[simp] theorem isMarked_markAll :
    (m.markAll nodes).isMarked t = true ↔ t ∈ nodes ∨ m.isMarked t = true := by
  induction nodes generalizing m with
  | nil => simp [markAll]
  | cons node nodes ih =>
    have step : m.markAll (node :: nodes) = (m.mark node .root).markAll nodes := rfl
    rw [step, ih, isMarked_mark, List.mem_cons, or_left_comm, or_assoc]

@[simp] theorem isProcessed_markAll : (m.markAll nodes).isProcessed t = m.isProcessed t := by
  induction nodes generalizing m with
  | nil => rfl
  | cons node nodes ih => exact ih.trans isProcessed_mark

@[simp] theorem methodAction_markAll : (m.markAll nodes).methodAction t = m.methodAction t := by
  induction nodes generalizing m with
  | nil => rfl
  | cons node nodes ih => exact ih.trans methodAction_mark

end Marks

end CilTrim
