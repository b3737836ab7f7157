import CilTrim.Token

/-!
# Override tables

Which method stands in for which. A table is a list of pairs without repetition, in the order in
which they were found; it is read in both directions:

* `OverrideTable.insert`, `OverrideTable.insertAll`: adds pairs;
* `OverrideTable.overridesOf`, `OverrideTable.basesOf`: the methods that stand in for one, and those
  that one stands in for.
-/

namespace CilTrim

/-- Pairs of a method and one that overrides it. -/
structure OverrideTable where
  edges : List (Token × Token)
deriving Repr, DecidableEq

namespace OverrideTable

/-- A table without pairs. -/
def empty : OverrideTable := ⟨[]⟩

/-- Adds a pair, unless it is there already or pairs a method with itself. -/
def insert (t : OverrideTable) (base overrider : Token) : OverrideTable :=
  if base = overrider ∨ (base, overrider) ∈ t.edges then t
  else ⟨t.edges ++ [(base, overrider)]⟩

/-- Adds pairs in order. -/
def insertAll (t : OverrideTable) (pairs : List (Token × Token)) : OverrideTable :=
  pairs.foldl (fun t pair => t.insert pair.1 pair.2) t

/-- The methods that override a method. -/
def overridesOf (t : OverrideTable) (method : Token) : List Token :=
  (t.edges.filter (·.1 == method)).map (·.2)

/-- The methods that a method overrides. -/
def basesOf (t : OverrideTable) (method : Token) : List Token :=
  (t.edges.filter (·.2 == method)).map (·.1)

/-- The number of pairs. -/
def size (t : OverrideTable) : Nat := t.edges.length

/-- There are no pairs. -/
def isEmpty (t : OverrideTable) : Bool := t.edges.isEmpty

/-- A method overrides another iff their pair is in the table. -/
theorem mem_overridesOf {t : OverrideTable} {base overrider : Token} :
    overrider ∈ t.overridesOf base ↔ (base, overrider) ∈ t.edges := by
  simp [overridesOf]

/-- The view from the method that overrides is that of the same pairs. -/
theorem mem_basesOf {t : OverrideTable} {base overrider : Token} :
    base ∈ t.basesOf overrider ↔ (base, overrider) ∈ t.edges := by
  simp [basesOf]

/-- Inserting adds the pair, unless it pairs a method with itself, and nothing else. -/
theorem mem_edges_insert {t : OverrideTable} {base overrider : Token} {edge : Token × Token} :
    edge ∈ (t.insert base overrider).edges ↔
      edge ∈ t.edges ∨ (base ≠ overrider ∧ edge = (base, overrider)) := by
  unfold insert
  split <;> rename_i h
  · constructor
    · exact Or.inl
    · rintro (h' | ⟨hne, rfl⟩)
      · exact h'
      · exact h.resolve_left hne
  · simp only [not_or] at h
    simp [h.1]

end OverrideTable

end CilTrim
