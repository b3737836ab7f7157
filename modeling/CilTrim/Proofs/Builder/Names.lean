import CilTrim.Proofs.Builder.Ledger

/-!
# Names of built types

The name of a nested type is computed along the types around it, with a bound on their number. As
those types stand in earlier rows, the bound is never met, and as the ledger only grows, a name
never changes:

* `Ledger.Named`: the name of a type, along the types around it;
* `Ledger.Ordered`, `Model.fullName_of_named`: types are nested in earlier ones, and then the name
  is the computed one.
-/

namespace CilTrim

namespace Ledger

variable {L : Ledger} {t : Token} {name : String}

/-! ## Names along the types around a type -/

/-- The name of a type with the names of the types around it. -/
inductive Named (L : Ledger) : Token → String → Prop where
  | outermost {t : Token} {d : TypeDef} : L.type? t = some d → d.declaringType = none →
    Named L t d.ownName
  | nested {t outer : Token} {d : TypeDef} {name : String} : L.type? t = some d →
    d.declaringType = some outer → Named L outer name → Named L t (name ++ "/" ++ d.name)

/-- Additions leave names. -/
theorem Named.append (h : L.Named t name) (new : Ledger) : (L ++ new).Named t name := by
  induction h with
  | outermost hd ho => exact .outermost (at?_append hd _) ho
  | nested hd ho _ ih => exact .nested (at?_append hd _) ho ih

/-- A type is nested in an earlier one. -/
def Ordered (L : Ledger) : Prop :=
  ∀ (i : Nat) (d : TypeDef) (outer : Token), L.types[i]? = some d →
    d.declaringType = some outer → ∃ j < i, outer.index? .typeDef = some j

end Ledger

namespace Model

variable {m : Model} {t : Token} {name : String}

/-- The computed name is the name along the types around a type, as long as there may be as many
of them as types before it. -/
theorem fullNameWithin_of_named (ordered : m.ledger.Ordered) (h : m.ledger.Named t name)
    {depth i : Nat} (hi : t.index? .typeDef = some i) (hdepth : i ≤ depth) :
    m.fullNameWithin depth t = name := by
  induction h generalizing depth i with
  | outermost hd ho =>
    rw [type?_ledger] at hd
    obtain ⟨d, hfound, rfl⟩ := Option.map_eq_some_iff.mp hd
    have ho : d.declaringType = none := ho
    rw [fullNameWithin.eq_def, hfound]
    simp only [ho]
    rfl
  | @nested t outer d name hd ho _ ih =>
    have hrow : m.ledger.types[i]? = some d := by
      rwa [Ledger.type?, Ledger.at?, hi, Option.bind_some] at hd
    obtain ⟨j, hj, houter⟩ := ordered i d outer hrow ho
    rw [type?_ledger] at hd
    obtain ⟨d, hfound, rfl⟩ := Option.map_eq_some_iff.mp hd
    have ho : d.declaringType = some outer := ho
    obtain ⟨depth, rfl⟩ : ∃ k, depth = k + 1 := ⟨depth - 1, by omega⟩
    rw [fullNameWithin.eq_def, hfound]
    simp only [ho]
    rw [ih houter (by omega)]
    rfl

theorem fullName_of_named (ordered : m.ledger.Ordered) (h : m.ledger.Named t name) :
    m.fullName t = name := by
  have htype : ∃ d, m.ledger.type? t = some d := by
    cases h with
    | outermost hd _ => exact ⟨_, hd⟩
    | nested hd _ _ => exact ⟨_, hd⟩
  obtain ⟨d, hd⟩ := htype
  rw [type?_ledger] at hd
  obtain ⟨d, hd, -⟩ := Option.map_eq_some_iff.mp hd
  obtain ⟨i, hi, hrow⟩ := Option.bind_eq_some_iff.mp hd
  exact fullNameWithin_of_named ordered h hi (Array.getElem?_eq_some_iff.mp hrow).1.le

end Model

end CilTrim
