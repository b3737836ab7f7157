import CilTrim.Proofs.TypeRef.Parts

/-!
# Substitution in type references

Arguments that are put in one after the other can be put in at once, as long as no parameter that is
left by the first arguments is met by the second ones:

* `TypeRef.Exposed`: the parts of a reference that substitution reaches;
* `TypeRef.substitute_substitute_iff`: when two substitutions are one;
* `TypeRef.substitute_substitute`: a condition on the parameters for that.
-/

namespace CilTrim.TypeRef

/-! ## Parts that substitution reaches -/

/-- A part of a reference that substitution reaches, which is every part outside modifiers. -/
inductive Exposed : TypeRef → TypeRef → Prop where
  | self (r : TypeRef) : Exposed r r
  | argument {e a p : TypeRef} {args : List TypeRef} : a ∈ args → Exposed a p →
    Exposed (.generic e args) p
  | instantiated {e p : TypeRef} {args : List TypeRef} : Exposed e p → Exposed (.generic e args) p
  | modified {m e p : TypeRef} {required : Bool} : Exposed e p → Exposed (.modified m required e) p
  | array {e p : TypeRef} {rank : UInt32} : Exposed e p → Exposed (.array e rank) p
  | pointer {e p : TypeRef} : Exposed e p → Exposed (.pointer e) p
  | byRef {e p : TypeRef} : Exposed e p → Exposed (.byRef e) p
  | pinned {e p : TypeRef} : Exposed e p → Exposed (.pinned e) p

/-! ## Substitutions one after the other -/

/-- Without arguments nothing is replaced. -/
theorem substitute_nil (r : TypeRef) : r.substitute [] [] = r := by
  induction r using induct with
  | generic e args he hargs =>
    have hmap : args.map (substitute [] []) = args :=
      (List.map_congr_left hargs).trans (List.map_id args)
    rw [substitute, substituteAll_eq_map, he, hmap]
  | array e rank he => rw [substitute, he]
  | pointer e he => rw [substitute, he]
  | byRef e he => rw [substitute, he]
  | pinned e he => rw [substitute, he]
  | modified m required e _ he => rw [substitute, he]
  | _ => rfl

/-- A parameter for which there is an argument. -/
def HasArgument (typeArgs methodArgs : List TypeRef) : TypeRef → Prop
  | .typeParameter index => index < typeArgs.length
  | .methodParameter index => index < methodArgs.length
  | _ => False

/-- Parameters without an argument stay. -/
theorem substitute_of_not_hasArgument {typeArgs methodArgs : List TypeRef} {p : TypeRef}
    (hparam : p.isParameter = true) (h : ¬ p.HasArgument typeArgs methodArgs) :
    p.substitute typeArgs methodArgs = p := by
  cases p with
  | typeParameter index | methodParameter index =>
    rw [substitute, List.getElem?_eq_none (Nat.not_lt.mp h), Option.getD_none]
  | _ => cases hparam

theorem hasArgument_map {typeArgs methodArgs : List TypeRef} {f : TypeRef → TypeRef} {p : TypeRef} :
    p.HasArgument (typeArgs.map f) (methodArgs.map f) ↔ p.HasArgument typeArgs methodArgs := by
  cases p <;> simp [HasArgument]

/-- What is done to a replaced parameter can be done to its argument. A parameter that has none has
to be left alone. -/
theorem getD_map {args : List TypeRef} {index : Nat} {p : TypeRef} {f : TypeRef → TypeRef}
    (h : args.length ≤ index → f p = p) :
    f (args[index]?.getD p) = (args.map f)[index]?.getD p := by
  rw [List.getElem?_map]
  cases harg : args[index]? with
  | some arg => rfl
  | none => exact h (List.getElem?_eq_none_iff.mp harg)

/-- Arguments that are put in one after the other are put in at once, with the second ones put into
the first, exactly if the second ones leave alone every parameter that the first ones have left. -/
theorem substitute_substitute_iff {typeArgs methodArgs typeArgs' methodArgs' : List TypeRef}
    (r : TypeRef) :
    (r.substitute typeArgs methodArgs).substitute typeArgs' methodArgs' =
        r.substitute (typeArgs.map (substitute typeArgs' methodArgs'))
          (methodArgs.map (substitute typeArgs' methodArgs')) ↔
      ∀ p, r.Exposed p → p.isParameter = true → ¬ p.HasArgument typeArgs methodArgs →
        p.substitute typeArgs' methodArgs' = p := by
  constructor
  · intro h p hp hparam hleft
    -- Along the way to the parameter, both sides agree on each part.
    induction hp with
    | self p =>
      rwa [substitute_of_not_hasArgument hparam hleft,
        substitute_of_not_hasArgument hparam (mt hasArgument_map.mp hleft)] at h
    | argument ha _ ih =>
      simp only [substitute, substituteAll_eq_map, List.map_map, generic.injEq] at h
      exact ih (List.map_inj_left.mp h.2 _ ha) hparam hleft
    | instantiated _ ih =>
      simp only [substitute, generic.injEq] at h
      exact ih h.1 hparam hleft
    | modified _ ih =>
      simp only [substitute, modified.injEq] at h
      exact ih h.2.2 hparam hleft
    | array _ ih =>
      simp only [substitute, array.injEq] at h
      exact ih h.1 hparam hleft
    | pointer _ ih | byRef _ ih | pinned _ ih =>
      simp only [substitute, pointer.injEq, byRef.injEq, pinned.injEq] at h
      exact ih h hparam hleft
  · intro h
    induction r using induct with
    | definition | external | primitive => rfl
    | typeParameter index | methodParameter index =>
      exact getD_map fun hleft => h _ (.self _) rfl (Nat.not_lt.mpr hleft)
    | generic e args he hargs =>
      have hmap : ∀ a ∈ args, (a.substitute typeArgs methodArgs).substitute typeArgs' methodArgs' =
          a.substitute (typeArgs.map (substitute typeArgs' methodArgs'))
            (methodArgs.map (substitute typeArgs' methodArgs')) := fun a ha =>
        hargs a ha fun p hp => h p (.argument ha hp)
      simp only [substitute, substituteAll_eq_map, List.map_map]
      rw [he fun p hp => h p (.instantiated hp)]
      exact congrArg _ (List.map_congr_left hmap)
    | array e rank he =>
      simp only [substitute]
      rw [he fun p hp => h p (.array hp)]
    | pointer e he =>
      simp only [substitute]
      rw [he fun p hp => h p (.pointer hp)]
    | byRef e he =>
      simp only [substitute]
      rw [he fun p hp => h p (.byRef hp)]
    | pinned e he =>
      simp only [substitute]
      rw [he fun p hp => h p (.pinned hp)]
    | modified m required e _ he =>
      simp only [substitute]
      rw [he fun p hp => h p (.modified hp)]

/-- Arguments that are put in one after the other are put in at once with the second ones put into
the first, if the second ones meet no parameter that the first ones have left. -/
theorem substitute_substitute {typeArgs methodArgs typeArgs' methodArgs' : List TypeRef}
    (r : TypeRef)
    (htype : ∀ i, r.Exposed (.typeParameter i) → i < typeArgs.length ∨ typeArgs'.length ≤ i)
    (hmethod : ∀ i, r.Exposed (.methodParameter i) →
      i < methodArgs.length ∨ methodArgs'.length ≤ i) :
    (r.substitute typeArgs methodArgs).substitute typeArgs' methodArgs' =
      r.substitute (typeArgs.map (substitute typeArgs' methodArgs'))
        (methodArgs.map (substitute typeArgs' methodArgs')) := by
  refine (substitute_substitute_iff r).mpr fun p hp hparam hleft => ?_
  refine substitute_of_not_hasArgument hparam ?_
  cases p with
  | typeParameter i => exact Nat.not_lt.mpr ((htype i hp).resolve_left hleft)
  | methodParameter i => exact Nat.not_lt.mpr ((hmethod i hp).resolve_left hleft)
  | _ => cases hparam

end CilTrim.TypeRef
