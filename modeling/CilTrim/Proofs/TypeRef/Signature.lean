import CilTrim.Member
import CilTrim.Proofs.TypeRef.Substitution

/-!
# Substitution in signatures

The arguments of a declaring type are put into every type of a signature, and substitutions compose
for signatures as they do for types:

* `Signature.substitute_eq`: substitution type by type, whether or not there are arguments;
* `Signature.substitute_substitute_iff`: when two substitutions are one;
* `Signature.substitution_composes`: the laws of substitution in types and signatures.
-/

namespace CilTrim

namespace Signature

/-- The types of a signature. -/
def types (s : Signature) : List TypeRef :=
  s.returnType :: s.params

/-- A signature is left as it is when there are no arguments, which is what substitution in each of
its types does as well. -/
theorem substitute_eq (s : Signature) (args : List TypeRef) :
    s.substitute args =
      { s with
        returnType := s.returnType.substitute args []
        params := s.params.map (TypeRef.substitute args []) } := by
  cases args with
  | cons arg args => rfl
  | nil =>
    have hparams : s.params.map (TypeRef.substitute [] []) = s.params :=
      (List.map_congr_left fun r _ => r.substitute_nil).trans (List.map_id _)
    rw [TypeRef.substitute_nil, hparams]
    rfl

/-- Two substitutions in a signature are one exactly if they are one in each of its types. -/
theorem substitute_substitute_iff {args args' : List TypeRef} (s : Signature) :
    (s.substitute args).substitute args' =
        s.substitute (args.map (TypeRef.substitute args' [])) ↔
      ∀ r ∈ s.types, ∀ p, r.Exposed p → p.isParameter = true → ¬ p.HasArgument args [] →
        p.substitute args' [] = p := by
  have htype (r : TypeRef) :
      (r.substitute args []).substitute args' [] =
          r.substitute (args.map (TypeRef.substitute args' [])) [] ↔
        ∀ p, r.Exposed p → p.isParameter = true → ¬ p.HasArgument args [] →
          p.substitute args' [] = p :=
    @TypeRef.substitute_substitute_iff args [] args' [] r
  simp only [substitute_eq, mk.injEq, true_and, List.map_map, List.map_inj_left,
    Function.comp_apply, htype, types, List.forall_mem_cons]

/-- Parameters become their arguments, and substitution without arguments changes nothing.
Substitutions one after the other are one substitution, if no parameter outside modifiers that the
first has left is met by the second; or exactly, if the second leaves all these parameters alone.
The laws hold of signatures, which are substituted type by type. -/
theorem substitution_composes :
    (∀ (ts ms : List TypeRef) (i : Nat) (a : TypeRef),
      (ts[i]? = some a → (TypeRef.typeParameter i).substitute ts ms = a) ∧
        (ms[i]? = some a → (TypeRef.methodParameter i).substitute ts ms = a)) ∧
    (∀ r : TypeRef, r.substitute [] [] = r) ∧
    (∀ (r : TypeRef) (ts ms ts' ms' : List TypeRef),
      (∀ i, r.Exposed (.typeParameter i) → i < ts.length ∨ ts'.length ≤ i) →
      (∀ i, r.Exposed (.methodParameter i) → i < ms.length ∨ ms'.length ≤ i) →
        (r.substitute ts ms).substitute ts' ms' =
          r.substitute (ts.map (TypeRef.substitute ts' ms'))
            (ms.map (TypeRef.substitute ts' ms'))) ∧
    (∀ (r : TypeRef) (ts ms ts' ms' : List TypeRef),
      (r.substitute ts ms).substitute ts' ms' =
          r.substitute (ts.map (TypeRef.substitute ts' ms'))
            (ms.map (TypeRef.substitute ts' ms')) ↔
        ∀ p, r.Exposed p → p.isParameter = true → ¬ p.HasArgument ts ms →
          p.substitute ts' ms' = p) ∧
    (∀ (s : Signature) (ts : List TypeRef),
      s.substitute ts =
        { s with
          returnType := s.returnType.substitute ts []
          params := s.params.map (TypeRef.substitute ts []) }) ∧
    ∀ (s : Signature) (ts ts' : List TypeRef),
      (∀ r ∈ s.types, ∀ i, r.Exposed (.typeParameter i) → i < ts.length ∨ ts'.length ≤ i) →
        (s.substitute ts).substitute ts' = s.substitute (ts.map (TypeRef.substitute ts' [])) := by
  refine ⟨fun ts ms i a => ⟨fun h => ?_, fun h => ?_⟩, TypeRef.substitute_nil,
    fun r ts ms ts' ms' => r.substitute_substitute,
    fun r ts ms ts' ms' => r.substitute_substitute_iff, substitute_eq, fun s ts ts' h => ?_⟩
  · rw [TypeRef.substitute, h, Option.getD_some]
  · rw [TypeRef.substitute, h, Option.getD_some]
  refine s.substitute_substitute_iff.mpr fun r hr p hp hparam hleft => ?_
  refine TypeRef.substitute_of_not_hasArgument hparam ?_
  cases p with
  | typeParameter i => exact Nat.not_lt.mpr ((h r hr i hp).resolve_left hleft)
  | methodParameter i => exact Nat.not_lt_zero i
  | _ => cases hparam

end Signature

namespace Lookup

/-- What a dictionary returns for a key: a method of the type of keys and values, with a parameter
that only an outer method has an argument for. -/
def signature : Signature where
  hasThis := true
  genericCount := 0
  returnType := .array (.typeParameter 1) 1
  params := [.byRef (.typeParameter 0),
    .modified (.typeParameter 5) true (.generic (.external "App" "App.Cache") [.typeParameter 1])]

/-- A dictionary from strings to lists of what a parameter is. -/
def inner : List TypeRef :=
  [.primitive .string, .generic (.external "App" "App.List") [.typeParameter 0]]

/-- The arguments for the parameters that are left. -/
def outer : List TypeRef :=
  [.primitive .i4]

/-- What a generic method makes of its own parameter and of the values of a dictionary. -/
def paired : TypeRef :=
  .generic (.external "App" "App.Pair") [.methodParameter 0, .typeParameter 1]

end Lookup

/-- Looking up strings gives lists of numbers, whether the numbers are put in last or first, in the
types of a signature as in a type with parameters of a method. -/
theorem Signature.substitution_composes_lookup :
    (∀ r ∈ Lookup.signature.types, ∀ i, r.Exposed (.typeParameter i) →
      i < Lookup.inner.length ∨ Lookup.outer.length ≤ i) ∧
    (Lookup.signature.substitute Lookup.inner).substitute Lookup.outer =
      Lookup.signature.substitute (Lookup.inner.map (TypeRef.substitute Lookup.outer [])) ∧
    (Lookup.signature.substitute Lookup.inner).substitute Lookup.outer =
      { Lookup.signature with
        returnType :=
          .array (.generic (.external "App" "App.List") [.primitive .i4]) 1
        params := [.byRef (.primitive .string),
          .modified (.typeParameter 5) true (.generic (.external "App" "App.Cache")
            [.generic (.external "App" "App.List") [.primitive .i4]])] } ∧
    (Lookup.paired.substitute Lookup.inner [.typeParameter 0]).substitute Lookup.outer [] =
      Lookup.paired.substitute (Lookup.inner.map (TypeRef.substitute Lookup.outer []))
        [.primitive .i4] := by
  have hleft (i : Nat) : i < Lookup.inner.length ∨ Lookup.outer.length ≤ i := by
    change i < 2 ∨ 1 ≤ i
    omega
  have hcovered : ∀ r ∈ Lookup.signature.types, ∀ i, r.Exposed (.typeParameter i) →
      i < Lookup.inner.length ∨ Lookup.outer.length ≤ i := fun _ _ i _ => hleft i
  refine ⟨hcovered, substitution_composes.2.2.2.2.2 _ _ _ hcovered, rfl, ?_⟩
  exact substitution_composes.2.2.1 Lookup.paired Lookup.inner [.typeParameter 0] Lookup.outer []
    (fun i _ => hleft i) fun i _ => .inr (Nat.zero_le i)

end CilTrim
