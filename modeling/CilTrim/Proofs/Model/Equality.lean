import CilTrim.Builder.Basic
import CilTrim.Model.Resolution
import CilTrim.Proofs.TypeRef.Substitution
import Mathlib.Data.List.Forall2
import Mathlib.Data.Setoid.Basic

/-!
# Equality of types

Each reference has a canonical form, in which named types stand as their definitions or, where they
have none, by their names. Types are equal exactly if their canonical forms are the same, so that
equality is an equivalence. Arguments can be put in before or after a form is taken, so equality
respects substitution:

* `Model.canonical`: the canonical form of a reference;
* `Model.typesEqual_iff`, `Model.signaturesEqual_iff`: equality is that of canonical forms;
* `Model.canonical_substitute`: the canonical form with arguments put in;
* `Model.typesEqual_congruence`: an equivalence that respects substitution.
-/

namespace CilTrim.Model

variable {m : Model}

/-! ## Canonical forms -/

/-- The reference that stands for all named types that denote the same. -/
def representative (m : Model) (r : TypeRef) : TypeRef :=
  match m.resolveType r with
  | .ok token => .definition token
  | .error _ => .external "" (m.typeName r)

mutual

/-- A reference with representatives in the place of named types. -/
def canonical (m : Model) : TypeRef → TypeRef
  | .definition token => m.representative (.definition token)
  | .external scope fullName => m.representative (.external scope fullName)
  | .primitive kind => m.representative (.primitive kind)
  | .generic e arguments => .generic (m.canonical e) (m.canonicalAll arguments)
  | .array e rank => .array (m.canonical e) rank
  | .pointer e => .pointer (m.canonical e)
  | .byRef e => .byRef (m.canonical e)
  | .pinned e => .pinned (m.canonical e)
  | .modified modifier required e => .modified (m.canonical modifier) required (m.canonical e)
  | .typeParameter index => .typeParameter index
  | .methodParameter index => .methodParameter index

/-- The canonical forms of the references of a list. -/
def canonicalAll (m : Model) : List TypeRef → List TypeRef
  | [] => []
  | r :: rest => m.canonical r :: m.canonicalAll rest

end

theorem canonicalAll_eq_map (rs : List TypeRef) : m.canonicalAll rs = rs.map m.canonical := by
  induction rs with
  | nil => rfl
  | cons r rest ih => rw [canonicalAll, ih, List.map_cons]

theorem isNamed_representative (r : TypeRef) : (m.representative r).isNamed = true := by
  unfold representative
  split <;> rfl

/-! ## Equality of canonical forms -/

theorem identity?_of_named {r : TypeRef} (h : r.isNamed = true) :
    m.identity? r = some (match m.resolveType r with
      | .ok token => .resolved token
      | .error _ => .unresolved (m.typeName r)) := by
  have hunfold : m.identity? r = match m.resolveType r with
      | .ok token => some (.resolved token)
      | .error _ => some (.unresolved (m.typeName r)) := by
    cases r with
    | definition | external | primitive => rfl
    | _ => cases h
  rw [hunfold]
  cases m.resolveType r <;> rfl

/-- Named types denote the same if they have one representative. -/
theorem sameIdentity_iff {a b : TypeRef} (ha : a.isNamed = true) (hb : b.isNamed = true) :
    m.sameIdentity a b = true ↔ m.representative a = m.representative b := by
  unfold sameIdentity representative
  rw [identity?_of_named ha, identity?_of_named hb]
  cases m.resolveType a <;> cases m.resolveType b <;> simp

/-- How a reference is built. Named types are all built alike. -/
def shape (r : TypeRef) : Option Nat :=
  if r.isNamed then none else some r.ctorIdx

theorem shape_canonical (r : TypeRef) : shape (m.canonical r) = shape r := by
  cases r with
  | definition | external | primitive => exact if_pos (isNamed_representative _)
  | _ => rfl

theorem shape_eq_of_typesEqual {a b : TypeRef} (h : m.typesEqual a b = true) :
    shape a = shape b := by
  have named {r : TypeRef} {x : Identity} (hr : m.identity? r = some x) : shape r = none := by
    cases r with
    | definition | external | primitive => rfl
    | _ => cases hr
  revert h
  fun_cases m.typesEqual a b
  case case9 =>
    intro h
    unfold sameIdentity at h
    split at h
    · rename_i hx hy
      rw [named hx, named hy]
    · cases h
  all_goals exact fun _ => rfl

/-- References that are built in different ways denote different types. -/
theorem typesEqual_iff_of_shape {a b : TypeRef} (h : shape a ≠ shape b) :
    m.typesEqual a b = true ↔ m.canonical a = m.canonical b := by
  refine iff_of_false (mt shape_eq_of_typesEqual h) fun he => h ?_
  rw [← shape_canonical (m := m) a, he, shape_canonical]

theorem allTypesEqual_iff {as bs : List TypeRef} (hlength : as.length = bs.length)
    (h : ∀ a ∈ as, ∀ b, m.typesEqual a b = true ↔ m.canonical a = m.canonical b) :
    m.allTypesEqual as bs = true ↔ as.map m.canonical = bs.map m.canonical := by
  induction as generalizing bs with
  | nil =>
    cases bs with
    | nil => exact iff_of_true rfl rfl
    | cons => cases hlength
  | cons a as ih =>
    cases bs with
    | nil => cases hlength
    | cons b bs =>
      obtain ⟨ha, has⟩ := List.forall_mem_cons.mp h
      rw [allTypesEqual, Bool.and_eq_true, ha, ih (Nat.succ.inj hlength) has, List.map_cons,
        List.map_cons, List.cons.injEq]

theorem typesEqual_iff (a b : TypeRef) :
    m.typesEqual a b = true ↔ m.canonical a = m.canonical b := by
  induction a using TypeRef.induct generalizing b with
  | definition | external | primitive =>
    cases b with
    | definition | external | primitive => exact sameIdentity_iff rfl rfl
    | _ => exact typesEqual_iff_of_shape nofun
  | typeParameter i =>
    cases b with
    | typeParameter j => simp [typesEqual, canonical]
    | _ => exact typesEqual_iff_of_shape nofun
  | methodParameter i =>
    cases b with
    | methodParameter j => simp [typesEqual, canonical]
    | _ => exact typesEqual_iff_of_shape nofun
  | generic e args he hargs =>
    cases b with
    | generic e' args' =>
      simp only [typesEqual, canonical, canonicalAll_eq_map, Bool.and_eq_true, beq_iff_eq, he,
        TypeRef.generic.injEq]
      constructor
      · rintro ⟨⟨hlength, he⟩, hall⟩
        exact ⟨he, (allTypesEqual_iff hlength hargs).mp hall⟩
      · rintro ⟨he, hmap⟩
        have hlength : args.length = args'.length := by
          simpa only [List.length_map] using congrArg List.length hmap
        exact ⟨⟨hlength, he⟩, (allTypesEqual_iff hlength hargs).mpr hmap⟩
    | _ => exact typesEqual_iff_of_shape nofun
  | array e rank he =>
    cases b with
    | array e' rank' => simp [typesEqual, canonical, he, and_comm]
    | _ => exact typesEqual_iff_of_shape nofun
  | pointer e he =>
    cases b with
    | pointer e' => simp [typesEqual, canonical, he]
    | _ => exact typesEqual_iff_of_shape nofun
  | byRef e he =>
    cases b with
    | byRef e' => simp [typesEqual, canonical, he]
    | _ => exact typesEqual_iff_of_shape nofun
  | pinned e he =>
    cases b with
    | pinned e' => simp [typesEqual, canonical, he]
    | _ => exact typesEqual_iff_of_shape nofun
  | modified modifier required e hm he =>
    cases b with
    | modified modifier' required' e' =>
      simp [typesEqual, canonical, hm, he, and_assoc, and_left_comm]
    | _ => exact typesEqual_iff_of_shape nofun

/-- What is compared of a signature, with canonical forms in the place of types. -/
def canonicalSignature (m : Model) (s : Signature) : Nat × TypeRef × List TypeRef :=
  (s.genericCount, m.canonical s.returnType, s.params.map m.canonical)

theorem signaturesEqual_iff (a b : Signature) :
    m.signaturesEqual a b = true ↔ m.canonicalSignature a = m.canonicalSignature b := by
  simp only [signaturesEqual, canonicalSignature, Bool.and_eq_true, beq_iff_eq, typesEqual_iff,
    Prod.mk.injEq]
  constructor
  · rintro ⟨⟨⟨hcount, hlength⟩, hreturn⟩, hparams⟩
    exact ⟨hcount, hreturn, (allTypesEqual_iff hlength fun a _ => typesEqual_iff a).mp hparams⟩
  · rintro ⟨hcount, hreturn, hparams⟩
    have hlength : a.params.length = b.params.length := by
      simpa only [List.length_map] using congrArg List.length hparams
    exact ⟨⟨⟨hcount, hlength⟩, hreturn⟩,
      (allTypesEqual_iff hlength fun a _ => typesEqual_iff a).mpr hparams⟩

/-! ## Substitution -/

theorem substitute_representative (r : TypeRef) (ts ms : List TypeRef) :
    (m.representative r).substitute ts ms = m.representative r := by
  unfold representative
  split <;> rfl

/-- The canonical form of a reference with arguments is its own with the canonical forms of the
arguments. -/
theorem canonical_substitute (ts ms : List TypeRef) (r : TypeRef) :
    m.canonical (r.substitute ts ms) =
      (m.canonical r).substitute (ts.map m.canonical) (ms.map m.canonical) := by
  induction r using TypeRef.induct with
  | definition | external | primitive => exact (substitute_representative _ _ _).symm
  | typeParameter index => exact TypeRef.getD_map fun _ => rfl
  | methodParameter index => exact TypeRef.getD_map fun _ => rfl
  | generic e args he hargs =>
    simp only [TypeRef.substitute, TypeRef.substituteAll_eq_map, canonical, canonicalAll_eq_map,
      List.map_map, he]
    exact congrArg _ (List.map_congr_left hargs)
  | array e rank he => simp only [TypeRef.substitute, canonical, he]
  | pointer e he => simp only [TypeRef.substitute, canonical, he]
  | byRef e he => simp only [TypeRef.substitute, canonical, he]
  | pinned e he => simp only [TypeRef.substitute, canonical, he]
  | modified modifier required e _ he => simp only [TypeRef.substitute, canonical, he]

/-- Lists of equal types have the same canonical forms. -/
theorem map_canonical_eq {as bs : List TypeRef}
    (h : List.Forall₂ (fun a b => m.typesEqual a b = true) as bs) :
    as.map m.canonical = bs.map m.canonical := by
  induction h with
  | nil => rfl
  | cons hab _ ih => rw [List.map_cons, List.map_cons, (typesEqual_iff _ _).mp hab, ih]

/-- Equality of types and of signatures is an equivalence, whichever forms of reference are mixed
and whether they bind or not. Equal types stay equal if equal arguments are put in. -/
theorem typesEqual_congruence (m : Model) :
    Equivalence (fun a b => m.typesEqual a b = true) ∧
      Equivalence (fun a b => m.signaturesEqual a b = true) ∧
      ∀ {a b : TypeRef} {ts ts' ms ms' : List TypeRef}, m.typesEqual a b = true →
        List.Forall₂ (fun x y => m.typesEqual x y = true) ts ts' →
        List.Forall₂ (fun x y => m.typesEqual x y = true) ms ms' →
        m.typesEqual (a.substitute ts ms) (b.substitute ts' ms') = true := by
  refine ⟨?_, ?_, fun hab hts hms => ?_⟩
  · simp only [typesEqual_iff]
    exact eq_equivalence.comap m.canonical
  · simp only [signaturesEqual_iff]
    exact eq_equivalence.comap m.canonicalSignature
  · rw [typesEqual_iff, canonical_substitute, canonical_substitute, (typesEqual_iff _ _).mp hab,
      map_canonical_eq hts, map_canonical_eq hms]

end CilTrim.Model

namespace CilTrim.Strings

/-- The core library with strings only. -/
def model : Model :=
  let m := (Model.empty.addAssembly "mscorlib").2.setCorlib ⟨0x20000001⟩
  (m.addType (.ofClass ⟨0x20000001⟩ "System" "String")).2

/-- A list of what its parameter is, of an assembly that there is not. -/
def list (scope : String) : TypeRef :=
  .generic (.external scope "App.List") [.array (.typeParameter 0) 1]

end CilTrim.Strings

namespace CilTrim.Model

/-- Lists of strings are equal whichever way the strings are referred to. -/
theorem typesEqual_congruence_strings :
    Strings.model.typesEqual (Strings.list "A") (Strings.list "B") = true ∧
      Strings.model.typesEqual (.primitive .string) (.definition ⟨0x02000001⟩) = true ∧
      Strings.model.typesEqual ((Strings.list "A").substitute [.primitive .string] [])
        ((Strings.list "B").substitute [.definition ⟨0x02000001⟩] []) = true := by
  have hlists : Strings.model.typesEqual (Strings.list "A") (Strings.list "B") = true := by
    decide +kernel
  have hstrings :
      Strings.model.typesEqual (.primitive .string) (.definition ⟨0x02000001⟩) = true := by
    decide +kernel
  exact ⟨hlists, hstrings, (typesEqual_congruence _).2.2 hlists (.cons hstrings .nil) .nil⟩

end CilTrim.Model
