import CilTrim.Proofs.Mark.Passes
import CilTrim.Proofs.Mark.Tolerance
import CilTrim.Proofs.TypeRef.Leaves

/-!
# Marking what a reference names

The demands of a reference to a type, met in the middle of a run. They are accepted exactly if the
leaves of the reference bind, and then they mark what the leaves are, and the default constructors
that instances in the reference may call:

* `Model.NamesLeaf`, `Model.NamesConstructor`: the types and constructors that a reference names;
* `Marking.settle_binding`: demands for types and methods, and where they fail;
* `Marking.settle_changes`: what meeting them changes;
* `Setting.marks_leaves`: what is marked, and what waits in the queues.
-/

namespace CilTrim

/-! ## What a reference names -/

namespace Model

variable {m : Model} {r l : TypeRef} {y : Token}

/-- A leaf of a reference is a type of the model. -/
def NamesLeaf (m : Model) (r : TypeRef) (y : Token) : Prop :=
  ∃ l, r.Leaf l ∧ m.resolveType l = .ok y

/-- A default constructor that an instance in a reference may call on one of its arguments. The
instance has as many arguments as its definition has parameters. -/
def NamesConstructor (m : Model) (r : TypeRef) (ctor : Token) : Prop :=
  ∃ e args t type, r.Part (.generic e args) ∧ m.resolveType e = .ok t ∧ m.type? t = some type ∧
    m.ConstructorDemanded type.genericParams args ctor

theorem isNamed_of_resolveType (hl : r.Leaf l) (h : m.resolveType l = .ok y) :
    l.isNamed = true := by
  refine (TypeRef.leaf_iff.mp hl).2.resolve_right fun hparam => ?_
  cases l with
  | typeParameter | methodParameter => cases h
  | _ => cases hparam

theorem typeNames_iff : m.TypeNames r y ↔ m.NamesLeaf r y ∨ m.NamesConstructor r y := by
  constructor
  · rintro (⟨hp, hnamed, h⟩ | ⟨hp, he, ht, hc⟩)
    · exact .inl ⟨_, TypeRef.leaf_iff.mpr ⟨hp, .inl hnamed⟩, h⟩
    · exact .inr ⟨_, _, _, _, hp, he, ht, hc⟩
  · rintro (⟨l, hl, h⟩ | ⟨e, args, t, type, hp, he, ht, hc⟩)
    · exact .leaf (TypeRef.leaf_iff.mp hl).1 (isNamed_of_resolveType hl h) h
    · exact .constructor hp he ht hc

theorem not_typeDangles_iff : ¬ m.TypeDangles r ↔
    ∀ l, r.Leaf l → l.isParameter = false → ∃ t, m.resolveType l = .ok t := by
  constructor
  · intro h l hl hparam
    obtain ⟨hp, hnamed⟩ := TypeRef.leaf_iff.mp hl
    cases hr : m.resolveType l with
    | ok t => exact ⟨t, rfl⟩
    | error cause =>
      have hnamed := hnamed.resolve_right (Bool.eq_false_iff.mp hparam)
      exact absurd ⟨l, cause, hp, hnamed, hr⟩ h
  · rintro h ⟨l, cause, hp, hnamed, hr⟩
    have hparam : l.isParameter = false := by
      cases l with
      | definition | external | primitive => rfl
      | _ => cases hnamed
    obtain ⟨t, ht⟩ := h l (TypeRef.leaf_iff.mpr ⟨hp, .inl hnamed⟩) hparam
    cases hr.symm.trans ht

end Model

namespace Setting

variable {s : Setting} {reason : Reason} {r p l : TypeRef} {y : Token} {d : Demand}

/-- The demands of a named type stand among those of a reference that it is a part of. -/
theorem mem_typeRef_of_named (hp : r.Part p) (hnamed : p.isNamed = true)
    (hd : d ∈ s.namedType reason p) : d ∈ s.typeRef reason r := by
  refine (mem_typeRef r).mpr ⟨p, hp, ?_⟩
  cases p with
  | definition | external | primitive => exact hd
  | _ => cases hnamed

theorem type_mem_typeRef (hl : r.Leaf l) (h : s.model.resolveType l = .ok y) :
    .type y reason ∈ s.typeRef reason r := by
  refine mem_typeRef_of_named (TypeRef.leaf_iff.mp hl).1 (Model.isNamed_of_resolveType hl h) ?_
  rw [namedType, h]
  exact List.mem_singleton_self _

/-- What fails for want of a definition is a leaf that does not bind. -/
theorem leaf_of_unresolved_mem {cause : Unresolved}
    (h : .unresolved cause ∈ s.typeRef reason r) :
    ∃ l, r.Leaf l ∧ l.isParameter = false ∧ s.model.resolveType l = .error cause := by
  obtain ⟨p, hp, hd⟩ := (mem_typeRef r).mp h
  have named {p : TypeRef} (hp : r.Part p) (hnamed : p.isNamed = true)
      (hparam : p.isParameter = false) (hd : .unresolved cause ∈ s.namedType reason p) :
      ∃ l, r.Leaf l ∧ l.isParameter = false ∧ s.model.resolveType l = .error cause := by
    refine ⟨p, TypeRef.leaf_iff.mpr ⟨hp, .inl hnamed⟩, hparam, ?_⟩
    unfold namedType at hd
    cases hr : s.model.resolveType p with
    | ok t =>
      rw [hr] at hd
      cases List.mem_singleton.mp hd
    | error cause' =>
      rw [hr] at hd
      cases List.mem_singleton.mp hd
      rfl
  cases p with
  | definition | external | primitive => exact named hp rfl rfl hd
  | generic e args =>
    obtain ⟨t, ht⟩ := Marking.for_of_mem_constructors hd
    exact ht.elim
  | _ => cases hd

end Setting

/-! ## Demands for types and methods -/

namespace Marking

variable {s : Setting} {own : Token → Prop} {st st' : MarkState} {ds : List Demand}

/-- Demands for types and methods are all met, or one among them binds to nothing. -/
theorem settle_binding
    (h : ∀ d ∈ ds, (∃ t, d.For t) ∨ ∃ cause, d = .unresolved cause) (st : MarkState) :
    (∀ d ∈ ds, ∃ t, d.For t) ∨
      ∃ cause st', .unresolved cause ∈ ds ∧ settle s ds st = .error (.unresolved cause) st' := by
  induction ds generalizing st with
  | nil => exact .inl (List.forall_mem_nil _)
  | cons d ds ih =>
    rw [List.forall_mem_cons] at h ⊢
    obtain ⟨⟨t, hd⟩ | ⟨cause, rfl⟩, hds⟩ := h
    · obtain ⟨st₁, hmeet, -⟩ := meet_for (s := s) hd st
      rcases ih hds st₁ with hall | ⟨cause, st', hcause, hsettle⟩
      · exact .inl ⟨⟨t, hd⟩, hall⟩
      · exact .inr ⟨cause, st', List.mem_cons_of_mem _ hcause,
          (settle_cons hmeet).trans hsettle⟩
    · exact .inr ⟨cause, st, List.mem_cons_self, rfl⟩

/-- What meeting demands for types and methods changes. The types are scheduled then. -/
theorem settle_changes (h : ∀ d ∈ ds, ∃ t, d.For t) (apt : s.AllApt own ds)
    (hsettle : settle s ds st = .ok () st') :
    s.Changes (fun _ => True) own st st' ∧
      ∀ y reason, .type y reason ∈ ds → y ∈ st'.scheduled := by
  induction ds generalizing st with
  | nil =>
    cases hsettle
    exact ⟨.refl, nofun⟩
  | cons d ds ih =>
    rw [List.forall_mem_cons] at h
    rw [Setting.allApt_cons] at apt
    obtain ⟨⟨t, hd⟩, hds⟩ := h
    obtain ⟨hapt, hrest⟩ := apt
    cases d with
    | type y reason =>
      have hmeet : meet s (.type y reason) st = .ok [] (st.needType y reason) := rfl
      obtain ⟨hchanges, hscheduled⟩ := ih hds hrest ((settle_cons hmeet).symm.trans hsettle)
      have hneed : y ∈ (st.needType y reason).scheduled := by
        rw [MarkState.needType_eq]
        exact mem_insert_token.mpr (.inl rfl)
      refine ⟨.head (.type trivial hapt) hchanges, fun x reason' hx => ?_⟩
      rcases List.mem_cons.mp hx with hx | hx
      · cases hx
        exact hchanges.grows.scheduled hneed
      · exact hscheduled x reason' hx
    | method y reason =>
      have hmeet : meet s (.method y reason) st = .ok [] (st.needMethod y reason) := rfl
      obtain ⟨hchanges, hscheduled⟩ := ih hds hrest ((settle_cons hmeet).symm.trans hsettle)
      refine ⟨.head (.offer (.method trivial hapt)) hchanges, fun x reason' hx => ?_⟩
      exact hscheduled x reason' ((List.mem_cons.mp hx).resolve_left nofun)
    | _ => cases hd

end Marking

/-! ## References -/

namespace Setting

variable {s : Setting} {marks : Marks} {st : MarkState} {returned : List Token}

theorem isIn_of_namesConstructor (formed : s.Formed) {r : TypeRef} {y : Token}
    (h : s.model.NamesConstructor r y) : y.isIn .methodDef = true := by
  obtain ⟨e, args, t, type, -, -, -, -, param, argument, -, -, -, u, d, -, -, method, hm, -, rfl⟩ :=
    h
  exact Rows.isIn_of_find? (Model.mem_methodsOf formed.wellFormed hm).2

/-- What a reference newly marks waits: types in the one queue, constructors in the other. -/
theorem queued_of_settle (formed : s.Formed) (passes : s.Passes marks st) {r : TypeRef}
    {reason : Reason} {st' : MarkState} (hbinds : ∀ d ∈ s.typeRef reason r, ∃ t, d.For t)
    (hsettle : Marking.settle s (s.typeRef reason r) st = .ok () st') {y : Token}
    (hold : ¬ st.marks.isMarked y = true) :
    (s.model.NamesLeaf r y → y ∈ st'.types.toList) ∧
      (s.model.NamesConstructor r y → y ∈ st'.methods.toList) := by
  have apt : s.AllApt (fun _ => False) (s.typeRef reason r) := apt_typeRef formed
  obtain ⟨hchanges, hscheduled⟩ := Marking.settle_changes hbinds apt hsettle
  constructor
  · rintro ⟨l, hl, hr⟩
    have hnew : y ∉ st.scheduled := fun h => hold (passes.scheduled h)
    exact hchanges.grows.queued hnew (hscheduled y reason (type_mem_typeRef hl hr))
  · intro hy
    have hin := isIn_of_namesConstructor formed hy
    obtain ⟨st'', hsettle', hmarked⟩ := Marking.settle_for hbinds st
    cases hsettle.symm.trans hsettle'
    have hmark : st'.marks.isMarked y = true :=
      (hmarked.marks y).mpr (.inl (asks_typeRef.mpr (Model.typeNames_iff.mpr (.inr hy))))
    -- No token of a method is covered in any other way.
    cases hchanges.grows.covered hold hmark with
    | plain hp => exact absurd hin (by simp [hp.2.2])
    | scheduled hi _ => cases Token.table_unique hin hi
    | expanded hi _ => cases Token.table_unique hin hi
    | queued hq => exact hq

/-- A reference to a type, met in any state that marking passes, is accepted exactly if each of its
leaves that is not a generic parameter binds; otherwise it fails for a leaf that does not. If it is
accepted, what is newly marked are the leaves and the default constructors that instances in it may
call, as far as they were not marked before, and all of them wait in their queues. -/
theorem marks_leaves (built : Model.Built returned s.model) (fits : s.model.Fits)
    (passes : s.Passes marks st) (r : TypeRef) (reason : Reason) :
    ((∃ st', Marking.settle s (s.typeRef reason r) st = .ok () st') ↔
      ∀ l, r.Leaf l → l.isParameter = false → ∃ t, s.model.resolveType l = .ok t) ∧
    (∀ st', Marking.settle s (s.typeRef reason r) st = .ok () st' →
      (∀ y, st'.marks.isMarked y = true ↔
        st.marks.isMarked y = true ∨ s.model.NamesLeaf r y ∨ s.model.NamesConstructor r y) ∧
      ∀ y, ¬ st.marks.isMarked y = true →
        (s.model.NamesLeaf r y → y ∈ st'.types.toList) ∧
          (s.model.NamesConstructor r y → y ∈ st'.methods.toList)) ∧
    ∀ fault st', Marking.settle s (s.typeRef reason r) st = .error fault st' →
      ∃ l cause, r.Leaf l ∧ l.isParameter = false ∧ s.model.resolveType l = .error cause ∧
        fault = .unresolved cause := by
  have formed := formed_of_built built fits
  have hbinding := Marking.settle_binding (s := s)
    (fun d (hd : d ∈ s.typeRef reason r) => Marking.for_of_mem_typeRef hd) st
  rw [← Model.not_typeDangles_iff]
  refine ⟨⟨?_, fun h => ?_⟩, fun st' hsettle => ?_, fun fault st' hsettle => ?_⟩
  · rintro ⟨st', hsettle⟩ hdangles
    have hfails : Asks (s.typeRef reason r) .failure := asks_typeRef.mpr hdangles
    obtain ⟨d, hd, hneed⟩ := hfails
    rcases hbinding with hall | ⟨cause, st'', -, herror⟩
    · obtain ⟨t, ht⟩ := hall d hd
      cases hneed.symm.trans ht.need
    · cases hsettle.symm.trans herror
  · obtain ⟨st', hsettle, -⟩ := Marking.settle_typeRef h st
    exact ⟨st', hsettle⟩
  · rcases hbinding with hall | ⟨cause, st'', -, herror⟩
    · obtain ⟨st'', hsettle', hmarked⟩ := Marking.settle_for hall st
      cases hsettle.symm.trans hsettle'
      refine ⟨fun y => ?_, fun y => queued_of_settle formed passes hall hsettle⟩
      rw [hmarked.marks, asks_typeRef, or_comm]
      exact or_congr_right Model.typeNames_iff
    · cases hsettle.symm.trans herror
  · rcases hbinding with hall | ⟨cause, st'', hcause, herror⟩
    · obtain ⟨st'', hsettle', -⟩ := Marking.settle_for hall st
      cases hsettle.symm.trans hsettle'
    · cases hsettle.symm.trans herror
      obtain ⟨l, hl, hparam, hr⟩ := leaf_of_unresolved_mem hcause
      exact ⟨l, cause, hl, hparam, hr, rfl⟩

end Setting

namespace Factories

/-- Factories of what has a default constructor, widgets, and tags. -/
def model : Model :=
  let m := (Model.empty.addAssembly "App").2
  let m := (m.addType { TypeDraft.ofClass ⟨0x20000001⟩ "App" "Factory" with
    generics := [⟨"T", GenericFlags.defaultConstructor, []⟩] }).2
  let m := (m.addType (.ofClass ⟨0x20000001⟩ "App" "Widget")).2
  let m := (m.addType (.ofClass ⟨0x20000001⟩ "App" "Tag")).2
  (m.addMethod ((MethodDraft.ofConstructor ⟨0x02000002⟩).returns (.definition ⟨0x02000002⟩))).2

/-- The factories with nothing configured. -/
def setting : Setting where
  model := model
  policy := .default
  overrides := .ofModel model
  options := .default
  special := .empty
  corlib := none

/-- The state in which widgets are needed already. -/
def state : MarkState :=
  (MarkState.ofMarks .empty).needType ⟨0x02000002⟩ .root

/-- A tagged reference to a factory of widgets. -/
def tagged : TypeRef :=
  .byRef (.modified (.definition ⟨0x02000003⟩) true
    (.generic (.definition ⟨0x02000001⟩) [.definition ⟨0x02000002⟩]))

theorem built : ∃ returned, Model.Built returned model := by
  refine ⟨_, .method _ (.type _ (.type _ (.type _ (.assembly "App" .empty) ?_ ?_) ?_ ?_) ?_ ?_) ?_⟩
  · exact ⟨by decide, by decide⟩
  · exact nofun
  · exact ⟨by decide, by decide⟩
  · exact nofun
  · exact ⟨by decide, by decide⟩
  · exact nofun
  · exact ⟨by decide, by decide⟩

theorem fits : model.Fits := by
  intro table
  cases table <;> decide

theorem passes : setting.Passes .empty state := by
  have hmeet : Marking.meet setting (.type ⟨0x02000002⟩ .root) (.ofMarks .empty) =
      .ok [] state := rfl
  exact .met .start hmeet

theorem leaf_tagged {l : TypeRef} : tagged.Leaf l ↔ l = .definition ⟨0x02000001⟩ ∨
    l = .definition ⟨0x02000002⟩ ∨ l = .definition ⟨0x02000003⟩ := by
  constructor
  · intro h
    obtain ⟨hp, hl⟩ := TypeRef.leaf_iff.mp h
    simp only [tagged, TypeRef.part_byRef, TypeRef.part_modified, TypeRef.part_generic,
      TypeRef.part_leaf, TypeRef.isNamed, List.mem_singleton, exists_eq_left, true_or] at hp
    obtain rfl | rfl | rfl | rfl | rfl | rfl := hp
    all_goals simp_all [TypeRef.isNamed, TypeRef.isParameter]
  · rintro (rfl | rfl | rfl)
    · exact .innermost _
    · exact .attached (.tail _ (.head _)) (.innermost _)
    · exact .attached (.head _) (.innermost _)

/-- The factory may call the constructor of widgets. -/
theorem namesConstructor_tagged : model.NamesConstructor tagged ⟨0x06000001⟩ := by
  refine ⟨_, _, ⟨0x02000001⟩, _, .byRef (.modified (.self _)), rfl, rfl, rfl, _, _, .head _,
    ⟨_, rfl, by decide +kernel⟩, rfl, ⟨0x02000002⟩, _, rfl, rfl, _, .head _, by decide +kernel, rfl⟩

end Factories

/-- After widgets the reference to a factory is accepted. The factory and the tag are newly marked
and wait, and so does the constructor of widgets. -/
theorem Setting.marks_leaves_factories :
    Factories.setting.Passes .empty Factories.state ∧
      ∃ st', Marking.settle Factories.setting
        (Factories.setting.typeRef .root Factories.tagged) Factories.state = .ok () st' ∧
        ⟨0x02000001⟩ ∈ st'.types.toList ∧ ⟨0x02000003⟩ ∈ st'.types.toList ∧
        ⟨0x06000001⟩ ∈ st'.methods.toList := by
  obtain ⟨returned, built⟩ : ∃ returned, Model.Built returned Factories.setting.model :=
    Factories.built
  obtain ⟨haccepted, hmarked, -⟩ :=
    Setting.marks_leaves built Factories.fits Factories.passes Factories.tagged .root
  obtain ⟨st', hsettle⟩ := haccepted.mpr fun l hl _ => by
    obtain rfl | rfl | rfl := Factories.leaf_tagged.mp hl
    all_goals exact ⟨_, rfl⟩
  have fresh (y : Token) (hy : Factories.state.marks.isMarked y = false) :=
    (hmarked st' hsettle).2 y (Bool.eq_false_iff.mp hy)
  refine ⟨Factories.passes, st', hsettle, ?_, ?_, ?_⟩
  · exact (fresh _ (by decide +kernel)).1 ⟨_, Factories.leaf_tagged.mpr (.inl rfl), rfl⟩
  · exact (fresh _ (by decide +kernel)).1 ⟨_, Factories.leaf_tagged.mpr (.inr (.inr rfl)), rfl⟩
  · exact (fresh _ (by decide +kernel)).2 Factories.namesConstructor_tagged

end CilTrim
