import CilTrim.Proofs.Mark.Invariant

/-!
# Steps in any order

A run takes the oldest element of a queue, but nothing that is kept depends on it. Whatever steps
are taken, and in whatever order, they end with the same marks:

* `Setting.Step`, `Setting.Breaks`: a step that ends, and one that fails;
* `Setting.Steps.steady`: all steps keep the invariant;
* `Setting.Rests`: there is nothing left to do;
* `Setting.Still`: everything that is marked is done, so that the marks are closed
  (`Setting.Still.closed`) and exactly what is reached is marked (`Setting.Still.marked_iff`);
* `Setting.Rests.still`: what rests is done.
-/

namespace CilTrim

namespace Setting

/-- One step of a run. It may take any element of a queue. -/
inductive Step (s : Setting) (st : MarkState) : MarkState → Prop where
  | type {t : Token} {rest : Fifo Token} {st' : MarkState} :
    st.types.toList.Perm (t :: rest.toList) →
    Marking.expandType s t { st with types := rest } = .ok () st' → Step s st st'
  | method {t : Token} {rest : Fifo Token} {st' : MarkState} :
    st.methods.toList.Perm (t :: rest.toList) →
    Marking.processMethod s t { st with methods := rest } = .ok () st' → Step s st st'
  | sweep {st' : MarkState} : Marking.sweep s st = .ok () st' → Step s st st'
  | count (change : MarkStats → MarkStats) : Step s st (st.count change)

/-- Steps, one after another. -/
abbrev Steps (s : Setting) : MarkState → MarkState → Prop :=
  Relation.ReflTransGen s.Step

/-- A step that takes some element of a queue fails. -/
inductive Breaks (s : Setting) (st : MarkState) : MarkFault → Prop where
  | type {t : Token} {rest : Fifo Token} {e : MarkFault} {st' : MarkState} :
    st.types.toList.Perm (t :: rest.toList) →
    Marking.expandType s t { st with types := rest } = .error e st' → Breaks s st e
  | method {t : Token} {rest : Fifo Token} {e : MarkFault} {st' : MarkState} :
    st.methods.toList.Perm (t :: rest.toList) →
    Marking.processMethod s t { st with methods := rest } = .error e st' → Breaks s st e

/-- There is nothing left to do: no element waits, and looking again at overrides marks nothing. -/
structure Rests (s : Setting) (st : MarkState) : Prop where
  types : st.types.toList = []
  methods : st.methods.toList = []
  sweep {st' : MarkState} : Marking.sweep s st = .ok () st' → st'.newMarks = st.newMarks

variable {s : Setting} {marks : Marks} {S : Token → Prop} {st st' : MarkState}

/-! ## The invariant along runs -/

theorem Tracks.offers (h : s.Tracked marks S st) (ho : s.Offers S st st') :
    s.Tracked marks S st' := by
  have hs : s.Settles S (fun _ => False) st st' := ho.settles _
  exact h.settles hs hs.changes.grows.types hs.changes.grows.methods id id fun h => h.elim

/-- The invariant does not depend on what is counted. -/
theorem Tracks.count (h : s.Tracked marks S st) (change : MarkStats → MarkStats) :
    s.Tracked marks S (st.count change) :=
  { h with within := { h.within with } }

/-- What steps do to marks: new ones are counted, and methods leave their queue when they are
processed. -/
structure Proceeds (st st' : MarkState) : Prop where
  counts : st.Counts st'
  processed {t : Token} : st.marks.isProcessed t = true → st'.marks.isProcessed t = true
  queued {t : Token} : t ∈ st.methods.toList →
    t ∈ st'.methods.toList ∨ st'.marks.isProcessed t = true

theorem Proceeds.refl (st : MarkState) : Proceeds st st := ⟨.refl st, id, .inl⟩

theorem Proceeds.trans {st'' : MarkState} (h₁ : Proceeds st st') (h₂ : Proceeds st' st'') :
    Proceeds st st'' where
  counts := h₁.counts.trans h₂.counts
  processed h := h₂.processed (h₁.processed h)
  queued h := (h₁.queued h).elim h₂.queued fun hp => .inr (h₂.processed hp)

/-- A step keeps the invariant, and counts what it marks. -/
theorem Step.tracked (adm : s.Admits marks S) (h : s.Tracked marks S st)
    (hstep : s.Step st st') : s.Tracked marks S st' ∧ Proceeds st st' := by
  cases hstep with
  | type hp hx =>
    obtain ⟨hc, h'⟩ := (Marking.expandType_spec adm h hp).ok hx
    exact ⟨h', ⟨hc.counts.marked, hc.counts.balance⟩, hc.grows.processed,
      fun ht => .inl (hc.grows.methods ht)⟩
  | method hp hx =>
    obtain ⟨hc, hdone, -, h'⟩ := (Marking.processMethod_spec adm h hp).ok hx
    refine ⟨h', ⟨hc.counts.marked, hc.counts.balance⟩, hc.grows.processed, fun ht => ?_⟩
    rcases List.mem_cons.mp (hp.mem_iff.mp ht) with rfl | ht
    · exact .inr hdone
    · exact .inl (hc.grows.methods ht)
  | sweep hx =>
    obtain ⟨ho, -⟩ := (Marking.sweep_spec adm h.within).ok hx
    have hc := ho.changes fun _ => False
    exact ⟨h.offers ho, hc.counts, hc.grows.processed, fun ht => .inl (hc.grows.methods ht)⟩
  | count change => exact ⟨h.count change, ⟨id, rfl⟩, id, .inl⟩

/-- Steps keep the invariant, whatever their order. -/
theorem Steps.tracked (adm : s.Admits marks S) (h : s.Tracked marks S st)
    (hsteps : s.Steps st st') : s.Tracked marks S st' ∧ Proceeds st st' := by
  induction hsteps with
  | refl => exact ⟨h, .refl st⟩
  | tail _ hstep ih =>
    obtain ⟨h', hc⟩ := hstep.tracked adm ih.1
    exact ⟨h', ih.2.trans hc⟩

/-! ## Methods of an earlier run -/

/-- Methods that were processed before are methods of the model, and the marks have what they
need. -/
def Resumes (s : Setting) (marks : Marks) : Prop :=
  ∀ t, marks.isProcessed t = true → ∃ d action, s.model.method? t = some d ∧
    marks.Parses t action ∧ (∀ x ∈ s.methodNeeds t d action, marks.Meets x) ∧
      marks.methodAction t ≠ .nothing

/-- When nothing is processed, there is no method of an earlier run. -/
theorem resumes_of_fresh (fresh : ∀ t, marks.isProcessed t = false) : s.Resumes marks := by
  intro t ht
  rw [fresh t] at ht
  cases ht

/-- The invariant of a run that resumes an earlier one, or that is the first. -/
structure Steady (s : Setting) (marks : Marks) (S : Token → Prop) (st : MarkState) : Prop
    extends Tracks s marks S (· ∈ st.types.toList) (· ∈ st.methods.toList) st where
  resumes : s.Resumes marks

theorem Steps.steady (reg : s.Regular) (closed : s.Closed marks S) (h : s.Steady marks S st)
    (hsteps : s.Steps st st') : s.Steady marks S st' ∧ Proceeds st st' := by
  obtain ⟨h', hc⟩ := hsteps.tracked (reg.admits closed) h.toTracks
  exact ⟨⟨h', h.resumes⟩, hc⟩

/-- The marks at the start stay. -/
theorem Tracks.roots {types methods : Token → Prop} (h : s.Tracks marks S types methods st)
    {t : Token} (ht : marks.isMarked t = true) : st.marks.isMarked t = true :=
  h.within.roots ht

/-- A step fails only because a reference does not bind. -/
theorem Breaks.faults (reg : s.Regular) (closed : s.Closed marks S) (h : s.Steady marks S st)
    {e : MarkFault} (hb : s.Breaks st e) :
    ∃ cause, e = .unresolved cause ∧ (s.KeepsMethods → s.Unbound marks S) := by
  have adm := reg.admits closed
  have hfault : Marking.Faults s marks S e := by
    cases hb with
    | type hp hx => exact (Marking.expandType_spec adm h.toTracks hp).error hx
    | method hp hx => exact (Marking.processMethod_spec adm h.toTracks hp).error hx
  obtain ⟨cause, he, hu⟩ := hfault
  exact ⟨cause, he, fun keeps => hu (reg.namesMethods keeps)⟩

/-! ## What is marked at rest -/

/-- Every marked definition is done, and the overrides of virtual methods are marked with their
types. -/
structure Still (s : Setting) (marks : Marks) (st : MarkState) : Prop where
  type {t : Token} {d : TypeDef} : st.marks.isMarked t = true → s.model.type? t = some d →
    ∀ x ∈ s.typeNeeds t d, st.Met x
  field {t : Token} {f : FieldDef} : st.marks.isMarked t = true → s.model.field? t = some f →
    ∀ x ∈ s.fieldNeeds t f, st.Met x
  method {t : Token} {d : MethodDef} : st.marks.isMarked t = true → s.model.method? t = some d →
    s.MethodDone marks st t
  assembly {a : AssemblyDef} : a ∈ s.model.assemblies.toList →
    ∀ x ∈ s.assemblyNeeds a.token a, st.Met x
  overrider {base o : Token} : base ∈ st.virtuals → o ∈ s.overrides.overridesOf base →
    s.Offered st st o

/-- When no method waits, what the marks alone have is met. -/
theorem Tracks.met_of_meets (formed : s.Formed) (h : s.Tracked marks S st)
    (methods : st.methods.toList = []) {t : Token} (hp : marks.isProcessed t = true)
    (hdone : st.marks.isProcessed t = true) {x : Demand} (apt : s.Apt (· = t) x)
    (hx : marks.Meets x) : st.Met x := by
  cases x with
  | node | type => exact h.within.roots hx
  | method => exact ⟨h.within.roots hx.1, h.within.actions hx.2⟩
  | field y =>
    have hm := h.within.roots hx
    obtain ⟨f, hf⟩ := Option.isSome_iff_exists.mp apt
    refine ⟨hm, (h.field hm hf).resolve_right fun hq => ?_⟩
    rw [methods] at hq
    cases hq
  | assembly y =>
    obtain ⟨a, ha⟩ := Option.isSome_iff_exists.mp apt
    have hseen := h.assembly (Rows.mem_of_find? ha)
    rwa [formed.wellFormed.assembly_numbered.token_of_find? ha] at hseen
  | overridable y =>
    obtain ⟨rfl, hv⟩ := apt
    exact h.registered hp hv
  | finished y =>
    cases apt
    exact hdone
  | unresolved => exact hx
  | _ => trivial

/-- With empty queues, the invariant says that everything is done. -/
theorem Steady.still (formed : s.Formed) (h : s.Steady marks S st) (types : st.types.toList = [])
    (methods : st.methods.toList = [])
    (overrider : ∀ base ∈ st.virtuals, ∀ o ∈ s.overrides.overridesOf base, s.Offered st st o) :
    s.Still marks st where
  type hm hd := by
    rcases h.type hm hd with hs | hq
    · rcases h.scheduled hs hd with hx | hq
      · exact hx
      · rw [types] at hq
        cases hq
    · rw [methods] at hq
      cases hq
  field hm hf := by
    rcases h.field hm hf with he | hq
    · exact h.expanded he hf
    · rw [methods] at hq
      cases hq
  method {t d} hm hd := by
    rcases h.method hm hd with hdone | hq
    · rcases h.processed hdone with hp | hdone'
      · obtain ⟨d', action, hd', hparses, hx, ha⟩ := h.resumes t hp
        refine ⟨d', action, hd', hparses, fun x hx' => ?_, h.within.actions ha⟩
        exact h.toTracks.met_of_meets formed methods hp hdone (apt_methodNeeds formed hd' x hx')
          (hx x hx')
      · exact hdone'
    · rw [methods] at hq
      cases hq
  assembly ha := h.seen (h.assembly ha) (formed.wellFormed.assembly_of_mem formed.fits ha)
  overrider hb ho := overrider _ hb _ ho

namespace Still

theorem method_needs (h : s.Still marks st) {t : Token} {d : MethodDef}
    (hm : st.marks.isMarked t = true) (hd : s.model.method? t = some d) :
    ∃ action, marks.Parses t action ∧ ∀ x ∈ s.methodNeeds t d action, st.Met x := by
  obtain ⟨d', action, hd', hp, hx, -⟩ := h.method hm hd
  cases hd.symm.trans hd'
  exact ⟨action, hp, hx⟩

/-- A marked virtual method is registered. -/
theorem registered (h : s.Still marks st) {t : Token} (hm : st.marks.isMarked t = true)
    (hv : s.model.IsVirtual t) : t ∈ st.virtuals := by
  obtain ⟨d, hd, hv⟩ := hv
  obtain ⟨action, -, hx⟩ := h.method_needs hm hd
  refine hx (.overridable t) ?_
  simp only [methodNeeds, hv, if_true, List.mem_append, List.mem_singleton]
  tauto

/-- What is marked has all that it keeps. -/
theorem closed (reg : s.Regular) (h : s.Still marks st) :
    s.Closed marks (st.marks.isMarked · = true) where
  type hm hd hr :=
    MarkState.Met.marked (h.type hm hd) ((keeps_typeNeeds reg.wellFormed reg.fits hd).mpr hr)
  field hm hf hr :=
    MarkState.Met.marked (h.field hm hf) ((keeps_fieldNeeds reg.wellFormed reg.fits).mpr hr)
  method hm hd hr := by
    obtain ⟨action, hp, hx⟩ := h.method_needs hm hd
    exact MarkState.Met.marked hx ((keeps_methodNeeds reg.wellFormed reg.fits hd hp).mpr hr)
  attributed ha hr := by
    obtain ⟨d, hd, hk⟩ := asks_of_rootAttribute (n := .kept _) reg.wellFormed reg.fits ha hr
    exact MarkState.Met.marked (h.assembly hd) hk
  overrider hb hv ho ht htype := h.overrider (h.registered hb hv) ho _ ht htype

/-- The references of what is marked bind. -/
theorem not_unbound (reg : s.Regular) (h : s.Still marks st) :
    ¬ s.Unbound marks (st.marks.isMarked · = true) := by
  intro hu
  cases hu with
  | type hm hd hu =>
    exact MarkState.Met.not_fails (h.type hm hd)
      ((fails_typeNeeds reg.wellFormed reg.fits hd).mpr hu)
  | field hm hf hu =>
    exact MarkState.Met.not_fails (h.field hm hf)
      ((fails_fieldNeeds reg.wellFormed reg.fits).mpr hu)
  | method hm hd hu =>
    obtain ⟨action, hp, hx⟩ := h.method_needs hm hd
    exact MarkState.Met.not_fails hx ((fails_methodNeeds reg.wellFormed reg.fits hd hp).mpr hu)
  | attributed ha hu =>
    obtain ⟨d, hd, hk⟩ := asks_of_rootAttribute (n := .failure) reg.wellFormed reg.fits ha hu
    exact MarkState.Met.not_fails (h.assembly hd) hk

/-- Exactly what is reached is marked. -/
theorem marked_iff (reg : s.Regular) (h : s.Still marks st)
    (hs : s.Steady marks (s.Reached marks) st) {t : Token} :
    st.marks.isMarked t = true ↔ s.Reached marks t :=
  ⟨hs.within.marked, Reached.least (h.closed reg) fun _ => hs.roots⟩

end Still

/-- At rest everything is done. -/
theorem Rests.still (adm : s.Admits marks S) (h : s.Steady marks S st) (hr : s.Rests st) :
    s.Still marks st := by
  refine h.still adm.toFormed hr.types hr.methods fun base hb o ho type hd hm => ?_
  have hx : Marking.sweep s st = .ok () _ := rfl
  obtain ⟨hoffers, hoffered⟩ := (Marking.sweep_spec adm h.within).ok hx
  have hcounts := (hoffers.changes fun _ => False).counts
  exact hcounts.newMarks_eq_iff.mp (hr.sweep hx) o (hoffered base hb o ho type hd hm)

/-- When nothing waits and all overrides of virtual methods have been offered, there is nothing left
to do. -/
theorem rests_of_offered (types : st.types.toList = []) (methods : st.methods.toList = [])
    (overrider : ∀ base ∈ st.virtuals, ∀ o ∈ s.overrides.overridesOf base, s.Offered st st o) :
    s.Rests st where
  types := types
  methods := methods
  sweep {st'} hx := by
    obtain ⟨parked, -, hparked⟩ := spreadAll_quiet st.virtuals st overrider
    have hst : Marking.sweep s st = .ok () (st.virtuals.foldl
        (fun st base => MarkState.spread s.model s.overrides base st) st) := rfl
    rw [hx, hparked] at hst
    cases hst
    rfl

end Setting

end CilTrim
