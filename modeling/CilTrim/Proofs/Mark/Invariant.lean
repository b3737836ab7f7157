import CilTrim.Proofs.Mark.Settle

/-!
# The invariant of marking

Every marked definition has what it needs, or waits in a queue for it. What one step takes from a
queue is done when the step ends, whichever element it takes:

* `MarkState.takeType`, `MarkState.takeMethod`: what has left its queue is counted;
* `Setting.Tracks`: the invariant, for given sets of types and methods that wait;
* `Setting.Tracked`: the invariant between steps;
* `Marking.expandType_spec`, `Marking.processMethod_spec`, `Marking.sweep_spec`: the steps.
-/

namespace CilTrim

namespace MarkState

variable {m : Model} {st : MarkState} {t : Token} {rest : Fifo Token}

/-- A type has left its queue. A definition is counted. -/
def takeType (m : Model) (st : MarkState) (t : Token) (rest : Fifo Token) : MarkState :=
  { st with
    types := rest
    stats :=
      if (m.type? t).isSome then { st.stats with typesExpanded := st.stats.typesExpanded + 1 }
      else st.stats }

/-- A method has left its queue. A definition is counted if it is not processed yet. -/
def takeMethod (m : Model) (st : MarkState) (t : Token) (rest : Fifo Token) : MarkState :=
  { st with
    methods := rest
    stats :=
      if ¬ st.marks.isProcessed t = true ∧ (m.method? t).isSome then
        { st.stats with methodsProcessed := st.stats.methodsProcessed + 1 }
      else st.stats }

theorem takeType_of_none (hd : m.type? t = none) :
    st.takeType m t rest = { st with types := rest } := by
  rw [takeType, hd]
  rfl

theorem takeType_of_some {d : TypeDef} (hd : m.type? t = some d) :
    st.takeType m t rest =
      MarkState.count { st with types := rest }
        fun c => { c with typesExpanded := c.typesExpanded + 1 } := by
  rw [takeType, hd]
  rfl

theorem takeMethod_of_processed (hp : st.marks.isProcessed t = true) :
    st.takeMethod m t rest = { st with methods := rest } := by
  rw [takeMethod, if_neg fun h => h.1 hp]

theorem takeMethod_of_some {d : MethodDef} (hp : ¬ st.marks.isProcessed t = true)
    (hd : m.method? t = some d) :
    st.takeMethod m t rest =
      MarkState.count { st with methods := rest }
        fun c => { c with methodsProcessed := c.methodsProcessed + 1 } := by
  rw [takeMethod, if_pos ⟨hp, by rw [hd]; rfl⟩]
  rfl

end MarkState

namespace Setting

variable {s : Setting} {marks : Marks} {S own : Token → Prop} {types types' : Token → Prop}
  {methods methods' : Token → Prop} {st st' : MarkState}

/-- All that a method keeps is marked, and it has an action. -/
def MethodDone (s : Setting) (marks : Marks) (st : MarkState) (t : Token) : Prop :=
  ∃ d action, s.model.method? t = some d ∧ marks.Parses t action ∧
    (∀ x ∈ s.methodNeeds t d action, st.Met x) ∧ st.marks.methodAction t ≠ .nothing

/-- Every marked definition is done, or it is one of those that wait: `types` for their needs, and
`methods` to be looked at. Methods that were processed before the run count as done. -/
structure Tracks (s : Setting) (marks : Marks) (S types methods : Token → Prop) (st : MarkState) :
    Prop where
  within : s.Within marks S st
  type {t : Token} {d : TypeDef} : st.marks.isMarked t = true → s.model.type? t = some d →
    t ∈ st.scheduled ∨ methods t
  field {t : Token} {f : FieldDef} : st.marks.isMarked t = true → s.model.field? t = some f →
    t ∈ st.expandedFields ∨ methods t
  method {t : Token} {d : MethodDef} : st.marks.isMarked t = true → s.model.method? t = some d →
    st.marks.isProcessed t = true ∨ methods t
  scheduled {t : Token} {d : TypeDef} : t ∈ st.scheduled → s.model.type? t = some d →
    (∀ x ∈ s.typeNeeds t d, st.Met x) ∨ types t
  expanded {t : Token} {f : FieldDef} : t ∈ st.expandedFields → s.model.field? t = some f →
    ∀ x ∈ s.fieldNeeds t f, st.Met x
  seen {t : Token} {a : AssemblyDef} : t ∈ st.seenAssemblies → s.model.assembly? t = some a →
    ∀ x ∈ s.assemblyNeeds t a, st.Met x
  assembly {a : AssemblyDef} : a ∈ s.model.assemblies.toList → a.token ∈ st.seenAssemblies
  processed {t : Token} : st.marks.isProcessed t = true →
    marks.isProcessed t = true ∨ s.MethodDone marks st t
  registered {t : Token} : marks.isProcessed t = true → s.model.IsVirtual t → t ∈ st.virtuals

/-- The invariant between steps: what waits is in the queues. -/
abbrev Tracked (s : Setting) (marks : Marks) (S : Token → Prop) (st : MarkState) : Prop :=
  s.Tracks marks S (· ∈ st.types.toList) (· ∈ st.methods.toList) st

/-- A covered type is scheduled or queued, and the like for fields and methods. -/
theorem scheduled_of_covered {t : Token} {d : TypeDef} (ht : s.model.type? t = some d)
    (hc : st.Covered t) : t ∈ st.scheduled ∨ t ∈ st.methods.toList := by
  have hin : t.isIn .typeDef = true := Rows.isIn_of_find? ht
  cases hc with
  | plain hp => exact absurd hin (by simp [hp.1])
  | scheduled _ hs => exact .inl hs
  | expanded hi _ => cases Token.table_unique hin hi
  | queued hq => exact .inr hq

theorem expanded_of_covered {t : Token} {f : FieldDef} (ht : s.model.field? t = some f)
    (hc : st.Covered t) : t ∈ st.expandedFields ∨ t ∈ st.methods.toList := by
  have hin : t.isIn .field = true := Rows.isIn_of_find? ht
  cases hc with
  | plain hp => exact absurd hin (by simp [hp.2.1])
  | scheduled hi _ => cases Token.table_unique hin hi
  | expanded _ he => exact .inl he
  | queued hq => exact .inr hq

theorem queued_of_covered {t : Token} {d : MethodDef} (ht : s.model.method? t = some d)
    (hc : st.Covered t) : t ∈ st.methods.toList := by
  have hin : t.isIn .methodDef = true := Rows.isIn_of_find? ht
  cases hc with
  | plain hp => exact absurd hin (by simp [hp.2.2])
  | scheduled hi _ => cases Token.table_unique hin hi
  | expanded hi _ => cases Token.table_unique hin hi
  | queued hq => exact hq

theorem MethodDone.mono {t : Token} (h : s.MethodDone marks st t) (hg : st.Grows own st') :
    s.MethodDone marks st' t := by
  obtain ⟨d, action, hd, hp, hx, ha⟩ := h
  exact ⟨d, action, hd, hp, fun x hx' => hg.met (hx x hx'), hg.action ha⟩

/-- Changes keep the invariant, if what they finish is done. -/
theorem Tracks.settles (h : s.Tracks marks S types methods st) (hs : s.Settles S own st st')
    (htypes : ∀ {t}, types t → types' t) (hmethods : ∀ {t}, methods t → methods' t)
    (htypes' : ∀ {t}, t ∈ st'.types.toList → types' t)
    (hmethods' : ∀ {t}, t ∈ st'.methods.toList → methods' t)
    (hown : ∀ {t}, own t → st'.marks.isProcessed t = true → s.MethodDone marks st' t) :
    s.Tracks marks S types' methods' st' where
  within := h.within.changes hs.changes
  type {t d} hm hd := by
    by_cases ht : st.marks.isMarked t = true
    · exact (h.type ht hd).imp hs.changes.grows.scheduled hmethods
    · exact (scheduled_of_covered hd (hs.changes.grows.covered ht hm)).imp_right hmethods'
  field {t f} hm hf := by
    by_cases ht : st.marks.isMarked t = true
    · exact (h.field ht hf).imp hs.changes.grows.expanded hmethods
    · exact (expanded_of_covered hf (hs.changes.grows.covered ht hm)).imp_right hmethods'
  method {t d} hm hd := by
    by_cases ht : st.marks.isMarked t = true
    · exact (h.method ht hd).imp hs.changes.grows.processed hmethods
    · exact .inr (hmethods' (queued_of_covered hd (hs.changes.grows.covered ht hm)))
  scheduled {t d} ht hd := by
    by_cases hold : t ∈ st.scheduled
    · exact (h.scheduled hold hd).imp (fun hx x hx' => hs.changes.grows.met (hx x hx')) htypes
    · exact .inr (htypes' (hs.changes.grows.queued hold ht))
  expanded {t f} ht hf x hx := by
    by_cases hold : t ∈ st.expandedFields
    · exact hs.changes.grows.met (h.expanded hold hf x hx)
    · exact hs.field hold ht hf x hx
  seen {t a} ht ha x hx := by
    by_cases hold : t ∈ st.seenAssemblies
    · exact hs.changes.grows.met (h.seen hold ha x hx)
    · exact hs.assembly hold ht ha x hx
  assembly ha := hs.changes.grows.seen (h.assembly ha)
  processed {t} ht := by
    by_cases hold : st.marks.isProcessed t = true
    · exact (h.processed hold).imp_right fun hdone => hdone.mono hs.changes.grows
    · exact .inr (hown (hs.changes.grows.finished hold ht) ht)
  registered hp hv := hs.changes.grows.virtuals (h.registered hp hv)

/-- Offers keep the invariant, and so does any count. -/
theorem Offers.settles (own : Token → Prop) (h : s.Offers S st st') : s.Settles S own st st' where
  changes := h.changes own
  field hn hx := absurd (h.unopened.1 ▸ hx) hn
  assembly hn hx := absurd (h.unopened.2 ▸ hx) hn

theorem Tracks.take_type (h : s.Tracked marks S st) {t : Token} {rest : Fifo Token}
    (hp : st.types.toList.Perm (t :: rest.toList)) :
    s.Tracks marks S (· ∈ st.types.toList) (· ∈ st.methods.toList)
      (st.takeType s.model t rest) :=
  { h with
    within := { h.within with
      types := fun ht => h.within.types (hp.mem_iff.mpr (List.mem_cons_of_mem _ ht)) } }

theorem Tracks.take_method (h : s.Tracked marks S st) {t : Token} {rest : Fifo Token}
    (hp : st.methods.toList.Perm (t :: rest.toList)) :
    s.Tracks marks S (· ∈ st.types.toList) (fun x => x ∈ rest.toList ∨ x = t)
      (st.takeMethod s.model t rest) :=
  have hwait {x : Token} (hx : x ∈ st.methods.toList) : x ∈ rest.toList ∨ x = t :=
    (List.mem_cons.mp (hp.mem_iff.mp hx)).symm
  { h with
    within := { h.within with
      methods := fun ht => h.within.methods (hp.mem_iff.mpr (List.mem_cons_of_mem _ ht)) }
    type := fun hm hd => (h.type hm hd).imp_right hwait
    field := fun hm hf => (h.field hm hf).imp_right hwait
    method := fun hm hd => (h.method hm hd).imp_right hwait }

/-- A type whose needs are met waits no longer. -/
theorem Tracks.drop_type {t : Token} {d : TypeDef}
    (h : s.Tracks marks S (fun x => types x ∨ x = t) methods st) (hd : s.model.type? t = some d)
    (hmet : ∀ x ∈ s.typeNeeds t d, st.Met x) : s.Tracks marks S types methods st :=
  { h with
    scheduled := fun hx hd' => by
      rcases h.scheduled hx hd' with hmet' | hq | rfl
      · exact .inl hmet'
      · exact .inr hq
      · cases hd.symm.trans hd'
        exact .inl hmet }

/-- A processed method waits no longer. -/
theorem Tracks.drop_method {t : Token} {d : MethodDef}
    (h : s.Tracks marks S types (fun x => methods x ∨ x = t) st)
    (hp : st.marks.isProcessed t = true) (hd : s.model.method? t = some d) :
    s.Tracks marks S types methods st :=
  have hin : t.isIn .methodDef = true := Rows.isIn_of_find? hd
  { h with
    type := fun hm hd' => by
      rcases h.type hm hd' with hs | hq | rfl
      · exact .inl hs
      · exact .inr hq
      · cases Token.table_unique hin (Rows.isIn_of_find? hd' : Token.isIn _ .typeDef = true)
    field := fun hm hf => by
      rcases h.field hm hf with he | hq | rfl
      · exact .inl he
      · exact .inr hq
      · cases Token.table_unique hin (Rows.isIn_of_find? hf : Token.isIn _ .field = true)
    method := fun hm hd' => by
      rcases h.method hm hd' with hp' | hq | rfl
      · exact .inl hp'
      · exact .inr hq
      · exact .inl hp }

end Setting

namespace Marking

variable {s : Setting} {marks : Marks} {S : Token → Prop} {st st' : MarkState} {t : Token}
  {rest : Fifo Token}

/-- How a step fails: a reference of a definition of `S` does not bind. Only what is kept as a
method and is none makes it fail otherwise. -/
def Faults (s : Setting) (marks : Marks) (S : Token → Prop) (e : MarkFault) : Prop :=
  ∃ cause, e = .unresolved cause ∧ (s.NamesMethods → s.Unbound marks S)

theorem Fails.faults {ds : List Demand} {e : MarkFault} (h : Fails s marks S ds e)
    (unbound : Asks ds .failure → s.Unbound marks S) : Faults s marks S e := by
  obtain ⟨cause, he, hf | hu⟩ := h
  · exact ⟨cause, he, fun _ => unbound hf⟩
  · exact ⟨cause, he, fun _ => hu⟩

/-- The demands of a type of `S` may be met. -/
theorem due_typeNeeds (adm : s.Admits marks S) (hS : S t) {d : TypeDef}
    (hd : s.model.type? t = some d) : s.Due marks S (fun _ => False) (s.typeNeeds t d) :=
  ⟨Setting.apt_typeNeeds adm.toFormed hd, fun hy => adm.type hS hd
    ((Setting.keeps_typeNeeds adm.wellFormed adm.fits hd).mp hy)⟩

/-- A type that waits, whichever it is, is expanded. -/
theorem expandType_spec (adm : s.Admits marks S) (h : s.Tracked marks S st)
    (hp : st.types.toList.Perm (t :: rest.toList)) :
    Ends (expandType s t) { st with types := rest }
      (fun _ st' => s.Changes S (fun _ => False) (st.takeType s.model t rest) st' ∧
        s.Tracked marks S st') (Faults s marks S) := by
  have hS : S t := h.within.types (hp.mem_iff.mpr List.mem_cons_self)
  have htrack := h.take_type hp
  have hwait {x : Token} (hx : x ∈ st.types.toList) : x ∈ rest.toList ∨ x = t :=
    (List.mem_cons.mp (hp.mem_iff.mp hx)).symm
  unfold expandType
  cases hd : s.model.type? t with
  | none =>
    rw [MarkState.takeType_of_none hd] at htrack ⊢
    rw [ends_pure]
    refine ⟨.refl, { htrack with scheduled := fun hx hd' => ?_ }⟩
    rcases htrack.scheduled hx hd' with hmet | hq
    · exact .inl hmet
    · rcases hwait hq with hq | rfl
      · exact .inr hq
      · rw [hd] at hd'
        cases hd'
  | some d =>
    simp only [ends_bind, ends_modify]
    rw [← MarkState.takeType_of_some hd]
    refine (settle_spec adm htrack.within (fun _ => False.elim)
      (due_typeNeeds adm hS hd)).mono ?_ ?_
    · rintro _ st' ⟨hset, hmet⟩
      have htrack' : s.Tracks marks S (fun x => x ∈ st'.types.toList ∨ x = t)
          (· ∈ st'.methods.toList) st' :=
        htrack.settles hset (fun hx => (hwait hx).imp_left hset.changes.grows.types)
          hset.changes.grows.methods .inl id fun h => h.elim
      exact ⟨hset.changes, htrack'.drop_type hd hmet⟩
    · exact fun e he => he.faults fun hf => .type hS hd
        ((Setting.fails_typeNeeds adm.wellFormed adm.fits hd).mp hf)

/-- A method that waits, whichever it is, is processed. -/
theorem processMethod_spec (adm : s.Admits marks S) (h : s.Tracked marks S st)
    (hp : st.methods.toList.Perm (t :: rest.toList)) :
    Ends (processMethod s t) { st with methods := rest }
      (fun _ st' => s.Changes S (· = t) (st.takeMethod s.model t rest) st' ∧
        st'.marks.isProcessed t = true ∧ (s.model.method? t).isSome ∧ s.Tracked marks S st')
      (Faults s marks S) := by
  have hq : t ∈ st.methods.toList := hp.mem_iff.mpr List.mem_cons_self
  have hawaits := h.within.methods hq
  have hparses := h.within.parses hq
  have hS : S t := h.within.marked hawaits.marked
  have htrack := h.take_method hp
  simp only [processMethod, ends_bind, ends_get]
  split
  · rename_i hdone
    rw [MarkState.takeMethod_of_processed hdone] at htrack ⊢
    have hmethod : (s.model.method? t).isSome := by
      rcases h.processed hdone with hold | ⟨d, -, hd, -⟩
      · exact hawaits.known.resolve_right fun hm => hm (Marks.isMarked_of_isProcessed hold)
      · exact Option.isSome_iff_exists.mpr ⟨d, hd⟩
    obtain ⟨d, hd⟩ := Option.isSome_iff_exists.mp hmethod
    rw [ends_pure]
    exact ⟨.refl, hdone, hmethod, htrack.drop_method hdone hd⟩
  · rename_i hnew
    cases hd : s.model.method? t with
    | none =>
      rw [ends_throw]
      refine ⟨.methodDefinition t, rfl, fun names => ?_⟩
      have := hawaits.isMethod names
      rw [hd] at this
      cases this
    | some d =>
      have due : s.Due marks S (· = t) (s.methodNeeds t d (st.marks.methodAction t)) :=
        ⟨Setting.apt_methodNeeds adm.toFormed hd, fun hy => adm.method hS hd
          ((Setting.keeps_methodNeeds adm.wellFormed adm.fits hd hparses).mp hy)⟩
      simp only [ends_bind, ends_modify]
      rw [← MarkState.takeMethod_of_some hnew hd]
      refine (settle_spec adm htrack.within (fun x (hx : x = t) => hx ▸ hawaits.marked) due).mono
        ?_ ?_
      · rintro _ st' ⟨hset, hmet⟩
        have hgrows := hset.changes.grows
        have hdone : s.MethodDone marks st' t :=
          ⟨d, _, hd, hparses, hmet, hgrows.action hawaits.action⟩
        have hfinished : st'.marks.isProcessed t = true :=
          hmet (.finished t) (List.mem_append_right _ (List.mem_singleton_self _))
        have htrack' : s.Tracks marks S (· ∈ st'.types.toList)
            (fun x => x ∈ st'.methods.toList ∨ x = t) st' :=
          htrack.settles hset hgrows.types (fun hx => hx.imp_left hgrows.methods) id .inl
            fun hx _ => hx ▸ hdone
        exact ⟨hset.changes, hfinished, rfl, htrack'.drop_method hfinished hd⟩
      · exact fun e he => he.faults fun hf => .method hS hd
          ((Setting.fails_methodNeeds adm.wellFormed adm.fits hd hparses).mp hf)

/-- Looking again at the overrides of virtual methods offers each of them. -/
theorem sweep_spec (adm : s.Admits marks S) (hw : s.Within marks S st) :
    Ends (sweep s) st (fun _ st' => s.Offers S st st' ∧ ∀ base ∈ st.virtuals,
      ∀ o ∈ s.overrides.overridesOf base, s.Offered st st' o) fun _ => False := by
  rw [sweep, ends_modify]
  exact Setting.spreadAll_spec adm st.virtuals st hw fun _ hv =>
    ⟨hw.marked (hw.virtuals hv).1, .inl (hw.virtuals hv).2⟩

end Marking

end CilTrim
