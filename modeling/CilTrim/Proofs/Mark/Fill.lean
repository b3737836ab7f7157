import CilTrim.Proofs.Mark.Tally

/-!
# The start of a run

Filling the queues visits every definition of the model, so that each one that was marked before is
queued or done, and the invariant holds from then on. Methods that an earlier run has processed are
registered, if they are virtual:

* `Setting.Fills`: what filling does, one part after another;
* `Setting.Visited`, `Setting.Seeded`: a definition, and a method, that has been visited;
* `Marking.seedType_spec`: a type and its members;
* `Marking.fill_spec`: the whole model.
-/

namespace CilTrim

namespace Setting

variable {s : Setting} {marks : Marks} {S : Token → Prop} {st st' st'' : MarkState}

/-- A part of filling: nothing is lost or finished, and what is opened has what it needs. -/
structure Fills (s : Setting) (marks : Marks) (S : Token → Prop) (st st' : MarkState) : Prop where
  within : s.Within marks S st → s.Within marks S st'
  grows : st.Grows (fun _ => False) st'
  field {t : Token} {f : FieldDef} : t ∉ st.expandedFields → t ∈ st'.expandedFields →
    s.model.field? t = some f → ∀ d ∈ s.fieldNeeds t f, st'.Met d
  assembly {t : Token} {a : AssemblyDef} : t ∉ st.seenAssemblies → t ∈ st'.seenAssemblies →
    s.model.assembly? t = some a → ∀ d ∈ s.assemblyNeeds t a, st'.Met d
  tallies : st.Tallies s.model st'
  rounds : st'.stats.rounds = st.stats.rounds

theorem Settles.fills (formed : s.Formed) (h : s.Settles S (fun _ => False) st st') :
    s.Fills marks S st st' :=
  ⟨fun hw => hw.changes h.changes, h.changes.grows, h.field, h.assembly, h.changes.tallies formed,
    h.changes.rounds⟩

namespace Fills

theorem refl (st : MarkState) : s.Fills marks S st st :=
  ⟨id, .refl _ st, fun h h' => absurd h' h, fun h h' => absurd h' h, .refl st, rfl⟩

theorem trans (h₁ : s.Fills marks S st st') (h₂ : s.Fills marks S st' st'') :
    s.Fills marks S st st'' where
  within hw := h₂.within (h₁.within hw)
  grows := h₁.grows.trans h₂.grows
  field {t f} h h' hf d hd := by
    by_cases ht : t ∈ st'.expandedFields
    · exact h₂.grows.met (h₁.field h ht hf d hd)
    · exact h₂.field ht h' hf d hd
  assembly {t a} h h' ha d hd := by
    by_cases ht : t ∈ st'.seenAssemblies
    · exact h₂.grows.met (h₁.assembly h ht ha d hd)
    · exact h₂.assembly ht h' ha d hd
  tallies := h₁.tallies.trans h₂.tallies
  rounds := h₂.rounds.trans h₁.rounds

end Fills

/-- A marked method enters its queue. -/
theorem Fills.queue {t : Token} (hm : st.marks.isMarked t = true)
    (ht : (s.model.method? t).isSome) :
    s.Fills marks S st
      { st with marks := st.marks.ensureParsed t, methods := st.methods.push t } where
  within hw := { hw with
    marked := fun h => hw.marked (by rwa [Marks.isMarked_ensureParsed] at h)
    roots := fun h => by
      rw [Marks.isMarked_ensureParsed]
      exact hw.roots h
    actions := fun h => Marks.methodAction_ensureParsed_ne (.inr (hw.actions h))
    methods := fun {x} hx => by
      rw [Fifo.toList_push, List.mem_append, List.mem_singleton] at hx
      rcases hx with hx | rfl
      · have h := hw.methods hx
        exact { h with
          marked := by
            rw [Marks.isMarked_ensureParsed]
            exact h.marked
          action := Marks.methodAction_ensureParsed_ne (.inr h.action) }
      · refine ⟨?_, Marks.methodAction_ensureParsed_ne (.inl rfl), fun _ => ht, .inl ht⟩
        rwa [Marks.isMarked_ensureParsed]
    scheduled := fun h => by
      rw [Marks.isMarked_ensureParsed]
      exact hw.scheduled h
    expanded := fun h => by
      rw [Marks.isMarked_ensureParsed]
      exact hw.expanded h
    virtuals := fun hx => by
      rw [Marks.isMarked_ensureParsed]
      exact hw.virtuals hx
    forced := fun x => Marks.methodAction_ensureParsed_forced.trans (hw.forced x) }
  grows := { MarkState.Grows.refl (fun _ => False) st with
    marked := fun h => by rwa [Marks.isMarked_ensureParsed]
    processed := fun h => by rwa [Marks.isProcessed_ensureParsed]
    action := fun h => Marks.methodAction_ensureParsed_ne (.inr h)
    methods := fun h => by
      rw [Fifo.toList_push]
      exact List.mem_append_left _ h
    covered := fun h h' => absurd (by rwa [Marks.isMarked_ensureParsed] at h') h
    finished := fun h h' => absurd (by rwa [Marks.isProcessed_ensureParsed] at h') h }
  field h h' := absurd h' h
  assembly h h' := absurd h' h
  tallies := MarkState.Opens.tallies ⟨⟨rfl, rfl⟩, rfl⟩
    (MarkState.finishedMethods_congr fun x => by rw [Marks.isProcessed_ensureParsed])
  rounds := rfl

/-- A definition has been visited: it is queued or done if it is marked. -/
def Visited (t : Token) (st : MarkState) : Prop :=
  st.marks.isMarked t = true → st.Covered t

theorem Fills.visited (h : s.Fills marks S st st') {t : Token} (ht : Visited t st) :
    Visited t st' := by
  intro hm
  by_cases hold : st.marks.isMarked t = true
  · exact h.grows.covered_mono (ht hold)
  · exact h.grows.covered hold hm

/-- A method has been visited, and it is registered if it is virtual and was processed before. -/
structure Seeded (s : Setting) (marks : Marks) (t : Token) (st : MarkState) : Prop where
  visited : Visited t st
  registered : marks.isProcessed t = true → s.model.IsVirtual t → t ∈ st.virtuals

theorem Fills.seeded (h : s.Fills marks S st st') {t : Token} (ht : s.Seeded marks t st) :
    s.Seeded marks t st' :=
  ⟨h.visited ht.visited, fun hp hv => h.grows.virtuals (ht.registered hp hv)⟩

/-- A type and its members have been visited. -/
structure TypeSeeded (s : Setting) (marks : Marks) (d : TypeDef) (st : MarkState) : Prop where
  type : Visited d.token st
  fields : ∀ x ∈ d.fields, Visited x st
  methods : ∀ x ∈ d.methods, s.Seeded marks x st

theorem Fills.typeSeeded (h : s.Fills marks S st st') {d : TypeDef}
    (hd : s.TypeSeeded marks d st) : s.TypeSeeded marks d st' :=
  ⟨h.visited hd.type, fun x hx => h.visited (hd.fields x hx),
    fun x hx => h.seeded (hd.methods x hx)⟩

end Setting

namespace Marking

open Setting (Visited)

variable {s : Setting} {marks : Marks} {S : Token → Prop} {st : MarkState} {t : Token}

theorem seedMethod_spec (adm : s.Admits marks S) (hw : s.Within marks S st)
    (processed : marks.isProcessed t = true → st.marks.isProcessed t = true)
    (ht : (s.model.method? t).isSome) :
    Ends (seedMethod s t) st (fun _ st' => s.Fills marks S st st' ∧ s.Seeded marks t st')
      (Faults s marks S) := by
  have push (st₁ : MarkState) (h₁ : s.Fills marks S st st₁)
      (hv : marks.isProcessed t = true → s.model.IsVirtual t → t ∈ st₁.virtuals) :
      Ends (do
          if (← get).marks.isMarked t then
            modify fun state =>
              { state with marks := state.marks.ensureParsed t, methods := state.methods.push t })
        st₁ (fun _ st' => s.Fills marks S st st' ∧ s.Seeded marks t st') (Faults s marks S) := by
    simp only [ends_bind, ends_get]
    split <;> rename_i hm
    · rw [ends_modify]
      refine ⟨h₁.trans (.queue hm ht), fun _ => .queued ?_, hv⟩
      rw [Fifo.toList_push]
      exact List.mem_append_right _ (List.mem_singleton_self t)
    · rw [ends_pure]
      exact ⟨h₁, fun h => absurd h hm, hv⟩
  simp only [seedMethod, ends_bind, ends_get, Bool.and_eq_true, Option.any_eq_true]
  split <;> rename_i hc
  · obtain ⟨ho, hv⟩ := Setting.register_spec adm hw (Marks.isMarked_of_isProcessed hc.1) hc.2
    have hset : s.Settles S (fun _ => False) st _ := ho.settles _
    rw [ends_bind, ends_modify]
    exact push _ (hset.fills adm.toFormed) fun _ _ => hv
  · exact push st (.refl st) fun hp hv => absurd ⟨processed hp, hv⟩ hc

/-- A marked field is opened. -/
theorem seedField_spec (adm : s.Admits marks S) (hw : s.Within marks S st)
    (ht : (s.model.field? t).isSome) :
    Ends (do if (← get).marks.isMarked t then settle s [.field t .root]) st
      (fun _ st' => s.Fills marks S st st' ∧ Visited t st') (Faults s marks S) := by
  have hin : t.isIn .field = true := Model.isIn_of_field? ht
  simp only [ends_bind, ends_get]
  split
  · rename_i hm
    have due : s.Due marks S (fun _ => False) [.field t .root] := by
      refine ⟨Setting.allApt_cons.mpr ⟨ht, Setting.allApt_nil⟩, fun hy => ?_⟩
      simp only [asks_cons, asks_nil, or_false, Demand.need?, Option.some.injEq,
        Need.kept.injEq] at hy
      exact hy ▸ hw.marked hm
    refine (settle_spec adm hw (fun _ => False.elim) due).mono ?_ fun e he => he.faults ?_
    · rintro _ st' ⟨hset, hmet⟩
      exact ⟨hset.fills adm.toFormed,
        fun _ => .expanded hin (hmet _ (List.mem_singleton_self _)).2⟩
    · simp
  · rename_i hm
    rw [ends_pure]
    exact ⟨.refl st, fun h => absurd h hm⟩

/-- A marked type is scheduled. -/
theorem schedule_fills (formed : s.Formed) (hw : s.Within marks S st)
    (hin : t.isIn .typeDef = true) (hm : st.marks.isMarked t = true) :
    s.Fills marks S st (st.schedule t) ∧ Visited t (st.schedule t) := by
  have he : st.schedule t = st.needType t .root := by
    rw [MarkState.needType, MarkState.markNode, if_pos hm]
  have hc : s.Change S (fun _ => False) st (st.needType t .root) := .type (hw.marked hm) hin
  have hunopened : (st.needType t .root).expandedFields = st.expandedFields ∧
      (st.needType t .root).seenAssemblies = st.seenAssemblies := MarkState.unopened_needType
  have hset : s.Settles S (fun _ => False) st (st.needType t .root) :=
    ⟨.single hc, fun h h' => absurd (hunopened.1 ▸ h') h, fun h h' => absurd (hunopened.2 ▸ h') h⟩
  rw [he]
  refine ⟨hset.fills formed, fun _ => .scheduled hin ?_⟩
  rw [MarkState.needType_eq]
  exact mem_insert_token.mpr (.inl rfl)

/-- A type and its members. -/
theorem seedType_spec (adm : s.Admits marks S) (hw : s.Within marks S st)
    (processed : ∀ {x}, marks.isProcessed x = true → st.marks.isProcessed x = true)
    {d : TypeDef} (hd : s.model.type? d.token = some d) :
    Ends (seedType s d) st (fun _ st' => s.Fills marks S st st' ∧ s.TypeSeeded marks d st')
      (Faults s marks S) := by
  have hin : d.token.isIn .typeDef = true := Rows.isIn_of_find? hd
  have members (st₁ : MarkState) (h₁ : s.Fills marks S st st₁) (hv : Visited d.token st₁) :
      Ends (do
        d.fields.forM fun field => do
          if (← get).marks.isMarked field then settle s [.field field .root]
        d.methods.forM (seedMethod s)) st₁
      (fun _ st' => s.Fills marks S st st' ∧ s.TypeSeeded marks d st') (Faults s marks S) := by
    rw [ends_bind]
    refine (Ends.forM (s.Fills marks S) Visited .refl .trans (fun h => h.visited)
      fun x hx st' h' => ?_).mono ?_ fun _ => id
    · obtain ⟨f, hf, -⟩ := adm.wellFormed.fields_listed.declared hd hx
      exact seedField_spec adm (h'.within (h₁.within hw)) (Option.isSome_iff_exists.mpr ⟨f, hf⟩)
    · rintro _ st₂ ⟨h₂, hfields⟩
      have h₁₂ := h₁.trans h₂
      refine (Ends.forM (s.Fills marks S) (s.Seeded marks) .refl .trans (fun h => h.seeded)
        fun x hx st' h' => ?_).mono ?_ fun _ => id
      · obtain ⟨m, hm, -⟩ := adm.wellFormed.methods_listed.declared hd hx
        have h := h₁₂.trans h'
        exact seedMethod_spec adm (h.within hw) (fun hp => h.grows.processed (processed hp))
          (Option.isSome_iff_exists.mpr ⟨m, hm⟩)
      · rintro _ st₃ ⟨h₃, hmethods⟩
        exact ⟨h₁₂.trans h₃, (h₂.trans h₃).visited hv, fun x hx => h₃.visited (hfields x hx),
          hmethods⟩
  unfold seedType
  simp only [ends_bind, ends_get]
  split
  · rename_i hm
    rw [ends_bind, ends_modify]
    obtain ⟨h₁, hv⟩ := schedule_fills adm.toFormed hw hin hm
    exact members _ h₁ hv
  · rename_i hm
    exact members _ (.refl st) fun h => absurd h hm

end Marking

namespace Setting

variable {s : Setting} {marks : Marks} {S : Token → Prop} {st : MarkState}

/-- Nothing but marks is known at the start. -/
theorem Within.start (roots : ∀ t, marks.isMarked t = true → S t) :
    s.Within marks S (.ofMarks marks) where
  marked := roots _
  roots := id
  actions := id
  types h := by cases h
  methods h := by cases h
  scheduled h := by simp [MarkState.ofMarks] at h
  expanded h := by simp [MarkState.ofMarks] at h
  virtuals h := by cases h
  parked h := by cases h
  forced _ := Iff.rfl

/-- Every marked method waits in its queue. -/
def AllQueued (s : Setting) (st : MarkState) : Prop :=
  ∀ (t : Token) (d : MethodDef), st.marks.isMarked t = true → s.model.method? t = some d →
    t ∈ st.methods.toList

theorem AllQueued.grows {own : Token → Prop} {st' : MarkState} (h : s.AllQueued st)
    (hg : st.Grows own st') : s.AllQueued st' := by
  intro t d hm hd
  by_cases hold : st.marks.isMarked t = true
  · exact hg.methods (h t d hold hd)
  · exact queued_of_covered hd (hg.covered hold hm)

/-- When everything has been visited, the invariant holds, and all marked methods wait. -/
theorem Fills.tracked (formed : s.Formed) (roots : ∀ t, marks.isMarked t = true → S t)
    (h : s.Fills marks S (.ofMarks marks) st)
    (assemblies : ∀ a ∈ s.model.assemblies.toList, a.token ∈ st.seenAssemblies)
    (types : ∀ d ∈ s.model.types.toList, s.TypeSeeded marks d st) :
    s.Tracked marks S st ∧ s.AllQueued st := by
  have seeded {t : Token} {m : MethodDef} (hm : s.model.method? t = some m) :
      s.Seeded marks t st := by
    obtain ⟨d, hd, hx⟩ := formed.wellFormed.methods_listed.listed hm
    exact (types d (Rows.mem_of_find? hd)).methods _ hx
  have queued : s.AllQueued st := fun t d hm hd =>
    queued_of_covered hd ((seeded hd).visited hm)
  refine ⟨?_, queued⟩
  exact {
    within := h.within (.start roots)
    type := fun hm hd => by
      have hv := (types _ (Rows.mem_of_find? hd)).type
      rw [formed.wellFormed.type_token hd] at hv
      exact scheduled_of_covered hd (hv hm)
    field := fun hm hf => by
      obtain ⟨d, hd, hx⟩ := formed.wellFormed.fields_listed.listed hf
      exact expanded_of_covered hf ((types d (Rows.mem_of_find? hd)).fields _ hx hm)
    method := fun hm hd => .inr (queued _ _ hm hd)
    scheduled := fun hs _ => .inr (h.grows.queued (by simp [MarkState.ofMarks]) hs)
    expanded := fun he hf => h.field (by simp [MarkState.ofMarks]) he hf
    seen := fun hs ha => h.assembly (by simp [MarkState.ofMarks]) hs ha
    assembly := fun ha => assemblies _ ha
    processed := fun {t} hp => by
      by_contra hn
      exact h.grows.finished (fun hold => hn (.inl hold)) hp
    registered := fun hp hv => by
      obtain ⟨m, hm⟩ := Option.isSome_iff_exists.mp hv.isSome
      exact (seeded hm).registered hp hv }

end Setting

namespace Marking

variable {s : Setting} {marks : Marks} {S : Token → Prop}

/-- Filling the queues makes the invariant hold. Nothing leaves a queue. -/
theorem fill_spec (adm : s.Admits marks S) (roots : ∀ t, marks.isMarked t = true → S t) :
    Ends (fill s) (.ofMarks marks)
      (fun _ st => s.Tracked marks S st ∧ s.AllQueued st ∧ s.Fills marks S (.ofMarks marks) st)
      (Faults s marks S) := by
  have start := Setting.Within.start (s := s) roots
  unfold fill
  rw [ends_bind]
  refine (Ends.forM (s.Fills marks S) (fun a st => a.token ∈ st.seenAssemblies) .refl .trans
    (fun h => h.grows.seen) fun a ha st' h' => ?_).mono ?_ fun _ => id
  · have hassembly := adm.wellFormed.assembly_of_mem adm.fits ha
    have due : s.Due marks S (fun _ => False) [.assembly a.token] :=
      ⟨Setting.allApt_cons.mpr ⟨Option.isSome_iff_exists.mpr ⟨a, hassembly⟩, Setting.allApt_nil⟩,
        fun hy => by simp at hy⟩
    refine (settle_spec adm (h'.within start) (fun _ => False.elim) due).mono ?_
      fun e he => he.faults ?_
    · rintro _ st'' ⟨hset, hmet⟩
      exact ⟨hset.fills adm.toFormed, hmet _ (List.mem_singleton_self _)⟩
    · simp
  · rintro _ st₁ ⟨h₁, hseen⟩
    refine (Ends.forM (s.Fills marks S) (s.TypeSeeded marks) .refl .trans
      (fun h => h.typeSeeded) fun d hd st' h' => ?_).mono ?_ fun _ => id
    · have h := h₁.trans h'
      exact seedType_spec adm (h.within start) h.grows.processed
        (adm.wellFormed.type_of_mem adm.fits hd)
    · rintro _ st₂ ⟨h₂, hseeded⟩
      have h := h₁.trans h₂
      obtain ⟨htracked, hqueued⟩ := h.tracked adm.toFormed roots
        (fun a ha => h₂.grows.seen (hseen a ha)) hseeded
      exact ⟨htracked, hqueued, h⟩

end Marking

end CilTrim
