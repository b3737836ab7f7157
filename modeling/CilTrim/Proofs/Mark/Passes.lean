import CilTrim.Proofs.Mark.Frame
import CilTrim.Proofs.Mark.Termination

/-!
# States that marking passes

A run passes the states that its steps lead to, one after another. What is said of all of them holds
in the middle of a run, where the needs of a definition are only partly met:

* `Setting.Passes`: the states that steps of marking lead to;
* `Marking.settle_passes`, `Marking.run_passes`: meeting demands and running pass such states only,
  whether they come to an end or not;
* `Setting.Passes.scheduled`: types are scheduled only once they are marked.
-/

namespace CilTrim

/-! ## Types that are scheduled -/

namespace MarkState

variable {st st' st'' : MarkState} {t : Token} {reason : Reason}

/-- What is newly scheduled is marked, and marks stay. -/
structure Schedules (st st' : MarkState) : Prop where
  marked {t : Token} : st.marks.isMarked t = true → st'.marks.isMarked t = true
  scheduled {t : Token} : t ∈ st'.scheduled → t ∈ st.scheduled ∨ st'.marks.isMarked t = true

theorem Schedules.refl (st : MarkState) : st.Schedules st := ⟨id, .inl⟩

theorem Schedules.trans (h : st.Schedules st') (h' : st'.Schedules st'') : st.Schedules st'' where
  marked ht := h'.marked (h.marked ht)
  scheduled ht := (h'.scheduled ht).elim (fun hold => (h.scheduled hold).imp_right h'.marked) .inr

/-- A later state in which nothing is newly scheduled. -/
theorem Evolves.schedules (h : st.Evolves st') (hscheduled : st'.scheduled = st.scheduled) :
    st.Schedules st' :=
  ⟨h.marks.marked, fun ht => .inl (hscheduled ▸ ht)⟩

theorem schedules_markNode : st.Schedules (st.markNode t reason) :=
  evolves_markNode.schedules (by rw [markNode_eq])

theorem schedules_needMethod : st.Schedules (st.needMethod t reason) :=
  evolves_needMethod.schedules (by rw [needMethod_eq])

theorem schedules_needType : st.Schedules (st.needType t reason) := by
  refine ⟨evolves_needType.marks.marked, fun {x} hx => ?_⟩
  rw [needType_eq] at hx ⊢
  exact (mem_insert_token.mp hx).symm.imp_right fun heq => Marks.isMarked_mark.mpr (.inl heq)

theorem schedules_schedule (ht : st.marks.isMarked t = true) : st.Schedules (st.schedule t) := by
  unfold schedule
  split
  · exact .refl st
  · refine ⟨id, fun {x} hx => ?_⟩
    rcases mem_insert_token.mp hx with rfl | hold
    · exact .inr ht
    · exact .inl hold

theorem offerSteps_schedules : OfferSteps Schedules where
  refl := .refl
  trans := .trans
  count _ _ := ⟨id, .inl⟩
  method _ _ _ := schedules_needMethod
  park _ _ := evolves_park.schedules (by unfold park; split <;> rfl)
  virtual _ _ := ⟨id, .inl⟩
  unpark _ _ := ⟨id, .inl⟩

end MarkState

namespace Marking

variable {s : Setting} {st : MarkState} {t : Token} {reason : Reason}

theorem meetField_schedules :
    Ends (meetField s t reason) st (fun _ st' => st.Schedules st') fun _ => False := by
  have hmark : st.Schedules (st.markNode t reason) := MarkState.schedules_markNode
  simp only [meetField, ends_bind, ends_modify, ends_get]
  split
  · exact ends_pure.mpr hmark
  · have hopen : st.Schedules { st.markNode t reason with
        expandedFields := (st.markNode t reason).expandedFields.insert t } :=
      ⟨hmark.marked, hmark.scheduled⟩
    simp only [ends_bind, ends_set]
    cases s.model.field? t with
    | none => exact ends_pure.mpr hopen
    | some f =>
      simp only [ends_bind, ends_modify, ends_pure]
      exact ⟨hopen.marked, hopen.scheduled⟩

theorem meetAssembly_schedules :
    Ends (meetAssembly s t) st (fun _ st' => st.Schedules st') fun _ => False := by
  have hseen : st.Schedules { st with seenAssemblies := st.seenAssemblies.insert t } :=
    ⟨id, .inl⟩
  simp only [meetAssembly, ends_bind, ends_get]
  split
  · exact ends_pure.mpr ⟨id, .inl⟩
  · simp only [ends_bind, ends_set]
    cases s.model.assembly? t with
    | none => exact ends_pure.mpr hseen
    | some a => exact ends_pure.mpr hseen

/-- Meeting a demand schedules what it marks. -/
theorem meet_schedules (d : Demand) :
    Ends (meet s d) st (fun _ st' => st.Schedules st') fun _ => True := by
  have plain {change : MarkState → MarkState} (h : st.Schedules (change st)) :
      Ends (do modify change; pure []) st (fun (_ : List Demand) st' => st.Schedules st')
        fun _ => True := by
    rw [ends_bind, ends_modify, ends_pure]
    exact h
  cases d with
  | node => exact plain MarkState.schedules_markNode
  | type => exact plain MarkState.schedules_needType
  | method => exact plain MarkState.schedules_needMethod
  | field => exact meetField_schedules.mono (fun _ _ => id) fun _ => False.elim
  | assembly => exact meetAssembly_schedules.mono (fun _ _ => id) fun _ => False.elim
  | overridable t => exact plain (MarkState.offerSteps_schedules.register _ _ t st)
  | arrived t => exact plain (MarkState.offerSteps_schedules.arrive _ _ t st)
  | finished t => exact plain ⟨fun h => Marks.isMarked_setProcessed.mpr (.inr h), .inl⟩
  | skippedAttribute => exact plain ⟨id, .inl⟩
  | skippedName => exact plain ⟨id, .inl⟩
  | unresolved => exact ends_throw.mpr trivial

end Marking

/-! ## States that are passed -/

namespace Setting

/-- The states that marking passes, from marks on: demands are met, the queues are filled with what
is marked and emptied one after another, overrides are looked at again, and counts change. Where a
demand comes from makes no difference, so it may be any. -/
inductive Passes (s : Setting) (marks : Marks) : MarkState → Prop where
  | start : Passes s marks (.ofMarks marks)
  | met {d : Demand} {rest : List Demand} {st st' : MarkState} : Passes s marks st →
    Marking.meet s d st = .ok rest st' → Passes s marks st'
  | count {st : MarkState} (change : MarkStats → MarkStats) : Passes s marks st →
    Passes s marks (st.count change)
  | schedule {t : Token} {st : MarkState} : Passes s marks st → st.marks.isMarked t = true →
    Passes s marks (st.schedule t)
  | queue {t : Token} {st : MarkState} : Passes s marks st → st.marks.isMarked t = true →
    Passes s marks { st with marks := st.marks.ensureParsed t, methods := st.methods.push t }
  | nextType {t : Token} {rest : Fifo Token} {st : MarkState} : Passes s marks st →
    st.types.pop? = some (t, rest) → Passes s marks { st with types := rest }
  | nextMethod {t : Token} {rest : Fifo Token} {st : MarkState} : Passes s marks st →
    st.methods.pop? = some (t, rest) → Passes s marks { st with methods := rest }
  | spread {st : MarkState} (base : Token) : Passes s marks st →
    Passes s marks (st.spread s.model s.overrides base)

variable {s : Setting} {marks : Marks} {st : MarkState} {t : Token}

/-- Types are scheduled only once they are marked. -/
theorem Passes.scheduled (h : s.Passes marks st) :
    ∀ {t}, t ∈ st.scheduled → st.marks.isMarked t = true := by
  have step {st st' : MarkState} (hst : ∀ {t}, t ∈ st.scheduled → st.marks.isMarked t = true)
      (h : st.Schedules st') {t : Token} (ht : t ∈ st'.scheduled) :
      st'.marks.isMarked t = true :=
    (h.scheduled ht).elim (fun hold => h.marked (hst hold)) id
  induction h with
  | start => simp [MarkState.ofMarks]
  | met _ hx ih => exact step ih ((Marking.meet_schedules _).ok hx)
  | count _ _ ih => exact ih
  | schedule _ ht ih => exact step ih (MarkState.schedules_schedule ht)
  | queue _ _ ih =>
    intro t ht
    rw [Marks.isMarked_ensureParsed]
    exact ih ht
  | nextType _ _ ih => exact ih
  | nextMethod _ _ ih => exact ih
  | spread base _ ih => exact step ih (MarkState.offerSteps_schedules.spread _ _ base _)

/-- Looking again at the overrides of methods, one after another. -/
theorem Passes.spreadAll (h : s.Passes marks st) (bases : List Token) : s.Passes marks
    (bases.foldl (fun st base => MarkState.spread s.model s.overrides base st) st) := by
  induction bases generalizing st with
  | nil => exact h
  | cons base rest ih => exact ih (h.spread base)

end Setting

namespace Marking

variable {s : Setting} {marks : Marks} {st : MarkState} {t : Token}

/-- A demand that is not met changes nothing. -/
theorem state_of_meet_error {d : Demand} {st' : MarkState} {e : MarkFault}
    (h : meet s d st = .error e st') : st' = st := by
  cases d with
  | field => exact (meetField_schedules.error h).elim
  | assembly => exact (meetAssembly_schedules.error h).elim
  | unresolved cause =>
    cases h
    rfl
  | _ => cases h

theorem settle_passes (ds : List Demand) (h : s.Passes marks st) :
    Leaves (settle s ds) st (s.Passes marks) := by
  have hsettling := settling_settle (s := s) ds st
  unfold Leaves
  generalize settle s ds st = r at hsettling
  induction hsettling with
  | done => exact h
  | fault hx => exact state_of_meet_error hx ▸ h
  | inner hx _ ih => exact ih (h.met hx)
  | next hx _ _ ihrest ihds => exact ihds (ihrest (h.met hx))

theorem expandType_passes (h : s.Passes marks st) :
    Leaves (expandType s t) st (s.Passes marks) := by
  unfold expandType
  cases s.model.type? t with
  | none => exact leaves_pure.mpr h
  | some type =>
    rw [leaves_modify_bind]
    exact settle_passes _ (h.count _)

theorem processMethod_passes (h : s.Passes marks st) :
    Leaves (processMethod s t) st (s.Passes marks) := by
  simp only [processMethod, leaves_get_bind]
  split
  · exact leaves_pure.mpr h
  · cases s.model.method? t with
    | none => exact leaves_throw.mpr h
    | some method =>
      rw [leaves_modify_bind]
      exact settle_passes _ (h.count _)

theorem passes_steps : RunSteps s (s.Passes marks) where
  count := .count
  assembly := settle_passes _
  schedule := .schedule
  field := settle_passes _
  register {st t} h := by
    have hmeet : meet s (.overridable t) st =
        .ok [] (MarkState.register s.model s.overrides t st) := rfl
    exact h.met hmeet
  queue := .queue
  type h hp := expandType_passes (h.nextType hp)
  method h hp := processMethod_passes (h.nextMethod hp)
  sweep h := h.spreadAll _

/-- A run passes such states only, and ends in one, whether it comes to an end or not. -/
theorem run_passes : Leaves (run s) (.ofMarks marks) (s.Passes marks) :=
  passes_steps.run_leaves .start

end Marking

end CilTrim
