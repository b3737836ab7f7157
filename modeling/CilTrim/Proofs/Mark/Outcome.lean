import CilTrim.Proofs.Builder.Built
import CilTrim.Proofs.Except
import CilTrim.Proofs.Mark.Rounds

/-!
# What a run marks

For models as builders make them and marks with nothing processed, the outcome of a run depends on
the rules alone:

* `Setting.mark_closed`: what is marked has all that it keeps;
* `Setting.mark_least`: nothing else is marked, and the order of the queues does not matter;
* `Setting.mark_outcome`: a run fails exactly if a reference of what is reached does not bind or no
  method is reached.
-/

namespace CilTrim

/-! ## A program to run on -/

namespace Shapes

/-- A class with a virtual method, a class that overrides it, and a method that calls the former. -/
def model : Model :=
  let m := (Model.empty.addAssembly "Shapes").2
  let m := (m.addType (.ofClass ⟨0x20000001⟩ "Shapes" "Shape")).2
  let m := (m.addType { TypeDraft.ofClass ⟨0x20000001⟩ "Shapes" "Square" with
    base := some (.definition ⟨0x02000001⟩) }).2
  let m := (m.addMethod ((MethodDraft.ofName ⟨0x02000001⟩ "Scale").asVirtual.returns
    (.definition ⟨0x02000001⟩))).2
  let m := (m.addMethod ((MethodDraft.ofName ⟨0x02000002⟩ "Scale").asVirtual.returns
    (.definition ⟨0x02000001⟩))).2
  (m.addMethod (((MethodDraft.ofName ⟨0x02000002⟩ "Main").returns
    (.definition ⟨0x02000001⟩)).withCode [.callvirt (.definition ⟨0x06000001⟩), .ret])).2

/-- The program with nothing configured. -/
def setting : Setting where
  model := model
  policy := .default
  overrides := .ofModel model
  options := .default
  special := .empty
  corlib := none

/-- The method that calls is kept. -/
def roots : Marks := Marks.empty.mark ⟨0x06000003⟩ .root

theorem built : ∃ returned, Model.Built returned model := by
  refine ⟨_, .method _ (.method _ (.method _ (.type _ (.type _ (.assembly "Shapes" .empty) ?_ ?_)
    ?_ ?_) ?_) ?_) ?_⟩
  · exact ⟨by decide, by decide⟩
  · exact nofun
  · exact ⟨by decide, by decide⟩
  · exact nofun
  · exact ⟨by decide, by decide⟩
  · exact ⟨by decide, by decide⟩
  · exact ⟨by decide, by decide⟩

theorem fits : model.Fits := by
  intro table
  cases table <;> decide

theorem fresh (t : Token) : roots.isProcessed t = false := by
  rw [roots, Marks.isProcessed_mark]
  rfl

theorem keepsMethods : setting.KeepsMethods := by
  intro t y hy
  simp [setting, Policy.default, Policy.methodsKept] at hy

theorem ends_well : ∃ stats, (setting.mark roots).1 = .ok stats :=
  exists_ok_of_isOk (by decide +kernel)

end Shapes

/-! ## Runs -/

namespace Setting

variable {s : Setting} {marks : Marks} {returned : List Token} {start st : MarkState}

/-- The settings with a model that was built. -/
theorem formed_of_built (built : Model.Built returned s.model) (fits : s.model.Fits) : s.Formed :=
  ⟨built.wellFormed fits, fits⟩

/-- The settings with a model that was built, and with its overrides. -/
theorem regular_of_built (built : Model.Built returned s.model) (fits : s.model.Fits)
    (overrides : s.overrides = .ofModel s.model) : s.Regular :=
  ⟨formed_of_built built fits, overrides⟩

/-- A run that ends well has run, and what it leaves marked is returned. -/
theorem mark_ran (reg : s.Regular) (resumes : s.Resumes marks) {stats : MarkStats}
    (h : (s.mark marks).1 = .ok stats) :
    ∃ start st, s.Ran marks (s.Reached marks) start st ∧ (s.mark marks).2 = st.marks := by
  rcases mark_of_ends (Marking.run_outcome reg resumes) with
    ⟨_, final, hx, start, st, hran, hmarks⟩ | ⟨e, hx, -⟩
  · exact ⟨start, st, hran, by rw [hx, hmarks]⟩
  · rw [h] at hx
    cases hx

theorem mark_stops (reg : s.Regular) (resumes : s.Resumes marks) {e : MarkFault}
    (h : (s.mark marks).1 = .error e) : Marking.Stops s marks e := by
  rcases mark_of_ends (Marking.run_outcome reg resumes) with ⟨stats, st, hx, -⟩ | ⟨e', hx, hstops⟩
  · rw [hx] at h
    cases h
  · rw [h] at hx
    cases hx
    exact hstops

/-- A run that ends well has reached a method, since it has processed one. -/
theorem Ran.reachesMethod (h : s.Ran marks (s.Reached marks) start st) (reg : s.Regular)
    (resumes : s.Resumes marks) : s.ReachesMethod marks := by
  obtain ⟨t, ht⟩ := h.processed
  obtain ⟨htracked, -⟩ := h.steps.tracked (reg.admits Reached.closed) h.tracked
  have hreached : s.Reached marks t := htracked.within.marked (Marks.isMarked_of_isProcessed ht)
  rcases htracked.processed ht with hold | ⟨d, -, hd, -⟩
  · obtain ⟨d, -, hd, -⟩ := resumes t hold
    exact ⟨t, d, hd, hreached⟩
  · exact ⟨t, d, hd, hreached⟩

theorem mark_ok (reg : s.Regular) (fresh : ∀ t, marks.isProcessed t = false) {stats : MarkStats}
    (h : (s.mark marks).1 = .ok stats) :
    ∃ start st, Marking.fill s (.ofMarks marks) = .ok () start ∧
      s.Steady marks (s.Reached marks) start ∧ s.Steps start st ∧ s.Rests st ∧
      (s.mark marks).2 = st.marks ∧ (s.KeepsMethods → s.ReachesMethod marks) := by
  have resumes : s.Resumes marks := resumes_of_fresh fresh
  obtain ⟨start, st, hran, hmarks⟩ := mark_ran reg resumes h
  exact ⟨start, st, hran.fill, ⟨hran.tracked, resumes⟩, hran.steps, hran.rests, hmarks,
    fun _ => hran.reachesMethod reg resumes⟩

theorem mark_error (reg : s.Regular) (fresh : ∀ t, marks.isProcessed t = false) {e : MarkFault}
    (h : (s.mark marks).1 = .error e) : Marking.Stops s marks e :=
  mark_stops reg (resumes_of_fresh fresh) h

/-- What rests after steps in some order has everything done. -/
theorem Steps.still (reg : s.Regular) {start st : MarkState}
    (hstart : s.Steady marks (s.Reached marks) start) (hsteps : s.Steps start st)
    (hrests : s.Rests st) : s.Still marks st ∧ s.Steady marks (s.Reached marks) st := by
  obtain ⟨hsteady, -⟩ := hsteps.steady reg Reached.closed hstart
  exact ⟨hrests.still (reg.admits Reached.closed) hsteady, hsteady⟩

/-- At the end of a run everything is done. -/
theorem Ran.still (h : s.Ran marks (s.Reached marks) start st) (reg : s.Regular)
    (resumes : s.Resumes marks) : s.Still marks st ∧ s.Steady marks (s.Reached marks) st :=
  h.steps.still reg ⟨h.tracked, resumes⟩ h.rests

/-- What a run leaves marked has all that it keeps: no rule leads out of it. -/
theorem mark_closed (built : Model.Built returned s.model) (fits : s.model.Fits)
    (overrides : s.overrides = .ofModel s.model) (fresh : ∀ t, marks.isProcessed t = false)
    {stats : MarkStats} (h : (s.mark marks).1 = .ok stats) :
    s.Closed marks ((s.mark marks).2.isMarked · = true) ∧
      ∀ t, marks.isMarked t = true → (s.mark marks).2.isMarked t = true := by
  have reg := regular_of_built built fits overrides
  obtain ⟨start, st, -, hstart, hsteps, hrests, hmarks, -⟩ := mark_ok reg fresh h
  obtain ⟨hstill, hsteady⟩ := hsteps.still reg hstart hrests
  rw [hmarks]
  exact ⟨hstill.closed reg, fun _ => hsteady.roots⟩

/-- The run on the program keeps the override with the method that it overrides. -/
theorem mark_closed_shapes :
    Shapes.setting.Closed Shapes.roots
        ((Shapes.setting.mark Shapes.roots).2.isMarked · = true) ∧
      (Shapes.setting.mark Shapes.roots).2.isMarked ⟨0x06000002⟩ = true := by
  obtain ⟨returned, built⟩ := Shapes.built
  obtain ⟨stats, h⟩ := Shapes.ends_well
  exact ⟨(mark_closed built Shapes.fits rfl Shapes.fresh h).1, by decide +kernel⟩

/-- A run marks no more than any closed set with the roots has. Steps in any other order, from the
same queues to where nothing is left to do, mark the same; and none of them fails, if what users
ask to keep as methods are methods. -/
theorem mark_least (built : Model.Built returned s.model) (fits : s.model.Fits)
    (overrides : s.overrides = .ofModel s.model) (fresh : ∀ t, marks.isProcessed t = false)
    {stats : MarkStats} (h : (s.mark marks).1 = .ok stats) :
    (∀ S : Token → Prop, s.Closed marks S → (∀ t, marks.isMarked t = true → S t) →
      ∀ t, (s.mark marks).2.isMarked t = true → S t) ∧
    ∃ start, Marking.fill s (.ofMarks marks) = .ok () start ∧
      (∃ st, s.Steps start st ∧ s.Rests st ∧ st.marks = (s.mark marks).2) ∧
      (∀ st, s.Steps start st → s.Rests st →
        ∀ t, st.marks.isMarked t = (s.mark marks).2.isMarked t) ∧
      (s.KeepsMethods → ∀ st e, s.Steps start st → ¬ s.Breaks st e) := by
  have reg := regular_of_built built fits overrides
  obtain ⟨start, st, hfill, hstart, hsteps, hrests, hmarks, -⟩ := mark_ok reg fresh h
  obtain ⟨hstill, hsteady⟩ := hsteps.still reg hstart hrests
  rw [hmarks]
  refine ⟨fun S closed roots t ht => Reached.least closed roots (hsteady.within.marked ht),
    start, hfill, ⟨st, hsteps, hrests, rfl⟩, fun st' hsteps' hrests' t => ?_,
    fun keeps st' e hsteps' hb => ?_⟩
  · obtain ⟨hstill', hsteady'⟩ := hsteps'.still reg hstart hrests'
    exact Bool.eq_iff_iff.mpr
      ((hstill'.marked_iff reg hsteady').trans (hstill.marked_iff reg hsteady).symm)
  · obtain ⟨hsteady', -⟩ := hsteps'.steady reg Reached.closed hstart
    obtain ⟨cause, -, hu⟩ := hb.faults reg Reached.closed hsteady'
    exact hstill.not_unbound reg ((hu keeps).mono (hstill.marked_iff reg hsteady).mpr)

/-- The override is no root, but every closed set with the method that calls has it. -/
theorem mark_least_shapes :
    Shapes.roots.isMarked ⟨0x06000002⟩ = false ∧
      ∀ S : Token → Prop, Shapes.setting.Closed Shapes.roots S →
        (∀ t, Shapes.roots.isMarked t = true → S t) → S ⟨0x06000002⟩ := by
  obtain ⟨returned, built⟩ := Shapes.built
  obtain ⟨stats, h⟩ := Shapes.ends_well
  refine ⟨by decide +kernel, fun S closed roots => ?_⟩
  exact (mark_least built Shapes.fits rfl Shapes.fresh h).1 S closed roots _ (by decide +kernel)

/-- How a run ends: it fails on a reference exactly if one of what is reached, or of an assembly or
a module, does not bind; it asks for a method to start from exactly if all of them bind and no
method is reached; and it ends well otherwise. -/
theorem mark_outcome (built : Model.Built returned s.model) (fits : s.model.Fits)
    (overrides : s.overrides = .ofModel s.model) (fresh : ∀ t, marks.isProcessed t = false)
    (keeps : s.KeepsMethods) :
    ((∃ cause, (s.mark marks).1 = .error (.unresolved cause)) ↔
      s.Unbound marks (s.Reached marks)) ∧
    ((∃ cause, (s.mark marks).1 = .error (.configuration cause)) ↔
      ¬ s.Unbound marks (s.Reached marks) ∧ ¬ s.ReachesMethod marks) ∧
    ((∃ stats, (s.mark marks).1 = .ok stats) ↔
      ¬ s.Unbound marks (s.Reached marks) ∧ s.ReachesMethod marks) := by
  have reg := regular_of_built built fits overrides
  cases hx : (s.mark marks).1 with
  | ok stats =>
    obtain ⟨start, st, -, hstart, hsteps, hrests, -, hreaches⟩ := mark_ok reg fresh hx
    obtain ⟨hstill, hsteady⟩ := hsteps.still reg hstart hrests
    have hbound : ¬ s.Unbound marks (s.Reached marks) :=
      fun hu => hstill.not_unbound reg (hu.mono (hstill.marked_iff reg hsteady).mpr)
    simp [hbound, hreaches keeps]
  | error e =>
    rcases mark_error reg fresh hx with ⟨cause, rfl, hu⟩ | ⟨rfl, hbound, hnone⟩
    · simp [hu keeps]
    · simp [hbound, hnone]

/-- The program has no reference that does not bind, and a method to start from. -/
theorem mark_outcome_shapes :
    ¬ Shapes.setting.Unbound Shapes.roots (Shapes.setting.Reached Shapes.roots) ∧
      Shapes.setting.ReachesMethod Shapes.roots := by
  obtain ⟨returned, built⟩ := Shapes.built
  exact (mark_outcome built Shapes.fits rfl Shapes.fresh Shapes.keepsMethods).2.2.mp
    Shapes.ends_well

end Setting

end CilTrim
