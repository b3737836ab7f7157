import CilTrim.Proofs.Mark.Fill
import CilTrim.Proofs.Mark.Order

/-!
# Whole runs

The loops of a run end when their queues are empty and nothing is left to do. So a run is a sequence
of steps to a state that rests, and it fails only when a reference does not bind or there is no
method to start from:

* `Marking.drainTypes_spec`, `Marking.drain_spec`, `Marking.rounds_spec`: the loops;
* `Setting.Ran`: what is known of a run that ends well;
* `Marking.run_spec`: the whole run.
-/

namespace CilTrim

namespace Marking

variable {s : Setting} {marks : Marks} {S : Token → Prop} {st st₀ : MarkState}

/-! ## Queues -/

/-- Steps from a state, with the invariant kept and the counts kept up. -/
structure Goes (s : Setting) (marks : Marks) (S : Token → Prop) (st st' : MarkState) : Prop where
  steps : s.Steps st st'
  tracked : s.Tracked marks S st'
  tallies : st.Tallies s.model st'

theorem Goes.refl (h : s.Tracked marks S st) : Goes s marks S st st := ⟨.refl, h, .refl st⟩

theorem Goes.trans {st' st'' : MarkState} (h₁ : Goes s marks S st st')
    (h₂ : Goes s marks S st' st'') : Goes s marks S st st'' :=
  ⟨h₁.steps.trans h₂.steps, h₂.tracked, h₁.tallies.trans h₂.tallies⟩

/-- Expanding the next type is a step that leaves marked methods in their queue. -/
theorem expandNext_spec (adm : s.Admits marks S) (h : s.Tracked marks S st) :
    Ends (expandNext s) st
      (fun more st' => (Goes s marks S st st' ∧ (s.AllQueued st → s.AllQueued st')) ∧
        (more = false → st' = st ∧ st.types.toList = []))
      (Faults s marks S) := by
  rw [expandNext, ends_bind, ends_nextType?]
  cases hp : st.types.pop? with
  | none => exact ends_pure.mpr ⟨⟨.refl h, id⟩, fun _ => ⟨rfl, Fifo.toList_of_pop?_eq_none hp⟩⟩
  | some next =>
    obtain ⟨t, rest⟩ := next
    have hq : st.types.toList.Perm (t :: rest.toList) :=
      .of_eq (Fifo.toList_of_pop?_eq_some hp)
    dsimp only
    rw [ends_bind]
    refine (expandType_spec adm h hq).eq.mono ?_ fun _ => id
    rintro _ st' ⟨hx, hc, h'⟩
    have htake : s.AllQueued st → s.AllQueued (st.takeType s.model t rest) := id
    exact ends_pure.mpr ⟨⟨⟨.single (.type hq hx), h', hc.tallies_type adm.toFormed hq⟩,
      fun hall => (htake hall).grows hc.grows⟩, fun hmore => absurd hmore (by simp)⟩

/-- Expanding the next type, or processing the next method, is a step. -/
theorem turn_spec (adm : s.Admits marks S) (h : s.Tracked marks S st) :
    Ends (turn s) st (fun more st' => Goes s marks S st st' ∧
        (more = false → st'.types.toList = [] ∧ st'.methods.toList = []))
      (Faults s marks S) := by
  rw [turn, ends_bind]
  refine (expandNext_spec adm h).mono ?_ fun _ => id
  rintro (_ | _) st₁ ⟨⟨hgoes, -⟩, hnone⟩
  · obtain ⟨rfl, htypes⟩ := hnone rfl
    rw [if_neg (by simp), ends_bind, ends_nextMethod?]
    cases hp : st₁.methods.pop? with
    | none => exact ends_pure.mpr ⟨hgoes, fun _ => ⟨htypes, Fifo.toList_of_pop?_eq_none hp⟩⟩
    | some next =>
      obtain ⟨t, rest⟩ := next
      have hq : st₁.methods.toList.Perm (t :: rest.toList) :=
        .of_eq (Fifo.toList_of_pop?_eq_some hp)
      dsimp only
      rw [ends_bind]
      refine (processMethod_spec adm h hq).eq.mono ?_ fun _ => id
      rintro _ st' ⟨hx, hc, hdone, hmethod, h'⟩
      exact ends_pure.mpr ⟨⟨.single (.method hq hx), h',
        hc.tallies_method adm.toFormed hmethod hdone⟩, fun hmore => absurd hmore (by simp)⟩
  · rw [if_pos rfl]
    exact ends_pure.mpr ⟨hgoes, fun hmore => absurd hmore (by simp)⟩

/-- Expanding types empties their queue. -/
theorem drainTypes_spec (adm : s.Admits marks S) (h : s.Tracked marks S st) :
    Ends (do drainTypes s (← queueBound)) st
      (fun _ st' => Goes s marks S st st' ∧ (s.AllQueued st → s.AllQueued st') ∧
        st'.types.toList = [])
      (Faults s marks S) := by
  refine (repeats_drainTypes st).ends
    (fun st' => Goes s marks S st st' ∧ (s.AllQueued st → s.AllQueued st'))
    ⟨.refl h, id⟩ fun {st₁} h₁ => ?_
  refine (expandNext_spec adm h₁.1.tracked).mono ?_ fun _ => id
  rintro (_ | _) st₂ ⟨⟨hgoes, hqueued⟩, hnone⟩
  · obtain ⟨rfl, htypes⟩ := hnone rfl
    exact ⟨h₁.1, h₁.2, htypes⟩
  · exact ⟨h₁.1.trans hgoes, fun hall => hqueued (h₁.2 hall)⟩

/-- Expanding types and methods empties both queues. -/
theorem drain_spec (adm : s.Admits marks S) (h : s.Tracked marks S st) :
    Ends (drain s) st
      (fun _ st' => Goes s marks S st st' ∧ st'.types.toList = [] ∧ st'.methods.toList = [])
      (Faults s marks S) := by
  refine (repeats_drain st).ends (Goes s marks S st) (.refl h) fun {st₁} h₁ => ?_
  refine (turn_spec adm h₁.tracked).mono ?_ fun _ => id
  rintro (_ | _) st₂ ⟨hgoes, hnone⟩
  · exact ⟨h₁.trans hgoes, hnone rfl⟩
  · exact h₁.trans hgoes

/-! ## Rounds -/

/-- A round is a sequence of steps, and nothing is left to do after the last. -/
theorem round_spec (adm : s.Admits marks S) (h : s.Tracked marks S st) :
    Ends (round s) st
      (fun more st' => Goes s marks S st st' ∧ (more = false → s.Rests st'))
      (Faults s marks S) := by
  simp only [round, ends_bind, ends_modify, ends_get]
  have hcount : Goes s marks S st (st.count fun c => { c with rounds := c.rounds + 1 }) :=
    ⟨.single (.count _), h.count _, ⟨⟨rfl, rfl⟩, rfl⟩⟩
  refine (drain_spec adm hcount.tracked).mono ?_ fun _ => id
  rintro _ st₁ ⟨hdrain, htypes, hmethods⟩
  refine (sweep_spec adm hdrain.tracked.within).eq.mono ?_ fun _ => False.elim
  rintro _ st₂ ⟨hx, hoffers, hoffered⟩
  have hgoes : Goes s marks S st st₂ := (hcount.trans hdrain).trans
    ⟨.single (.sweep hx), hdrain.tracked.offers hoffers,
      (hoffers.changes fun _ => False).tallies adm.toFormed⟩
  rw [ends_pure]
  refine ⟨hgoes, fun hlast => ?_⟩
  simp only [Bool.not_eq_false', Bool.and_eq_true, decide_eq_true_eq, Fifo.isEmpty_iff] at hlast
  -- Nothing was marked in this round, so the sweep made offers that had been made before.
  have hback {t : Token} (ht : st₂.marks.isMarked t = true) : st₁.marks.isMarked t = true := by
    obtain ⟨-, hproceeds⟩ := (hcount.trans hdrain).steps.tracked adm h
    obtain ⟨-, hall⟩ := hgoes.steps.tracked adm h
    exact hproceeds.counts.marked (hall.counts.newMarks_eq_iff.mp hlast.1.1 t ht)
  have hquiet (base : Token) (hb : base ∈ st₁.virtuals) (o : Token)
      (ho : o ∈ s.overrides.overridesOf base) : s.Offered st₁ st₁ o :=
    (hoffered base hb o ho).mono id hback
  obtain ⟨parked, -, hparked⟩ := Setting.spreadAll_quiet st₁.virtuals st₁ hquiet
  have hst : sweep s st₁ = .ok () (st₁.virtuals.foldl
      (fun st base => MarkState.spread s.model s.overrides base st) st₁) := rfl
  rw [hx, hparked] at hst
  cases hst
  exact Setting.rests_of_offered htypes hmethods hquiet

/-- Rounds end with nothing left to do. -/
theorem rounds_spec (adm : s.Admits marks S) (h : s.Tracked marks S st) :
    Ends (roundsWithin s (Token.count + 2)) st
      (fun _ st' => Goes s marks S st st' ∧ s.Rests st') (Faults s marks S) := by
  refine (repeats_rounds st).ends (Goes s marks S st) (.refl h) fun {st₁} h₁ => ?_
  refine (round_spec adm h₁.tracked).mono ?_ fun _ => id
  rintro (_ | _) st₂ ⟨hgoes, hlast⟩
  · exact ⟨h₁.trans hgoes, hlast rfl⟩
  · exact h₁.trans hgoes

end Marking

/-! ## The run -/

namespace Setting

variable {s : Setting} {marks : Marks} {S : Token → Prop}

/-- A run that ends well fills the queues and takes steps until there is nothing left to do. -/
structure Ran (s : Setting) (marks : Marks) (S : Token → Prop) (start st : MarkState) : Prop where
  fill : Marking.fill s (.ofMarks marks) = .ok () start
  tracked : s.Tracked marks S start
  steps : s.Steps start st
  rests : s.Rests st
  tallies : (MarkState.ofMarks marks).Tallies s.model st
  processed : ∃ t, st.marks.isProcessed t = true

/-- All types are expanded and no method waits, though all that are marked would. -/
structure Barren (s : Setting) (marks : Marks) (S : Token → Prop) (st : MarkState) : Prop where
  tracked : s.Tracked marks S st
  types : st.types.toList = []
  methods : st.methods.toList = []
  queued : s.AllQueued st

end Setting

namespace Marking

variable {s : Setting} {marks : Marks} {S : Token → Prop}

/-- The start of a run fills the queues and expands types, and finds a method. -/
theorem seed_spec (adm : s.Admits marks S) (roots : ∀ t, marks.isMarked t = true → S t) :
    Ends (seed s) (.ofMarks marks)
      (fun _ st => (∃ start, fill s (.ofMarks marks) = .ok () start ∧
        s.Tracked marks S start ∧ s.Steps start st) ∧
        s.Tracked marks S st ∧ (MarkState.ofMarks marks).Tallies s.model st ∧
        ∃ t, t ∈ st.methods.toList)
      (fun e => Faults s marks S e ∨
        (e = .configuration .noEntryMethods ∧ ∃ st, s.Barren marks S st)) := by
  simp only [seed, ends_bind]
  refine (fill_spec adm roots).eq.mono ?_ fun _ => .inl
  rintro _ start ⟨hfill, h₀, hqueued, hfills⟩
  refine (ends_bind.mp (drainTypes_spec adm h₀)).mono (fun bound st hdrain => ?_) fun _ => .inl
  refine hdrain.mono ?_ fun _ => .inl
  rintro _ st₁ ⟨hgoes, hall, htypes⟩
  rw [ends_get]
  split
  · rename_i hempty
    rw [ends_throw]
    exact .inr ⟨rfl, st₁, hgoes.tracked, htypes, (Fifo.isEmpty_iff _).mp hempty, hall hqueued⟩
  · rename_i hempty
    rw [Fifo.isEmpty_iff] at hempty
    rw [ends_pure]
    exact ⟨⟨start, hfill, h₀, hgoes.steps⟩, hgoes.tracked, hfills.tallies.trans hgoes.tallies,
      List.exists_mem_of_ne_nil _ hempty⟩

/-- A run fills the queues and takes steps until there is nothing left to do. -/
theorem run_spec (adm : s.Admits marks S) (roots : ∀ t, marks.isMarked t = true → S t) :
    Ends (run s) (.ofMarks marks)
      (fun stats st => ∃ start st', s.Ran marks S start st' ∧ st.marks = st'.marks ∧
        stats = { st'.stats with marked := st'.marks.markedCount })
      (fun e => Faults s marks S e ∨
        (e = .configuration .noEntryMethods ∧ ∃ st, s.Barren marks S st)) := by
  simp only [run, ends_bind, ends_modify, ends_get, ends_pure]
  refine (seed_spec adm roots).mono ?_ fun _ => id
  rintro _ st ⟨⟨start, hfill, h₀, hsteps⟩, h, htallies, t, ht⟩
  refine (rounds_spec adm h).mono ?_ fun _ => .inl
  rintro _ st' ⟨hgoes, hrests⟩
  have hprocessed : st'.marks.isProcessed t = true := by
    refine ((hgoes.steps.tracked adm h).2.queued ht).resolve_left fun hq => ?_
    rw [hrests.methods] at hq
    cases hq
  exact ⟨start, st', ⟨hfill, h₀, hsteps.trans hgoes.steps, hrests, htallies.trans hgoes.tallies,
    t, hprocessed⟩, rfl, rfl⟩

/-! ## Runs with the table of the model -/

/-- How a run fails: a reference of what is reached does not bind, or all of them bind and no method
is reached. Only users who ask to keep as a method what is none make it fail otherwise. -/
def Stops (s : Setting) (marks : Marks) (e : MarkFault) : Prop :=
  (∃ cause, e = .unresolved cause ∧ (s.KeepsMethods → s.Unbound marks (s.Reached marks))) ∨
    (e = .configuration .noEntryMethods ∧
      ¬ s.Unbound marks (s.Reached marks) ∧ ¬ s.ReachesMethod marks)

/-- If no method has been found when all types are expanded, then there is none to be found. -/
theorem stops_of_barren (reg : s.Regular) (resumes : s.Resumes marks) {st : MarkState}
    (h : s.Barren marks (s.Reached marks) st) :
    Stops s marks (.configuration .noEntryMethods) := by
  have hsteady : s.Steady marks (s.Reached marks) st := ⟨h.tracked, resumes⟩
  have hnone {t : Token} {d : MethodDef} (hd : s.model.method? t = some d) :
      ¬ st.marks.isMarked t = true := by
    intro hm
    have hq := h.queued t d hm hd
    rw [h.methods] at hq
    cases hq
  have hstill : s.Still marks st := by
    refine hsteady.still reg.toFormed h.types h.methods fun base hb => ?_
    obtain ⟨hm, d, hd, -⟩ := h.tracked.within.virtuals hb
    exact absurd hm (hnone hd)
  refine .inr ⟨rfl, fun hu => ?_, ?_⟩
  · exact hstill.not_unbound reg (hu.mono (hstill.marked_iff reg hsteady).mpr)
  · rintro ⟨t, d, hd, hr⟩
    exact hnone hd ((hstill.marked_iff reg hsteady).mpr hr)

/-- A run with the table of the model, the first or one that resumes another, follows the rules. -/
theorem run_outcome (reg : s.Regular) (resumes : s.Resumes marks) :
    Ends (run s) (.ofMarks marks)
      (fun _ st => ∃ start st', s.Ran marks (s.Reached marks) start st' ∧ st.marks = st'.marks)
      (Stops s marks) := by
  have closed : s.Closed marks (s.Reached marks) := Setting.Reached.closed
  refine (run_spec (reg.admits closed) fun _ => .root).mono ?_ ?_
  · rintro _ st ⟨start, st', hran, hmarks, -⟩
    exact ⟨start, st', hran, hmarks⟩
  · rintro e (⟨cause, he, hu⟩ | ⟨rfl, st, hbarren⟩)
    · exact .inl ⟨cause, he, fun keeps => hu (reg.namesMethods keeps)⟩
    · exact stops_of_barren reg resumes hbarren

end Marking

namespace Setting

variable {s : Setting} {marks : Marks}

/-- What is known of how a run ends is known of what it returns. -/
theorem mark_of_ends {post : MarkStats → MarkState → Prop} {fault : MarkFault → Prop}
    (h : Marking.Ends (Marking.run s) (.ofMarks marks) post fault) :
    (∃ stats st, s.mark marks = (.ok stats, st.marks) ∧ post stats st) ∨
      ∃ e, (s.mark marks).1 = .error e ∧ fault e := by
  unfold mark
  cases hx : Marking.run s (.ofMarks marks) with
  | ok stats st => exact .inl ⟨stats, st, rfl, h.ok hx⟩
  | error e st => exact .inr ⟨e, rfl, h.error hx⟩

end Setting

end CilTrim
