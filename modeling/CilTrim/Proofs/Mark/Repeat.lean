import CilTrim.Context
import CilTrim.Proofs.Mark.Expansion

/-!
# Running again

What the first run of a session leaves is stable: everything that is marked has what it needs, and
its methods are processed. A second run expands all of it again and finds every demand met, so that
no mark, reason or action changes, and it ends after one round:

* `Setting.Stable`: marks that meet all that their nodes need, with `Setting.Still.stable`;
* `Setting.Quiet`: a state of the second run;
* `Marking.meet_quiet`, `Marking.settle_quiet`, `Marking.fill_quiet`, `Marking.turn_quiet`: its
  steps;
* `Setting.mark_mark`, `Context.mark_again`: the two runs of a session.
-/

namespace CilTrim

namespace Setting

/-- Everything that is marked has what it needs, and there is a method to start from. -/
structure Stable (s : Setting) (marks : Marks) : Prop where
  type {t : Token} {d : TypeDef} : marks.isMarked t = true → s.model.type? t = some d →
    ∀ x ∈ s.typeNeeds t d, marks.Meets x
  field {t : Token} {f : FieldDef} : marks.isMarked t = true → s.model.field? t = some f →
    ∀ x ∈ s.fieldNeeds t f, marks.Meets x
  assembly {a : AssemblyDef} : a ∈ s.model.assemblies.toList →
    ∀ x ∈ s.assemblyNeeds a.token a, marks.Meets x
  method {t : Token} {d : MethodDef} : marks.isMarked t = true → s.model.method? t = some d →
    marks.isProcessed t = true ∧ marks.methodAction t ≠ .nothing
  overrider {base o type : Token} : marks.isProcessed base = true → s.model.IsVirtual base →
    o ∈ s.overrides.overridesOf base → s.model.declaringTypeOf? o = some type →
    marks.isMarked type = true → marks.isMarked o = true
  starts : ∃ t d, s.model.method? t = some d ∧ marks.isMarked t = true

variable {s : Setting} {marks : Marks} {S : Token → Prop} {st : MarkState} {rounds : Nat}

/-- What rests is stable. -/
theorem Ran.stable {start : MarkState} (h : s.Ran marks S start st) (adm : s.Admits marks S)
    (fresh : ∀ t, marks.isProcessed t = false) : s.Stable st.marks := by
  have hstill : s.Still marks st :=
    h.rests.still adm ⟨h.tracked_end adm, resumes_of_fresh fresh⟩
  refine
    { type := fun hm hd x hx => (hstill.type hm hd x hx).meets
      field := fun hm hf x hx => (hstill.field hm hf x hx).meets
      assembly := fun ha x hx => (hstill.assembly ha x hx).meets
      method := fun hm hd => ⟨?_, ?_⟩
      overrider := fun {base o type} hp hv ho hd ht =>
        hstill.overrider (hstill.registered (Marks.isMarked_of_isProcessed hp) hv) ho type hd ht
      starts := ?_ }
  · exact (h.isProcessed adm _).1 (Option.isSome_iff_exists.mpr ⟨_, hd⟩) hm
  · obtain ⟨-, -, -, -, -, haction⟩ := hstill.method hm hd
    exact haction
  · obtain ⟨t, ht⟩ := h.processed
    rcases (h.isProcessed adm t).2 ht with hold | hsome
    · rw [fresh t] at hold
      cases hold
    · obtain ⟨d, hd⟩ := Option.isSome_iff_exists.mp hsome
      exact ⟨t, d, hd, Marks.isMarked_of_isProcessed ht⟩

/-- A state of a run that finds every demand met: the marks are those at the start, what waits is
done, and all that has been counted are rounds and what was expanded again. -/
structure Quiet (s : Setting) (marks : Marks) (rounds : Nat) (st : MarkState) : Prop where
  marks_eq : st.marks = marks
  newMarks : st.newMarks = 0
  types {t : Token} : t ∈ st.types.toList → marks.isMarked t = true
  methods {t : Token} : t ∈ st.methods.toList → marks.isProcessed t = true
  virtuals {t : Token} : t ∈ st.virtuals → marks.isProcessed t = true ∧ s.model.IsVirtual t
  parked {e : Parked} : e ∈ st.parked → s.Offered st st e.overrider
  rounds_eq : st.stats.rounds = rounds
  unprocessed : st.stats.methodsProcessed = 0
  unspread : st.stats.overridesPropagated = 0

/-- Demands that the marks have met, for definitions of the right kind. -/
def AllMet (s : Setting) (marks : Marks) (ds : List Demand) : Prop :=
  ∀ d ∈ ds, s.Apt (fun _ => False) d ∧ marks.Meets d

theorem allMet_nil : s.AllMet marks [] :=
  fun _ hd => absurd hd List.not_mem_nil

/-- Overrides that wait may change, if they have been offered before. -/
theorem Quiet.park (h : s.Quiet marks rounds st) {parked : List Parked}
    (hparked : ∀ e ∈ parked, s.Offered st st e.overrider) :
    s.Quiet marks rounds { st with parked } :=
  { h with parked := fun he => hparked _ he }

/-- The overrides of a processed virtual method have been offered before. -/
theorem Quiet.offered (stable : s.Stable marks) (h : s.Quiet marks rounds st) {base o : Token}
    (hp : marks.isProcessed base = true) (hv : s.model.IsVirtual base)
    (ho : o ∈ s.overrides.overridesOf base) : s.Offered st st o := by
  intro type hd ht
  rw [h.marks_eq] at ht ⊢
  exact stable.overrider hp hv ho hd ht

theorem Quiet.register (stable : s.Stable marks) (h : s.Quiet marks rounds st) {t : Token}
    (hp : marks.isProcessed t = true) (hv : s.model.IsVirtual t) :
    s.Quiet marks rounds (MarkState.register s.model s.overrides t st) := by
  unfold MarkState.register
  split
  · exact h
  · have h' : s.Quiet marks rounds { st with virtuals := st.virtuals ++ [t] } :=
      { h with
        virtuals := fun hx => by
          rcases List.mem_append.mp hx with hx | hx
          · exact h.virtuals hx
          · cases List.mem_singleton.mp hx
            exact ⟨hp, hv⟩
        parked := fun he => h.parked he }
    obtain ⟨parked, hparked, hspread⟩ := spread_quiet fun o ho => h'.offered stable hp hv ho
    rw [hspread]
    exact h'.park fun e he => (hparked e he).elim h'.parked id

theorem Quiet.arrive (h : s.Quiet marks rounds st) (t : Token) :
    s.Quiet marks rounds (MarkState.arrive s.model s.overrides t st) := by
  obtain ⟨parked, hparked, harrive⟩ := arrive_quiet t fun _ => h.parked
  rw [harrive]
  exact h.park hparked

/-- Marking what is marked changes nothing. -/
theorem Quiet.markNode (h : s.Quiet marks rounds st) {t : Token} {reason : Reason}
    (ht : marks.isMarked t = true) : st.markNode t reason = st := by
  rw [MarkState.markNode, h.marks_eq, if_pos ht]

theorem Quiet.schedule (h : s.Quiet marks rounds st) {t : Token} (ht : marks.isMarked t = true) :
    s.Quiet marks rounds (st.schedule t) := by
  unfold MarkState.schedule
  split
  · exact h
  · exact { h with
      types := fun hx => by
        rw [Fifo.toList_push, List.mem_append, List.mem_singleton] at hx
        exact hx.elim h.types fun e => e ▸ ht
      parked := fun he => h.parked he }

theorem Quiet.needMethod (h : s.Quiet marks rounds st) {t : Token} {reason : Reason}
    (ht : marks.isMarked t = true) (ha : marks.methodAction t ≠ .nothing) :
    st.needMethod t reason = st := by
  rw [MarkState.needMethod, h.marks_eq, if_pos ht, Marks.ensureParsed_of_ne ha, ← h.marks_eq]

theorem Quiet.count (h : s.Quiet marks rounds st) {change : MarkStats → MarkStats}
    (hrounds : (change st.stats).rounds = st.stats.rounds)
    (hmethods : (change st.stats).methodsProcessed = st.stats.methodsProcessed)
    (hspread : (change st.stats).overridesPropagated = st.stats.overridesPropagated) :
    s.Quiet marks rounds (st.count change) :=
  { h with
    parked := fun he => h.parked he
    rounds_eq := hrounds.trans h.rounds_eq
    unprocessed := hmethods.trans h.unprocessed
    unspread := hspread.trans h.unspread }

end Setting

namespace Marking

variable {s : Setting} {marks : Marks} {S : Token → Prop} {st : MarkState} {rounds : Nat}

/-! ## Demands -/

theorem meetField_quiet (stable : s.Stable marks) (h : s.Quiet marks rounds st) {t : Token}
    {reason : Reason} (ht : marks.isMarked t = true) (formed : s.Formed) :
    Ends (meetField s t reason) st
      (fun rest st' => s.Quiet marks rounds st' ∧ s.AllMet marks rest) fun _ => False := by
  simp only [meetField, ends_bind, ends_modify, ends_get]
  rw [h.markNode ht]
  split
  · exact ends_pure.mpr ⟨h, Setting.allMet_nil⟩
  · have h' : s.Quiet marks rounds
        { st with expandedFields := st.expandedFields.insert t } :=
      { h with parked := fun he => h.parked he }
    rw [ends_bind, ends_set]
    cases hf : s.model.field? t with
    | none => exact ends_pure.mpr ⟨h', Setting.allMet_nil⟩
    | some f =>
      rw [ends_bind, ends_modify, ends_pure]
      exact ⟨h'.count rfl rfl rfl,
        fun d hd => ⟨Setting.apt_fieldNeeds formed hf d hd, stable.field ht hf d hd⟩⟩

theorem meetAssembly_quiet (stable : s.Stable marks) (h : s.Quiet marks rounds st) {t : Token}
    (formed : s.Formed) :
    Ends (meetAssembly s t) st
      (fun rest st' => s.Quiet marks rounds st' ∧ s.AllMet marks rest) fun _ => False := by
  simp only [meetAssembly, ends_bind, ends_get]
  split
  · exact ends_pure.mpr ⟨h, Setting.allMet_nil⟩
  · have h' : s.Quiet marks rounds
        { st with seenAssemblies := st.seenAssemblies.insert t } :=
      { h with parked := fun he => h.parked he }
    rw [ends_bind, ends_set]
    cases ha : s.model.assembly? t with
    | none => exact ends_pure.mpr ⟨h', Setting.allMet_nil⟩
    | some a =>
      have htoken : a.token = t := formed.wellFormed.assembly_numbered.token_of_find? ha
      have hmet := stable.assembly (Rows.mem_of_find? ha)
      rw [htoken] at hmet
      exact ends_pure.mpr
        ⟨h', fun d hd => ⟨Setting.apt_assemblyNeeds formed d hd, hmet d hd⟩⟩

/-- Meeting a demand that is met changes no mark, and what it brings along is met. -/
theorem meet_quiet (formed : s.Formed) (stable : s.Stable marks) (h : s.Quiet marks rounds st)
    {d : Demand} (apt : s.Apt (fun _ => False) d) (hd : marks.Meets d) :
    Ends (meet s d) st
      (fun rest st' => s.Quiet marks rounds st' ∧ s.AllMet marks rest) fun _ => False := by
  have plain {change : MarkState → MarkState} (hc : s.Quiet marks rounds (change st)) :
      Ends (do modify change; pure []) st
        (fun rest st' => s.Quiet marks rounds st' ∧ s.AllMet marks rest) fun _ => False := by
    rw [ends_bind, ends_modify, ends_pure]
    exact ⟨hc, Setting.allMet_nil⟩
  cases d with
  | node t reason => exact plain ((h.markNode hd).symm ▸ h)
  | type t reason =>
    refine plain ?_
    rw [MarkState.needType, h.markNode hd]
    exact h.schedule hd
  | method t reason => exact plain ((h.needMethod hd.1 hd.2).symm ▸ h)
  | field t reason => exact meetField_quiet stable h hd formed
  | assembly t => exact meetAssembly_quiet stable h formed
  | overridable t => exact apt.1.elim
  | arrived t => exact plain (h.arrive t)
  | finished t => exact apt.elim
  | skippedAttribute => exact plain (h.count rfl rfl rfl)
  | skippedName => exact plain (h.count rfl rfl rfl)
  | unresolved => exact hd.elim

theorem settle_quiet (formed : s.Formed) (stable : s.Stable marks)
    (h : s.Quiet marks rounds st) {ds : List Demand} (hds : s.AllMet marks ds) :
    Ends (settle s ds) st (fun _ st' => s.Quiet marks rounds st') fun _ => False := by
  have hsettling := settling_settle (s := s) ds st
  unfold Ends
  generalize settle s ds st = r at hsettling
  induction hsettling with
  | done st => exact h
  | @fault d ds st st' e hx =>
    obtain ⟨hapt, hmet⟩ := hds d List.mem_cons_self
    exact (meet_quiet formed stable h hapt hmet).error hx
  | @inner d ds rest st st₁ st' e hx _ ih =>
    obtain ⟨hapt, hmet⟩ := hds d List.mem_cons_self
    obtain ⟨h₁, hrest⟩ := (meet_quiet formed stable h hapt hmet).ok hx
    exact ih h₁ hrest
  | @next d ds rest st st₁ st₂ r hx _ _ ihrest ihds =>
    obtain ⟨hapt, hmet⟩ := hds d List.mem_cons_self
    obtain ⟨h₁, hrest⟩ := (meet_quiet formed stable h hapt hmet).ok hx
    exact ihds (ihrest h₁ hrest) fun d hd => hds d (List.mem_cons_of_mem _ hd)

/-! ## The start -/

theorem fill_quiet (formed : s.Formed) (stable : s.Stable marks)
    (h : s.Quiet marks rounds st) :
    Ends (fill s) st (fun _ st' => s.Quiet marks rounds st') fun _ => False := by
  have steps : FillSteps s (s.Quiet marks rounds) fun _ => False := {
    assembly := fun {_ a} ha h => by
      have hassembly := formed.wellFormed.assembly_of_mem formed.fits ha
      refine settle_quiet formed stable h fun x hx => ?_
      cases List.mem_singleton.mp hx
      exact ⟨Option.isSome_iff_exists.mpr ⟨a, hassembly⟩, trivial⟩
    type := fun _ h hm => h.schedule (by rwa [← h.marks_eq])
    field := fun hd ht h hm => by
      rw [h.marks_eq] at hm
      have htype := formed.wellFormed.type_of_mem formed.fits hd
      obtain ⟨f, hf, -⟩ := formed.wellFormed.fields_listed.declared htype ht
      refine settle_quiet formed stable h fun x hx => ?_
      cases List.mem_singleton.mp hx
      exact ⟨Option.isSome_iff_exists.mpr ⟨f, hf⟩, hm⟩
    virtual := fun h hp hv =>
      h.register stable (by rwa [← h.marks_eq]) ((Option.any_eq_true _ _).mp hv)
    method := fun {st _ t} hd ht h hm => by
      rw [h.marks_eq] at hm
      have htype := formed.wellFormed.type_of_mem formed.fits hd
      obtain ⟨m, hmethod, -⟩ := formed.wellFormed.methods_listed.declared htype ht
      obtain ⟨hp, ha⟩ := stable.method hm hmethod
      have hsame : st.marks.ensureParsed t = st.marks :=
        Marks.ensureParsed_of_ne (by rwa [h.marks_eq])
      rw [hsame]
      exact { h with
        methods := fun hx => by
          rw [Fifo.toList_push, List.mem_append, List.mem_singleton] at hx
          exact hx.elim h.methods fun e => e ▸ hp
        parked := fun he => h.parked he } }
  exact steps.fill_keeps h

/-! ## Queues -/

/-- Expanding a type again changes no mark. -/
theorem expandNext_quiet (formed : s.Formed) (stable : s.Stable marks)
    (h : s.Quiet marks rounds st) :
    Ends (expandNext s) st (fun _ st' => s.Quiet marks rounds st') fun _ => False := by
  rw [expandNext, ends_bind, ends_nextType?]
  cases hp : st.types.pop? with
  | none => exact ends_pure.mpr h
  | some next =>
    obtain ⟨t, rest⟩ := next
    have hq := Fifo.toList_of_pop?_eq_some hp
    have ht : marks.isMarked t = true := h.types (hq ▸ List.mem_cons_self)
    have h' : s.Quiet marks rounds { st with types := rest } :=
      { h with
        types := fun hx => h.types (hq ▸ List.mem_cons_of_mem _ hx)
        parked := fun he => h.parked he }
    have hexpand : Ends (expandType s t) { st with types := rest }
        (fun _ st' => s.Quiet marks rounds st') fun _ => False := by
      unfold expandType
      cases hd : s.model.type? t with
      | none => exact ends_pure.mpr h'
      | some d =>
        rw [ends_bind, ends_modify]
        exact settle_quiet formed stable (h'.count rfl rfl rfl)
          fun x hx => ⟨Setting.apt_typeNeeds formed hd x hx, stable.type ht hd x hx⟩
    dsimp only
    rw [ends_bind]
    exact hexpand.mono (fun _ _ hq => ends_pure.mpr hq) fun _ => id

/-- A method that is processed is not processed again. -/
theorem turn_quiet (formed : s.Formed) (stable : s.Stable marks)
    (h : s.Quiet marks rounds st) :
    Ends (turn s) st (fun _ st' => s.Quiet marks rounds st') fun _ => False := by
  rw [turn, ends_bind]
  refine (expandNext_quiet formed stable h).mono ?_ fun _ => id
  rintro (_ | _) st₁ h₁
  · rw [if_neg (by simp), ends_bind, ends_nextMethod?]
    cases hp : st₁.methods.pop? with
    | none => exact ends_pure.mpr h₁
    | some next =>
      obtain ⟨t, rest⟩ := next
      have hq := Fifo.toList_of_pop?_eq_some hp
      have ht : st₁.marks.isProcessed t = true := by
        rw [h₁.marks_eq]
        exact h₁.methods (hq ▸ List.mem_cons_self)
      have h' : s.Quiet marks rounds { st₁ with methods := rest } :=
        { h₁ with
          methods := fun hx => h₁.methods (hq ▸ List.mem_cons_of_mem _ hx)
          parked := fun he => h₁.parked he }
      simp only [processMethod, ends_bind, ends_get]
      rw [if_pos ht]
      exact ends_pure.mpr (ends_pure.mpr h')
  · rw [if_pos rfl]
    exact ends_pure.mpr h₁

theorem drainTypes_quiet (formed : s.Formed) (stable : s.Stable marks)
    (h : s.Quiet marks rounds st) :
    Ends (do drainTypes s (← queueBound)) st (fun _ st' => s.Quiet marks rounds st')
      fun _ => False := by
  refine (repeats_drainTypes st).ends (s.Quiet marks rounds) h fun {st₁} h₁ => ?_
  refine (expandNext_quiet formed stable h₁).mono ?_ fun _ => id
  rintro (_ | _) st₂ h₂ <;> exact h₂

theorem drain_quiet (formed : s.Formed) (stable : s.Stable marks)
    (h : s.Quiet marks rounds st) :
    Ends (drain s) st (fun _ st' => s.Quiet marks rounds st') fun _ => False := by
  refine (repeats_drain st).ends (s.Quiet marks rounds) h fun {st₁} h₁ => ?_
  refine (turn_quiet formed stable h₁).mono ?_ fun _ => id
  rintro (_ | _) st₂ h₂ <;> exact h₂

theorem sweep_quiet (stable : s.Stable marks) (h : s.Quiet marks rounds st) :
    Ends (sweep s) st (fun _ st' => s.Quiet marks rounds st' ∧
      st'.types = st.types ∧ st'.methods = st.methods) fun _ => False := by
  obtain ⟨parked, hparked, hspread⟩ := Setting.spreadAll_quiet st.virtuals st fun base hb o ho =>
    h.offered stable (h.virtuals hb).1 (h.virtuals hb).2 ho
  rw [sweep, ends_modify, hspread]
  exact ⟨h.park fun e he => (hparked e he).elim h.parked id, rfl, rfl⟩

/-! ## The run -/

/-- The first round is the last. -/
theorem round_quiet (formed : s.Formed) (stable : s.Stable marks)
    (h : s.Quiet marks rounds st) :
    Ends (round s) st
      (fun more st' => more = false ∧ s.Quiet marks (rounds + 1) st') fun _ => False := by
  have h₀ : s.Quiet marks (rounds + 1) (st.count fun c => { c with rounds := c.rounds + 1 }) :=
    { h with
      parked := fun he => h.parked he
      rounds_eq := congrArg (· + 1) h.rounds_eq }
  simp only [round, ends_bind, ends_modify, ends_get]
  refine ((drain_quiet formed stable h₀).and (drain_spends _)).mono ?_ fun _ => And.left
  rintro _ st₁ ⟨h₁, -, htypes, hmethods⟩
  refine (sweep_quiet stable h₁).mono ?_ fun _ => id
  rintro _ st₂ ⟨h₂, htypes₂, hmethods₂⟩
  rw [ends_pure]
  refine ⟨?_, h₂⟩
  simp only [Bool.not_eq_false', Bool.and_eq_true, decide_eq_true_eq, Fifo.isEmpty_iff]
  exact ⟨⟨h₂.newMarks.trans h₀.newMarks.symm, hmethods₂ ▸ hmethods⟩, htypes₂ ▸ htypes⟩

/-- A run from stable marks finds nothing to do. -/
theorem run_quiet (formed : s.Formed) (stable : s.Stable marks) :
    Ends (run s) (.ofMarks marks) (fun stats st => st.marks = marks ∧ stats.rounds = 1 ∧
      stats.methodsProcessed = 0 ∧ stats.overridesPropagated = 0) fun _ => False := by
  have start : s.Quiet marks 0 (.ofMarks marks) :=
    { marks_eq := rfl
      newMarks := rfl
      types := nofun
      methods := nofun
      virtuals := nofun
      parked := nofun
      rounds_eq := rfl
      unprocessed := rfl
      unspread := rfl }
  have adm : s.Admits marks fun _ => True := formed.admits
  simp only [run, seed, ends_bind]
  refine ((fill_quiet formed stable start).and (fill_spec adm fun _ _ => trivial)).mono ?_
    fun _ => And.left
  rintro _ st₁ ⟨h₁, htracked, hqueued, -⟩
  have hdrain := (drainTypes_quiet formed stable h₁).and (drainTypes_spec adm htracked)
  refine (ends_bind.mp hdrain).mono (fun bound st₂ hdrain => hdrain.mono ?_ fun _ => And.left)
    fun _ => And.left
  rintro _ st₃ ⟨h₃, -, hall, -⟩
  -- Some method is marked, so it waits, and the run has a method to start from.
  have hstarts : ¬ st₃.methods.isEmpty = true := by
    obtain ⟨t, d, hd, hm⟩ := stable.starts
    have ht := hall hqueued t d (h₃.marks_eq ▸ hm) hd
    rw [Fifo.isEmpty_iff]
    exact List.ne_nil_of_mem ht
  rw [ends_get, if_neg hstarts, ends_pure]
  have hrounds := (repeats_rounds st₃).ends (s.Quiet marks 0) h₃ fun {st₄} h₄ =>
    (round_quiet formed stable h₄).mono (fun more st₅ hlast => by
      rw [hlast.1, if_neg (by simp)]
      exact hlast.2) fun _ => id
  refine hrounds.mono ?_ fun _ => id
  intro _ st₆ h₆
  simp only [ends_modify, ends_get, ends_pure]
  exact ⟨h₆.marks_eq, h₆.rounds_eq, h₆.unprocessed, h₆.unspread⟩

end Marking

/-! ## Sessions -/

namespace Setting

variable {s : Setting} {marks : Marks}

/-- A run from what the first run has left changes no mark. -/
theorem mark_mark (formed : s.Formed) (fresh : ∀ t, marks.isProcessed t = false)
    {stats : MarkStats} (h : (s.mark marks).1 = .ok stats) :
    ∃ stats', s.mark (s.mark marks).2 = (.ok stats', (s.mark marks).2) ∧
      stats'.rounds = 1 ∧ stats'.methodsProcessed = 0 ∧ stats'.overridesPropagated = 0 := by
  have adm : s.Admits marks fun _ => True := formed.admits
  rcases mark_of_ends (Marking.run_spec adm fun _ _ => trivial) with
    ⟨_, final, hx, start, st, hran, hmarks, -⟩ | ⟨e, hx, -⟩
  · have stable : s.Stable final.marks := hmarks ▸ hran.stable adm fresh
    rcases mark_of_ends (Marking.run_quiet formed stable) with
      ⟨stats', final', hx', hmarks', hcounts⟩ | ⟨_, _, hno⟩
    · rw [hx]
      exact ⟨stats', by rw [hx', hmarks'], hcounts⟩
    · exact hno.elim
  · rw [h] at hx
    cases hx

end Setting

namespace Context

variable {c : Context} {m : Model} {returned : List Token}

theorem ensureOverrides_eq :
    c.ensureOverrides m = c.onAnnotations fun a =>
      { a with overrides := if a.overrides.isEmpty then .ofModel m else a.overrides } := by
  unfold ensureOverrides
  split <;> rename_i h
  · simp only [onAnnotations, h, if_true]
  · simp only [onAnnotations, h, if_false, Bool.false_eq_true]

/-- Overrides that a run has looked for are not looked for again. -/
theorem ensureOverrides_mark : (c.mark m).2.ensureOverrides m = (c.mark m).2 := by
  simp only [mark, ensureOverrides_eq, onAnnotations]
  cases h : c.annotations.overrides.isEmpty with
  | false => simp [h]
  | true => simp

/-- A run changes nothing that marking depends on. -/
theorem setting_mark : (c.mark m).2.setting m = (c.ensureOverrides m).setting m := rfl

/-- A second run of a session changes nothing: no mark, reason or action, and none of what users
have decided. It ends after one round, in which no method is processed and no override is kept. -/
theorem mark_again (built : Model.Built returned m) (fits : m.Fits)
    (fresh : ∀ t, c.annotations.marks.isProcessed t = false) {stats : MarkStats}
    (h : (c.mark m).1 = .ok stats) :
    ∃ stats', (c.mark m).2.mark m = (.ok stats', (c.mark m).2) ∧
      stats'.rounds = 1 ∧ stats'.methodsProcessed = 0 ∧ stats'.overridesPropagated = 0 := by
  have formed : ((c.ensureOverrides m).setting m).Formed := Setting.formed_of_built built fits
  have hfresh (t : Token) : (c.ensureOverrides m).annotations.marks.isProcessed t = false := by
    rw [ensureOverrides_eq]
    exact fresh t
  obtain ⟨stats', hmark, hcounts⟩ := Setting.mark_mark formed hfresh h
  refine ⟨stats', ?_, hcounts⟩
  have hagain : (c.mark m).2.mark m =
      ((((c.mark m).2.setting m).mark (c.mark m).2.annotations.marks).1,
        (c.mark m).2.onAnnotations fun a => { a with
          marks := (((c.mark m).2.setting m).mark (c.mark m).2.annotations.marks).2 }) := by
    conv_lhs => rw [mark, ensureOverrides_mark]
  rw [hagain, setting_mark]
  have hmarks : (c.mark m).2.annotations.marks =
      (((c.ensureOverrides m).setting m).mark (c.ensureOverrides m).annotations.marks).2 := rfl
  rw [hmarks, hmark]
  rfl

end Context

/-- A session with the program and its root. -/
def Shapes.session : Context :=
  (Context.ofOptions .default).onAnnotations fun a => { a with marks := Shapes.roots }

/-- The first run keeps the override, and the second one finds nothing to do. -/
theorem Context.mark_again_shapes :
    (Shapes.session.mark Shapes.model).2.annotations.marks.isMarked ⟨0x06000002⟩ = true ∧
      ∃ stats, (Shapes.session.mark Shapes.model).2.mark Shapes.model =
          (.ok stats, (Shapes.session.mark Shapes.model).2) ∧
        stats.rounds = 1 ∧ stats.methodsProcessed = 0 ∧ stats.overridesPropagated = 0 := by
  obtain ⟨returned, built⟩ := Shapes.built
  obtain ⟨stats, hok⟩ := exists_ok_of_isOk (x := (Shapes.session.mark Shapes.model).1)
    (by decide +kernel)
  exact ⟨by decide +kernel, Context.mark_again built Shapes.fits Shapes.fresh hok⟩

end CilTrim
