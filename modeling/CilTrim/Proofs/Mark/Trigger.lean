import CilTrim.Proofs.Mark.Outcome
import CilTrim.Proofs.Mark.Watch

/-!
# No override is missed

An override waits for a type that is not marked, or that is still to be expanded. Expanding a type
looks again at what waits for it, so that nothing does when both queues are empty:

* `Setting.Pends`: what waits has a type that is not marked, or that is still to be looked at;
* `Marking.settle_pends`, `Marking.expandType_pends`: what waits for a type is looked at again;
* `Setting.Alert`: the invariant of runs, whatever their overrides and marks;
* `Setting.Exhausted`: nothing waits in a queue, and all overrides have been offered;
* `Setting.triggers_complete`: every drain ends so, and a run has at most two rounds.
-/

namespace CilTrim

namespace Setting

variable {s : Setting} {marks : Marks} {S own : Token → Prop} {st st' : MarkState}
  {types types' : Token → Prop}

/-- What waits has a type that is not marked, or that is still to be looked at: it is one of `types`
or waits in a queue. -/
def Pends (s : Setting) (types : Token → Prop) (st : MarkState) : Prop :=
  ∀ e ∈ st.parked, (s.model.type? e.type).isSome → st.marks.isMarked e.type = true →
    types e.type ∨ e.type ∈ st.types.toList ∨ e.type ∈ st.methods.toList

theorem Pends.mono (h : s.Pends types st) (ht : ∀ {t}, types t → types' t) :
    s.Pends types' st :=
  fun e he htype hm => (h e he htype hm).imp_left ht

/-- A type that gets marked enters a queue. -/
theorem Pends.change (h : s.Pends types st) (hw : s.Within marks S st)
    (hc : s.Change S own st st') : s.Pends types st' := by
  intro e he htype hm
  rcases hc.parked he with hold | hnew
  · by_cases hmold : st.marks.isMarked e.type = true
    · exact (h e hold htype hmold).imp_right (Or.imp hc.grows.types hc.grows.methods)
    · obtain ⟨d, hd⟩ := Option.isSome_iff_exists.mp htype
      have hnew : e.type ∉ st.scheduled := fun hs => hmold (hw.scheduled hs)
      exact .inr ((scheduled_of_covered hd (hc.grows.covered hmold hm)).imp_left
        (hc.grows.queued hnew))
  · exact absurd hm hnew

theorem Pends.changes (h : s.Pends types st) (hw : s.Within marks S st)
    (hc : s.Changes S own st st') : s.Pends types st' := by
  induction hc with
  | refl => exact h
  | tail hc hlast ih => exact ih.change (hw.changes hc) hlast

end Setting

namespace Marking

variable {s : Setting} {marks : Marks} {S own : Token → Prop} {st st' : MarkState}
  {types : Token → Prop} {t : Token} {rest : Fifo Token}

/-! ## Demands -/

/-- When a type arrives, nothing that waits depends on its being looked at any more. -/
theorem arrive_pends (adm : s.Admits marks S) (hw : s.Within marks S st)
    (h : s.Pends types st) (t : Token) :
    s.Pends (fun x => types x ∧ x ≠ t) (MarkState.arrive s.model s.overrides t st) := by
  have hu : s.Offer S st { st with parked := st.parked.filter (·.type != t) } := .unpark _
  have hrest : s.Pends (fun x => types x ∧ x ≠ t)
      { st with parked := st.parked.filter (·.type != t) } := by
    intro e he htype hm
    obtain ⟨hold, hne⟩ := List.mem_filter.mp he
    exact (h e hold htype hm).imp_left fun hx => ⟨hx, by simpa using hne⟩
  have ho := Setting.release_offers adm (st.parked.filter (·.type == t)) _ (hw.offer hu)
    fun e he => hw.parked (List.mem_filter.mp he).1
  exact hrest.changes (hw.offer hu) (ho.changes fun _ => False)

theorem meet_pends (adm : s.Admits marks S) (hw : s.Within marks S st)
    (hown : ∀ t, own t → st.marks.isMarked t = true) {d : Demand} (apt : s.Apt own d)
    (kept : ∀ {y}, d.need? = some (.kept y) → S y) (h : s.Pends types st) :
    Ends (meet s d) st (fun _ st' => s.Pends (fun t => types t ∧ d ≠ .arrived t) st')
      fun _ => True := by
  by_cases harrived : ∃ t, d = .arrived t
  · obtain ⟨t, rfl⟩ := harrived
    simp only [meet, ends_bind, ends_modify, ends_pure]
    refine (arrive_pends adm hw h t).mono fun hx => ⟨hx.1, fun heq => hx.2 ?_⟩
    cases heq
    rfl
  · refine (meet_spec adm hw hown apt kept).mono ?_ fun _ _ => trivial
    rintro _ st' ⟨hc, -⟩
    exact (h.changes hw hc).mono fun hx => ⟨hx, fun heq => harrived ⟨_, heq⟩⟩

/-- When demands are met, what waits for a type that arrives among them has been looked at. -/
theorem settling_pends (adm : s.Admits marks S) {ds : List Demand}
    {r : EStateM.Result MarkFault MarkState Unit} (hsettling : Settling s ds st r)
    (hw : s.Within marks S st) (hown : ∀ t, own t → st.marks.isMarked t = true)
    (due : s.Due marks S own ds) (h : s.Pends types st) :
    ∀ st', r = .ok () st' →
      s.Changes S own st st' ∧ s.Pends (fun t => types t ∧ .arrived t ∉ ds) st' := by
  induction hsettling generalizing types with
  | done =>
    rintro _ ⟨⟩
    exact ⟨.refl, h.mono fun hx => ⟨hx, List.not_mem_nil⟩⟩
  | fault | inner => exact nofun
  | next hx _ _ ihrest ihds =>
    intro st' hr
    obtain ⟨hc, -, hb⟩ := (meet_spec adm hw hown due.head.1 due.head.2).ok hx
    have h₁ := (meet_pends adm hw hown due.head.1 due.head.2 h).ok hx
    obtain ⟨hc₁, h₂⟩ := ihrest (hw.changes hc) (fun t ht => hc.grows.marked (hown t ht))
      (hb.due adm) h₁ _ rfl
    have hc₂ : s.Changes S own _ _ := hc.trans hc₁
    obtain ⟨hc₃, h₃⟩ := ihds (hw.changes hc₂) (fun t ht => hc₂.grows.marked (hown t ht))
      due.tail (h₂.mono And.left) st' hr
    refine ⟨hc₂.trans hc₃, h₃.mono fun ⟨⟨ht, hd⟩, hds⟩ => ⟨ht, fun hmem => ?_⟩⟩
    exact (List.mem_cons.mp hmem).elim (fun heq => hd heq.symm) hds

theorem settle_pends (adm : s.Admits marks S) {ds : List Demand} (hw : s.Within marks S st)
    (hown : ∀ t, own t → st.marks.isMarked t = true) (due : s.Due marks S own ds)
    (h : s.Pends types st) :
    Ends (settle s ds) st (fun _ st' => s.Pends (fun t => types t ∧ .arrived t ∉ ds) st')
      fun _ => True := by
  refine .of_ok fun _ st' hx => ?_
  exact (settling_pends adm (settling_settle ds st) hw hown due h st' hx).2

/-! ## Queues -/

/-- A type that leaves its queue is looked at before its expansion ends. -/
theorem expandType_pends (adm : s.Admits marks S) (htracked : s.Tracked marks S st)
    (hp : st.types.toList.Perm (t :: rest.toList)) (h : s.Pends (fun _ => False) st) :
    Ends (expandType s t) { st with types := rest } (fun _ st' => s.Pends (fun _ => False) st')
      fun _ => True := by
  have hS : S t := htracked.within.types (hp.mem_iff.mpr List.mem_cons_self)
  have htake : s.Pends (· = t) (st.takeType s.model t rest) := by
    intro e he htype hm
    rcases h e he htype hm with hf | hq | hq
    · exact hf.elim
    · exact (List.mem_cons.mp (hp.mem_iff.mp hq)).imp_right .inl
    · exact .inr (.inr hq)
  unfold expandType
  cases hd : s.model.type? t with
  | none =>
    rw [MarkState.takeType_of_none hd] at htake
    rw [ends_pure]
    intro e he htype hm
    refine (htake e he htype hm).imp_left fun heq => ?_
    rw [heq, hd] at htype
    cases htype
  | some d =>
    simp only [ends_bind, ends_modify]
    rw [← MarkState.takeType_of_some hd]
    refine (settle_pends adm (htracked.take_type hp).within (fun _ => False.elim)
      (due_typeNeeds adm hS hd) htake).mono (fun _ st' h' => h'.mono ?_) fun _ => id
    rintro x ⟨rfl, hmissing⟩
    exact hmissing (by simp [Setting.typeNeeds])

/-- No override waits for a method. -/
theorem processMethod_pends (adm : s.Admits marks S) (htracked : s.Tracked marks S st)
    (hp : st.methods.toList.Perm (t :: rest.toList)) (h : s.Pends (fun _ => False) st) :
    Ends (processMethod s t) { st with methods := rest }
      (fun _ st' => s.Pends (fun _ => False) st') fun _ => True := by
  have htake : s.Pends (· = t) (st.takeMethod s.model t rest) := by
    intro e he htype hm
    rcases h e he htype hm with hf | hq | hq
    · exact hf.elim
    · exact .inr (.inl hq)
    · exact (List.mem_cons.mp (hp.mem_iff.mp hq)).imp_right .inr
  refine (processMethod_spec adm htracked hp).mono ?_ fun _ _ => trivial
  rintro _ st' ⟨hc, -, hmethod, -⟩ e he htype hm
  refine (htake.changes (htracked.take_method hp).within hc e he htype hm).imp_left fun heq => ?_
  rw [heq] at htype
  obtain ⟨d, hd⟩ := Option.isSome_iff_exists.mp hmethod
  cases Token.table_unique (Model.isIn_of_type? htype)
    (Rows.isIn_of_find? hd : t.isIn .methodDef = true)

end Marking

namespace Setting

variable {s : Setting} {marks : Marks} {st st' : MarkState}

/-! ## The invariant -/

/-- No override of a registered method is lost, and none waits for a type that has been looked
at. -/
structure Alert (s : Setting) (marks : Marks) (st : MarkState) : Prop where
  tracked : s.Tracked marks (fun _ => True) st
  watches : s.Watches st
  pends : s.Pends (fun _ => False) st

/-- The overrides in a table are methods of the model. -/
def FindsOverrides (s : Setting) : Prop :=
  ∀ {base o : Token}, o ∈ s.overrides.overridesOf base → (s.model.method? o).isSome

/-- Nothing waits in a queue, and the overrides of registered methods are marked with their
types. -/
structure Exhausted (s : Setting) (st : MarkState) : Prop where
  types : st.types.toList = []
  methods : st.methods.toList = []
  offered : ∀ base ∈ st.virtuals, ∀ o ∈ s.overrides.overridesOf base, s.Offered st st o

/-- When both queues are empty, what waits has a type that is not marked. -/
theorem Alert.exhausted (h : s.Alert marks st) (finds : s.FindsOverrides)
    (formed : s.Formed) (types : st.types.toList = []) (methods : st.methods.toList = []) :
    s.Exhausted st where
  types := types
  methods := methods
  offered base hb o ho type hd hm := by
    refine (h.watches.placed hb ho type hd).resolve_right ?_
    rintro ⟨e, he, rfl, rfl⟩
    obtain ⟨d, hmethod⟩ := Option.isSome_iff_exists.mp (finds ho)
    obtain ⟨owner, howner, -⟩ := formed.wellFormed.methods_listed.listed hmethod
    have hdeclared : d.declaringType = e.type := by
      rw [Model.declaringTypeOf?_method hmethod] at hd
      exact Option.some.inj hd
    have htype : s.model.type? e.type = some owner := hdeclared ▸ howner
    rcases h.pends e he (Option.isSome_iff_exists.mpr ⟨owner, htype⟩) hm with hf | hq | hq
    · exact hf
    · rw [types] at hq
      cases hq
    · rw [methods] at hq
      cases hq

/-- Looking again at the overrides of virtual methods finds nothing to mark. -/
theorem Exhausted.sweep (h : s.Exhausted st) :
    ∃ parked, Marking.sweep s st = .ok () { st with parked } := by
  obtain ⟨parked, -, hparked⟩ := spreadAll_quiet st.virtuals st h.offered
  have hst : Marking.sweep s st = .ok () (st.virtuals.foldl
      (fun st base => MarkState.spread s.model s.overrides base st) st) := rfl
  exact ⟨parked, hparked ▸ hst⟩

end Setting

namespace Marking

open Setting (Alert Exhausted)

variable {s : Setting} {marks : Marks} {st : MarkState} {rounds : Nat}

/-! ## Rounds -/

theorem expandType_alert (formed : s.Formed) {t : Token} {rest : Fifo Token}
    (h : s.Alert marks st ∧ st.stats.rounds = rounds)
    (hp : st.types.toList.Perm (t :: rest.toList)) :
    Ends (expandType s t) { st with types := rest }
      (fun _ st' => s.Alert marks st' ∧ st'.stats.rounds = rounds) fun _ => True := by
  obtain ⟨h, rfl⟩ := h
  have adm : s.Admits marks fun _ => True := formed.admits
  have hwatches : s.Watches { st with types := rest } := ⟨h.watches.sorted, h.watches.placed⟩
  refine (((expandType_spec adm h.tracked hp).and (expandType_watches t hwatches)).and
    (expandType_pends adm h.tracked hp h.pends)).mono ?_ fun _ _ => trivial
  rintro _ st' ⟨⟨⟨hc, htracked⟩, hwatches⟩, hpends⟩
  refine ⟨⟨htracked, hwatches, hpends⟩, hc.rounds.trans ?_⟩
  unfold MarkState.takeType
  dsimp only
  split <;> rfl

theorem processMethod_alert (formed : s.Formed) {t : Token} {rest : Fifo Token}
    (h : s.Alert marks st ∧ st.stats.rounds = rounds)
    (hp : st.methods.toList.Perm (t :: rest.toList)) :
    Ends (processMethod s t) { st with methods := rest }
      (fun _ st' => s.Alert marks st' ∧ st'.stats.rounds = rounds) fun _ => True := by
  obtain ⟨h, rfl⟩ := h
  have adm : s.Admits marks fun _ => True := formed.admits
  have hwatches : s.Watches { st with methods := rest } := ⟨h.watches.sorted, h.watches.placed⟩
  refine (((processMethod_spec adm h.tracked hp).and (processMethod_watches t hwatches)).and
    (processMethod_pends adm h.tracked hp h.pends)).mono ?_ fun _ _ => trivial
  rintro _ st' ⟨⟨⟨hc, -, -, htracked⟩, hwatches⟩, hpends⟩
  refine ⟨⟨htracked, hwatches, hpends⟩, hc.rounds.trans ?_⟩
  unfold MarkState.takeMethod
  dsimp only
  split <;> rfl

/-- The start of a run is on the alert, and starts no round. -/
theorem seed_alert (formed : s.Formed) :
    Ends (seed s) (.ofMarks marks) (fun _ st => s.Alert marks st ∧ st.stats.rounds = 0)
      fun _ => True := by
  have adm : s.Admits marks fun _ => True := formed.admits
  simp only [seed, ends_bind]
  refine ((fill_spec adm fun _ _ => trivial).and (fill_watches marks)).mono ?_ fun _ _ => trivial
  rintro _ start ⟨⟨htracked, -, hfills⟩, hwatches⟩
  have hpends : s.Pends (fun _ => False) start := by
    intro e he htype hm
    obtain ⟨d, hd⟩ := Option.isSome_iff_exists.mp htype
    exact .inr ((htracked.type hm hd).imp_left
      (hfills.grows.queued (by simp [MarkState.ofMarks])))
  have hstart : s.Alert marks start ∧ start.stats.rounds = 0 :=
    ⟨⟨htracked, hwatches, hpends⟩, hfills.rounds⟩
  refine (ends_bind.mp (drainTypes_keeps (expandType_alert formed) hstart)).mono
    (fun bound st hdrain => hdrain.mono ?_ fun _ => id) fun _ => id
  rintro _ st' ⟨h, -⟩
  rw [ends_get]
  split
  · exact ends_throw.mpr trivial
  · exact ends_pure.mpr h

/-- A drain ends with nothing left to offer. -/
theorem drain_alert (formed : s.Formed) (finds : s.FindsOverrides) (h : s.Alert marks st) :
    Ends (drain s) st
      (fun _ st' => s.Alert marks st' ∧ s.Exhausted st' ∧ st'.stats.rounds = st.stats.rounds)
      fun _ => True := by
  refine (drain_keeps (expandType_alert formed) (processMethod_alert formed) ⟨h, rfl⟩).mono
    ?_ fun _ => id
  rintro _ st' ⟨⟨h', hrounds⟩, htypes, hmethods⟩
  exact ⟨h', h'.exhausted finds formed htypes hmethods, hrounds⟩

/-- A round ends with nothing left to offer. -/
theorem round_alert (formed : s.Formed) (finds : s.FindsOverrides) (h : s.Alert marks st) :
    Ends (round s) st (fun _ st' => s.Alert marks st' ∧ s.Exhausted st' ∧
      st'.stats.rounds = st.stats.rounds + 1) fun _ => True := by
  simp only [round, ends_bind, ends_modify, ends_get]
  have hcount : s.Alert marks (st.count fun c => { c with rounds := c.rounds + 1 }) :=
    ⟨h.tracked.count _, ⟨h.watches.sorted, h.watches.placed⟩, h.pends⟩
  refine (drain_alert formed finds hcount).mono ?_ fun _ => id
  rintro _ st₁ ⟨h₁, hexhausted, hrounds⟩
  obtain ⟨parked, hsweep⟩ := hexhausted.sweep
  obtain ⟨ho, -⟩ := (sweep_spec formed.admits h₁.tracked.within).ok hsweep
  rw [ends_of_eq_ok hsweep, ends_pure]
  refine ⟨⟨h₁.tracked.offers ho, sweep_watches h₁.watches hsweep, ?_⟩, ?_, hrounds⟩
  · exact h₁.pends.changes h₁.tracked.within (ho.changes fun _ => False)
  · exact ⟨hexhausted.types, hexhausted.methods, hexhausted.offered⟩

/-- There is nothing to drain from empty queues. -/
theorem drain_of_empty (types : st.types.toList = []) (methods : st.methods.toList = []) :
    Ends (drain s) st (fun _ st' => st' = st) fun _ => True := by
  refine (repeats_drain st).ends (· = st) rfl fun {st₁} h₁ => ?_
  cases h₁
  rw [turn, expandNext, ends_bind, ends_bind, ends_nextType?]
  cases ht : st.types.pop? with
  | some next => simp [Fifo.toList_of_pop?_eq_some ht] at types
  | none =>
    dsimp only
    rw [ends_pure, if_neg (by simp), ends_bind, ends_nextMethod?]
    cases hm : st.methods.pop? with
    | some next => simp [Fifo.toList_of_pop?_eq_some hm] at methods
    | none => exact ends_pure.mpr rfl

/-- A round from where nothing is left to offer does nothing, and is the last. -/
theorem round_exhausted (h : s.Exhausted st) :
    Ends (round s) st (fun more st' => more = false ∧ st'.stats.rounds = st.stats.rounds + 1)
      fun _ => True := by
  have hcount : s.Exhausted (st.count fun c => { c with rounds := c.rounds + 1 }) :=
    ⟨h.types, h.methods, h.offered⟩
  simp only [round, ends_bind, ends_modify, ends_get]
  refine (drain_of_empty hcount.types hcount.methods).mono ?_ fun _ => id
  rintro _ st₁ rfl
  obtain ⟨parked, hsweep⟩ := hcount.sweep
  rw [ends_of_eq_ok hsweep, ends_pure]
  have htypes : st.types.isEmpty = true := (Fifo.isEmpty_iff _).mpr h.types
  have hmethods : st.methods.isEmpty = true := (Fifo.isEmpty_iff _).mpr h.methods
  simp [MarkState.count, htypes, hmethods]

/-- The second round, if there is one, is the last. -/
theorem rounds_alert (formed : s.Formed) (finds : s.FindsOverrides) (h : s.Alert marks st)
    (hrounds : st.stats.rounds = 0) :
    Ends (roundsWithin s (Token.count + 2)) st (fun _ st' => st'.stats.rounds ≤ 2)
      fun _ => True := by
  refine (repeats_rounds st).ends
    (fun st => (s.Alert marks st ∧ st.stats.rounds = 0) ∨
      (s.Exhausted st ∧ st.stats.rounds = 1)) (.inl ⟨h, hrounds⟩) ?_
  rintro st₁ (⟨h₁, hzero⟩ | ⟨h₁, hone⟩)
  · refine (round_alert formed finds h₁).mono ?_ fun _ => id
    rintro (_ | _) st₂ ⟨-, hexhausted, hcount⟩
    · exact (show st₂.stats.rounds ≤ 2 by omega)
    · exact .inr ⟨hexhausted, by omega⟩
  · refine (round_exhausted h₁).mono ?_ fun _ => id
    rintro _ st₂ ⟨rfl, hcount⟩
    exact (show st₂.stats.rounds ≤ 2 by omega)

end Marking

namespace Setting

variable {s : Setting} {marks : Marks} {returned : List Token}

/-- The states in which the rounds of a run start, whether or not the run ends well. -/
inductive RoundStarts (s : Setting) (marks : Marks) : MarkState → Prop where
  | first {st : MarkState} : Marking.seed s (.ofMarks marks) = .ok () st → RoundStarts s marks st
  | next {st st' : MarkState} : RoundStarts s marks st → Marking.round s st = .ok true st' →
    RoundStarts s marks st'

theorem RoundStarts.alert (formed : s.Formed) (finds : s.FindsOverrides) {st : MarkState}
    (h : s.RoundStarts marks st) : s.Alert marks st := by
  induction h with
  | first hx => exact ((Marking.seed_alert formed).ok hx).1
  | next _ hx ih => exact ((Marking.round_alert formed finds ih).ok hx).1

/-- The triggers miss no override, from whatever marks a run starts. At the end of each drain, every
override of a registered method is marked if its type is, so that looking again at all overrides
marks nothing; and a run that ends well has at most two rounds. -/
theorem triggers_complete (built : Model.Built returned s.model) (fits : s.model.Fits)
    (finds : s.FindsOverrides) :
    (∀ st st', s.RoundStarts marks st →
      Marking.drain s (st.count fun c => { c with rounds := c.rounds + 1 }) = .ok () st' →
      (∀ base ∈ st'.virtuals, ∀ o ∈ s.overrides.overridesOf base, ∀ type,
        s.model.declaringTypeOf? o = some type → st'.marks.isMarked type = true →
        st'.marks.isMarked o = true) ∧
      ∃ parked, Marking.sweep s st' = .ok () { st' with parked }) ∧
    ∀ stats, (s.mark marks).1 = .ok stats → stats.rounds ≤ 2 := by
  have formed := formed_of_built built fits
  constructor
  · intro st st' hstart hx
    have h := hstart.alert formed finds
    have hcount : s.Alert marks (st.count fun c => { c with rounds := c.rounds + 1 }) :=
      ⟨h.tracked.count _, ⟨h.watches.sorted, h.watches.placed⟩, h.pends⟩
    obtain ⟨-, hexhausted, -⟩ := (Marking.drain_alert formed finds hcount).ok hx
    exact ⟨hexhausted.offered, hexhausted.sweep⟩
  · intro stats hx
    have hrun : Marking.Ends (Marking.run s) (.ofMarks marks) (fun stats _ => stats.rounds ≤ 2)
        fun _ => True := by
      simp only [Marking.run, Marking.ends_bind, Marking.ends_modify, Marking.ends_get,
        Marking.ends_pure]
      refine (Marking.seed_alert formed).mono ?_ fun _ => id
      exact fun _ st h => Marking.rounds_alert formed finds h.1 h.2
    rcases mark_of_ends hrun with ⟨stats', st, heq, hrounds⟩ | ⟨e, heq, -⟩
    · rw [heq] at hx
      cases hx
      exact hrounds
    · rw [heq] at hx
      cases hx

/-- The run on the program, which keeps an override, has at most two rounds. -/
theorem triggers_complete_shapes :
    ∃ stats, (Shapes.setting.mark Shapes.roots).1 = .ok stats ∧ stats.rounds ≤ 2 := by
  obtain ⟨returned, built⟩ := Shapes.built
  obtain ⟨stats, h⟩ := Shapes.ends_well
  have wf := built.wellFormed Shapes.fits
  have finds : Shapes.setting.FindsOverrides := fun ho =>
    (OverrideTable.ofModel_methods wf (OverrideTable.mem_overridesOf.mp ho)).2.isSome
  exact ⟨stats, h, (triggers_complete built Shapes.fits finds).2 stats h⟩

end Setting

end CilTrim
