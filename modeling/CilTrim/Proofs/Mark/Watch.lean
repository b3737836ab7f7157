import CilTrim.Proofs.Mark.Termination

/-!
# Overrides that are not lost

From the moment a virtual method is registered, each of its overrides is marked or waits for its
type. This holds in whatever order overrides are offered, wait, and are offered again, from whatever
state a run starts:

* `Setting.Placed`: an override is marked, or it waits;
* `Setting.Places`: what offers keep, with `offer_places`, `spread_places`, `release_places`;
* `Setting.Watches`: every override of a registered method is placed;
* `Marking.meet_watches`, `Marking.fill_watches`: the steps of marking.
-/

namespace CilTrim

namespace Setting

variable {s : Setting} {st st' st'' : MarkState}

/-- An override is marked, or it waits for its type. -/
def Placed (s : Setting) (st : MarkState) (o : Token) : Prop :=
  ∀ type, s.model.declaringTypeOf? o = some type →
    st.marks.isMarked o = true ∨ ∃ e ∈ st.parked, e.type = type ∧ e.overrider = o

/-- What waits, waits for the type that declares it. -/
def Sorted (s : Setting) (st : MarkState) : Prop :=
  ∀ e ∈ st.parked, s.model.declaringTypeOf? e.overrider = some e.type

/-- What offers keep: nothing that waits is forgotten. -/
structure Places (s : Setting) (st st' : MarkState) : Prop where
  sorted : s.Sorted st'
  marked {t : Token} : st.marks.isMarked t = true → st'.marks.isMarked t = true
  parked {e : Parked} : e ∈ st.parked → e ∈ st'.parked
  virtuals : st'.virtuals = st.virtuals

theorem Places.refl (sorted : s.Sorted st) : s.Places st st := ⟨sorted, id, id, rfl⟩

theorem Places.trans (h₁ : s.Places st st') (h₂ : s.Places st' st'') : s.Places st st'' where
  sorted := h₂.sorted
  marked h := h₂.marked (h₁.marked h)
  parked h := h₂.parked (h₁.parked h)
  virtuals := h₂.virtuals.trans h₁.virtuals

theorem Places.placed (h : s.Places st st') {o : Token} (ho : s.Placed st o) : s.Placed st' o :=
  fun type hd => (ho type hd).imp h.marked fun ⟨e, he, heq⟩ => ⟨e, h.parked he, heq⟩

/-! ## Offers -/

theorem park_places (sorted : s.Sorted st) {base o type : Token}
    (hd : s.model.declaringTypeOf? o = some type) :
    s.Places st (st.park ⟨type, base, o⟩) ∧ s.Placed (st.park ⟨type, base, o⟩) o := by
  unfold MarkState.park
  split <;> rename_i hany
  · refine ⟨.refl sorted, fun type' hd' => ?_⟩
    simp only [List.any_eq_true, Bool.and_eq_true, beq_iff_eq] at hany
    obtain ⟨e, he, -, ho⟩ := hany
    have htype := sorted e he
    rw [ho, hd'] at htype
    exact .inr ⟨e, he, (Option.some.inj htype).symm, ho⟩
  · refine ⟨⟨fun e he => ?_, id, fun he => List.mem_append_left _ he, rfl⟩, fun type' hd' => ?_⟩
    · rcases List.mem_append.mp he with he | he
      · exact sorted e he
      · cases List.mem_singleton.mp he
        exact hd
    · rw [hd] at hd'
      cases hd'
      exact .inr ⟨_, List.mem_append_right _ (List.mem_singleton_self _), rfl, rfl⟩

theorem needMethod_places (sorted : s.Sorted st) {t : Token} {reason : Reason} :
    s.Places st (st.needMethod t reason) := by
  rw [MarkState.needMethod_eq]
  refine ⟨sorted, fun h => ?_, id, rfl⟩
  rw [Marks.isMarked_mark, Marks.isMarked_ensureParsed]
  exact .inr h

/-- An offer places the override. -/
theorem offer_places (sorted : s.Sorted st) (base o : Token) :
    s.Places st (st.offer s.model base o).2 ∧ s.Placed (st.offer s.model base o).2 o := by
  unfold MarkState.offer
  cases hd : s.model.declaringTypeOf? o with
  | none =>
    refine ⟨.refl sorted, fun type hd' => ?_⟩
    rw [hd] at hd'
    cases hd'
  | some type =>
    dsimp only
    split
    · exact park_places sorted hd
    · split
      · rename_i hm
        exact ⟨.refl sorted, fun _ _ => .inl hm⟩
      · have hcount : s.Places st
            (st.count fun c => { c with overridesPropagated := c.overridesPropagated + 1 }) :=
          ⟨sorted, id, id, rfl⟩
        exact ⟨hcount.trans (needMethod_places hcount.sorted),
          fun _ _ => .inl MarkState.marked_needMethod⟩

theorem offerAll_places (sorted : s.Sorted st) (base : Token) (os acc : List Token) :
    s.Places st (MarkState.offerAll s.model base os (acc, st)).2 ∧
      ∀ o ∈ os, s.Placed (MarkState.offerAll s.model base os (acc, st)).2 o := by
  induction os generalizing acc st with
  | nil => exact ⟨.refl sorted, nofun⟩
  | cons o rest ih =>
    obtain ⟨hoffer, ho⟩ := offer_places sorted base o
    obtain ⟨hrest, hall⟩ :=
      ih hoffer.sorted (if (st.offer s.model base o).1 then o :: acc else acc)
    exact ⟨hoffer.trans hrest, List.forall_mem_cons.mpr ⟨hrest.placed ho, hall⟩⟩

theorem spreading_places {stack : List Token}
    (h : MarkState.Spreading s.model s.overrides stack st st') (sorted : s.Sorted st) :
    s.Places st st' := by
  induction h with
  | done => exact .refl sorted
  | @next base _ _ _ _ ih =>
    have hoffers := (offerAll_places sorted base (s.overrides.overridesOf base) []).1
    exact hoffers.trans (ih hoffers.sorted)

/-- Spreading from a method places all its overrides. -/
theorem spread_places (sorted : s.Sorted st) (t : Token) :
    s.Places st (MarkState.spread s.model s.overrides t st) ∧
      ∀ o ∈ s.overrides.overridesOf t,
        s.Placed (MarkState.spread s.model s.overrides t st) o := by
  have h := MarkState.spreading_spread (m := s.model) (t := s.overrides) t st
  refine ⟨spreading_places h sorted, fun o ho => ?_⟩
  generalize MarkState.spread s.model s.overrides t st = st' at h
  cases h with
  | next hrest =>
    obtain ⟨hoffers, hall⟩ := offerAll_places sorted t (s.overrides.overridesOf t) []
    exact (spreading_places hrest hoffers.sorted).placed (hall o ho)

theorem spreadAll_places (sorted : s.Sorted st) (bases : List Token) :
    s.Places st
      (bases.foldl (fun st base => MarkState.spread s.model s.overrides base st) st) := by
  induction bases generalizing st with
  | nil => exact .refl sorted
  | cons base rest ih =>
    have hspread := (spread_places sorted base).1
    exact hspread.trans (ih hspread.sorted)

/-- Overrides that waited and are offered again are placed. -/
theorem release_places (sorted : s.Sorted st) (entries : List Parked) :
    s.Places st (MarkState.release s.model s.overrides entries st) ∧
      ∀ e ∈ entries, s.Placed (MarkState.release s.model s.overrides entries st) e.overrider := by
  induction entries generalizing st with
  | nil => exact ⟨.refl sorted, nofun⟩
  | cons e rest ih =>
    obtain ⟨hoffer, ho⟩ := offer_places sorted e.base e.overrider
    have hspread : s.Places (st.offer s.model e.base e.overrider).2
        (if (st.offer s.model e.base e.overrider).1 then
          MarkState.spread s.model s.overrides e.overrider (st.offer s.model e.base e.overrider).2
        else (st.offer s.model e.base e.overrider).2) := by
      split
      · exact (spread_places hoffer.sorted _).1
      · exact .refl hoffer.sorted
    obtain ⟨hrest, hall⟩ := ih hspread.sorted
    unfold MarkState.release
    exact ⟨(hoffer.trans hspread).trans hrest,
      List.forall_mem_cons.mpr ⟨(hspread.trans hrest).placed ho, hall⟩⟩

/-! ## Registered methods -/

/-- Every override of a registered method is placed. -/
structure Watches (s : Setting) (st : MarkState) : Prop where
  sorted : s.Sorted st
  placed {base o : Token} : base ∈ st.virtuals → o ∈ s.overrides.overridesOf base →
    s.Placed st o

theorem Places.watches (h : s.Places st st') (hw : s.Watches st) : s.Watches st' where
  sorted := h.sorted
  placed hb ho := h.placed (hw.placed (h.virtuals ▸ hb) ho)

/-- A registered method has its overrides placed, and so have those that were registered before. -/
theorem register_watches (h : s.Watches st) (t : Token) :
    s.Watches (MarkState.register s.model s.overrides t st) := by
  unfold MarkState.register
  split
  · exact h
  · have sorted : s.Sorted { st with virtuals := st.virtuals ++ [t] } := h.sorted
    obtain ⟨hspread, hall⟩ := spread_places sorted t
    refine ⟨hspread.sorted, fun hb ho => ?_⟩
    rw [hspread.virtuals, List.mem_append, List.mem_singleton] at hb
    rcases hb with hb | rfl
    · exact hspread.placed (h.placed hb ho)
    · exact hall _ ho

/-- What waited for a type is placed again. -/
theorem arrive_watches (h : s.Watches st) (t : Token) :
    s.Watches (MarkState.arrive s.model s.overrides t st) := by
  have sorted : s.Sorted { st with parked := st.parked.filter (·.type != t) } :=
    fun e he => h.sorted e (List.mem_filter.mp he).1
  obtain ⟨hrelease, hall⟩ := release_places sorted (st.parked.filter (·.type == t))
  refine ⟨hrelease.sorted, fun {base o} hb ho type hd => ?_⟩
  rcases h.placed (hrelease.virtuals ▸ hb) ho type hd with hm | ⟨e, he, htype, rfl⟩
  · exact .inl (hrelease.marked hm)
  · by_cases ht : e.type = t
    · exact hall e (List.mem_filter.mpr ⟨he, by simpa using ht⟩) type hd
    · exact .inr ⟨e, hrelease.parked (List.mem_filter.mpr ⟨he, by simpa using ht⟩), htype, rfl⟩

end Setting

namespace Marking

open Setting (Places Watches)

variable {s : Setting} {st : MarkState}

/-! ## Steps -/

/-- Meeting a demand loses no override. -/
theorem meet_watches (d : Demand) (h : s.Watches st) :
    Ends (meet s d) st (fun _ st' => s.Watches st') fun _ => True := by
  have mark {st' : MarkState}
      (marked : ∀ {t}, st.marks.isMarked t = true → st'.marks.isMarked t = true)
      (parked : st'.parked = st.parked) (virtuals : st'.virtuals = st.virtuals) :
      s.Watches st' :=
    Places.watches ⟨fun e he => h.sorted e (parked ▸ he), marked, (parked ▸ ·), virtuals⟩ h
  have opened {t : Token} {reason : Reason} : s.Watches (st.markNode t reason) := by
    rw [MarkState.markNode_eq]
    exact mark (fun hm => Marks.isMarked_mark.mpr (.inr hm)) rfl rfl
  cases d with
  | node t reason =>
    simp only [meet, ends_bind, ends_modify, ends_pure]
    exact opened
  | type t reason =>
    simp only [meet, ends_bind, ends_modify, ends_pure]
    rw [MarkState.needType_eq]
    exact mark (fun hm => Marks.isMarked_mark.mpr (.inr hm)) rfl rfl
  | method t reason =>
    simp only [meet, ends_bind, ends_modify, ends_pure]
    exact (Setting.needMethod_places h.sorted).watches h
  | field t reason =>
    simp only [meet, meetField, ends_bind, ends_modify, ends_get]
    split
    · exact ends_pure.mpr opened
    · simp only [ends_bind, ends_set]
      cases s.model.field? t with
      | none => exact ends_pure.mpr ⟨opened.sorted, opened.placed⟩
      | some f =>
        simp only [ends_bind, ends_modify, ends_pure]
        exact ⟨opened.sorted, opened.placed⟩
  | assembly t =>
    simp only [meet, meetAssembly, ends_bind, ends_get]
    split
    · exact ends_pure.mpr h
    · simp only [ends_bind, ends_set]
      cases s.model.assembly? t <;> exact ends_pure.mpr (mark id rfl rfl)
  | overridable t =>
    simp only [meet, ends_bind, ends_modify, ends_pure]
    exact Setting.register_watches h t
  | arrived t =>
    simp only [meet, ends_bind, ends_modify, ends_pure]
    exact Setting.arrive_watches h t
  | finished t =>
    simp only [meet, ends_bind, ends_modify, ends_pure]
    exact mark (fun hm => Marks.isMarked_setProcessed.mpr (.inr hm)) rfl rfl
  | skippedAttribute | skippedName =>
    simp only [meet, ends_bind, ends_modify, ends_pure]
    exact mark id rfl rfl
  | unresolved cause => exact ends_throw.mpr trivial

theorem settle_watches (ds : List Demand) (h : s.Watches st) :
    Ends (settle s ds) st (fun _ st' => s.Watches st') fun _ => True :=
  settle_keeps (fun d _ => meet_watches d) ds h

/-- Filling the queues loses no override. -/
theorem fill_watches (marks : Marks) :
    Ends (fill s) (.ofMarks marks) (fun _ st => s.Watches st) fun _ => True := by
  have start : s.Watches (.ofMarks marks) := ⟨nofun, nofun⟩
  have steps : FillSteps s s.Watches fun _ => True := {
    assembly := fun _ => settle_watches _
    type := fun _ h _ => by
      unfold MarkState.schedule
      split <;> exact ⟨h.sorted, h.placed⟩
    field := fun _ _ h _ => settle_watches _ h
    virtual := fun h _ _ => Setting.register_watches h _
    method := fun {st _ t} _ _ h _ => by
      have hplaces : s.Places st
          { st with marks := st.marks.ensureParsed t, methods := st.methods.push t } :=
        ⟨h.sorted, fun hm => by rwa [Marks.isMarked_ensureParsed], id, rfl⟩
      exact hplaces.watches h }
  exact steps.fill_keeps start

theorem expandType_watches (t : Token) (h : s.Watches st) :
    Ends (expandType s t) st (fun _ st' => s.Watches st') fun _ => True := by
  unfold expandType
  cases s.model.type? t with
  | none => exact ends_pure.mpr h
  | some d =>
    simp only [ends_bind, ends_modify]
    exact settle_watches _ ⟨h.sorted, h.placed⟩

theorem processMethod_watches (t : Token) (h : s.Watches st) :
    Ends (processMethod s t) st (fun _ st' => s.Watches st') fun _ => True := by
  simp only [processMethod, ends_bind, ends_get]
  split
  · exact ends_pure.mpr h
  · cases s.model.method? t with
    | none => exact ends_throw.mpr trivial
    | some d =>
      simp only [ends_bind, ends_modify]
      exact settle_watches _ ⟨h.sorted, h.placed⟩

/-- Looking again at the overrides of virtual methods loses none. -/
theorem sweep_watches {st' : MarkState} (h : s.Watches st) (hx : sweep s st = .ok () st') :
    s.Watches st' := by
  have hplaces := Setting.spreadAll_places h.sorted st.virtuals
  have hst : sweep s st = .ok () (st.virtuals.foldl
      (fun st base => MarkState.spread s.model s.overrides base st) st) := rfl
  rw [hx] at hst
  cases hst
  exact hplaces.watches h

end Marking

end CilTrim
