import CilTrim.Proofs.Annotation.Explain
import CilTrim.Proofs.Mark.Outcome
import CilTrim.Proofs.Mark.Reasons

/-!
# Explanations of what is marked

Whatever a run marks, it marks for a node that is marked already, with one exception: the attributes
of an assembly and of its modules are looked at when the run starts, and what they need is credited
to the assembly, whether or not that is marked. So the reasons for a node lead back to a root or to
such an attribute:

* `Setting.Credits`: a node that an attribute of an assembly needs, or one of a module of it;
* `Setting.Explained`: the invariant of a run, with `Setting.Explains` for what its steps keep;
* `Marking.settle_explains`, `Marking.fill_explained`, `Marking.run_explained`: steps and runs;
* `Setting.mark_explained`: what a run leaves marked, and when all of it leads back to roots;
* `Badges.explained_in_a_circle`: an attribute of an assembly that keeps itself.
-/

namespace CilTrim

namespace Setting

/-- A node is credited to an assembly that is no root: an attribute of the assembly, or of one of
its modules, needs the node. -/
def Credits (s : Setting) (marks : Marks) (a t : Token) : Prop :=
  ¬ marks.isMarked a = true ∧
    ∃ d, s.model.assembly? a = some d ∧ Asks (s.assemblyNeeds a d) (.kept t)

/-- Every marked node is traced back, and what waits is marked or waits for what is. -/
structure Explained (s : Setting) (marks : Marks) (st : MarkState) : Prop where
  traces {t : Token} : st.marks.isMarked t = true → st.marks.Traces (s.Credits marks) t
  unmarked {t : Token} : ¬ st.marks.isMarked t = true → st.marks.reason? t = none
  roots {t : Token} : marks.isMarked t = true → st.marks.isMarked t = true
  types {t : Token} : t ∈ st.types.toList → st.marks.isMarked t = true
  methods {t : Token} : t ∈ st.methods.toList → st.marks.isMarked t = true
  virtuals {t : Token} : t ∈ st.virtuals → st.marks.isMarked t = true
  parked {e : Parked} : e ∈ st.parked → st.marks.isMarked e.base = true

/-- Steps that leave every marked node explained. -/
structure Explains (s : Setting) (marks : Marks) (st st' : MarkState) : Prop where
  explained : s.Explained marks st'
  marked {t : Token} : st.marks.isMarked t = true → st'.marks.isMarked t = true

variable {s : Setting} {marks : Marks} {st st' st'' : MarkState} {t base : Token} {reason : Reason}

theorem Explains.refl (h : s.Explained marks st) : s.Explains marks st st := ⟨h, id⟩

theorem Explains.trans (h : s.Explains marks st st') (h' : s.Explains marks st' st'') :
    s.Explains marks st st'' :=
  ⟨h'.explained, fun ht => h'.marked (h.marked ht)⟩

/-- At the start of a run every marked node is a root. -/
theorem explained_ofMarks (rooted : marks.Rooted) : s.Explained marks (.ofMarks marks) where
  traces ht := .root (rooted.marked ht)
  unmarked ht := rooted.unmarked ht
  roots := id
  types := nofun
  methods := nofun
  virtuals := nofun
  parked := nofun

/-! ## Operations -/

namespace Explained

/-- An operation that marks nothing keeps explanations. -/
theorem frame (h : s.Explained marks st)
    (isMarked : ∀ {x}, st'.marks.isMarked x = true ↔ st.marks.isMarked x = true)
    (reason? : ∀ x, st'.marks.reason? x = st.marks.reason? x)
    (types : ∀ {x}, x ∈ st'.types.toList → st.marks.isMarked x = true)
    (methods : ∀ {x}, x ∈ st'.methods.toList → st.marks.isMarked x = true)
    (virtuals : ∀ {x}, x ∈ st'.virtuals → st.marks.isMarked x = true)
    (parked : ∀ {e}, e ∈ st'.parked → st.marks.isMarked e.base = true) :
    s.Explains marks st st' where
  explained := {
    traces := fun hx => (h.traces (isMarked.mp hx)).mono fun hr => (reason? _).trans hr
    unmarked := fun hx => (reason? _).trans (h.unmarked fun hm => hx (isMarked.mpr hm))
    roots := fun hx => isMarked.mpr (h.roots hx)
    types := fun hx => isMarked.mpr (types hx)
    methods := fun hx => isMarked.mpr (methods hx)
    virtuals := fun hx => isMarked.mpr (virtuals hx)
    parked := fun he => isMarked.mpr (parked he) }
  marked := isMarked.mpr

/-- Marking a node for one that is marked, or that it is credited to, explains it. -/
theorem mark (h : s.Explained marks st)
    (backed : reason.Backed (s.Credits marks) (st.marks.isMarked · = true) t)
    (isMarked : ∀ {x}, st'.marks.isMarked x = true ↔ x = t ∨ st.marks.isMarked x = true)
    (reason? : ∀ x, st'.marks.reason? x =
      (st.marks.reason? x).or (if x = t ∧ ¬ st.marks.isMarked t = true then some reason else none))
    (types : ∀ {x}, x ∈ st'.types.toList → x = t ∨ x ∈ st.types.toList)
    (methods : ∀ {x}, x ∈ st'.methods.toList → x = t ∨ x ∈ st.methods.toList)
    (virtuals : st'.virtuals = st.virtuals) (parked : st'.parked = st.parked) :
    s.Explains marks st st' := by
  have keep {x : Token} {r : Reason} (hr : st.marks.reason? x = some r) :
      st'.marks.reason? x = some r := by
    rw [reason?, hr, Option.some_or]
  have marked {x : Token} (hx : st.marks.isMarked x = true) := isMarked.mpr (.inr hx)
  refine ⟨⟨fun {x} hx => ?_, fun {x} hx => ?_, fun hx => marked (h.roots hx), fun hx => ?_,
    fun hx => ?_, fun hx => marked (h.virtuals (virtuals ▸ hx)),
    fun he => marked (h.parked (parked ▸ he))⟩, marked⟩
  · by_cases hold : st.marks.isMarked x = true
    · exact (h.traces hold).mono keep
    · obtain rfl := (isMarked.mp hx).resolve_right hold
      have hr : st'.marks.reason? x = some reason := by
        rw [reason?, h.unmarked hold, if_pos ⟨rfl, hold⟩, Option.none_or]
      cases reason with
      | root => exact .root hr
      | node p =>
        rcases backed with hp | hc
        · exact .node hr ((h.traces hp).mono keep)
        · exact .credit hr hc
  · rw [isMarked, not_or] at hx
    rw [reason?, h.unmarked hx.2, if_neg fun hc => hx.1 hc.1, Option.none_or]
  · exact isMarked.mpr ((types hx).imp_right h.types)
  · exact isMarked.mpr ((methods hx).imp_right h.methods)

variable (h : s.Explained marks st)
  (backed : reason.Backed (s.Credits marks) (st.marks.isMarked · = true) t)

include h

/-- What is counted or opened has no part in explanations. -/
theorem count (change : MarkStats → MarkStats) : s.Explains marks st (st.count change) :=
  ⟨{ h with }, id⟩

include backed

theorem markNode : s.Explains marks st (st.markNode t reason) := by
  rw [MarkState.markNode_eq]
  exact h.mark backed Marks.isMarked_mark (fun _ => Marks.reason?_mark) .inr .inr rfl rfl

theorem needType : s.Explains marks st (st.needType t reason) := by
  rw [MarkState.needType_eq]
  refine h.mark backed Marks.isMarked_mark (fun _ => Marks.reason?_mark) (fun {x} hx => ?_) .inr
    rfl rfl
  dsimp only at hx
  split at hx
  · exact .inr hx
  · rw [Fifo.toList_push, List.mem_append, List.mem_singleton] at hx
    exact hx.symm

theorem needMethod : s.Explains marks st (st.needMethod t reason) := by
  rw [MarkState.needMethod_eq]
  refine h.mark backed ?_ (fun x => ?_) .inr (fun {x} hx => ?_) rfl rfl
  · simp only [Marks.isMarked_mark, Marks.isMarked_ensureParsed, implies_true]
  · rw [Marks.reason?_mark, Marks.reason?_ensureParsed, Marks.isMarked_ensureParsed]
  · dsimp only at hx
    split at hx
    · exact .inr hx
    · rw [Fifo.toList_push, List.mem_append, List.mem_singleton] at hx
      exact hx.symm

end Explained

/-! ## Offers -/

/-- An offer explains an override by the method that it overrides. -/
theorem offer_explains (h : s.Explained marks st) (hb : st.marks.isMarked base = true)
    (o : Token) : s.Explains marks st (st.offer s.model base o).2 ∧
      ((st.offer s.model base o).1 = true →
        (st.offer s.model base o).2.marks.isMarked o = true) := by
  unfold MarkState.offer
  cases s.model.declaringTypeOf? o with
  | none => exact ⟨.refl h, nofun⟩
  | some type =>
    dsimp only
    split
    · refine ⟨?_, nofun⟩
      unfold MarkState.park
      split
      · exact .refl h
      · refine h.frame Iff.rfl (fun _ => rfl) h.types h.methods h.virtuals fun he => ?_
        rcases List.mem_append.mp he with he | he
        · exact h.parked he
        · cases List.mem_singleton.mp he
          exact hb
    · split
      · exact ⟨.refl h, nofun⟩
      · refine ⟨?_, fun _ => MarkState.marked_needMethod⟩
        have hcount := h.count fun c => { c with overridesPropagated := c.overridesPropagated + 1 }
        exact hcount.trans (hcount.explained.needMethod (.inl hb))

theorem offerAll_explains (h : s.Explained marks st) (hb : st.marks.isMarked base = true)
    (os : List Token) {acc : List Token} (hacc : ∀ o ∈ acc, st.marks.isMarked o = true) :
    s.Explains marks st (MarkState.offerAll s.model base os (acc, st)).2 ∧
      ∀ o ∈ (MarkState.offerAll s.model base os (acc, st)).1,
        (MarkState.offerAll s.model base os (acc, st)).2.marks.isMarked o = true := by
  induction os generalizing acc st with
  | nil => exact ⟨.refl h, hacc⟩
  | cons o rest ih =>
    obtain ⟨hoffer, ho⟩ := offer_explains h hb o
    have hacc' : ∀ x ∈ if (st.offer s.model base o).1 then o :: acc else acc,
        (st.offer s.model base o).2.marks.isMarked x = true := by
      intro x hx
      split at hx
      · rename_i hfresh
        rcases List.mem_cons.mp hx with rfl | hx
        · exact ho hfresh
        · exact hoffer.marked (hacc x hx)
      · exact hoffer.marked (hacc x hx)
    obtain ⟨hrest, hall⟩ := ih hoffer.explained (hoffer.marked hb) hacc'
    exact ⟨hoffer.trans hrest, hall⟩

theorem spreading_explains {stack : List Token}
    (hspreading : MarkState.Spreading s.model s.overrides stack st st')
    (h : s.Explained marks st) (hstack : ∀ x ∈ stack, st.marks.isMarked x = true) :
    s.Explains marks st st' := by
  induction hspreading with
  | done => exact .refl h
  | @next base stack st _ _ ih =>
    obtain ⟨hbase, hstack⟩ := List.forall_mem_cons.mp hstack
    obtain ⟨hoffers, hfresh⟩ := offerAll_explains h hbase (s.overrides.overridesOf base)
      (List.forall_mem_nil _)
    refine hoffers.trans (ih hoffers.explained fun x hx => ?_)
    exact (List.mem_append.mp hx).elim (hfresh x) fun hx => hoffers.marked (hstack x hx)

theorem spread_explains (h : s.Explained marks st) (ht : st.marks.isMarked t = true) :
    s.Explains marks st (MarkState.spread s.model s.overrides t st) :=
  spreading_explains (MarkState.spreading_spread t st) h (List.forall_mem_singleton.mpr ht)

theorem spreadAll_explains (h : s.Explained marks st) {bases : List Token}
    (hbases : ∀ x ∈ bases, st.marks.isMarked x = true) :
    s.Explains marks st
      (bases.foldl (fun st base => MarkState.spread s.model s.overrides base st) st) := by
  induction bases generalizing st with
  | nil => exact .refl h
  | cons base rest ih =>
    obtain ⟨hbase, hrest⟩ := List.forall_mem_cons.mp hbases
    have hspread := spread_explains h hbase
    exact hspread.trans (ih hspread.explained fun x hx => hspread.marked (hrest x hx))

theorem register_explains (h : s.Explained marks st) (ht : st.marks.isMarked t = true) :
    s.Explains marks st (MarkState.register s.model s.overrides t st) := by
  unfold MarkState.register
  split
  · exact .refl h
  · have hpush : s.Explains marks st { st with virtuals := st.virtuals ++ [t] } := by
      refine h.frame Iff.rfl (fun _ => rfl) h.types h.methods (fun hx => ?_) h.parked
      rcases List.mem_append.mp hx with hx | hx
      · exact h.virtuals hx
      · rwa [List.mem_singleton.mp hx]
    exact hpush.trans (spread_explains hpush.explained ht)

theorem release_explains (h : s.Explained marks st) {entries : List Parked}
    (he : ∀ e ∈ entries, st.marks.isMarked e.base = true) :
    s.Explains marks st (MarkState.release s.model s.overrides entries st) := by
  induction entries generalizing st with
  | nil => exact .refl h
  | cons e rest ih =>
    obtain ⟨hbase, hrest⟩ := List.forall_mem_cons.mp he
    obtain ⟨hoffer, hfresh⟩ := offer_explains h hbase e.overrider
    have hspread : s.Explains marks st
        (if (st.offer s.model e.base e.overrider).1 then
          MarkState.spread s.model s.overrides e.overrider (st.offer s.model e.base e.overrider).2
        else (st.offer s.model e.base e.overrider).2) := by
      split
      · rename_i hf
        exact hoffer.trans (spread_explains hoffer.explained (hfresh hf))
      · exact hoffer
    unfold MarkState.release
    exact hspread.trans (ih hspread.explained fun x hx => hspread.marked (hrest x hx))

theorem arrive_explains (h : s.Explained marks st) (t : Token) :
    s.Explains marks st (MarkState.arrive s.model s.overrides t st) := by
  have hunpark : s.Explains marks st
      { st with parked := st.parked.filter (·.type != t) } :=
    h.frame Iff.rfl (fun _ => rfl) h.types h.methods h.virtuals
      fun he => h.parked (List.mem_filter.mp he).1
  refine hunpark.trans (release_explains hunpark.explained fun e he => ?_)
  exact h.parked (List.mem_filter.mp he).1

end Setting

namespace Marking

open Setting (AllBacked Explained Explains)

variable {s : Setting} {marks : Marks} {st st' : MarkState} {t : Token} {rest : Fifo Token}

/-! ## Demands -/

/-- A demand that is backed keeps explanations, and what it brings along is backed. -/
def Explaining (s : Setting) (marks : Marks) (st : MarkState) (d : Demand) (rest : List Demand)
    (st' : MarkState) : Prop :=
  s.Explains marks st st' ∧ AllBacked (s.Credits marks) (st'.marks.isMarked · = true) rest ∧
    ∀ {t}, d.need? = some (.kept t) → st'.marks.isMarked t = true

theorem Explaining.of_kept {d : Demand} {brought : List Demand} (h : s.Explains marks st st')
    (backed : AllBacked (s.Credits marks) (st'.marks.isMarked · = true) brought)
    (hneed : d.need? = some (.kept t)) (ht : st'.marks.isMarked t = true) :
    Explaining s marks st d brought st' := by
  refine ⟨h, backed, fun {x} hx => ?_⟩
  rw [hneed] at hx
  cases hx
  exact ht

theorem Explaining.of_none {d : Demand} {brought : List Demand} (h : s.Explains marks st st')
    (backed : AllBacked (s.Credits marks) (st'.marks.isMarked · = true) brought)
    (hneed : d.need? = none) : Explaining s marks st d brought st' := by
  refine ⟨h, backed, fun {x} hx => ?_⟩
  rw [hneed] at hx
  cases hx

theorem meetField_explains {reason : Reason} (h : s.Explained marks st)
    (backed : reason.Backed (s.Credits marks) (st.marks.isMarked · = true) t) :
    Ends (meetField s t reason) st (Explaining s marks st (.field t reason)) fun _ => True := by
  have hmark : s.Explains marks st (st.markNode t reason) := h.markNode backed
  have ht : (st.markNode t reason).marks.isMarked t = true := MarkState.marked_markNode
  simp only [meetField, ends_bind, ends_modify, ends_get]
  split
  · exact ends_pure.mpr (.of_kept hmark trivial rfl ht)
  · simp only [ends_bind, ends_set]
    have hopen : s.Explains marks st { st.markNode t reason with
        expandedFields := (st.markNode t reason).expandedFields.insert t } :=
      hmark.trans ⟨{ hmark.explained with }, id⟩
    cases s.model.field? t with
    | none => exact ends_pure.mpr (.of_kept hopen trivial rfl ht)
    | some f =>
      simp only [ends_bind, ends_modify, ends_pure]
      exact .of_kept (hopen.trans (hopen.explained.count _))
        (Setting.give_fieldNeeds.allBacked ht) rfl ht

/-- What the attributes of an assembly need is credited to it, if it is not marked. -/
theorem meetAssembly_explains (h : s.Explained marks st) :
    Ends (meetAssembly s t) st (Explaining s marks st (.assembly t)) fun _ => True := by
  simp only [meetAssembly, ends_bind, ends_get]
  split
  · exact ends_pure.mpr (.of_none (.refl h) trivial rfl)
  · simp only [ends_bind, ends_set]
    have hseen : s.Explains marks st { st with seenAssemblies := st.seenAssemblies.insert t } :=
      ⟨{ h with }, id⟩
    cases ha : s.model.assembly? t with
    | none => exact ends_pure.mpr (.of_none hseen trivial rfl)
    | some a =>
      refine ends_pure.mpr (.of_none hseen ?_ rfl)
      by_cases ht : st.marks.isMarked t = true
      · exact Setting.give_assemblyNeeds.allBacked ht
      · refine Setting.allBacked_of_forall fun d hd => ?_
        refine (Setting.give_assemblyNeeds d hd).backed fun hk => .inr ?_
        exact ⟨fun hroot => ht (h.roots hroot), a, ha, d, hd, hk⟩

theorem meet_explains {d : Demand} (h : s.Explained marks st)
    (backed : d.Backed (s.Credits marks) (st.marks.isMarked · = true)) :
    Ends (meet s d) st (Explaining s marks st d) fun _ => True := by
  cases d with
  | node t reason =>
    simp only [meet, ends_bind, ends_modify, ends_pure]
    exact .of_kept (h.markNode backed) trivial rfl MarkState.marked_markNode
  | type t reason =>
    simp only [meet, ends_bind, ends_modify, ends_pure]
    exact .of_kept (h.needType backed) trivial rfl MarkState.marked_needType
  | method t reason =>
    simp only [meet, ends_bind, ends_modify, ends_pure]
    exact .of_kept (h.needMethod backed) trivial rfl MarkState.marked_needMethod
  | field t reason => exact meetField_explains h backed
  | assembly t => exact meetAssembly_explains h
  | overridable t =>
    simp only [meet, ends_bind, ends_modify, ends_pure]
    exact .of_none (Setting.register_explains h backed) trivial rfl
  | arrived t =>
    simp only [meet, ends_bind, ends_modify, ends_pure]
    exact .of_none (Setting.arrive_explains h t) trivial rfl
  | finished t =>
    simp only [meet, ends_bind, ends_modify, ends_pure]
    refine .of_none (h.frame ?_ (fun _ => Marks.reason?_setProcessed) h.types h.methods h.virtuals
      h.parked) trivial rfl
    intro x
    rw [Marks.isMarked_setProcessed]
    exact ⟨fun hx => hx.elim (fun heq => heq ▸ backed) id, .inr⟩
  | skippedAttribute | skippedName =>
    simp only [meet, ends_bind, ends_modify, ends_pure]
    exact .of_none (h.count _) trivial rfl
  | unresolved cause => exact ends_throw.mpr trivial

theorem settling_explains {ds : List Demand} {r : EStateM.Result MarkFault MarkState Unit}
    (hsettling : Settling s ds st r) (h : s.Explained marks st)
    (backed : AllBacked (s.Credits marks) (st.marks.isMarked · = true) ds) :
    ∀ st', r = .ok () st' → s.Explains marks st st' := by
  induction hsettling with
  | done =>
    rintro _ ⟨⟩
    exact .refl h
  | fault | inner => exact nofun
  | next hx _ _ ihrest ihds =>
    intro st' hr
    obtain ⟨hmeet, hbrought, hkept⟩ := (meet_explains h backed.1).ok hx
    have hrest := ihrest hmeet.explained hbrought _ rfl
    have hfirst := hmeet.trans hrest
    refine hfirst.trans (ihds hfirst.explained (backed.2.mono fun ht => ?_) st' hr)
    exact ht.elim hfirst.marked fun hk => hrest.marked (hkept hk)

/-- Meeting demands that are backed, each by what is marked or by an earlier one, keeps
explanations. -/
theorem settle_explains {ds : List Demand} (h : s.Explained marks st)
    (backed : AllBacked (s.Credits marks) (st.marks.isMarked · = true) ds) :
    Ends (settle s ds) st (fun _ st' => s.Explains marks st st') fun _ => True :=
  .of_ok fun _ st' hx => settling_explains (settling_settle ds st) h backed st' hx

/-! ## Queues -/

theorem expandType_explained (formed : s.Formed) (h : s.Explained marks st)
    (hq : st.types.toList.Perm (t :: rest.toList)) :
    Ends (expandType s t) { st with types := rest } (fun _ => s.Explained marks)
      fun _ => True := by
  have ht : st.marks.isMarked t = true := h.types (hq.mem_iff.mpr List.mem_cons_self)
  have htake : s.Explained marks { st with types := rest } :=
    { h with types := fun hx => h.types (hq.mem_iff.mpr (List.mem_cons_of_mem _ hx)) }
  unfold expandType
  cases hd : s.model.type? t with
  | none => exact ends_pure.mpr htake
  | some d =>
    simp only [ends_bind, ends_modify]
    have htoken : d.token = t := formed.wellFormed.type_numbered.token_of_find? hd
    exact (settle_explains (htake.count _).explained (Setting.allBacked_typeNeeds htoken ht)).mono
      (fun _ _ h' => h'.explained) fun _ => id

theorem processMethod_explained (formed : s.Formed) (h : s.Explained marks st)
    (hq : st.methods.toList.Perm (t :: rest.toList)) :
    Ends (processMethod s t) { st with methods := rest } (fun _ => s.Explained marks)
      fun _ => True := by
  have ht : st.marks.isMarked t = true := h.methods (hq.mem_iff.mpr List.mem_cons_self)
  have htake : s.Explained marks { st with methods := rest } :=
    { h with methods := fun hx => h.methods (hq.mem_iff.mpr (List.mem_cons_of_mem _ hx)) }
  simp only [processMethod, ends_bind, ends_get]
  split
  · exact ends_pure.mpr htake
  · cases hd : s.model.method? t with
    | none => exact ends_throw.mpr trivial
    | some d =>
      simp only [ends_bind, ends_modify]
      have htoken : d.token = t := formed.wellFormed.method_numbered.token_of_find? hd
      exact (settle_explains (htake.count _).explained
        (Setting.allBacked_methodNeeds htoken ht)).mono (fun _ _ h' => h'.explained) fun _ => id

/-! ## Runs -/

/-- Filling the queues keeps explanations. -/
theorem fill_explained (rooted : marks.Rooted) :
    Ends (fill s) (.ofMarks marks) (fun _ => s.Explained marks) fun _ => True := by
  have settled {st : MarkState} {d : Demand} (h : s.Explained marks st)
      (backed : d.Backed (s.Credits marks) (st.marks.isMarked · = true)) :
      Ends (settle s [d]) st (fun _ => s.Explained marks) fun _ => True := by
    have hbacked : AllBacked (s.Credits marks) (st.marks.isMarked · = true) [d] :=
      ⟨backed, trivial⟩
    exact (settle_explains h hbacked).mono (fun _ _ h' => h'.explained) fun _ => id
  have steps : FillSteps s (s.Explained marks) fun _ => True := {
    assembly := fun _ h => settled h trivial
    type := fun _ h ht => by
      unfold MarkState.schedule
      split
      · exact h
      · refine { h with types := fun hx => ?_ }
        rw [Fifo.toList_push, List.mem_append, List.mem_singleton] at hx
        exact hx.elim h.types fun heq => heq ▸ ht
    field := fun _ _ h _ => settled h trivial
    virtual := fun h hp _ =>
      (Setting.register_explains h (Marks.isMarked_of_isProcessed hp)).explained
    method := fun {st _ t} _ _ h ht => by
      have hqueue : s.Explains marks st
          { st with marks := st.marks.ensureParsed t, methods := st.methods.push t } := by
        refine h.frame ?_ (fun _ => Marks.reason?_ensureParsed) h.types (fun hx => ?_) h.virtuals
          h.parked
        · simp only [Marks.isMarked_ensureParsed, implies_true]
        · rw [Fifo.toList_push, List.mem_append, List.mem_singleton] at hx
          exact hx.elim h.methods fun heq => heq ▸ ht
      exact hqueue.explained }
  exact steps.fill_keeps (Setting.explained_ofMarks rooted)

theorem seed_explained (formed : s.Formed) (rooted : marks.Rooted) :
    Ends (seed s) (.ofMarks marks) (fun _ => s.Explained marks) fun _ => True := by
  simp only [seed, ends_bind]
  refine (fill_explained rooted).mono (fun _ st h => ?_) fun _ => id
  refine (ends_bind.mp (drainTypes_keeps (expandType_explained formed) h)).mono
    (fun bound st₁ hdrain => ?_) fun _ => id
  refine hdrain.mono ?_ fun _ => id
  rintro _ st₂ ⟨h₂, -⟩
  rw [ends_get]
  split
  · exact ends_throw.mpr trivial
  · exact ends_pure.mpr h₂

theorem round_explained (formed : s.Formed) (h : s.Explained marks st) :
    Ends (round s) st (fun _ => s.Explained marks) fun _ => True := by
  simp only [round, ends_bind, ends_modify, ends_get]
  refine (drain_keeps (expandType_explained formed) (processMethod_explained formed)
    (h.count _).explained).mono ?_ fun _ => id
  rintro _ st₁ ⟨h₁, -⟩
  rw [sweep, ends_modify, ends_pure]
  exact (Setting.spreadAll_explains h₁ fun x hx => h₁.virtuals hx).explained

/-- A run keeps explanations. -/
theorem run_explained (formed : s.Formed) (rooted : marks.Rooted) :
    Ends (run s) (.ofMarks marks) (fun _ => s.Explained marks) fun _ => True := by
  simp only [run, ends_bind, ends_modify, ends_get, ends_pure]
  refine (seed_explained formed rooted).mono (fun _ st h => ?_) fun _ => id
  have hrounds := (repeats_rounds st).ends (s.Explained marks) h fun {st₁} h₁ =>
    (round_explained formed h₁).mono (fun more _ h₂ => by cases more <;> exact h₂) fun _ => id
  exact hrounds.mono (fun _ _ h' => (h'.count _).explained) fun _ => id

end Marking

/-! ## A program with an attribute of its own -/

namespace Badges

/-- A method to start from, and a class for attributes. -/
def unadorned : Model :=
  let m := (Model.empty.addAssembly "App").2
  let m := (m.addType (.ofClass ⟨0x20000001⟩ "App" "Program")).2
  let m := (m.addType (.ofClass ⟨0x20000001⟩ "App" "BadgeAttribute")).2
  let m := (m.addMethod (((MethodDraft.ofName ⟨0x02000001⟩ "Main").returns
    (.definition ⟨0x02000001⟩)).withCode [.ret])).2
  (m.addMethod ((MethodDraft.ofConstructor ⟨0x02000002⟩).returns
    (.definition ⟨0x02000001⟩))).2

/-- An attribute without arguments. -/
def badge : Attribute where
  constructor := .definition ⟨0x06000002⟩
  blob := [1, 0, 0, 0]

/-- The program with the attribute on its assembly. -/
def model : Model :=
  (unadorned.addAttribute ⟨0x20000001⟩ badge).toOption.getD unadorned

/-- The program with nothing configured. -/
def setting : Setting where
  model := model
  policy := .default
  overrides := .ofModel model
  options := .default
  special := .framework
  corlib := none

theorem built : ∃ returned, Model.Built returned model := by
  have hunadorned : ∃ returned, Model.Built returned unadorned := by
    refine ⟨_, .method _ (.method _ (.type _ (.type _ (.assembly "App" .empty) ?_ ?_) ?_ ?_) ?_) ?_⟩
    · exact ⟨by decide, by decide⟩
    · exact nofun
    · exact ⟨by decide, by decide⟩
    · exact nofun
    · exact ⟨by decide, by decide⟩
    · exact ⟨by decide, by decide⟩
  obtain ⟨returned, hbuilt⟩ := hunadorned
  exact ⟨returned, .attributed ⟨0x20000001⟩ badge hbuilt rfl⟩

theorem fits : model.Fits := by
  intro table
  cases table <;> decide

end Badges

namespace Setting

variable {s : Setting} {marks : Marks} {st : MarkState} {returned : List Token}

/-- All that is marked leads back exactly if every assembly does that something is marked for. -/
theorem Explained.leadsBack_iff (h : s.Explained marks st) :
    (∀ t, st.marks.isMarked t = true → st.marks.LeadsBack t) ↔
      ∀ t a, st.marks.reason? t = some (.node a) → s.Credits marks a t →
        st.marks.LeadsBack a := by
  constructor
  · intro hall t a hr _
    have ht : st.marks.isMarked t = true := by
      by_contra hn
      rw [h.unmarked hn] at hr
      cases hr
    exact (hall t ht).next hr
  · exact fun hcredited t ht => (h.traces ht).leadsBack fun hr hc => hcredited _ _ hr hc

/-- Following the reasons from what a run leaves marked ends at a root, or comes to an assembly that
is no root, for an attribute of which the node before it was marked. All chains end at roots, with no
node twice, exactly if those of such assemblies do. -/
theorem mark_explained (built : Model.Built returned s.model) (fits : s.model.Fits)
    (rooted : marks.Rooted) {stats : MarkStats} (h : (s.mark marks).1 = .ok stats) :
    (∀ t, (s.mark marks).2.isMarked t = true →
      (s.mark marks).2.Traces (s.Credits marks) t) ∧
    ((∀ t, (s.mark marks).2.isMarked t = true → (s.mark marks).2.LeadsBack t) ↔
      ∀ t a, (s.mark marks).2.reason? t = some (.node a) → s.Credits marks a t →
        (s.mark marks).2.LeadsBack a) := by
  have formed := formed_of_built built fits
  rcases mark_of_ends (Marking.run_explained formed rooted) with
    ⟨_, st, hx, hexplained⟩ | ⟨e, hx, -⟩
  · rw [hx]
    exact ⟨fun _ => hexplained.traces, hexplained.leadsBack_iff⟩
  · rw [h] at hx
    cases hx

/-- With its assembly as a root, the attribute of the program leads back to it. -/
theorem mark_explained_badges :
    (Badges.setting.mark (Marks.empty.markAll [⟨0x20000001⟩, ⟨0x06000001⟩])).2.LeadsBack
      ⟨0x06000002⟩ := by
  obtain ⟨returned, built⟩ := Badges.built
  obtain ⟨stats, h⟩ := exists_ok_of_isOk
    (x := (Badges.setting.mark (Marks.empty.markAll [⟨0x20000001⟩, ⟨0x06000001⟩])).1)
    (by decide +kernel)
  have hiff := (mark_explained built Badges.fits ((Marks.rooted_empty.markAll _)) h).2
  refine hiff.mpr ?_ _ (by decide +kernel)
  rintro t a - ⟨hroot, d, ha, -⟩
  have hall : ∀ d ∈ Badges.model.assemblies.toList, d.token = ⟨0x20000001⟩ := by decide +kernel
  have htoken : d.token = a :=
    (built.wellFormed Badges.fits).assembly_numbered.token_of_find? ha
  rw [← htoken, hall d (Rows.mem_of_find? ha)] at hroot
  exact absurd (by decide +kernel) hroot

end Setting

/-- The attribute of the assembly keeps its class, which keeps the assembly: from none of them do
the reasons lead back to the root. -/
theorem Badges.explained_in_a_circle :
    (∃ returned, Model.Built returned setting.model) ∧ setting.model.Fits ∧
      (Marks.empty.markAll [⟨0x06000001⟩]).Rooted ∧
      (∀ t, (Marks.empty.markAll [⟨0x06000001⟩]).isProcessed t = false) ∧
      (setting.mark (Marks.empty.markAll [⟨0x06000001⟩])).1.isOk = true ∧
      (setting.mark (Marks.empty.markAll [⟨0x06000001⟩])).2.isMarked ⟨0x06000002⟩ = true ∧
      (setting.mark (Marks.empty.markAll [⟨0x06000001⟩])).2.reasonChain ⟨0x06000002⟩ =
        [⟨0x06000002⟩, ⟨0x20000001⟩, ⟨0x02000002⟩] ∧
      (setting.mark (Marks.empty.markAll [⟨0x06000001⟩])).2.reason? ⟨0x02000002⟩ =
        some (.node ⟨0x06000002⟩) ∧
      ¬ (setting.mark (Marks.empty.markAll [⟨0x06000001⟩])).2.LeadsBack ⟨0x06000002⟩ := by
  refine ⟨built, fits, (Marks.rooted_empty.markAll _), fun t => by simp; rfl, ?_, ?_, ?_, ?_, ?_⟩
  · decide +kernel
  · decide +kernel
  · decide +kernel
  · decide +kernel
  · rw [Marks.leadsBack_iff]
    decide +kernel

end CilTrim
