import CilTrim.Context
import CilTrim.Proofs.Annotation.Evolve
import CilTrim.Proofs.Mark.Ends
import CilTrim.Proofs.Mark.Reasons
import CilTrim.Proofs.Mark.State

/-!
# What marking may change

Marking changes the marks of nodes and nothing else, in any model and whether or not it comes to an
end: nodes get further, only methods are processed, and whatever is newly marked has a reason. So
the state in which a step is stopped by a fault matters as much as one in which it has a result:

* `MarkState.Evolves`: how a later state may differ from an earlier one;
* `Marking.Leaves`: what is said of the state in which a step ends, with a result or with a fault;
* `Demand.Finishes`: only a method that is being processed is finished;
* `Marking.settle_evolves`, `Marking.processMethod_evolves`: steps, from whatever state;
* `Marking.RunSteps`: what a run consists of, with `RunSteps.run_leaves` for what its steps keep;
* `MarkState.Framed`: the invariant of a run, with `Marking.run_framed`;
* `Setting.mark_evolves`: whole runs, and runs of a session.
-/

namespace CilTrim

/-! ## Operations -/

namespace MarkState

/-- The marks of a later state are later ones, and every method that newly waits is marked. -/
structure Evolves (st st' : MarkState) : Prop where
  marks : st.marks.Evolves st'.marks
  queued {t : Token} : t ∈ st'.methods.toList →
    t ∈ st.methods.toList ∨ st'.marks.isMarked t = true

variable {st st' st'' : MarkState} {t : Token} {reason : Reason}

namespace Evolves

theorem of_eq (marks : st'.marks = st.marks) (methods : st'.methods = st.methods) :
    st.Evolves st' where
  marks := by rw [marks]; exact .refl _
  queued ht := by
    rw [methods] at ht
    exact .inl ht

theorem refl (st : MarkState) : st.Evolves st := of_eq rfl rfl

theorem trans (h : st.Evolves st') (h' : st'.Evolves st'') : st.Evolves st'' where
  marks := h.marks.trans h'.marks
  queued {t} ht := by
    rcases h'.queued ht with hold | hmarked
    · exact (h.queued hold).imp_right h'.marks.marked
    · exact .inr hmarked

end Evolves

theorem evolves_markNode : st.Evolves (st.markNode t reason) := by
  rw [markNode_eq]
  exact ⟨Marks.evolves_mark, .inl⟩

theorem evolves_needType : st.Evolves (st.needType t reason) := by
  rw [needType_eq]
  exact ⟨Marks.evolves_mark, .inl⟩

theorem evolves_needMethod : st.Evolves (st.needMethod t reason) := by
  rw [needMethod_eq]
  refine ⟨Marks.evolves_ensureParsed.trans Marks.evolves_mark, fun {x} hx => ?_⟩
  dsimp only at hx ⊢
  split at hx
  · exact .inl hx
  · rw [Fifo.toList_push, List.mem_append, List.mem_singleton] at hx
    exact hx.imp_right fun heq => Marks.isMarked_mark.mpr (.inl heq)

theorem evolves_park {entry : Parked} : st.Evolves (st.park entry) := by
  unfold park
  split <;> exact .of_eq rfl rfl

theorem offerSteps_evolves : OfferSteps Evolves where
  refl := .refl
  trans := .trans
  count _ _ := .of_eq rfl rfl
  method _ _ _ := evolves_needMethod
  park _ _ := evolves_park
  virtual _ _ := .of_eq rfl rfl
  unpark _ _ := .of_eq rfl rfl

end MarkState

/-! ## Methods that are finished -/

/-- A demand that finishes methods of `own` only. -/
def Demand.Finishes (own : Token → Prop) : Demand → Prop
  | .finished t => own t
  | _ => True

namespace Setting

variable {s : Setting} {own : Token → Prop} {reason : Reason} {ds : List Demand}

/-- Demands for one reason finish no method. -/
theorem Give.finishes (h : Give reason ds) : ∀ d ∈ ds, d.Finishes own := by
  intro d hd
  have hgives := h d hd
  cases d with
  | finished t => exact hgives.elim
  | _ => trivial

theorem finishes_genericParam (p : Token) : ∀ d ∈ s.genericParam reason p, d.Finishes own := by
  unfold genericParam
  split
  · exact List.forall_mem_nil _
  · rename_i param _
    have needs : Give (.node p) (s.attributes p (.node p) param.attributes ++
        s.typeRefs (.node p) param.constraints) :=
      give_append.mpr ⟨give_attributes, give_typeRefs⟩
    exact List.forall_mem_cons.mpr ⟨trivial, needs.finishes⟩

/-- Expanding a type finishes no method. -/
theorem finishes_typeNeeds (t : Token) (type : TypeDef) :
    ∀ d ∈ s.typeNeeds t type, d.Finishes own := by
  have own_reason {ds : List Demand} (h : Give (.node t) ds) : ∀ d ∈ ds, d.Finishes own :=
    h.finishes
  simp only [typeNeeds, List.forall_mem_append, and_assoc]
  refine ⟨?_, ?_, ?_, ?_, ?_, ?_, ?_, ?_, ?_, ?_, ?_, ?_, ?_, ?_⟩
  · exact own_reason (by simp [Demand.Gives])
  · exact own_reason (give_map fun _ => rfl)
  · exact own_reason give_typeRefs
  · exact own_reason give_typeRefs
  · exact own_reason give_attributes
  · exact List.forall_mem_flatMap.mpr fun p _ => finishes_genericParam p
  · exact own_reason (give_ite (give_map fun _ => rfl))
  · exact own_reason (give_ite give_methodsWhere)
  · exact give_specialMembers.finishes
  · exact own_reason (give_ite (give_map fun _ => rfl))
  · exact own_reason (give_ite give_methodsWhere)
  · exact own_reason (give_ite (give_map fun _ => rfl))
  · exact own_reason (by simp [Demand.Gives])
  · exact give_preserved.finishes

/-- Processing a method finishes that method only. -/
theorem finishes_methodNeeds (t : Token) (method : MethodDef) (action : MethodAction) :
    ∀ d ∈ s.methodNeeds t method action, d.Finishes (· = t) := by
  have own_reason {ds : List Demand} (h : Give (.node t) ds) :
      ∀ d ∈ ds, d.Finishes (· = t) :=
    h.finishes
  simp only [methodNeeds, List.forall_mem_append, and_assoc]
  refine ⟨?_, ?_, ?_, ?_, ?_, ?_, ?_, ?_, ?_, ?_, ?_, ?_⟩
  · exact own_reason (by simp [Demand.Gives])
  · exact own_reason give_attributes
  · exact give_specialMembers.finishes
  · exact own_reason (give_flatMap fun _ _ => give_parameter)
  · exact List.forall_mem_flatMap.mpr fun p _ => finishes_genericParam p
  · exact own_reason (give_flatMap fun _ _ => give_methodRef)
  · exact own_reason (give_map fun _ => rfl)
  · split <;> simp [Demand.Finishes]
  · exact own_reason give_parameter
  · exact own_reason (give_ite (give_flatMap fun _ _ => give_body))
  · exact own_reason (give_flatMap fun _ _ => give_accessorOwner)
  · simp [Demand.Finishes]

end Setting

namespace Marking

/-! ## Steps that may fail -/

section Leaves

variable {α β : Type} {st : MarkState} {P Q : MarkState → Prop}

/-- The state in which a step ends is as said, whether the step has a result or a fault. -/
def Leaves (x : Marking α) (st : MarkState) (P : MarkState → Prop) : Prop :=
  match x st with
  | .ok _ st' => P st'
  | .error _ st' => P st'

@[simp] theorem leaves_pure {a : α} : Leaves (pure a) st P ↔ P st := Iff.rfl

@[simp] theorem leaves_throw {e : MarkFault} : Leaves (throw e : Marking α) st P ↔ P st := Iff.rfl

@[simp] theorem leaves_modify {f : MarkState → MarkState} : Leaves (modify f) st P ↔ P (f st) :=
  Iff.rfl

@[simp] theorem leaves_get_bind {f : MarkState → Marking α} :
    Leaves (get >>= f) st P ↔ Leaves (f st) st P :=
  Iff.rfl

@[simp] theorem leaves_set_bind {st' : MarkState} {f : PUnit → Marking α} :
    Leaves (set st' >>= f) st P ↔ Leaves (f ⟨⟩) st' P :=
  Iff.rfl

@[simp] theorem leaves_modify_bind {g : MarkState → MarkState} {f : PUnit → Marking α} :
    Leaves (modify g >>= f) st P ↔ Leaves (f ⟨⟩) (g st) P :=
  Iff.rfl

theorem Leaves.mono {x : Marking α} (h : Leaves x st Q) (imp : ∀ st', Q st' → P st') :
    Leaves x st P := by
  unfold Leaves at h ⊢
  cases hx : x st with
  | ok a st' =>
    rw [hx] at h
    exact imp st' h
  | error e st' =>
    rw [hx] at h
    exact imp st' h

/-- The second of two steps starts where the first ends with a result; where the first has a
fault, both end. -/
theorem Leaves.bind {x : Marking β} {f : β → Marking α} (h : Leaves x st Q)
    (stopped : ∀ st', Q st' → P st')
    (goes_on : ∀ b st', x st = .ok b st' → Q st' → Leaves (f b) st' P) :
    Leaves (x >>= f) st P := by
  unfold Leaves at h ⊢
  simp only [Bind.bind, EStateM.bind]
  cases hx : x st with
  | ok b st' =>
    rw [hx] at h
    exact goes_on b st' hx h
  | error e st' =>
    rw [hx] at h
    exact stopped st' h

/-- What each step of a loop over a list keeps holds where the loop ends. -/
theorem Leaves.forM {xs : List β} {f : β → Marking PUnit} (start : P st)
    (step : ∀ x ∈ xs, ∀ st', P st' → Leaves (f x) st' P) : Leaves (xs.forM f) st P := by
  induction xs generalizing st with
  | nil => exact start
  | cons x rest ih =>
    have first : Leaves (f x) st P := step x List.mem_cons_self st start
    refine first.bind (fun _ => id) fun _ st' _ h => ?_
    exact ih h fun y hy => step y (List.mem_cons_of_mem _ hy)

theorem leaves_nextType?_bind {f : Option Token → Marking α} :
    Leaves (nextType? >>= f) st P ↔
      match st.types.pop? with
      | none => Leaves (f none) st P
      | some (t, rest) => Leaves (f (some t)) { st with types := rest } P := by
  simp only [nextType?, bind_assoc, leaves_get_bind]
  cases st.types.pop? <;> simp

theorem leaves_nextMethod?_bind {f : Option Token → Marking α} :
    Leaves (nextMethod? >>= f) st P ↔
      match st.methods.pop? with
      | none => Leaves (f none) st P
      | some (t, rest) => Leaves (f (some t)) { st with methods := rest } P := by
  simp only [nextMethod?, bind_assoc, leaves_get_bind]
  cases st.methods.pop? <;> simp

end Leaves

-- What a step does is opened by the lemmas above only: unfolding runs the step.
attribute [irreducible] Leaves

/-! ## Demands -/

variable {s : Setting} {own : Token → Prop} {st : MarkState} {t : Token}

theorem meetField_evolves (reason : Reason) : Leaves (meetField s t reason) st st.Evolves := by
  have hmark : st.Evolves (st.markNode t reason) := MarkState.evolves_markNode
  simp only [meetField, leaves_modify_bind, leaves_get_bind]
  split
  · exact leaves_pure.mpr hmark
  · have hopen : st.Evolves { st.markNode t reason with
        expandedFields := (st.markNode t reason).expandedFields.insert t } :=
      hmark.trans (.of_eq rfl rfl)
    rw [leaves_set_bind]
    cases s.model.field? t with
    | none => exact leaves_pure.mpr hopen
    | some f =>
      rw [leaves_modify_bind, leaves_pure]
      exact hopen.trans (.of_eq rfl rfl)

theorem meetAssembly_evolves : Leaves (meetAssembly s t) st st.Evolves := by
  have hseen : st.Evolves { st with seenAssemblies := st.seenAssemblies.insert t } :=
    .of_eq rfl rfl
  simp only [meetAssembly, leaves_get_bind]
  split
  · exact leaves_pure.mpr (.refl st)
  · rw [leaves_set_bind]
    cases s.model.assembly? t with
    | none => exact leaves_pure.mpr hseen
    | some a => exact leaves_pure.mpr hseen

/-- Meeting a demand evolves marks, if what it finishes is a marked method. -/
theorem meet_evolves {d : Demand} (finishes : d.Finishes own)
    (started : ∀ t, own t → st.marks.isMarked t = true ∧ t.isIn .methodDef = true) :
    Leaves (meet s d) st st.Evolves := by
  cases d with
  | node t reason =>
    simp only [meet, leaves_modify_bind, leaves_pure]
    exact MarkState.evolves_markNode
  | type t reason =>
    simp only [meet, leaves_modify_bind, leaves_pure]
    exact MarkState.evolves_needType
  | method t reason =>
    simp only [meet, leaves_modify_bind, leaves_pure]
    exact MarkState.evolves_needMethod
  | field t reason => exact meetField_evolves reason
  | assembly t => exact meetAssembly_evolves
  | overridable t =>
    simp only [meet, leaves_modify_bind, leaves_pure]
    exact MarkState.offerSteps_evolves.register _ _ t st
  | arrived t =>
    simp only [meet, leaves_modify_bind, leaves_pure]
    exact MarkState.offerSteps_evolves.arrive _ _ t st
  | finished t =>
    obtain ⟨hmarked, hmethod⟩ := started t finishes
    simp only [meet, leaves_modify_bind, leaves_pure]
    exact ⟨Marks.evolves_setProcessed hmarked hmethod, .inl⟩
  | skippedAttribute =>
    simp only [meet, leaves_modify_bind, leaves_pure]
    exact .of_eq rfl rfl
  | skippedName =>
    simp only [meet, leaves_modify_bind, leaves_pure]
    exact .of_eq rfl rfl
  | unresolved cause => exact leaves_throw.mpr (.refl st)

/-- What a demand brings along is for one reason: a field that is opened, or an assembly. -/
theorem meet_gives (d : Demand) :
    Ends (meet s d) st (fun rest _ => ∃ reason, Setting.Give reason rest) fun _ => True := by
  have nothing : ∃ reason, Setting.Give reason [] := ⟨.root, Setting.give_nil⟩
  cases d with
  | field t reason =>
    simp only [meet, meetField, ends_bind, ends_modify, ends_get]
    split
    · exact ends_pure.mpr nothing
    · simp only [ends_bind, ends_set]
      cases s.model.field? t with
      | none => exact ends_pure.mpr nothing
      | some f =>
        simp only [ends_bind, ends_modify, ends_pure]
        exact ⟨_, Setting.give_fieldNeeds⟩
  | assembly t =>
    simp only [meet, meetAssembly, ends_bind, ends_get]
    split
    · exact ends_pure.mpr nothing
    · simp only [ends_bind, ends_set]
      cases s.model.assembly? t with
      | none => exact ends_pure.mpr nothing
      | some a => exact ends_pure.mpr ⟨_, Setting.give_assemblyNeeds⟩
  | unresolved cause => exact ends_throw.mpr trivial
  | _ =>
    simp only [meet, ends_bind, ends_modify, ends_pure]
    exact nothing

/-- Meeting demands evolves marks, if what they finish are marked methods. What the demands bring
along finishes nothing. -/
theorem settleWithin_evolves (levels : Nat) (ds : List Demand) (st : MarkState)
    (finishes : ∀ d ∈ ds, d.Finishes own)
    (started : ∀ t, own t → st.marks.isMarked t = true ∧ t.isIn .methodDef = true) :
    Leaves (settleWithin s levels ds) st st.Evolves := by
  induction levels generalizing ds st own with
  | zero => exact leaves_pure.mpr (.refl st)
  | succ levels ih =>
    refine Leaves.forM (.refl st) fun d hd st₁ h₁ => ?_
    have started₁ (t : Token) (ht : own t) :
        st₁.marks.isMarked t = true ∧ t.isIn .methodDef = true :=
      (started t ht).imp_left h₁.marks.marked
    refine (meet_evolves (finishes d hd) started₁).bind (fun _ => h₁.trans) fun rest st₂ hx h₂ => ?_
    obtain ⟨reason, hrest⟩ := (meet_gives d).ok hx
    have inner : Leaves (settleWithin s levels rest) st₂ st₂.Evolves :=
      ih rest st₂ hrest.finishes fun _ (hnone : False) => hnone.elim
    exact inner.mono fun st₃ h₃ => (h₁.trans h₂).trans h₃

theorem settle_evolves {ds : List Demand} (finishes : ∀ d ∈ ds, d.Finishes own)
    (started : ∀ t, own t → st.marks.isMarked t = true ∧ t.isIn .methodDef = true) :
    Leaves (settle s ds) st st.Evolves :=
  settleWithin_evolves _ ds st finishes started

/-- A demand that finishes nothing is met from any state. -/
theorem settle_one_evolves {d : Demand} (finishes : d.Finishes fun _ => False) :
    Leaves (settle s [d]) st st.Evolves :=
  settle_evolves (List.forall_mem_singleton.mpr finishes) fun _ => False.elim

/-! ## Definitions -/

theorem expandType_evolves : Leaves (expandType s t) st st.Evolves := by
  unfold expandType
  cases s.model.type? t with
  | none => exact leaves_pure.mpr (.refl st)
  | some type =>
    have hcount : st.Evolves
        (st.count fun c => { c with typesExpanded := c.typesExpanded + 1 }) := .of_eq rfl rfl
    have finishes : ∀ d ∈ s.typeNeeds t type, d.Finishes fun _ => False :=
      Setting.finishes_typeNeeds t type
    rw [leaves_modify_bind]
    exact (settle_evolves finishes fun _ => False.elim).mono fun _ => hcount.trans

/-- Processing finishes a method that is marked and defined. -/
theorem processMethod_evolves (ht : st.marks.isMarked t = true) :
    Leaves (processMethod s t) st st.Evolves := by
  simp only [processMethod, leaves_get_bind]
  split
  · exact leaves_pure.mpr (.refl st)
  · cases hd : s.model.method? t with
    | none => exact leaves_throw.mpr (.refl st)
    | some method =>
      have hmethod : t.isIn .methodDef = true := Rows.isIn_of_find? hd
      have hcount : st.Evolves
          (st.count fun c => { c with methodsProcessed := c.methodsProcessed + 1 }) :=
        .of_eq rfl rfl
      rw [leaves_modify_bind]
      refine (settle_evolves (Setting.finishes_methodNeeds t method _) fun x hx => ?_).mono
        fun _ => hcount.trans
      subst hx
      exact ⟨ht, hmethod⟩

end Marking

/-! ## Runs -/

/-- The marks are later ones than those at the start of the run, and every method that waits is
marked. -/
structure MarkState.Framed (marks : Marks) (st : MarkState) : Prop where
  evolves : marks.Evolves st.marks
  queued {t : Token} : t ∈ st.methods.toList → st.marks.isMarked t = true

/-- Steps that evolve a state keep it framed. -/
theorem MarkState.Framed.step {marks : Marks} {st st' : MarkState} (h : st.Framed marks)
    (h' : st.Evolves st') : st'.Framed marks where
  evolves := h.evolves.trans h'.marks
  queued ht := (h'.queued ht).elim (fun hold => h'.marks.marked (h.queued hold)) id

namespace Marking

variable {s : Setting} {inv : MarkState → Prop} {marks : Marks} {st : MarkState} {t : Token}

/-- What each step of a run keeps, even if it is stopped: the steps that fill the queues, expanding
what leaves a queue, and looking again at overrides. -/
structure RunSteps (s : Setting) (inv : MarkState → Prop) : Prop where
  count {st : MarkState} (change : MarkStats → MarkStats) : inv st → inv (st.count change)
  assembly {st : MarkState} {t : Token} : inv st → Leaves (settle s [.assembly t]) st inv
  schedule {st : MarkState} {t : Token} : inv st → st.marks.isMarked t = true →
    inv (st.schedule t)
  field {st : MarkState} {t : Token} : inv st → Leaves (settle s [.field t .root]) st inv
  register {st : MarkState} {t : Token} : inv st →
    inv (MarkState.register s.model s.overrides t st)
  queue {st : MarkState} {t : Token} : inv st → st.marks.isMarked t = true →
    inv { st with marks := st.marks.ensureParsed t, methods := st.methods.push t }
  type {st : MarkState} {t : Token} {rest : Fifo Token} : inv st →
    st.types.pop? = some (t, rest) → Leaves (expandType s t) { st with types := rest } inv
  method {st : MarkState} {t : Token} {rest : Fifo Token} : inv st →
    st.methods.pop? = some (t, rest) → Leaves (processMethod s t) { st with methods := rest } inv
  sweep {st : MarkState} : inv st →
    inv (st.virtuals.foldl (fun st base => MarkState.spread s.model s.overrides base st) st)

namespace RunSteps

variable (steps : RunSteps s inv)

include steps

theorem drainTypes_leaves (fuel : Nat) (h : inv st) : Leaves (drainTypes s fuel) st inv := by
  induction fuel generalizing st with
  | zero => exact leaves_pure.mpr h
  | succ fuel ih =>
    rw [drainTypes, leaves_nextType?_bind]
    cases hp : st.types.pop? with
    | none => exact leaves_pure.mpr h
    | some next => exact (steps.type h hp).bind (fun _ => id) fun _ _ _ => ih

theorem drainQueues_leaves (fuel : Nat) (h : inv st) : Leaves (drainQueues s fuel) st inv := by
  induction fuel generalizing st with
  | zero => exact leaves_pure.mpr h
  | succ fuel ih =>
    rw [drainQueues, leaves_nextType?_bind]
    cases hp : st.types.pop? with
    | some next => exact (steps.type h hp).bind (fun _ => id) fun _ _ _ => ih
    | none =>
      dsimp only
      rw [leaves_nextMethod?_bind]
      cases hp : st.methods.pop? with
      | none => exact leaves_pure.mpr h
      | some next => exact (steps.method h hp).bind (fun _ => id) fun _ _ _ => ih

theorem seedMethod_leaves (h : inv st) : Leaves (seedMethod s t) st inv := by
  have queue {st : MarkState} (h : inv st) :
      Leaves (do
          if (← get).marks.isMarked t then
            modify fun state =>
              { state with marks := state.marks.ensureParsed t, methods := state.methods.push t })
        st inv := by
    rw [leaves_get_bind]
    split <;> rename_i ht
    · exact leaves_modify.mpr (steps.queue h ht)
    · exact leaves_pure.mpr h
  rw [seedMethod, leaves_get_bind]
  split
  · rw [leaves_modify_bind]
    exact queue (steps.register h)
  · exact queue h

theorem seedType_leaves (type : TypeDef) (h : inv st) : Leaves (seedType s type) st inv := by
  have members {st : MarkState} (h : inv st) :
      Leaves (do
        type.fields.forM fun field => do
          if (← get).marks.isMarked field then settle s [.field field .root]
        type.methods.forM (seedMethod s)) st inv := by
    refine (Leaves.forM h fun x _ st' h' => ?_).bind (fun _ => id) fun _ st' _ h' => ?_
    · rw [leaves_get_bind]
      split
      · exact steps.field h'
      · exact leaves_pure.mpr h'
    · exact Leaves.forM h' fun _ _ _ => steps.seedMethod_leaves
  rw [seedType, leaves_get_bind]
  split <;> rename_i ht
  · rw [leaves_modify_bind]
    exact members (steps.schedule h ht)
  · exact members h

theorem fill_leaves (h : inv st) : Leaves (fill s) st inv := by
  have assemblies : Leaves
      (s.model.assemblies.toList.forM fun assembly => settle s [.assembly assembly.token]) st
      inv :=
    Leaves.forM h fun _ _ _ => steps.assembly
  refine assemblies.bind (fun _ => id) fun _ st' _ h' => ?_
  exact Leaves.forM h' fun type _ _ => steps.seedType_leaves type

theorem seed_leaves (h : inv st) : Leaves (seed s) st inv := by
  rw [seed]
  refine (steps.fill_leaves h).bind (fun _ => id) fun _ st₁ _ h₁ => ?_
  rw [queueBound, bind_assoc, leaves_get_bind, pure_bind]
  refine (steps.drainTypes_leaves _ h₁).bind (fun _ => id) fun _ st₂ _ h₂ => ?_
  rw [leaves_get_bind]
  split
  · exact leaves_throw.mpr h₂
  · exact leaves_pure.mpr h₂

theorem drain_leaves (h : inv st) : Leaves (drain s) st inv := by
  rw [drain, queueBound, bind_assoc, leaves_get_bind, pure_bind]
  exact steps.drainQueues_leaves _ h

theorem roundsWithin_leaves (fuel : Nat) (h : inv st) : Leaves (roundsWithin s fuel) st inv := by
  induction fuel generalizing st with
  | zero => exact leaves_pure.mpr h
  | succ fuel ih =>
    rw [roundsWithin, leaves_modify_bind, leaves_get_bind]
    refine (steps.drain_leaves (steps.count _ h)).bind (fun _ => id) fun _ st₁ _ h₁ => ?_
    rw [Marking.sweep, leaves_modify_bind, leaves_get_bind]
    split
    · exact leaves_pure.mpr (steps.sweep h₁)
    · exact ih (steps.sweep h₁)

/-- What its steps keep holds wherever a run ends. -/
theorem run_leaves (h : inv st) : Leaves (run s) st inv := by
  rw [run]
  refine (steps.seed_leaves h).bind (fun _ => id) fun _ st₁ _ h₁ => ?_
  refine (steps.roundsWithin_leaves _ h₁).bind (fun _ => id) fun _ st₂ _ h₂ => ?_
  rw [leaves_modify_bind, leaves_get_bind, leaves_pure]
  exact steps.count _ h₂

end RunSteps

/-- The steps of a run evolve the state, as every method that waits is marked. -/
theorem framed_steps : RunSteps s (MarkState.Framed marks) where
  count _ h := h.step (.of_eq rfl rfl)
  assembly {st t} h := by
    have hassembly : Leaves (settle s [.assembly t]) st st.Evolves := settle_one_evolves trivial
    exact hassembly.mono fun _ => h.step
  schedule h _ := by
    refine h.step ?_
    unfold MarkState.schedule
    split <;> exact .of_eq rfl rfl
  field {st t} h := by
    have hfield : Leaves (settle s [.field t .root]) st st.Evolves := settle_one_evolves trivial
    exact hfield.mono fun _ => h.step
  register h := h.step (MarkState.offerSteps_evolves.register _ _ _ _)
  queue {st t} h ht := by
    refine ⟨h.evolves.trans Marks.evolves_ensureParsed, fun {x} hx => ?_⟩
    rw [Fifo.toList_push, List.mem_append, List.mem_singleton] at hx
    rw [Marks.isMarked_ensureParsed]
    rcases hx with hx | rfl
    · exact h.queued hx
    · exact ht
  type {st t rest} h _ := by
    have htake : MarkState.Framed marks { st with types := rest } := h.step (.of_eq rfl rfl)
    exact expandType_evolves.mono fun _ => htake.step
  method {st t rest} h hp := by
    have hqueue : st.methods.toList = t :: rest.toList := Fifo.toList_of_pop?_eq_some hp
    have ht : st.marks.isMarked t = true := h.queued (by simp [hqueue])
    have htake : MarkState.Framed marks { st with methods := rest } :=
      { h with queued := fun hx => h.queued (by simp [hqueue, hx]) }
    have hprocess : Leaves (processMethod s t) { st with methods := rest }
        (MarkState.Evolves { st with methods := rest }) := processMethod_evolves ht
    exact hprocess.mono fun _ => htake.step
  sweep h := h.step (MarkState.offerSteps_evolves.spreadAll _ _ _ _)

/-- A run leaves later marks behind than it started with, whether or not it comes to an end. -/
theorem run_framed (h : st.Framed marks) : Leaves (run s) st (MarkState.Framed marks) :=
  framed_steps.run_leaves h

end Marking

namespace Setting

/-- The marks that a run leaves behind are those of the state in which it ends. -/
theorem mark_leaves (s : Setting) (marks : Marks) {P : Marks → Prop}
    (h : Marking.Leaves (Marking.run s) (.ofMarks marks) fun st => P st.marks) :
    P (s.mark marks).2 := by
  unfold Marking.Leaves at h
  unfold mark
  cases hx : Marking.run s (.ofMarks marks) with
  | ok stats st =>
    rw [hx] at h
    exact h
  | error fault st =>
    rw [hx] at h
    exact h

/-- Whatever a model, users and an override table say, and whether or not a run comes to an end, it
changes only the marks of annotations: each node gets as far as before or further, only methods are
newly processed, what was marked keeps its reason, what is newly marked has one, and a body that
nothing was decided on may be parsed. A session may first find the overrides of its model. -/
theorem mark_evolves (s : Setting) (a : Annotations) (c : Context) (m : Model) :
    a.Evolves (a.onMarks fun marks => (s.mark marks).2) ∧
      (c.ensureOverrides m).annotations.Evolves (c.mark m).2.annotations := by
  have evolves (s : Setting) (marks : Marks) : marks.Evolves (s.mark marks).2 := by
    have start : (MarkState.ofMarks marks).Framed marks := ⟨.refl marks, nofun⟩
    exact s.mark_leaves marks ((Marking.run_framed start).mono fun _ h => h.evolves)
  exact ⟨⟨evolves s a.marks, rfl, rfl⟩, ⟨evolves _ _, rfl, rfl⟩⟩

end Setting

end CilTrim
