import CilTrim.Proofs.Mark.Ends
import CilTrim.Proofs.Mark.State
import CilTrim.Proofs.Override.Above

/-!
# Termination

The loops of marking have bounds, and none is ever met: from whatever state, each ends as it does
without one. What keeps them going are unmarked nodes, types that have not been scheduled, and
fields and assemblies that have not been opened:

* `MarkState.Spreading`: offering the overrides of the methods on a stack;
* `Marking.Settling`: meeting demands, each with all that it brings along;
* `Marking.FillSteps`: what filling the queues consists of;
* `Marking.expandNext`, `Marking.turn`, `Marking.round`: what the loops over the queues repeat;
* `Setting.Terminates`: all loops end as they do without bounds.
-/

namespace CilTrim

namespace MarkState

/-! ## Overrides -/

variable {m : Model} {t : OverrideTable} {st st' : MarkState}

/-- An offer that marks an override uses up a token. -/
theorem offer_adds (m : Model) (st : MarkState) (base o : Token) :
    st.Adds (st.offer m base o).2 ∧
      ((st.offer m base o).1 = true → (st.offer m base o).2.unmarked < st.unmarked) := by
  unfold offer
  cases m.declaringTypeOf? o with
  | none => exact ⟨.refl st, nofun⟩
  | some type =>
    dsimp only
    split
    · exact ⟨adds_park, nofun⟩
    · split
      · exact ⟨.refl st, nofun⟩
      · rename_i hm
        refine ⟨adds_count.trans adds_needMethod, fun _ => ?_⟩
        refine Token.free_lt (fun x hx => ?_) hm marked_needMethod
        rw [needMethod_eq, Marks.isMarked_mark, Marks.isMarked_ensureParsed]
        exact .inr hx

theorem offerAll_adds (base : Token) (os acc : List Token) (st : MarkState) :
    st.Adds (offerAll m base os (acc, st)).2 ∧
      (offerAll m base os (acc, st)).1.length + (offerAll m base os (acc, st)).2.unmarked ≤
        acc.length + st.unmarked := by
  induction os generalizing acc st with
  | nil => exact ⟨.refl st, Nat.le_refl _⟩
  | cons o rest ih =>
    obtain ⟨hadds, hfresh⟩ := offer_adds m st base o
    obtain ⟨hrest, hlen⟩ := ih (if (st.offer m base o).1 then o :: acc else acc)
      (st.offer m base o).2
    refine ⟨hadds.trans hrest, hlen.trans ?_⟩
    split
    · rename_i hf
      have := hfresh hf
      rw [List.length_cons]
      omega
    · have := hadds.marks
      have := hadds.counted
      omega

/-- Offering the overrides of the methods on a stack, and those of the overrides that get marked,
until the stack is empty. -/
inductive Spreading (m : Model) (t : OverrideTable) :
    List Token → MarkState → MarkState → Prop where
  | done (st : MarkState) : Spreading m t [] st st
  | next {base : Token} {stack : List Token} {st st' : MarkState} :
    Spreading m t ((offerAll m base (t.overridesOf base) ([], st)).1 ++ stack)
      (offerAll m base (t.overridesOf base) ([], st)).2 st' → Spreading m t (base :: stack) st st'

theorem spreading_of_room {fuel : Nat} {stack : List Token} (st : MarkState)
    (room : stack.length + st.unmarked ≤ fuel) :
    Spreading m t stack st (spreadFrom m t fuel stack st) := by
  induction fuel generalizing stack st with
  | zero =>
    have hempty : stack = [] := List.length_eq_zero_iff.mp (by omega)
    rw [hempty]
    exact .done st
  | succ fuel ih =>
    cases stack with
    | nil => exact .done st
    | cons base stack =>
      have := (offerAll_adds (m := m) base (t.overridesOf base) [] st).2
      refine .next (ih _ ?_)
      rw [List.length_append]
      simp only [List.length_cons, List.length_nil] at room this
      omega

/-- Every method but the first is on the stack because it got marked. -/
theorem spreading_spread (method : Token) (st : MarkState) :
    Spreading m t [method] st (spread m t method st) := by
  have := Token.free_le_count (st.marks.isMarked · = true)
  refine spreading_of_room st ?_
  unfold unmarked
  rw [List.length_singleton]
  omega

theorem offerSteps_adds : OfferSteps Adds where
  refl := .refl
  trans := .trans
  count _ _ := adds_count
  method _ _ _ := adds_needMethod
  park _ _ := adds_park
  virtual st _ := ⟨{ Spends.refl st with }, rfl, rfl, rfl⟩
  unpark st _ := ⟨{ Spends.refl st with }, rfl, rfl, rfl⟩

end MarkState

namespace Marking

variable {s : Setting} {st st' : MarkState}

/-! ## Demands -/

theorem meetField_spends (t : Token) (reason : Reason) :
    Ends (meetField s t reason) st
      (fun rest st' => st.Spends st' ∧ (rest = [] ∨ st'.unexpanded < st.unexpanded))
      fun _ => True := by
  have hmark : st.Adds (st.markNode t reason) := MarkState.adds_markNode
  simp only [meetField, ends_bind, ends_modify, ends_get]
  split <;> rename_i ht
  · exact ends_pure.mpr ⟨hmark.toSpends, .inl rfl⟩
  · have hlt : Token.free (· ∈ (st.markNode t reason).expandedFields.insert t) <
        Token.free (· ∈ (st.markNode t reason).expandedFields) :=
      Token.free_lt (fun _ h => mem_insert_token.mpr (.inr h)) ht (mem_insert_token.mpr (.inl rfl))
    have hopen : (st.markNode t reason).Spends { st.markNode t reason with
        expandedFields := (st.markNode t reason).expandedFields.insert t } :=
      { MarkState.Spends.refl (st.markNode t reason) with
        opened := Nat.add_le_add_right hlt.le _ }
    have hless : MarkState.unexpanded { st.markNode t reason with
        expandedFields := (st.markNode t reason).expandedFields.insert t } < st.unexpanded :=
      (Nat.add_lt_add_right hlt _).trans_le hmark.opened
    simp only [ends_bind, ends_set]
    cases s.model.field? t with
    | none => exact ends_pure.mpr ⟨hmark.toSpends.trans hopen, .inl rfl⟩
    | some f =>
      simp only [ends_bind, ends_modify, ends_pure]
      exact ⟨(hmark.toSpends.trans hopen).trans MarkState.adds_count.toSpends, .inr hless⟩

theorem meetAssembly_spends (t : Token) :
    Ends (meetAssembly s t) st
      (fun rest st' => st.Spends st' ∧ (rest = [] ∨ st'.unexpanded < st.unexpanded))
      fun _ => True := by
  simp only [meetAssembly, ends_bind, ends_get]
  split <;> rename_i ht
  · exact ends_pure.mpr ⟨.refl st, .inl rfl⟩
  · have hlt : Token.free (· ∈ st.seenAssemblies.insert t) < Token.free (· ∈ st.seenAssemblies) :=
      Token.free_lt (fun _ h => mem_insert_token.mpr (.inr h)) ht (mem_insert_token.mpr (.inl rfl))
    have hless : MarkState.unexpanded { st with seenAssemblies := st.seenAssemblies.insert t } <
        st.unexpanded := Nat.add_lt_add_left hlt _
    have hopen : st.Spends { st with seenAssemblies := st.seenAssemblies.insert t } :=
      { MarkState.Spends.refl st with opened := hless.le }
    simp only [ends_bind, ends_set]
    cases s.model.assembly? t with
    | none => exact ends_pure.mpr ⟨hopen, .inl rfl⟩
    | some a => exact ends_pure.mpr ⟨hopen, .inr hless⟩

/-- A demand that brings others along opens a field or an assembly. -/
theorem meet_spends (d : Demand) :
    Ends (meet s d) st
      (fun rest st' => st.Spends st' ∧ (rest = [] ∨ st'.unexpanded < st.unexpanded))
      fun _ => True := by
  have plain {change : MarkState → MarkState} (h : st.Spends (change st)) :
      Ends (do modify change; pure []) st (fun (rest : List Demand) st' =>
        st.Spends st' ∧ (rest = [] ∨ st'.unexpanded < st.unexpanded)) fun _ => True := by
    rw [ends_bind, ends_modify, ends_pure]
    exact ⟨h, .inl rfl⟩
  cases d with
  | node => exact plain MarkState.adds_markNode.toSpends
  | type => exact plain MarkState.spends_needType
  | method => exact plain MarkState.adds_needMethod.toSpends
  | field t reason => exact meetField_spends t reason
  | assembly t => exact meetAssembly_spends t
  | overridable t => exact plain (MarkState.offerSteps_adds.register _ _ t st).toSpends
  | arrived t => exact plain (MarkState.offerSteps_adds.arrive _ _ t st).toSpends
  | finished => exact plain MarkState.spends_setProcessed
  | skippedAttribute => exact plain MarkState.adds_count.toSpends
  | skippedName => exact plain MarkState.adds_count.toSpends
  | unresolved => exact ends_throw.mpr trivial

/-- How meeting demands in order ends, each with all that it brings along before the next. -/
inductive Settling (s : Setting) :
    List Demand → MarkState → EStateM.Result MarkFault MarkState Unit → Prop where
  | done (st : MarkState) : Settling s [] st (.ok () st)
  | fault {d : Demand} {ds : List Demand} {st st' : MarkState} {e : MarkFault} :
    meet s d st = .error e st' → Settling s (d :: ds) st (.error e st')
  | inner {d : Demand} {ds rest : List Demand} {st st₁ st' : MarkState} {e : MarkFault} :
    meet s d st = .ok rest st₁ → Settling s rest st₁ (.error e st') →
    Settling s (d :: ds) st (.error e st')
  | next {d : Demand} {ds rest : List Demand} {st st₁ st₂ : MarkState}
    {r : EStateM.Result MarkFault MarkState Unit} :
    meet s d st = .ok rest st₁ → Settling s rest st₁ (.ok () st₂) → Settling s ds st₂ r →
    Settling s (d :: ds) st r

theorem Settling.spends {ds : List Demand} {r : EStateM.Result MarkFault MarkState Unit}
    (h : Settling s ds st r) : ∀ st', r = .ok () st' → st.Spends st' := by
  induction h with
  | done =>
    rintro _ ⟨⟩
    exact .refl _
  | fault | inner => exact nofun
  | next hx _ _ ihrest ihds =>
    intro st' hr
    exact ((meet_spends _).ok hx).1.trans ((ihrest _ rfl).trans (ihds st' hr))

theorem settling_of_room {levels : Nat} (ds : List Demand) (st : MarkState)
    (room : st.unexpanded < levels) : Settling s ds st (settleWithin s levels ds st) := by
  induction levels generalizing ds st with
  | zero => omega
  | succ levels ih =>
    induction ds generalizing st with
    | nil => exact .done st
    | cons d ds ihds =>
      have unfold_cons : settleWithin s (levels + 1) (d :: ds) =
          (meet s d >>= settleWithin s levels) >>= fun _ => settleWithin s (levels + 1) ds := rfl
      rw [unfold_cons]
      simp only [bind, EStateM.bind]
      cases hx : meet s d st with
      | error e st' => exact .fault hx
      | ok rest st₁ =>
        obtain ⟨hspends, hrest⟩ := (meet_spends d).ok hx
        have hsettling : Settling s rest st₁ (settleWithin s levels rest st₁) := by
          rcases hrest with rfl | hlt
          · cases levels <;> exact .done st₁
          · exact ih rest st₁ (by omega)
        dsimp only
        cases hy : settleWithin s levels rest st₁ with
        | error e st' =>
          rw [hy] at hsettling
          exact .inner hx hsettling
        | ok _ st₂ =>
          rw [hy] at hsettling
          have hopened := (hspends.trans (hsettling.spends _ rfl)).opened
          exact .next hx hsettling (ihds st₂ (by omega))

/-- What is opened on the way is opened once, so there are levels enough. -/
theorem settling_settle (ds : List Demand) (st : MarkState) :
    Settling s ds st (settle s ds st) := by
  have h₁ := Token.free_le_count (· ∈ st.expandedFields)
  have h₂ := Token.free_le_count (· ∈ st.seenAssemblies)
  refine settling_of_room ds st ?_
  unfold MarkState.unexpanded
  omega

theorem settle_spends (ds : List Demand) (st : MarkState) :
    Ends (settle s ds) st (fun _ st' => st.Spends st') fun _ => True :=
  .of_ok fun _ st' hx => (settling_settle ds st).spends st' hx

/-- What meeting a demand keeps holds when all demands are met. -/
theorem Settling.keeps {inv : MarkState → Prop}
    (step : ∀ d {st}, inv st → Ends (meet s d) st (fun _ => inv) fun _ => True)
    {ds : List Demand} {r : EStateM.Result MarkFault MarkState Unit} (h : Settling s ds st r)
    (start : inv st) : ∀ st', r = .ok () st' → inv st' := by
  induction h with
  | done =>
    rintro _ ⟨⟩
    exact start
  | fault | inner => exact nofun
  | next hx _ _ ihrest ihds =>
    intro st' hr
    exact ihds (ihrest ((step _ start).ok hx) _ rfl) st' hr

theorem settle_keeps {inv : MarkState → Prop}
    (step : ∀ d {st}, inv st → Ends (meet s d) st (fun _ => inv) fun _ => True)
    (ds : List Demand) (start : inv st) : Ends (settle s ds) st (fun _ => inv) fun _ => True :=
  .of_ok fun _ st' hx => (settling_settle ds st).keeps step start st' hx

/-! ## The start -/

/-- What each step of filling the queues keeps: looking at an assembly, scheduling a marked type,
opening a marked field, registering a processed virtual method, and queueing a marked method. -/
structure FillSteps (s : Setting) (inv : MarkState → Prop) (fault : MarkFault → Prop) :
    Prop where
  assembly {st : MarkState} {a : AssemblyDef} : a ∈ s.model.assemblies.toList → inv st →
    Ends (settle s [.assembly a.token]) st (fun _ => inv) fault
  type {st : MarkState} {d : TypeDef} : d ∈ s.model.types.toList → inv st →
    st.marks.isMarked d.token = true → inv (st.schedule d.token)
  field {st : MarkState} {d : TypeDef} {t : Token} : d ∈ s.model.types.toList → t ∈ d.fields →
    inv st → st.marks.isMarked t = true → Ends (settle s [.field t .root]) st (fun _ => inv) fault
  virtual {st : MarkState} {t : Token} : inv st → st.marks.isProcessed t = true →
    (s.model.method? t).any (·.isVirtual) = true →
    inv (MarkState.register s.model s.overrides t st)
  method {st : MarkState} {d : TypeDef} {t : Token} : d ∈ s.model.types.toList →
    t ∈ d.methods → inv st → st.marks.isMarked t = true →
    inv { st with marks := st.marks.ensureParsed t, methods := st.methods.push t }

namespace FillSteps

variable {inv : MarkState → Prop} {fault : MarkFault → Prop} {d : TypeDef} {t : Token}
  (steps : FillSteps s inv fault)

include steps

theorem seedMethod_keeps (hd : d ∈ s.model.types.toList) (ht : t ∈ d.methods) (h : inv st) :
    Ends (seedMethod s t) st (fun _ => inv) fault := by
  have queue {st : MarkState} (h : inv st) :
      Ends (do
          if (← get).marks.isMarked t then
            modify fun state =>
              { state with marks := state.marks.ensureParsed t, methods := state.methods.push t })
        st (fun _ => inv) fault := by
    simp only [ends_bind, ends_get]
    split <;> rename_i hm
    · exact ends_modify.mpr (steps.method hd ht h hm)
    · exact ends_pure.mpr h
  simp only [seedMethod, ends_bind, ends_get, Bool.and_eq_true]
  split <;> rename_i hc
  · rw [ends_bind, ends_modify]
    exact queue (steps.virtual h hc.1 hc.2)
  · exact queue h

theorem seedType_keeps (hd : d ∈ s.model.types.toList) (h : inv st) :
    Ends (seedType s d) st (fun _ => inv) fault := by
  have members {st : MarkState} (h : inv st) :
      Ends (do
        d.fields.forM fun field => do
          if (← get).marks.isMarked field then settle s [.field field .root]
        d.methods.forM (seedMethod s)) st (fun _ => inv) fault := by
    rw [ends_bind]
    refine (Ends.forM_keeps h fun x hx st' h' => ?_).mono (fun _ st' h' => ?_) fun _ => id
    · simp only [ends_bind, ends_get]
      split <;> rename_i hm
      · exact steps.field hd hx h' hm
      · exact ends_pure.mpr h'
    · exact Ends.forM_keeps h' fun x hx _ => steps.seedMethod_keeps hd hx
  unfold seedType
  simp only [ends_bind, ends_get]
  split <;> rename_i hm
  · rw [ends_bind, ends_modify]
    exact members (steps.type hd h hm)
  · exact members h

/-- What its steps keep holds when the queues are filled. -/
theorem fill_keeps (h : inv st) : Ends (fill s) st (fun _ => inv) fault := by
  unfold fill
  rw [ends_bind]
  refine (Ends.forM_keeps h fun a ha _ => steps.assembly ha).mono (fun _ st' h' => ?_) fun _ => id
  exact Ends.forM_keeps h' fun d hd _ => steps.seedType_keeps hd

end FillSteps

/-! ## Queues -/

theorem ends_nextType? {post : Option Token → MarkState → Prop} {fault : MarkFault → Prop} :
    Ends nextType? st post fault ↔
      match st.types.pop? with
      | none => post none st
      | some (t, rest) => post (some t) { st with types := rest } := by
  simp only [nextType?, ends_bind, ends_get]
  cases st.types.pop? <;> simp only [ends_pure, ends_bind, ends_modify]

theorem ends_nextMethod? {post : Option Token → MarkState → Prop} {fault : MarkFault → Prop} :
    Ends nextMethod? st post fault ↔
      match st.methods.pop? with
      | none => post none st
      | some (t, rest) => post (some t) { st with methods := rest } := by
  simp only [nextMethod?, ends_bind, ends_get]
  cases st.methods.pop? <;> simp only [ends_pure, ends_bind, ends_modify]

/-- Expands the next type. The result says whether there was one. -/
def expandNext (s : Setting) : Marking Bool := do
  match ← nextType? with
  | some type =>
    expandType s type
    pure true
  | none => pure false

/-- Expands the next type, or the next method if no type waits. The result says whether there was
one. -/
def turn (s : Setting) : Marking Bool := do
  if ← expandNext s then pure true
  else
    match ← nextMethod? with
    | some method =>
      processMethod s method
      pure true
    | none => pure false

/-- A round. The result says whether there must be another. -/
def round (s : Setting) : Marking Bool := do
  modify (·.count fun c => { c with rounds := c.rounds + 1 })
  let before := (← get).newMarks
  drain s
  sweep s
  let state ← get
  pure !(state.newMarks = before && state.methods.isEmpty && state.types.isEmpty)

theorem drainTypes_succ (fuel : Nat) :
    drainTypes s (fuel + 1) = (do if ← expandNext s then drainTypes s fuel) := by
  simp only [drainTypes, expandNext, bind_assoc]
  congr 1
  funext next
  cases next <;> simp

theorem drainQueues_succ (fuel : Nat) :
    drainQueues s (fuel + 1) = (do if ← turn s then drainQueues s fuel) := by
  simp only [drainQueues, turn, expandNext, bind_assoc]
  congr 1
  funext next
  cases next with
  | some type => simp
  | none =>
    simp only [pure_bind, Bool.false_eq_true, if_false, bind_assoc]
    congr 1
    funext next
    cases next <;> simp

theorem roundsWithin_succ (fuel : Nat) :
    roundsWithin s (fuel + 1) = (do if ← round s then roundsWithin s fuel) := by
  have swap (last : Bool) (x : Marking Unit) :
      (if last = true then pure () else x) = if (!last) = true then x else pure () := by
    cases last <;> rfl
  simp only [roundsWithin, round, bind_assoc, pure_bind, swap]

end Marking

namespace MarkState

variable {st st' : MarkState} {t : Token} {rest : Fifo Token}

/-- What is in the queues, and what can still enter them. -/
noncomputable def work (st : MarkState) : Nat :=
  st.types.toList.length + st.unscheduled + (st.methods.toList.length + st.unmarked)

theorem Spends.work_le (h : Spends st st') : st'.work ≤ st.work := by
  have := h.types
  have := h.methods
  have := h.marks
  unfold work
  omega

/-- Taking a type from its queue spends it. -/
theorem spends_take_type (h : st.types.toList = t :: rest.toList) :
    st.Spends { st with types := rest } ∧ work { st with types := rest } < st.work := by
  have hlen : st.types.toList.length = rest.toList.length + 1 := by rw [h, List.length_cons]
  constructor
  · refine { Spends.refl st with types := Nat.add_le_add_right ?_ st.unscheduled }
    exact hlen ▸ Nat.le_succ _
  · refine Nat.add_lt_add_right (Nat.add_lt_add_right ?_ st.unscheduled) _
    exact hlen ▸ Nat.lt_succ_self _

/-- Taking a method from its queue spends it. -/
theorem spends_take_method (h : st.methods.toList = t :: rest.toList) :
    st.Spends { st with methods := rest } ∧ work { st with methods := rest } < st.work := by
  have hlen : st.methods.toList.length = rest.toList.length + 1 := by rw [h, List.length_cons]
  constructor
  · refine { Spends.refl st with methods := Nat.add_le_add_right ?_ st.newMarks }
    exact hlen ▸ Nat.le_succ _
  · refine Nat.add_lt_add_left (Nat.add_lt_add_right ?_ st.unmarked) _
    exact hlen ▸ Nat.lt_succ_self _

/-- The bound of the loops over the queues exceeds all that they have to do. -/
theorem work_lt (st : MarkState) :
    st.work < st.types.toList.length + st.methods.toList.length + 2 * Token.count + 1 := by
  have h₁ := Token.free_le_count (· ∈ st.scheduled)
  have h₂ := Token.free_le_count (st.marks.isMarked · = true)
  unfold work unscheduled unmarked
  omega

end MarkState

namespace Marking

variable {s : Setting} {st st' : MarkState}

theorem expandType_spends (t : Token) (st : MarkState) :
    Ends (expandType s t) st (fun _ st' => st.Spends st') fun _ => True := by
  unfold expandType
  cases s.model.type? t with
  | none => exact ends_pure.mpr (.refl st)
  | some d =>
    simp only [ends_bind, ends_modify]
    exact (settle_spends _ _).mono (fun _ _ => MarkState.adds_count.toSpends.trans) fun _ => id

theorem processMethod_spends (t : Token) (st : MarkState) :
    Ends (processMethod s t) st (fun _ st' => st.Spends st') fun _ => True := by
  simp only [processMethod, ends_bind, ends_get]
  split
  · exact ends_pure.mpr (.refl st)
  · cases s.model.method? t with
    | none => exact ends_throw.mpr trivial
    | some d =>
      simp only [ends_bind, ends_modify]
      exact (settle_spends _ _).mono (fun _ _ => MarkState.adds_count.toSpends.trans) fun _ => id

/-- Expanding a type leaves less work. -/
theorem expandNext_spends (st : MarkState) :
    Ends (expandNext s) st (fun more st' => st.Spends st' ∧
      if more = true then st'.work < st.work else st'.types.toList = []) fun _ => True := by
  rw [expandNext, ends_bind, ends_nextType?]
  cases hp : st.types.pop? with
  | none => exact ends_pure.mpr ⟨.refl st, Fifo.toList_of_pop?_eq_none hp⟩
  | some next =>
    obtain ⟨t, rest⟩ := next
    obtain ⟨htake, hlt⟩ := MarkState.spends_take_type (Fifo.toList_of_pop?_eq_some hp)
    dsimp only
    rw [ends_bind]
    refine (expandType_spends t _).mono (fun _ st' h => ?_) fun _ => id
    exact ends_pure.mpr ⟨htake.trans h, h.work_le.trans_lt hlt⟩

/-- Expanding a type or a method leaves less work. -/
theorem turn_spends (st : MarkState) :
    Ends (turn s) st (fun more st' => st.Spends st' ∧
      if more = true then st'.work < st.work
      else st'.types.toList = [] ∧ st'.methods.toList = []) fun _ => True := by
  rw [turn, ends_bind]
  refine (expandNext_spends st).mono ?_ fun _ => id
  rintro (_ | _) st₁ ⟨hspends, hmore⟩
  · simp only [Bool.false_eq_true, if_false] at hmore ⊢
    rw [ends_bind, ends_nextMethod?]
    cases hp : st₁.methods.pop? with
    | none => exact ends_pure.mpr ⟨hspends, hmore, Fifo.toList_of_pop?_eq_none hp⟩
    | some next =>
      obtain ⟨t, rest⟩ := next
      obtain ⟨htake, hlt⟩ := MarkState.spends_take_method (Fifo.toList_of_pop?_eq_some hp)
      dsimp only
      rw [ends_bind]
      refine (processMethod_spends t _).mono (fun _ st' h => ?_) fun _ => id
      have hwork := h.work_le.trans_lt hlt
      exact ends_pure.mpr ⟨hspends.trans (htake.trans h), hwork.trans_le hspends.work_le⟩
  · simp only [if_true] at hmore ⊢
    exact ends_pure.mpr ⟨hspends, hmore⟩

/-- The bound of the loops over the queues is computed from the state where they start. -/
theorem queueBound_bind (loop : Nat → Marking Unit) (st : MarkState) :
    (do loop (← queueBound)) st =
      loop (st.types.toList.length + st.methods.toList.length + 2 * Token.count + 1) st :=
  rfl

theorem repeats_drainTypes (st : MarkState) :
    Repeats (expandNext s) st ((do drainTypes s (← queueBound)) st) := by
  rw [queueBound_bind]
  refine Repeats.of_bound (drainTypes s) drainTypes_succ MarkState.work (fun hx => ?_) st.work_lt
  simpa using ((expandNext_spends _).ok hx).2

theorem repeats_drain (st : MarkState) : Repeats (turn s) st (drain s st) := by
  rw [drain, queueBound_bind]
  refine Repeats.of_bound (drainQueues s) drainQueues_succ MarkState.work (fun hx => ?_) st.work_lt
  simpa using ((turn_spends _).ok hx).2

section Keeps

variable {inv : MarkState → Prop}
  (type : ∀ {st t rest}, inv st → st.types.toList.Perm (t :: rest.toList) →
    Ends (expandType s t) { st with types := rest } (fun _ => inv) fun _ => True)

include type

/-- What expanding a type keeps holds when the next one is expanded. -/
theorem expandNext_keeps (h : inv st) :
    Ends (expandNext s) st (fun more st' => inv st' ∧
      (more = false → st' = st ∧ st.types.toList = [])) fun _ => True := by
  rw [expandNext, ends_bind, ends_nextType?]
  cases hp : st.types.pop? with
  | none => exact ends_pure.mpr ⟨h, fun _ => ⟨rfl, Fifo.toList_of_pop?_eq_none hp⟩⟩
  | some next =>
    dsimp only
    rw [ends_bind]
    refine (type h (.of_eq (Fifo.toList_of_pop?_eq_some hp))).mono (fun _ st' h' => ?_) fun _ => id
    exact ends_pure.mpr ⟨h', fun hmore => absurd hmore (by simp)⟩

theorem drainTypes_keeps (h : inv st) :
    Ends (do drainTypes s (← queueBound)) st (fun _ st' => inv st' ∧ st'.types.toList = [])
      fun _ => True := by
  refine (repeats_drainTypes st).ends inv h fun {st₁} h₁ => ?_
  refine (expandNext_keeps type h₁).mono ?_ fun _ => id
  rintro (_ | _) st₂ ⟨h₂, hnone⟩
  · obtain ⟨rfl, htypes⟩ := hnone rfl
    exact ⟨h₂, htypes⟩
  · exact h₂

variable
  (method : ∀ {st t rest}, inv st → st.methods.toList.Perm (t :: rest.toList) →
    Ends (processMethod s t) { st with methods := rest } (fun _ => inv) fun _ => True)

include method

/-- What expanding a type and processing a method keep holds after the next of either. -/
theorem turn_keeps (h : inv st) :
    Ends (turn s) st (fun more st' => inv st' ∧
      (more = false → st'.types.toList = [] ∧ st'.methods.toList = [])) fun _ => True := by
  rw [turn, ends_bind]
  refine (expandNext_keeps type h).mono ?_ fun _ => id
  rintro (_ | _) st₁ ⟨h₁, hnone⟩
  · obtain ⟨rfl, htypes⟩ := hnone rfl
    rw [if_neg (by simp), ends_bind, ends_nextMethod?]
    cases hp : st₁.methods.pop? with
    | none => exact ends_pure.mpr ⟨h, fun _ => ⟨htypes, Fifo.toList_of_pop?_eq_none hp⟩⟩
    | some next =>
      dsimp only
      rw [ends_bind]
      refine (method h (.of_eq (Fifo.toList_of_pop?_eq_some hp))).mono (fun _ st' h' => ?_)
        fun _ => id
      exact ends_pure.mpr ⟨h', fun hmore => absurd hmore (by simp)⟩
  · rw [if_pos rfl]
    exact ends_pure.mpr ⟨h₁, fun hmore => absurd hmore (by simp)⟩

theorem drain_keeps (h : inv st) :
    Ends (drain s) st
      (fun _ st' => inv st' ∧ st'.types.toList = [] ∧ st'.methods.toList = [])
      fun _ => True := by
  refine (repeats_drain st).ends inv h fun {st₁} h₁ => ?_
  refine (turn_keeps type method h₁).mono ?_ fun _ => id
  rintro (_ | _) st₂ ⟨h₂, hnone⟩
  · exact ⟨h₂, hnone rfl⟩
  · exact h₂

end Keeps

/-- The loop over both queues ends with both empty. -/
theorem drain_spends (st : MarkState) :
    Ends (drain s) st (fun _ st' =>
      st.Spends st' ∧ st'.types.toList = [] ∧ st'.methods.toList = []) fun _ => True := by
  refine (repeats_drain st).ends st.Spends (.refl st) fun {st₁} h₁ => ?_
  refine (turn_spends st₁).mono ?_ fun _ => id
  rintro (_ | _) st₂ ⟨h₂, hmore⟩
  · exact ⟨h₁.trans h₂, hmore⟩
  · exact h₁.trans h₂

/-- A round that is not the last marks something. -/
theorem round_spends (st : MarkState) :
    Ends (round s) st (fun more st' => more = true → st'.unmarked < st.unmarked)
      fun _ => True := by
  simp only [round, ends_bind, ends_modify, ends_get]
  refine (drain_spends _).mono ?_ fun _ => id
  rintro _ st₁ ⟨h₁, htypes, hmethods⟩
  have hadds : st₁.Adds (st₁.virtuals.foldl
      (fun st base => MarkState.spread s.model s.overrides base st) st₁) :=
    MarkState.offerSteps_adds.spreadAll _ _ _ _
  rw [sweep, ends_modify, ends_pure]
  generalize st₁.virtuals.foldl (fun st base => MarkState.spread s.model s.overrides base st) st₁ =
    st₂ at hadds ⊢
  intro hmore
  have hspends := (MarkState.adds_count.toSpends.trans h₁).trans hadds.toSpends
  have hcounted : st.newMarks ≤ st₁.newMarks := (MarkState.adds_count.toSpends.trans h₁).counted
  by_cases hnew : st₂.newMarks = st.newMarks
  · -- Nothing was marked after the queues were emptied, so they are empty still.
    have hqueue := hadds.methods
    have := hadds.counted
    rw [hmethods, List.length_nil] at hqueue
    have hempty : st₂.methods.toList = [] := List.length_eq_zero_iff.mp (by omega)
    have htypes₂ : st₂.types.toList = [] := by rw [hadds.types_eq, htypes]
    simp [(Fifo.isEmpty_iff _).mpr hempty, (Fifo.isEmpty_iff _).mpr htypes₂, MarkState.count,
      hnew] at hmore
  · have := hspends.marks
    have := hspends.counted
    omega

theorem repeats_rounds (st : MarkState) :
    Repeats (round s) st (roundsWithin s (Token.count + 2) st) := by
  have hroom := Token.free_le_count (st.marks.isMarked · = true)
  refine Repeats.of_bound (roundsWithin s) roundsWithin_succ MarkState.unmarked
    (fun hx => (round_spends _).ok hx rfl) ?_
  unfold MarkState.unmarked
  omega

end Marking

namespace Setting

/-- No loop of marking meets its bound, from whatever state: each ends as it does without one. The
search for what a method overrides finds all of it. -/
structure Terminates (s : Setting) : Prop where
  above (method base : Token) :
    base ∈ s.overrides.basesAbove method ↔ s.overrides.Above method base
  spread (method : Token) (st : MarkState) : MarkState.Spreading s.model s.overrides [method] st
    (MarkState.spread s.model s.overrides method st)
  settle (ds : List Demand) (st : MarkState) :
    Marking.Settling s ds st (Marking.settle s ds st)
  types (st : MarkState) : Marking.Repeats (Marking.expandNext s) st
    ((do Marking.drainTypes s (← Marking.queueBound)) st)
  queues (st : MarkState) : Marking.Repeats (Marking.turn s) st (Marking.drain s st)
  rounds (st : MarkState) : Marking.Repeats (Marking.round s) st
    (Marking.roundsWithin s (Token.count + 2) st)

theorem terminates (s : Setting) : s.Terminates where
  above _ _ := OverrideTable.mem_basesAbove
  spread := MarkState.spreading_spread
  settle := Marking.settling_settle
  types := Marking.repeats_drainTypes
  queues := Marking.repeats_drain
  rounds := Marking.repeats_rounds

end Setting

end CilTrim
