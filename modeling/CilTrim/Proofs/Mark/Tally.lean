import CilTrim.Proofs.Mark.Invariant

/-!
# What is counted

The counts of a run go up with what they stand for: a type that leaves its queue, a field that is
opened, a method that is finished, each of them once. Only definitions of the model are counted:

* `MarkState.Balances`, `MarkState.Opens`, `MarkState.Tallies`: between two states, each count goes
  up by as many definitions as it says;
* `Setting.Changes.tallies`: changes that finish nothing;
* `Setting.Changes.tallies_type`, `Setting.Changes.tallies_method`: what leaves a queue.
-/

namespace CilTrim

namespace MarkState

variable {m : Model} {st st' st'' : MarkState}

/-- The types of a model that wait in their queue. -/
def waitingTypes (m : Model) (st : MarkState) : Nat :=
  st.types.toList.countP fun t => (m.type? t).isSome

/-- The types of a model that have ever entered their queue. -/
def scheduledTypes (m : Model) (st : MarkState) : Nat :=
  m.types.toList.countP fun d => d.token ∈ st.scheduled

/-- The fields of a model that have been opened. -/
def openedFields (m : Model) (st : MarkState) : Nat :=
  m.fields.toList.countP fun d => d.token ∈ st.expandedFields

/-- The methods of a model that are processed. -/
def finishedMethods (m : Model) (st : MarkState) : Nat :=
  m.methods.toList.countP fun d => st.marks.isProcessed d.token = true

/-- The counts of types and fields go up by what has left the queue and by what has been opened. -/
structure Balances (m : Model) (st st' : MarkState) : Prop where
  types : st'.stats.typesExpanded + st'.waitingTypes m + st.scheduledTypes m =
    st.stats.typesExpanded + st.waitingTypes m + st'.scheduledTypes m
  fields : st'.stats.fieldsExpanded + st.openedFields m =
    st.stats.fieldsExpanded + st'.openedFields m

/-- Types and fields are counted, and no method is. -/
structure Opens (m : Model) (st st' : MarkState) : Prop extends Balances m st st' where
  methods : st'.stats.methodsProcessed = st.stats.methodsProcessed

/-- Types and fields are counted, and so are the methods that have been finished. -/
structure Tallies (m : Model) (st st' : MarkState) : Prop extends Balances m st st' where
  methods : st'.stats.methodsProcessed + st.finishedMethods m =
    st.stats.methodsProcessed + st'.finishedMethods m

theorem Balances.trans (h₁ : st.Balances m st') (h₂ : st'.Balances m st'') :
    st.Balances m st'' where
  types := by
    have := h₁.types
    have := h₂.types
    omega
  fields := by
    have := h₁.fields
    have := h₂.fields
    omega

theorem Opens.refl (st : MarkState) : st.Opens m st := ⟨⟨rfl, rfl⟩, rfl⟩

theorem Opens.trans (h₁ : st.Opens m st') (h₂ : st'.Opens m st'') : st.Opens m st'' :=
  ⟨h₁.toBalances.trans h₂.toBalances, h₂.methods.trans h₁.methods⟩

theorem Tallies.refl (st : MarkState) : st.Tallies m st := ⟨⟨rfl, rfl⟩, rfl⟩

theorem Tallies.trans (h₁ : st.Tallies m st') (h₂ : st'.Tallies m st'') : st.Tallies m st'' where
  toBalances := h₁.toBalances.trans h₂.toBalances
  methods := by
    have := h₁.methods
    have := h₂.methods
    omega

theorem Opens.tallies (h : st.Opens m st')
    (finished : st'.finishedMethods m = st.finishedMethods m) : st.Tallies m st' :=
  ⟨h.toBalances, by rw [h.methods, finished]⟩

/-- Methods are finished or not by their status alone. -/
theorem finishedMethods_congr
    (h : ∀ t, st'.marks.isProcessed t = true ↔ st.marks.isProcessed t = true) :
    st'.finishedMethods m = st.finishedMethods m := by
  unfold finishedMethods
  simp only [h]

/-- A run starts with nothing counted, scheduled or opened. -/
theorem Tallies.of_start {marks : Marks} (h : (ofMarks marks).Tallies m st) :
    st.stats.typesExpanded + st.waitingTypes m = st.scheduledTypes m ∧
      st.stats.fieldsExpanded = st.openedFields m ∧
      st.stats.methodsProcessed + (ofMarks marks).finishedMethods m = st.finishedMethods m := by
  have scheduled : (ofMarks marks).scheduledTypes m = 0 := by simp [scheduledTypes, ofMarks]
  have opened : (ofMarks marks).openedFields m = 0 := by simp [openedFields, ofMarks]
  have waiting : (ofMarks marks).waitingTypes m = 0 := rfl
  have zero : (ofMarks marks).stats = .zero := rfl
  obtain ⟨⟨htypes, hfields⟩, hmethods⟩ := h
  rw [scheduled, waiting, zero] at htypes
  rw [opened, zero] at hfields
  rw [zero] at hmethods
  simp only [MarkStats.zero] at htypes hfields hmethods
  exact ⟨by omega, by omega, by omega⟩

variable {t : Token} {reason : Reason}

/-- A definition that is scheduled for the first time waits. -/
theorem opens_needType (wellFormed : m.WellFormed) (fits : m.Fits) :
    st.Opens m (st.needType t reason) := by
  rw [needType_eq]
  refine ⟨⟨?_, rfl⟩, rfl⟩
  unfold waitingTypes scheduledTypes
  dsimp only
  by_cases ht : t ∈ st.scheduled
  · rw [if_pos ht, insert_token_of_mem ht]
  · have hcount : m.types.toList.countP (fun d => d.token ∈ st.scheduled.insert t) = _ :=
      wellFormed.type_numbered.countP_insert (fits .typeDef) ht fun _ => mem_insert_token
    have hfind : Rows.find? .typeDef m.types t = m.type? t := rfl
    rw [if_neg ht, Fifo.toList_push, List.countP_append, List.countP_singleton, hcount, hfind]
    omega

/-- A definition that is opened for the first time is counted. -/
theorem opens_openField (wellFormed : m.WellFormed) (fits : m.Fits) :
    st.Opens m (st.openField m t reason) := by
  rw [openField_eq]
  refine ⟨⟨?_, ?_⟩, ?_⟩
  · dsimp only
    split <;> rfl
  · unfold openedFields
    dsimp only
    by_cases ht : t ∈ st.expandedFields
    · rw [if_neg fun h => h.1 ht, insert_token_of_mem ht]
    · have hcount : m.fields.toList.countP (fun d => d.token ∈ st.expandedFields.insert t) = _ :=
        wellFormed.field_numbered.countP_insert (fits .field) ht fun _ => mem_insert_token
      have hfind : Rows.find? .field m.fields t = m.field? t := rfl
      rw [hcount, hfind]
      by_cases hf : (m.field? t).isSome = true
      · rw [if_pos ⟨ht, hf⟩, if_pos hf]
        dsimp only
        omega
      · rw [if_neg fun h => hf h.2, if_neg hf, Nat.add_zero]
  · dsimp only
    split <;> rfl

/-- A definition that leaves the queue of types is counted. -/
theorem tallies_takeType {rest : Fifo Token} (hp : st.types.toList.Perm (t :: rest.toList)) :
    st.Tallies m (st.takeType m t rest) := by
  have hwaiting : st.waitingTypes m =
      (st.takeType m t rest).waitingTypes m + if (m.type? t).isSome then 1 else 0 := by
    unfold waitingTypes
    rw [hp.countP_eq, List.countP_cons]
    rfl
  have hcount : (st.takeType m t rest).stats.typesExpanded =
      st.stats.typesExpanded + if (m.type? t).isSome then 1 else 0 := by
    unfold takeType
    dsimp only
    split <;> rfl
  have hscheduled : (st.takeType m t rest).scheduledTypes m = st.scheduledTypes m := rfl
  refine ⟨⟨by omega, ?_⟩, ?_⟩
  · unfold takeType
    dsimp only
    split <;> rfl
  · unfold takeType
    dsimp only
    split <;> rfl

end MarkState

namespace Setting

variable {s : Setting} {S own : Token → Prop} {st st' : MarkState}

theorem Offer.opens (h : s.Offer S st st') : st.Opens s.model st' := by
  cases h with
  | count hchange =>
    obtain ⟨htypes, hfields, hmethods, -⟩ := hchange st.stats
    refine ⟨⟨?_, ?_⟩, hmethods⟩
    · exact congrArg (· + st.waitingTypes s.model + st.scheduledTypes s.model) htypes
    · exact congrArg (· + st.openedFields s.model) hfields
  | method =>
    rw [MarkState.needMethod_eq]
    exact ⟨⟨rfl, rfl⟩, rfl⟩
  | park =>
    unfold MarkState.park
    split <;> exact ⟨⟨rfl, rfl⟩, rfl⟩
  | _ => exact ⟨⟨rfl, rfl⟩, rfl⟩

theorem Change.opens (formed : s.Formed) (h : s.Change S own st st') : st.Opens s.model st' := by
  cases h with
  | offer h => exact h.opens
  | node =>
    rw [MarkState.markNode_eq]
    exact ⟨⟨rfl, rfl⟩, rfl⟩
  | type => exact MarkState.opens_needType formed.wellFormed formed.fits
  | field => exact MarkState.opens_openField formed.wellFormed formed.fits
  | _ => exact ⟨⟨rfl, rfl⟩, rfl⟩

theorem Changes.opens (formed : s.Formed) (h : s.Changes S own st st') :
    st.Opens s.model st' := by
  induction h with
  | refl => exact .refl st
  | tail _ h ih => exact ih.trans (h.opens formed)

/-- Changes that finish nothing keep the counts up. -/
theorem Changes.tallies (formed : s.Formed) (h : s.Changes S (fun _ => False) st st') :
    st.Tallies s.model st' := by
  refine (h.opens formed).tallies (MarkState.finishedMethods_congr fun t => ⟨fun ht => ?_, ?_⟩)
  · by_contra hn
    exact h.grows.finished hn ht
  · exact h.grows.processed

/-- A type that is expanded is counted. -/
theorem Changes.tallies_type (formed : s.Formed) {t : Token} {rest : Fifo Token}
    (hp : st.types.toList.Perm (t :: rest.toList))
    (h : s.Changes S (fun _ => False) (st.takeType s.model t rest) st') :
    st.Tallies s.model st' :=
  (MarkState.tallies_takeType hp).trans (h.tallies formed)

/-- A method that is processed is counted, if it was not processed before. -/
theorem Changes.tallies_method (formed : s.Formed) {t : Token} {rest : Fifo Token}
    (h : s.Changes S (· = t) (st.takeMethod s.model t rest) st')
    (hmethod : (s.model.method? t).isSome) (hdone : st'.marks.isProcessed t = true) :
    st.Tallies s.model st' := by
  have hopens := h.opens formed
  have hprocessed (x : Token) : st'.marks.isProcessed x = true ↔
      x = t ∨ st.marks.isProcessed x = true := by
    constructor
    · intro hx
      by_cases hold : st.marks.isProcessed x = true
      · exact .inr hold
      · exact .inl (h.grows.finished hold hx)
    · rintro (rfl | hx)
      · exact hdone
      · exact h.grows.processed hx
  by_cases hold : st.marks.isProcessed t = true
  · rw [MarkState.takeMethod_of_processed hold] at hopens
    refine MarkState.Opens.tallies ⟨⟨hopens.types, hopens.fields⟩, hopens.methods⟩
      (MarkState.finishedMethods_congr fun x => ?_)
    rw [hprocessed]
    exact ⟨fun hx => hx.elim (fun e => e ▸ hold) id, .inr⟩
  · obtain ⟨d, hd⟩ := Option.isSome_iff_exists.mp hmethod
    rw [MarkState.takeMethod_of_some hold hd] at hopens
    refine ⟨⟨hopens.types, hopens.fields⟩, ?_⟩
    have hcount : st'.finishedMethods s.model = _ :=
      formed.wellFormed.method_numbered.countP_insert (formed.fits .methodDef) hold hprocessed
    have hfind : Rows.find? .methodDef s.model.methods t = s.model.method? t := rfl
    rw [hfind, if_pos hmethod] at hcount
    have := hopens.methods
    rw [this, hcount]
    unfold MarkState.finishedMethods
    dsimp only [MarkState.count]
    omega

end Setting

end CilTrim
