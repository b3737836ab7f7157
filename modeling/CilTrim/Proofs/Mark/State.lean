import CilTrim.Mark.State
import CilTrim.Proofs.Annotation.Marks
import CilTrim.Proofs.Token

/-!
# What the operations set

Each operation on the state of marking as one record, and what it costs. Whatever enters a queue, is
counted as marked or is opened uses up a token, of which there are finitely many:

* `MarkState.markNode_eq`, `MarkState.needType_eq`, `MarkState.needMethod_eq`,
  `MarkState.openField_eq`: the operations;
* `MarkState.OfferSteps`: how states are related by offering overrides, in whatever order;
* `MarkState.unmarked`, `MarkState.unscheduled`, `MarkState.unexpanded`: the tokens that are left;
* `MarkState.Spends`: what steps cost, from whatever state they start.
-/

namespace CilTrim

theorem mem_insert_token {set : TokenSet} {t node : Token} :
    t ∈ set.insert node ↔ t = node ∨ t ∈ set := by
  rw [Std.ExtTreeSet.mem_insert, Std.compare_eq_iff_eq, eq_comm]

theorem insert_token_of_mem {set : TokenSet} {node : Token} (h : node ∈ set) :
    set.insert node = set := by
  apply Std.ExtTreeSet.ext_mem
  intro t
  rw [mem_insert_token]
  exact ⟨fun ht => ht.elim (fun e => e ▸ h) id, .inr⟩

namespace MarkState

variable {st : MarkState} {t : Token} {reason : Reason}

/-! ## What the operations set -/

/-- What a node adds to the count of marks. -/
def fresh (st : MarkState) (t : Token) : Nat :=
  if st.marks.isMarked t then 0 else 1

theorem markNode_eq : st.markNode t reason =
    { st with marks := st.marks.mark t reason, newMarks := st.newMarks + st.fresh t } := by
  unfold markNode fresh Marks.mark
  split <;> rfl

theorem needType_eq : st.needType t reason =
    { st with
      marks := st.marks.mark t reason
      newMarks := st.newMarks + st.fresh t
      scheduled := st.scheduled.insert t
      types := if t ∈ st.scheduled then st.types else st.types.push t } := by
  unfold needType schedule
  rw [markNode_eq]
  dsimp only
  split <;> rename_i h
  · rw [insert_token_of_mem h]
  · rfl

theorem needMethod_eq : st.needMethod t reason =
    { st with
      marks := (st.marks.ensureParsed t).mark t reason
      newMarks := st.newMarks + st.fresh t
      methods := if st.marks.isMarked t then st.methods else st.methods.push t } := by
  unfold needMethod fresh
  split <;> rename_i h
  · rw [Marks.mark, if_pos (by rwa [Marks.isMarked_ensureParsed])]
    rfl
  · dsimp only
    rw [markNode_eq, fresh]
    dsimp only
    rw [Marks.isMarked_ensureParsed, if_neg h]

/-- A field is marked and opened. A definition is counted the first time. -/
def openField (m : Model) (st : MarkState) (t : Token) (reason : Reason) : MarkState :=
  { st.markNode t reason with
    expandedFields := st.expandedFields.insert t
    stats :=
      if t ∉ st.expandedFields ∧ (m.field? t).isSome then
        { st.stats with fieldsExpanded := st.stats.fieldsExpanded + 1 }
      else st.stats }

theorem openField_eq {m : Model} : st.openField m t reason =
    { st with
      marks := st.marks.mark t reason
      newMarks := st.newMarks + st.fresh t
      expandedFields := st.expandedFields.insert t
      stats :=
        if t ∉ st.expandedFields ∧ (m.field? t).isSome then
          { st.stats with fieldsExpanded := st.stats.fieldsExpanded + 1 }
        else st.stats } := by
  unfold openField
  rw [markNode_eq]

/-- A field that was opened before is only marked. -/
theorem openField_of_mem {m : Model} (h : t ∈ st.expandedFields) :
    st.openField m t reason = st.markNode t reason := by
  rw [openField_eq, markNode_eq, insert_token_of_mem h, if_neg (fun h' => h'.1 h)]

/-- A field without a definition is not counted. -/
theorem openField_of_none {m : Model} (hf : m.field? t = none) :
    st.openField m t reason =
      { st.markNode t reason with expandedFields := st.expandedFields.insert t } := by
  rw [openField_eq, markNode_eq, if_neg (fun h' => by rw [hf] at h'; cases h'.2)]

/-- A field that is opened for the first time is counted. -/
theorem openField_of_some {m : Model} {f : FieldDef} (h : t ∉ st.expandedFields)
    (hf : m.field? t = some f) :
    st.openField m t reason =
      MarkState.count
        { st.markNode t reason with expandedFields := st.expandedFields.insert t }
        fun c => { c with fieldsExpanded := c.fieldsExpanded + 1 } := by
  rw [openField_eq, markNode_eq, if_pos ⟨h, by rw [hf]; rfl⟩]
  rfl

theorem marked_markNode : (st.markNode t reason).marks.isMarked t = true := by
  rw [markNode_eq]
  exact Marks.isMarked_mark.mpr (.inl rfl)

theorem marked_needType : (st.needType t reason).marks.isMarked t = true := by
  rw [needType_eq]
  exact Marks.isMarked_mark.mpr (.inl rfl)

theorem marked_needMethod : (st.needMethod t reason).marks.isMarked t = true := by
  rw [needMethod_eq]
  exact Marks.isMarked_mark.mpr (.inl rfl)

/-- A method that is asked for has an action. -/
theorem action_needMethod : (st.needMethod t reason).marks.methodAction t ≠ .nothing := by
  rw [needMethod_eq]
  dsimp only
  rw [Marks.methodAction_mark]
  exact Marks.methodAction_ensureParsed_ne (.inl rfl)

/-- Marking a node opens no field and no assembly. -/
theorem unopened_markNode : (st.markNode t reason).expandedFields = st.expandedFields ∧
    (st.markNode t reason).seenAssemblies = st.seenAssemblies := by
  rw [markNode_eq]
  exact ⟨rfl, rfl⟩

theorem unopened_needType : (st.needType t reason).expandedFields = st.expandedFields ∧
    (st.needType t reason).seenAssemblies = st.seenAssemblies := by
  rw [needType_eq]
  exact ⟨rfl, rfl⟩

end MarkState

/-! ## Offers -/

namespace MarkState

/-- A relation between earlier and later states that holds across each step of offering overrides:
counting, marking an override, letting one wait, registering a method, and taking up overrides that
waited. -/
structure OfferSteps (R : MarkState → MarkState → Prop) : Prop where
  refl (st : MarkState) : R st st
  trans {st st' st'' : MarkState} : R st st' → R st' st'' → R st st''
  count (st : MarkState) (change : MarkStats → MarkStats) : R st (st.count change)
  method (st : MarkState) (t : Token) (reason : Reason) : R st (st.needMethod t reason)
  park (st : MarkState) (entry : Parked) : R st (st.park entry)
  virtual (st : MarkState) (t : Token) : R st { st with virtuals := st.virtuals ++ [t] }
  unpark (st : MarkState) (keep : Parked → Bool) :
    R st { st with parked := st.parked.filter keep }

namespace OfferSteps

variable {R : MarkState → MarkState → Prop} (steps : OfferSteps R) (m : Model)
  (table : OverrideTable)

include steps

theorem offer (base o : Token) (st : MarkState) : R st (st.offer m base o).2 := by
  unfold MarkState.offer
  cases m.declaringTypeOf? o with
  | none => exact steps.refl st
  | some type =>
    dsimp only
    split
    · exact steps.park st _
    · split
      · exact steps.refl st
      · exact steps.trans (steps.count st _) (steps.method _ o _)

theorem offerAll (base : Token) (os acc : List Token) (st : MarkState) :
    R st (MarkState.offerAll m base os (acc, st)).2 := by
  induction os generalizing acc st with
  | nil => exact steps.refl st
  | cons o rest ih => exact steps.trans (steps.offer m base o st) (ih _ _)

theorem spreadFrom (fuel : Nat) (stack : List Token) (st : MarkState) :
    R st (MarkState.spreadFrom m table fuel stack st) := by
  induction fuel generalizing stack st with
  | zero => exact steps.refl st
  | succ fuel ih =>
    cases stack with
    | nil => exact steps.refl st
    | cons base stack => exact steps.trans (steps.offerAll m base _ [] st) (ih _ _)

theorem spread (method : Token) (st : MarkState) : R st (MarkState.spread m table method st) :=
  steps.spreadFrom m table _ _ st

theorem register (method : Token) (st : MarkState) :
    R st (MarkState.register m table method st) := by
  unfold MarkState.register
  split
  · exact steps.refl st
  · exact steps.trans (steps.virtual st method) (steps.spread m table method _)

theorem release (entries : List Parked) (st : MarkState) :
    R st (MarkState.release m table entries st) := by
  induction entries generalizing st with
  | nil => exact steps.refl st
  | cons entry rest ih =>
    have hoffer : R st (st.offer m entry.base entry.overrider).2 := steps.offer m _ _ st
    unfold MarkState.release
    dsimp only
    split
    · exact steps.trans (steps.trans hoffer (steps.spread m table _ _)) (ih _)
    · exact steps.trans hoffer (ih _)

theorem arrive (type : Token) (st : MarkState) : R st (MarkState.arrive m table type st) :=
  steps.trans (steps.unpark st _) (steps.release m table _ _)

theorem spreadAll (bases : List Token) (st : MarkState) :
    R st (bases.foldl (fun st base => MarkState.spread m table base st) st) := by
  induction bases generalizing st with
  | nil => exact steps.refl st
  | cons base rest ih => exact steps.trans (steps.spread m table base st) (ih _)

end OfferSteps

end MarkState

/-! ## Tokens that are left -/

namespace MarkState

/-- The tokens that are not marked. -/
noncomputable def unmarked (st : MarkState) : Nat :=
  Token.free (st.marks.isMarked · = true)

/-- The tokens that have not been scheduled. -/
noncomputable def unscheduled (st : MarkState) : Nat :=
  Token.free (· ∈ st.scheduled)

/-- The tokens that have not been expanded as fields or seen as assemblies. -/
noncomputable def unexpanded (st : MarkState) : Nat :=
  Token.free (· ∈ st.expandedFields) + Token.free (· ∈ st.seenAssemblies)

/-- What enters a queue or is counted as marked uses up a token, and so does what is opened. -/
structure Spends (st st' : MarkState) : Prop where
  types : st'.types.toList.length + st'.unscheduled ≤ st.types.toList.length + st.unscheduled
  methods : st'.methods.toList.length + st.newMarks ≤ st.methods.toList.length + st'.newMarks
  marks : st'.newMarks + st'.unmarked ≤ st.newMarks + st.unmarked
  counted : st.newMarks ≤ st'.newMarks
  opened : st'.unexpanded ≤ st.unexpanded

theorem Spends.refl (st : MarkState) : Spends st st where
  types := Nat.le_refl _
  methods := Nat.le_refl _
  marks := Nat.le_refl _
  counted := Nat.le_refl _
  opened := Nat.le_refl _

theorem Spends.trans {st st' st'' : MarkState} (h₁ : Spends st st') (h₂ : Spends st' st'') :
    Spends st st'' where
  types := h₂.types.trans h₁.types
  methods := by
    have := h₁.methods
    have := h₂.methods
    omega
  marks := h₂.marks.trans h₁.marks
  counted := h₁.counted.trans h₂.counted
  opened := h₂.opened.trans h₁.opened

/-- Steps that spend nothing on types: only methods enter a queue, and nothing is opened. -/
structure Adds (st st' : MarkState) : Prop extends Spends st st' where
  types_eq : st'.types = st.types
  expanded_eq : st'.expandedFields = st.expandedFields
  seen_eq : st'.seenAssemblies = st.seenAssemblies

theorem Adds.refl (st : MarkState) : Adds st st := ⟨.refl st, rfl, rfl, rfl⟩

theorem Adds.trans {st st' st'' : MarkState} (h₁ : Adds st st') (h₂ : Adds st' st'') :
    Adds st st'' :=
  ⟨h₁.toSpends.trans h₂.toSpends, h₂.types_eq.trans h₁.types_eq,
    h₂.expanded_eq.trans h₁.expanded_eq, h₂.seen_eq.trans h₁.seen_eq⟩

variable {st st' : MarkState} {t : Token} {reason : Reason}

/-- Marking a node uses up a token, if it was not marked before. -/
theorem unmarked_fresh
    (h : ∀ x, st'.marks.isMarked x = true ↔ x = t ∨ st.marks.isMarked x = true) :
    st'.unmarked + st.fresh t = st.unmarked := by
  unfold fresh unmarked
  split <;> rename_i ht
  · rw [Nat.add_zero]
    congr 1
    ext x
    rw [h]
    exact ⟨fun hx => hx.elim (fun e => e ▸ ht) id, .inr⟩
  · exact Token.free_insert ht h

/-- Marking a node, and putting at most a newly marked one into the queue of methods. -/
theorem Spends.of_mark
    (marked : ∀ x, st'.marks.isMarked x = true ↔ x = t ∨ st.marks.isMarked x = true)
    (newMarks : st'.newMarks = st.newMarks + st.fresh t)
    (methods : st'.methods.toList.length ≤ st.methods.toList.length + st.fresh t)
    (types : st'.types.toList.length + st'.unscheduled ≤ st.types.toList.length + st.unscheduled)
    (opened : st'.unexpanded ≤ st.unexpanded) : Spends st st' := by
  have := unmarked_fresh marked
  exact ⟨types, by omega, by omega, by omega, opened⟩

theorem unscheduled_insert :
    (if t ∈ st.scheduled then st.types else st.types.push t).toList.length +
      Token.free (· ∈ st.scheduled.insert t) = st.types.toList.length + st.unscheduled := by
  unfold unscheduled
  split <;> rename_i ht
  · rw [insert_token_of_mem ht]
  · have : Token.free (· ∈ st.scheduled.insert t) + 1 = Token.free (· ∈ st.scheduled) :=
      Token.free_insert ht fun _ => mem_insert_token
    rw [Fifo.toList_push, List.length_append, List.length_singleton]
    omega

theorem adds_markNode : st.Adds (st.markNode t reason) := by
  rw [markNode_eq]
  refine ⟨.of_mark (fun _ => Marks.isMarked_mark) rfl (Nat.le_add_right _ _) ?_ ?_, rfl, rfl, rfl⟩
  · exact Nat.le_refl _
  · exact Nat.le_refl _

theorem spends_needType : st.Spends (st.needType t reason) := by
  rw [needType_eq]
  exact .of_mark (fun _ => Marks.isMarked_mark) rfl (Nat.le_add_right _ _)
    unscheduled_insert.le (Nat.le_refl _)

theorem adds_needMethod : st.Adds (st.needMethod t reason) := by
  rw [needMethod_eq]
  refine ⟨.of_mark (fun x => ?_) rfl ?_ (Nat.le_refl _) (Nat.le_refl _), rfl, rfl, rfl⟩
  · rw [Marks.isMarked_mark, Marks.isMarked_ensureParsed]
  · unfold fresh
    dsimp only
    split
    · exact Nat.le_refl _
    · rw [Fifo.toList_push, List.length_append, List.length_singleton]

theorem adds_count {change : MarkStats → MarkStats} : st.Adds (st.count change) :=
  ⟨{ Spends.refl st with }, rfl, rfl, rfl⟩

theorem adds_park {entry : Parked} : st.Adds (st.park entry) := by
  unfold park
  split
  · exact .refl st
  · exact ⟨{ Spends.refl st with }, rfl, rfl, rfl⟩

/-- Finishing a method may mark it, which is not counted. -/
theorem spends_setProcessed : st.Spends { st with marks := st.marks.setProcessed t } :=
  { Spends.refl st with
    marks := Nat.add_le_add_left
      (Token.free_mono fun _ h => Marks.isMarked_setProcessed.mpr (.inr h)) _ }

end MarkState

end CilTrim
