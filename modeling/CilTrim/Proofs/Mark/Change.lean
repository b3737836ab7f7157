import CilTrim.Proofs.Mark.Kinds
import CilTrim.Proofs.Mark.State

/-!
# Changes of the state

Whatever a step of marking does is made of a few changes, each of which marks or finishes a
definition for a reason. All that is known of runs follows from what one change does:

* `Setting.Change`: one change, which marks definitions of a set only;
* `MarkState.Grows`: nothing is lost, and what is newly marked is queued or done;
* `MarkState.Counts`: what is newly marked is counted;
* `Setting.Within`: everything that the state holds is in the set;
* `Setting.Admits`: the sets that no rule leads out of, whatever the overrides.
-/

namespace CilTrim

/-! ## Changes -/

/-- A change of counts that leaves alone how many definitions have been expanded or processed, and
in how many rounds. -/
def MarkStats.Incidental (change : MarkStats → MarkStats) : Prop :=
  ∀ c, (change c).typesExpanded = c.typesExpanded ∧
    (change c).fieldsExpanded = c.fieldsExpanded ∧
    (change c).methodsProcessed = c.methodsProcessed ∧ (change c).rounds = c.rounds

namespace Setting

/-- The overrides of a method are looked at: it is virtual, or it is an override itself. -/
def Overridable (s : Setting) (t : Token) : Prop :=
  s.model.IsVirtual t ∨ ∃ base, t ∈ s.overrides.overridesOf base

/-- In the table of a model, only virtual methods override. -/
theorem Regular.isVirtual {s : Setting} (h : s.Regular) {t : Token} (ht : s.Overridable t) :
    s.model.IsVirtual t := by
  rcases ht with hv | ⟨base, hb⟩
  · exact hv
  · have he := OverrideTable.mem_overridesOf.mp hb
    rw [h.overrides_eq] at he
    exact (OverrideTable.ofModel_methods h.wellFormed he).2

/-- An override of a method of a set, which waits for its type. -/
structure Waits (s : Setting) (S : Token → Prop) (entry : Parked) : Prop where
  base : S entry.base
  overridable : s.Overridable entry.base
  overrides : entry.overrider ∈ s.overrides.overridesOf entry.base

/-- One change that offering overrides makes: an override is marked, or it waits. -/
inductive Offer (s : Setting) (S : Token → Prop) (st : MarkState) : MarkState → Prop where
  | count {change : MarkStats → MarkStats} : MarkStats.Incidental change →
    Offer s S st (st.count change)
  | method {t : Token} {reason : Reason} : S t →
    (s.NamesMethods → (s.model.method? t).isSome) → Offer s S st (st.needMethod t reason)
  | register {t : Token} : st.marks.isMarked t = true → s.model.IsVirtual t →
    Offer s S st { st with virtuals := st.virtuals ++ [t] }
  | park {entry : Parked} : s.Waits S entry → ¬ st.marks.isMarked entry.type = true →
    Offer s S st (st.park entry)
  | unpark (keep : Parked → Bool) : Offer s S st { st with parked := st.parked.filter keep }

/-- One change of the state. It marks definitions of `S` only, and finishes methods of `own`
only. -/
inductive Change (s : Setting) (S own : Token → Prop) (st : MarkState) : MarkState → Prop where
  | offer {st' : MarkState} : s.Offer S st st' → Change s S own st st'
  | node {t : Token} {reason : Reason} : S t → t.IsPlain → Change s S own st (st.markNode t reason)
  | type {t : Token} {reason : Reason} : S t → t.isIn .typeDef = true →
    Change s S own st (st.needType t reason)
  | field {t : Token} {reason : Reason} : S t → t.isIn .field = true →
    Change s S own st (st.openField s.model t reason)
  | assembly (t : Token) :
    Change s S own st { st with seenAssemblies := st.seenAssemblies.insert t }
  | finished {t : Token} : own t → st.marks.isMarked t = true →
    Change s S own st { st with marks := st.marks.setProcessed t }

/-- Offers, one after another. -/
abbrev Offers (s : Setting) (S : Token → Prop) : MarkState → MarkState → Prop :=
  Relation.ReflTransGen (s.Offer S)

/-- Changes, one after another. -/
abbrev Changes (s : Setting) (S own : Token → Prop) : MarkState → MarkState → Prop :=
  Relation.ReflTransGen (s.Change S own)

end Setting

namespace MarkState

/-! ## Growth -/

/-- A marked node whose needs are queued or done, or that has none. -/
inductive Covered (st : MarkState) (t : Token) : Prop where
  | plain : t.IsPlain → Covered st t
  | scheduled : t.isIn .typeDef = true → t ∈ st.scheduled → Covered st t
  | expanded : t.isIn .field = true → t ∈ st.expandedFields → Covered st t
  | queued : t ∈ st.methods.toList → Covered st t

/-- Nothing is lost, and what is newly marked is queued or done. -/
structure Grows (own : Token → Prop) (st st' : MarkState) : Prop where
  marked {t : Token} : st.marks.isMarked t = true → st'.marks.isMarked t = true
  processed {t : Token} : st.marks.isProcessed t = true → st'.marks.isProcessed t = true
  action {t : Token} : st.marks.methodAction t ≠ .nothing → st'.marks.methodAction t ≠ .nothing
  scheduled {t : Token} : t ∈ st.scheduled → t ∈ st'.scheduled
  expanded {t : Token} : t ∈ st.expandedFields → t ∈ st'.expandedFields
  seen {t : Token} : t ∈ st.seenAssemblies → t ∈ st'.seenAssemblies
  virtuals {t : Token} : t ∈ st.virtuals → t ∈ st'.virtuals
  types {t : Token} : t ∈ st.types.toList → t ∈ st'.types.toList
  methods {t : Token} : t ∈ st.methods.toList → t ∈ st'.methods.toList
  covered {t : Token} : ¬ st.marks.isMarked t = true → st'.marks.isMarked t = true → st'.Covered t
  queued {t : Token} : t ∉ st.scheduled → t ∈ st'.scheduled → t ∈ st'.types.toList
  finished {t : Token} : ¬ st.marks.isProcessed t = true → st'.marks.isProcessed t = true → own t

namespace Grows

variable {own : Token → Prop} {st st' st'' : MarkState}

theorem refl (own : Token → Prop) (st : MarkState) : Grows own st st where
  marked := id
  processed := id
  action := id
  scheduled := id
  expanded := id
  seen := id
  virtuals := id
  types := id
  methods := id
  covered h h' := absurd h' h
  queued h h' := absurd h' h
  finished h h' := absurd h' h

theorem covered_mono (h : Grows own st st') {t : Token} (hc : st.Covered t) : st'.Covered t := by
  cases hc with
  | plain hp => exact .plain hp
  | scheduled hi hs => exact .scheduled hi (h.scheduled hs)
  | expanded hi he => exact .expanded hi (h.expanded he)
  | queued hm => exact .queued (h.methods hm)

theorem trans (h₁ : Grows own st st') (h₂ : Grows own st' st'') : Grows own st st'' where
  marked h := h₂.marked (h₁.marked h)
  processed h := h₂.processed (h₁.processed h)
  action h := h₂.action (h₁.action h)
  scheduled h := h₂.scheduled (h₁.scheduled h)
  expanded h := h₂.expanded (h₁.expanded h)
  seen h := h₂.seen (h₁.seen h)
  virtuals h := h₂.virtuals (h₁.virtuals h)
  types h := h₂.types (h₁.types h)
  methods h := h₂.methods (h₁.methods h)
  covered {t} h h' := by
    by_cases hm : st'.marks.isMarked t = true
    · exact h₂.covered_mono (h₁.covered h hm)
    · exact h₂.covered hm h'
  queued {t} h h' := by
    by_cases hs : t ∈ st'.scheduled
    · exact h₂.types (h₁.queued h hs)
    · exact h₂.queued hs h'
  finished {t} h h' := by
    by_cases hp : st'.marks.isProcessed t = true
    · exact h₁.finished h hp
    · exact h₂.finished hp h'

end Grows

end MarkState

namespace Setting

variable {s : Setting} {S own : Token → Prop} {st st' : MarkState}

theorem Offer.grows (own : Token → Prop) (h : s.Offer S st st') : st.Grows own st' := by
  cases h with
  | count change => exact { MarkState.Grows.refl own st with covered := fun h h' => absurd h' h }
  | method hS hm =>
    rw [MarkState.needMethod_eq]
    exact { MarkState.Grows.refl own st with
      marked := fun h => by
        rw [Marks.isMarked_mark, Marks.isMarked_ensureParsed]
        exact .inr h
      processed := fun h => by rwa [Marks.isProcessed_mark, Marks.isProcessed_ensureParsed]
      action := fun h => by
        rw [Marks.methodAction_mark]
        exact Marks.methodAction_ensureParsed_ne (.inr h)
      methods := fun h => by
        dsimp only
        split
        · exact h
        · rw [Fifo.toList_push]
          exact List.mem_append_left _ h
      covered := fun h h' => by
        rw [Marks.isMarked_mark, Marks.isMarked_ensureParsed] at h'
        cases h'.resolve_right h
        refine .queued ?_
        dsimp only
        rw [if_neg h, Fifo.toList_push]
        exact List.mem_append_right _ (List.mem_singleton_self _)
      finished := fun h h' =>
        absurd (by rwa [Marks.isProcessed_mark, Marks.isProcessed_ensureParsed] at h') h }
  | register hm hv =>
    exact { MarkState.Grows.refl own st with
      virtuals := fun h => List.mem_append_left _ h
      covered := fun h h' => absurd h' h }
  | park =>
    unfold MarkState.park
    split
    · exact .refl own st
    · exact { MarkState.Grows.refl own st with covered := fun h h' => absurd h' h }
  | unpark keep => exact { MarkState.Grows.refl own st with covered := fun h h' => absurd h' h }

/-- A change loses nothing. -/
theorem Change.grows (h : s.Change S own st st') : st.Grows own st' := by
  cases h with
  | offer h => exact h.grows own
  | node hS hp =>
    rw [MarkState.markNode_eq]
    exact { MarkState.Grows.refl own st with
      marked := fun h => Marks.isMarked_mark.mpr (.inr h)
      processed := fun h => by rwa [Marks.isProcessed_mark]
      action := fun h => by rwa [Marks.methodAction_mark]
      covered := fun h h' => .plain (((Marks.isMarked_mark.mp h').resolve_right h) ▸ hp)
      finished := fun h h' => absurd (by rwa [Marks.isProcessed_mark] at h') h }
  | type hS hi =>
    rw [MarkState.needType_eq]
    exact { MarkState.Grows.refl own st with
      marked := fun h => Marks.isMarked_mark.mpr (.inr h)
      processed := fun h => by rwa [Marks.isProcessed_mark]
      action := fun h => by rwa [Marks.methodAction_mark]
      scheduled := fun h => mem_insert_token.mpr (.inr h)
      types := fun h => by
        dsimp only
        split
        · exact h
        · rw [Fifo.toList_push]
          exact List.mem_append_left _ h
      covered := fun h h' => by
        cases (Marks.isMarked_mark.mp h').resolve_right h
        exact .scheduled hi (mem_insert_token.mpr (.inl rfl))
      queued := fun h h' => by
        cases (mem_insert_token.mp h').resolve_right h
        dsimp only
        rw [if_neg h, Fifo.toList_push]
        exact List.mem_append_right _ (List.mem_singleton_self _)
      finished := fun h h' => absurd (by rwa [Marks.isProcessed_mark] at h') h }
  | field hS hi =>
    rw [MarkState.openField_eq]
    exact { MarkState.Grows.refl own st with
      marked := fun h => Marks.isMarked_mark.mpr (.inr h)
      processed := fun h => by rwa [Marks.isProcessed_mark]
      action := fun h => by rwa [Marks.methodAction_mark]
      expanded := fun h => mem_insert_token.mpr (.inr h)
      covered := fun h h' => by
        cases (Marks.isMarked_mark.mp h').resolve_right h
        exact .expanded hi (mem_insert_token.mpr (.inl rfl))
      finished := fun h h' => absurd (by rwa [Marks.isProcessed_mark] at h') h }
  | assembly t =>
    exact { MarkState.Grows.refl own st with
      seen := fun h => mem_insert_token.mpr (.inr h)
      covered := fun h h' => absurd h' h }
  | finished ho hm =>
    exact { MarkState.Grows.refl own st with
      marked := fun h => Marks.isMarked_setProcessed.mpr (.inr h)
      processed := fun h => Marks.isProcessed_setProcessed.mpr (.inr h)
      covered := fun h h' => by
        rcases Marks.isMarked_setProcessed.mp h' with rfl | h'
        · exact absurd hm h
        · exact absurd h' h
      finished := fun h h' => (Marks.isProcessed_setProcessed.mp h').resolve_right h ▸ ho }

/-- Changes lose nothing. -/
theorem Changes.grows (h : s.Changes S own st st') : st.Grows own st' := by
  induction h with
  | refl => exact .refl own st
  | tail _ h ih => exact ih.trans h.grows

end Setting

/-! ## Counts -/

namespace MarkState

/-- Marks are kept, and new ones are counted. -/
structure Counts (st st' : MarkState) : Prop where
  marked {t : Token} : st.marks.isMarked t = true → st'.marks.isMarked t = true
  balance : st'.newMarks + st'.unmarked = st.newMarks + st.unmarked

variable {st st' : MarkState} {t : Token}

theorem Counts.refl (st : MarkState) : Counts st st := ⟨id, rfl⟩

theorem Counts.trans {st'' : MarkState} (h₁ : Counts st st') (h₂ : Counts st' st'') :
    Counts st st'' :=
  ⟨fun h => h₂.marked (h₁.marked h), h₂.balance.trans h₁.balance⟩

/-- If nothing was counted as marked, then nothing was marked, and conversely. -/
theorem Counts.newMarks_eq_iff (h : Counts st st') :
    st'.newMarks = st.newMarks ↔
      ∀ t, st'.marks.isMarked t = true → st.marks.isMarked t = true := by
  have := h.balance
  constructor
  · intro hn t ht
    by_contra hm
    have lt : st'.unmarked < st.unmarked := Token.free_lt (fun _ => h.marked) hm ht
    omega
  · intro hback
    have le : st.unmarked ≤ st'.unmarked := Token.free_mono hback
    have ge : st'.unmarked ≤ st.unmarked := Token.free_mono fun _ => h.marked
    omega

theorem Counts.of_mark
    (marked : ∀ x, st'.marks.isMarked x = true ↔ x = t ∨ st.marks.isMarked x = true)
    (newMarks : st'.newMarks = st.newMarks + st.fresh t) : Counts st st' := by
  have := unmarked_fresh marked
  exact ⟨fun h => (marked _).mpr (.inr h), by omega⟩

end MarkState

namespace Setting

variable {s : Setting} {S own : Token → Prop} {st st' : MarkState}

theorem Offer.counts (h : s.Offer S st st') : st.Counts st' := by
  cases h with
  | method =>
    rw [MarkState.needMethod_eq]
    refine .of_mark (fun x => ?_) rfl
    rw [Marks.isMarked_mark, Marks.isMarked_ensureParsed]
  | park =>
    unfold MarkState.park
    split
    · exact .refl st
    · exact ⟨id, rfl⟩
  | _ => exact ⟨id, rfl⟩

/-- A change counts what it marks. -/
theorem Change.counts (h : s.Change S own st st') : st.Counts st' := by
  cases h with
  | offer h => exact h.counts
  | node =>
    rw [MarkState.markNode_eq]
    exact .of_mark (fun _ => Marks.isMarked_mark) rfl
  | type =>
    rw [MarkState.needType_eq]
    exact .of_mark (fun _ => Marks.isMarked_mark) rfl
  | field =>
    rw [MarkState.openField_eq]
    exact .of_mark (fun _ => Marks.isMarked_mark) rfl
  | assembly => exact ⟨id, rfl⟩
  | finished ho hm =>
    refine .of_mark (fun _ => Marks.isMarked_setProcessed) ?_
    rw [MarkState.fresh, if_pos hm]
    rfl

theorem Changes.counts (h : s.Changes S own st st') : st.Counts st' := by
  induction h with
  | refl => exact .refl st
  | tail _ h ih => exact ih.trans h.counts

/-! ## Rounds and overrides that wait -/

/-- Nothing but a new round is counted as one. -/
theorem Change.rounds (h : s.Change S own st st') : st'.stats.rounds = st.stats.rounds := by
  cases h with
  | offer h =>
    cases h with
    | count hchange => exact (hchange st.stats).2.2.2
    | method => rw [MarkState.needMethod_eq]
    | park => unfold MarkState.park; split <;> rfl
    | _ => rfl
  | node => rw [MarkState.markNode_eq]
  | type => rw [MarkState.needType_eq]
  | field => rw [MarkState.openField_eq]; dsimp only; split <;> rfl
  | _ => rfl

theorem Changes.rounds (h : s.Changes S own st st') : st'.stats.rounds = st.stats.rounds := by
  induction h with
  | refl => rfl
  | tail _ h ih => exact h.rounds.trans ih

/-- What starts to wait waits for a type that is not marked. -/
theorem Change.parked (h : s.Change S own st st') {e : Parked} (he : e ∈ st'.parked) :
    e ∈ st.parked ∨ ¬ st'.marks.isMarked e.type = true := by
  cases h with
  | offer h =>
    cases h with
    | method => rw [MarkState.needMethod_eq] at he; exact .inl he
    | park _ hm =>
      unfold MarkState.park at he ⊢
      split at he <;> rename_i hany
      · exact .inl he
      · rw [if_neg hany]
        rcases List.mem_append.mp he with he | he
        · exact .inl he
        · cases List.mem_singleton.mp he
          exact .inr hm
    | unpark keep => exact .inl (List.mem_filter.mp he).1
    | _ => exact .inl he
  | node => rw [MarkState.markNode_eq] at he; exact .inl he
  | type => rw [MarkState.needType_eq] at he; exact .inl he
  | field => rw [MarkState.openField_eq] at he; exact .inl he
  | _ => exact .inl he

/-! ## Sets that hold everything -/

/-- What is known of a method that waits: if it is none of the model, then it was not marked when
the run started. -/
structure Awaits (s : Setting) (marks now : Marks) (t : Token) : Prop where
  marked : now.isMarked t = true
  action : now.methodAction t ≠ .nothing
  isMethod : s.NamesMethods → (s.model.method? t).isSome
  known : (s.model.method? t).isSome ∨ ¬ marks.isMarked t = true

/-- Everything that a state holds is in a set, and the actions of methods are those at the start,
with parsing added. -/
structure Within (s : Setting) (marks : Marks) (S : Token → Prop) (st : MarkState) : Prop where
  marked {t : Token} : st.marks.isMarked t = true → S t
  roots {t : Token} : marks.isMarked t = true → st.marks.isMarked t = true
  actions {t : Token} : marks.methodAction t ≠ .nothing → st.marks.methodAction t ≠ .nothing
  types {t : Token} : t ∈ st.types.toList → S t
  methods {t : Token} : t ∈ st.methods.toList → s.Awaits marks st.marks t
  scheduled {t : Token} : t ∈ st.scheduled → st.marks.isMarked t = true
  expanded {t : Token} : t ∈ st.expandedFields → st.marks.isMarked t = true
  virtuals {t : Token} : t ∈ st.virtuals → st.marks.isMarked t = true ∧ s.model.IsVirtual t
  parked {entry : Parked} : entry ∈ st.parked → s.Waits S entry
  forced (t : Token) : st.marks.methodAction t = .forceParse ↔
    marks.methodAction t = .forceParse

variable {marks : Marks}

theorem Awaits.grows {t : Token} (h : s.Awaits marks st.marks t) (hg : st.Grows own st') :
    s.Awaits marks st'.marks t :=
  { h with
    marked := hg.marked h.marked
    action := hg.action h.action }

theorem Within.offer (h : s.Within marks S st) (hc : s.Offer S st st') : s.Within marks S st' := by
  have hg := hc.grows fun _ => False
  cases hc with
  | count change => exact { h with }
  | @method t reason hS hm =>
    rw [MarkState.needMethod_eq] at hg ⊢
    exact { h with
      marked := fun ht => by
        rw [Marks.isMarked_mark, Marks.isMarked_ensureParsed] at ht
        exact ht.elim (fun e => e ▸ hS) h.marked
      roots := fun ht => hg.marked (h.roots ht)
      actions := fun ht => hg.action (h.actions ht)
      methods := fun {x} hx => by
        by_cases hq : x ∈ st.methods.toList
        · exact (h.methods hq).grows hg
        · dsimp only at hx
          split at hx
          · exact absurd hx hq
          · rename_i hnew
            rw [Fifo.toList_push, List.mem_append, List.mem_singleton] at hx
            cases hx.resolve_left hq
            refine ⟨Marks.isMarked_mark.mpr (.inl rfl), ?_, hm, .inr fun ht => hnew (h.roots ht)⟩
            rw [Marks.methodAction_mark]
            exact Marks.methodAction_ensureParsed_ne (.inl rfl)
      scheduled := fun ht => hg.marked (h.scheduled ht)
      expanded := fun ht => hg.marked (h.expanded ht)
      virtuals := fun ht => (h.virtuals ht).imp_left hg.marked
      forced := fun t => by
        rw [Marks.methodAction_mark, Marks.methodAction_ensureParsed_forced]
        exact h.forced t }
  | register hm hv =>
    exact { h with
      virtuals := fun ht => by
        rw [List.mem_append, List.mem_singleton] at ht
        rcases ht with ht | rfl
        · exact h.virtuals ht
        · exact ⟨hm, hv⟩ }
  | park hw _ =>
    unfold MarkState.park at hg ⊢
    split
    · exact h
    · exact { h with
        parked := fun he => by
          rw [List.mem_append, List.mem_singleton] at he
          exact he.elim h.parked fun e => e ▸ hw }
  | unpark keep =>
    exact { h with parked := fun he => h.parked (List.mem_filter.mp he).1 }

/-- Marking a node of the set, with no method put into its queue, keeps everything in the set. -/
theorem Within.mark (h : s.Within marks S st) {t : Token} {reason : Reason} (hS : S t)
    (hg : st.Grows own st') (marks_eq : st'.marks = st.marks.mark t reason)
    (types : ∀ {x}, x ∈ st'.types.toList → x = t ∨ x ∈ st.types.toList)
    (methods : st'.methods = st.methods)
    (scheduled : ∀ {x}, x ∈ st'.scheduled → x = t ∨ x ∈ st.scheduled)
    (expanded : ∀ {x}, x ∈ st'.expandedFields → x = t ∨ x ∈ st.expandedFields)
    (virtuals : st'.virtuals = st.virtuals) (parked : st'.parked = st.parked) :
    s.Within marks S st' where
  marked ht := by
    rw [marks_eq, Marks.isMarked_mark] at ht
    exact ht.elim (fun e => e ▸ hS) h.marked
  roots ht := hg.marked (h.roots ht)
  actions ht := hg.action (h.actions ht)
  types ht := (types ht).elim (fun e => e ▸ hS) h.types
  methods ht := (h.methods (methods ▸ ht)).grows hg
  scheduled ht := by
    rw [marks_eq, Marks.isMarked_mark]
    exact (scheduled ht).imp_right h.scheduled
  expanded ht := by
    rw [marks_eq, Marks.isMarked_mark]
    exact (expanded ht).imp_right h.expanded
  virtuals ht := (h.virtuals (virtuals ▸ ht)).imp_left hg.marked
  parked he := h.parked (parked ▸ he)
  forced t := by
    rw [marks_eq, Marks.methodAction_mark]
    exact h.forced t

theorem Within.change (h : s.Within marks S st) (hc : s.Change S own st st') :
    s.Within marks S st' := by
  have hg := hc.grows
  cases hc with
  | offer hc => exact h.offer hc
  | node hS hp =>
    rw [MarkState.markNode_eq] at hg ⊢
    exact h.mark hS hg rfl .inr rfl .inr .inr rfl rfl
  | type hS hi =>
    rw [MarkState.needType_eq] at hg ⊢
    refine h.mark hS hg rfl (fun hx => ?_) rfl mem_insert_token.mp .inr rfl rfl
    dsimp only at hx
    split at hx
    · exact .inr hx
    · rw [Fifo.toList_push, List.mem_append, List.mem_singleton] at hx
      exact hx.symm
  | field hS hi =>
    rw [MarkState.openField_eq] at hg ⊢
    exact h.mark hS hg rfl .inr rfl .inr mem_insert_token.mp rfl rfl
  | assembly t => exact { h with }
  | finished ho hm =>
    exact { h with
      marked := fun ht =>
        (Marks.isMarked_setProcessed.mp ht).elim (fun e => e ▸ h.marked hm) h.marked
      roots := fun ht => hg.marked (h.roots ht)
      actions := fun ht => hg.action (h.actions ht)
      methods := fun ht => (h.methods ht).grows hg
      scheduled := fun ht => hg.marked (h.scheduled ht)
      expanded := fun ht => hg.marked (h.expanded ht)
      virtuals := fun ht => (h.virtuals ht).imp_left hg.marked }

theorem Offers.changes (own : Token → Prop) (h : s.Offers S st st') : s.Changes S own st st' := by
  induction h with
  | refl => exact .refl
  | tail _ h ih => exact ih.tail (.offer h)

theorem Offers.marked (h : s.Offers S st st') {t : Token} (ht : st.marks.isMarked t = true) :
    st'.marks.isMarked t = true :=
  (h.changes fun _ => False).grows.marked ht

theorem Offers.virtuals (h : s.Offers S st st') {t : Token} (ht : t ∈ st.virtuals) :
    t ∈ st'.virtuals :=
  (h.changes fun _ => False).grows.virtuals ht

/-- Offers open no field and no assembly. -/
theorem Offers.unopened (h : s.Offers S st st') :
    st'.expandedFields = st.expandedFields ∧ st'.seenAssemblies = st.seenAssemblies := by
  induction h with
  | refl => exact ⟨rfl, rfl⟩
  | tail _ h ih =>
    rw [← ih.1, ← ih.2]
    cases h with
    | method => rw [MarkState.needMethod_eq]; exact ⟨rfl, rfl⟩
    | park => unfold MarkState.park; split <;> exact ⟨rfl, rfl⟩
    | _ => exact ⟨rfl, rfl⟩

theorem Within.changes (h : s.Within marks S st) (hc : s.Changes S own st st') :
    s.Within marks S st' := by
  induction hc with
  | refl => exact h
  | tail _ hc ih => exact ih.change hc

theorem Within.offers (h : s.Within marks S st) (hc : s.Offers S st st') : s.Within marks S st' :=
  h.changes (hc.changes fun _ => False)

/-- A method of the queue has an action by which its body is followed as the rules say. -/
theorem Within.parses (h : s.Within marks S st) {t : Token} (ht : t ∈ st.methods.toList) :
    marks.Parses t (st.marks.methodAction t) :=
  ⟨(h.methods ht).action, h.forced t⟩

/-- No rule leads out of a set, and neither do the pairs of the override table: with a method whose
overrides are looked at, the set has those of its overrides whose types it has. -/
structure Admits (s : Setting) (marks : Marks) (S : Token → Prop) : Prop
    extends Formed s, Closed s marks S where
  override {base o type : Token} : S base → s.Overridable base →
    o ∈ s.overrides.overridesOf base → s.model.declaringTypeOf? o = some type → S type → S o

/-- With the table of the model, the rules say it all. -/
theorem Regular.admits (reg : s.Regular) (closed : s.Closed marks S) : s.Admits marks S :=
  { reg.toFormed, closed with
    override := fun hb hv ho hd ht => closed.overrider hb (reg.isVirtual hv) ho hd ht }

/-- The set of all tokens is never left. -/
theorem Formed.admits (formed : s.Formed) : s.Admits marks fun _ => True where
  toFormed := formed
  type _ _ _ := trivial
  field _ _ _ := trivial
  method _ _ _ := trivial
  attributed _ _ := trivial
  overrider _ _ _ _ _ := trivial
  override _ _ _ _ _ := trivial

end Setting

end CilTrim
