import CilTrim.Proofs.Mark.Change

/-!
# Offering overrides

An override is marked only if the rules say so, whatever the order in which its base and its type
got marked; and an offer to a type that is marked marks the override:

* `Setting.Spreads`, `Setting.Offered`: who offers, and what an offer achieves;
* `offer_spec`, `spread_spec`, `spreadAll_spec`, `register_spec`, `arrive_offers`: the operations;
* `spread_quiet`, `spreadAll_quiet`, `arrive_quiet`: when all offers have been made before, making
  them again changes no mark.
-/

namespace CilTrim

namespace Setting

variable {s : Setting} {marks : Marks} {S : Token → Prop} {st st' : MarkState}

/-- A method whose overrides are kept with their types. -/
def Spreads (s : Setting) (S : Token → Prop) (t : Token) : Prop :=
  S t ∧ s.Overridable t

/-- An override is marked if its type was marked when it was offered. -/
def Offered (s : Setting) (st st' : MarkState) (o : Token) : Prop :=
  ∀ type, s.model.declaringTypeOf? o = some type → st.marks.isMarked type = true →
    st'.marks.isMarked o = true

theorem Offered.mono {st₀ st₁ : MarkState} {o : Token} (h : s.Offered st st' o)
    (h₀ : ∀ {t}, st₀.marks.isMarked t = true → st.marks.isMarked t = true)
    (h₁ : ∀ {t}, st'.marks.isMarked t = true → st₁.marks.isMarked t = true) :
    s.Offered st₀ st₁ o :=
  fun type hd hm => h₁ (h type hd (h₀ hm))

section Offers

variable (adm : s.Admits marks S)

include adm

/-- An offer changes the state as the rules allow. -/
theorem offer_spec (hw : s.Within marks S st) {base o : Token} (hb : s.Spreads S base)
    (ho : o ∈ s.overrides.overridesOf base) :
    s.Offers S st (st.offer s.model base o).2 ∧
      ((st.offer s.model base o).1 = true → s.Spreads S o) ∧
      s.Offered st (st.offer s.model base o).2 o := by
  have hv : s.Overridable o := .inr ⟨base, ho⟩
  unfold MarkState.offer
  cases hd : s.model.declaringTypeOf? o with
  | none =>
    refine ⟨.refl, fun h => (by cases h), fun type hd' => ?_⟩
    rw [hd] at hd'
    cases hd'
  | some type =>
    dsimp only
    by_cases ht : st.marks.isMarked type = true
    · have hS : S o := adm.override hb.1 hb.2 ho hd (hw.marked ht)
      rw [if_neg (by simp [ht])]
      by_cases hm : st.marks.isMarked o = true
      · rw [if_pos hm]
        exact ⟨.refl, fun h => (by cases h), fun _ _ _ => hm⟩
      · rw [if_neg hm]
        have hmethod : s.NamesMethods → (s.model.method? o).isSome := fun names =>
          (names.pairs _ (OverrideTable.mem_overridesOf.mp ho)).2
        have hcount : s.Offer S st
            (st.count fun c => { c with overridesPropagated := c.overridesPropagated + 1 }) :=
          .count fun _ => ⟨rfl, rfl, rfl, rfl⟩
        refine ⟨.tail (.single hcount) (.method hS hmethod), fun _ => ⟨hS, hv⟩, ?_⟩
        exact fun _ _ _ => MarkState.marked_needMethod
    · rw [if_pos (by simp [ht])]
      refine ⟨.single (.park ⟨hb.1, hb.2, ho⟩ ht), fun h => (by cases h), fun type' hd' hm => ?_⟩
      rw [hd] at hd'
      cases hd'
      exact absurd hm ht

theorem offerAll_spec {base : Token} (hb : s.Spreads S base) :
    ∀ (os : List Token), (∀ o ∈ os, o ∈ s.overrides.overridesOf base) →
      ∀ (acc : List Token) (st : MarkState), s.Within marks S st → (∀ x ∈ acc, s.Spreads S x) →
        s.Offers S st (MarkState.offerAll s.model base os (acc, st)).2 ∧
          (∀ x ∈ (MarkState.offerAll s.model base os (acc, st)).1, s.Spreads S x) ∧
          ∀ o ∈ os, s.Offered st (MarkState.offerAll s.model base os (acc, st)).2 o
  | [], _, acc, st, _, hacc => ⟨.refl, hacc, fun o ho => by cases ho⟩
  | o :: rest, hos, acc, st, hw, hacc => by
    obtain ⟨hc, hfresh, hoffer⟩ :=
      offer_spec adm hw hb (hos o List.mem_cons_self)
    obtain ⟨hc', hacc', hrest⟩ := offerAll_spec hb rest
      (fun x hx => hos x (List.mem_cons_of_mem _ hx))
      (if (st.offer s.model base o).1 then o :: acc else acc) (st.offer s.model base o).2
      (hw.offers hc) (by
        split
        · rename_i hf
          exact List.forall_mem_cons.mpr ⟨hfresh hf, hacc⟩
        · exact hacc)
    refine ⟨hc.trans hc', hacc', fun x hx => ?_⟩
    rcases List.mem_cons.mp hx with rfl | hx
    · exact hoffer.mono id hc'.marked
    · exact (hrest x hx).mono hc.marked id

theorem spreadFrom_offers : ∀ (fuel : Nat) (stack : List Token) (st : MarkState),
    s.Within marks S st → (∀ x ∈ stack, s.Spreads S x) →
      s.Offers S st (MarkState.spreadFrom s.model s.overrides fuel stack st)
  | 0, _, _, _, _ => .refl
  | fuel + 1, [], _, _, _ => .refl
  | fuel + 1, base :: stack, st, hw, hstack => by
    obtain ⟨hc, hmarked, -⟩ := offerAll_spec adm (hstack base List.mem_cons_self)
      (s.overrides.overridesOf base) (fun _ => id) [] st hw (fun x hx => by cases hx)
    refine hc.trans (spreadFrom_offers fuel _ _ (hw.offers hc) ?_)
    intro x hx
    rcases List.mem_append.mp hx with hx | hx
    · exact hmarked x hx
    · exact hstack x (List.mem_cons_of_mem _ hx)

/-- Spreading from a method offers each of its overrides. -/
theorem spread_spec {t : Token} (hw : s.Within marks S st) (ht : s.Spreads S t) :
    s.Offers S st (MarkState.spread s.model s.overrides t st) ∧
      ∀ o ∈ s.overrides.overridesOf t,
        s.Offered st (MarkState.spread s.model s.overrides t st) o := by
  unfold MarkState.spread
  refine ⟨spreadFrom_offers adm _ _ _ hw (List.forall_mem_singleton.mpr ht), ?_⟩
  intro o ho
  obtain ⟨hc, hmarked, hoffer⟩ := offerAll_spec adm ht
    (s.overrides.overridesOf t) (fun _ => id) [] st hw (fun x hx => by cases hx)
  have hrest := spreadFrom_offers adm Token.count
    ((MarkState.offerAll s.model t (s.overrides.overridesOf t) ([], st)).1 ++ []) _
    (hw.offers hc) (by rwa [List.append_nil])
  exact (hoffer o ho).mono id hrest.marked

/-- Spreading from each method of a list offers the overrides of all of them. -/
theorem spreadAll_spec : ∀ (bases : List Token) (st : MarkState), s.Within marks S st →
    (∀ base ∈ bases, s.Spreads S base) →
      s.Offers S st
          (bases.foldl (fun st base => MarkState.spread s.model s.overrides base st) st) ∧
        ∀ base ∈ bases, ∀ o ∈ s.overrides.overridesOf base, s.Offered st
          (bases.foldl (fun st base => MarkState.spread s.model s.overrides base st) st) o
  | [], _, _, _ => ⟨.refl, fun base hb => by cases hb⟩
  | base :: rest, st, hw, hbases => by
    obtain ⟨hc, hoffer⟩ := spread_spec adm hw (hbases base List.mem_cons_self)
    obtain ⟨hc', hoffer'⟩ := spreadAll_spec rest _ (hw.offers hc)
      fun x hx => hbases x (List.mem_cons_of_mem _ hx)
    refine ⟨hc.trans hc', fun x hx o ho => ?_⟩
    rcases List.mem_cons.mp hx with rfl | hx
    · exact (hoffer o ho).mono id hc'.marked
    · exact (hoffer' x hx o ho).mono hc.marked id

/-- A registered method is among the virtual ones from then on. -/
theorem register_spec {t : Token} (hw : s.Within marks S st) (hm : st.marks.isMarked t = true)
    (hv : s.model.IsVirtual t) :
    s.Offers S st (MarkState.register s.model s.overrides t st) ∧
      t ∈ (MarkState.register s.model s.overrides t st).virtuals := by
  unfold MarkState.register
  split <;> rename_i ht
  · exact ⟨.refl, ht⟩
  · have hr : s.Offer S st { st with virtuals := st.virtuals ++ [t] } := .register hm hv
    have hc := (spread_spec adm (hw.offer hr) ⟨hw.marked hm, .inl hv⟩).1
    exact ⟨.head hr hc, hc.virtuals (List.mem_append_right _ (List.mem_singleton_self t))⟩

theorem release_offers : ∀ (entries : List Parked) (st : MarkState), s.Within marks S st →
    (∀ e ∈ entries, s.Waits S e) →
      s.Offers S st (MarkState.release s.model s.overrides entries st)
  | [], _, _, _ => .refl
  | e :: rest, st, hw, he => by
    have hwait := he e List.mem_cons_self
    obtain ⟨hc, hfresh, -⟩ := offer_spec adm hw
      ⟨hwait.base, hwait.overridable⟩ hwait.overrides
    unfold MarkState.release
    dsimp only
    have hspread : s.Offers S st
        (if (st.offer s.model e.base e.overrider).1 then
          MarkState.spread s.model s.overrides e.overrider (st.offer s.model e.base e.overrider).2
        else (st.offer s.model e.base e.overrider).2) := by
      split
      · rename_i hf
        exact hc.trans (spread_spec adm (hw.offers hc) (hfresh hf)).1
      · exact hc
    exact hspread.trans (release_offers rest _ (hw.offers hspread)
      fun x hx => he x (List.mem_cons_of_mem _ hx))

theorem arrive_offers (hw : s.Within marks S st) (t : Token) :
    s.Offers S st (MarkState.arrive s.model s.overrides t st) := by
  have hu : s.Offer S st { st with parked := st.parked.filter (·.type != t) } := .unpark _
  refine .head hu (release_offers adm _ _ (hw.offer hu) fun e he => ?_)
  exact hw.parked (List.mem_filter.mp he).1

end Offers

/-! ## Offers made before -/

/-- The overrides that wait, besides those that did, are overrides that have been offered before. -/
def Parks (s : Setting) (st : MarkState) (parked : List Parked) : Prop :=
  ∀ e ∈ parked, e ∈ st.parked ∨ s.Offered st st e.overrider

theorem Parks.refl (st : MarkState) : s.Parks st st.parked := fun _ => .inl

theorem Parks.trans {parked parked' : List Parked} (h₁ : s.Parks st parked)
    (h₂ : s.Parks { st with parked } parked') : s.Parks st parked' :=
  fun e he => (h₂ e he).elim (h₁ e) .inr

/-- An offer that was made before lets at most the override wait. -/
theorem offer_quiet (base : Token) {o : Token} (h : s.Offered st st o) :
    ∃ parked, s.Parks st parked ∧ st.offer s.model base o = (false, { st with parked }) := by
  unfold MarkState.offer
  cases hd : s.model.declaringTypeOf? o with
  | none => exact ⟨_, .refl st, rfl⟩
  | some type =>
    dsimp only
    by_cases ht : st.marks.isMarked type = true
    · rw [if_neg (by simp [ht]), if_pos (h type hd ht)]
      exact ⟨_, .refl st, rfl⟩
    · rw [if_pos (by simp [ht])]
      unfold MarkState.park
      split
      · exact ⟨_, .refl st, rfl⟩
      · refine ⟨_, fun e he => ?_, rfl⟩
        rcases List.mem_append.mp he with he | he
        · exact .inl he
        · cases List.mem_singleton.mp he
          exact .inr h

theorem offerAll_quiet (base : Token) (os : List Token) (st : MarkState)
    (h : ∀ o ∈ os, s.Offered st st o) :
    ∃ parked, s.Parks st parked ∧
      MarkState.offerAll s.model base os ([], st) = ([], { st with parked }) := by
  induction os generalizing st with
  | nil => exact ⟨st.parked, .refl st, rfl⟩
  | cons o rest ih =>
    obtain ⟨parked, hparked, ho⟩ := offer_quiet base (h o List.mem_cons_self)
    obtain ⟨parked', hparked', hrest⟩ := ih { st with parked } fun x hx =>
      h x (List.mem_cons_of_mem _ hx)
    refine ⟨parked', hparked.trans hparked', ?_⟩
    unfold MarkState.offerAll
    dsimp only
    rw [ho]
    exact hrest

theorem spread_quiet {t : Token} (h : ∀ o ∈ s.overrides.overridesOf t, s.Offered st st o) :
    ∃ parked, s.Parks st parked ∧
      MarkState.spread s.model s.overrides t st = { st with parked } := by
  obtain ⟨parked, hparked, hall⟩ := offerAll_quiet t _ st h
  refine ⟨parked, hparked, ?_⟩
  unfold MarkState.spread MarkState.spreadFrom
  dsimp only
  rw [hall]
  rfl

/-- When all offers of some methods have been made, making them again changes no mark. -/
theorem spreadAll_quiet (bases : List Token) (st : MarkState)
    (h : ∀ base ∈ bases, ∀ o ∈ s.overrides.overridesOf base, s.Offered st st o) :
    ∃ parked, s.Parks st parked ∧
      bases.foldl (fun st base => MarkState.spread s.model s.overrides base st) st =
        { st with parked } := by
  induction bases generalizing st with
  | nil => exact ⟨st.parked, .refl st, rfl⟩
  | cons base rest ih =>
    obtain ⟨parked, hparked, hbase⟩ := spread_quiet (h base List.mem_cons_self)
    obtain ⟨parked', hparked', hrest⟩ := ih { st with parked } fun x hx =>
      h x (List.mem_cons_of_mem _ hx)
    refine ⟨parked', hparked.trans hparked', ?_⟩
    rw [List.foldl_cons, hbase]
    exact hrest

theorem release_quiet (entries : List Parked) (st : MarkState)
    (h : ∀ e ∈ entries, s.Offered st st e.overrider) :
    ∃ parked, s.Parks st parked ∧
      MarkState.release s.model s.overrides entries st = { st with parked } := by
  induction entries generalizing st with
  | nil => exact ⟨st.parked, .refl st, rfl⟩
  | cons e rest ih =>
    obtain ⟨parked, hparked, ho⟩ := offer_quiet e.base (h e List.mem_cons_self)
    obtain ⟨parked', hparked', hrest⟩ := ih { st with parked } fun x hx =>
      h x (List.mem_cons_of_mem _ hx)
    refine ⟨parked', hparked.trans hparked', ?_⟩
    unfold MarkState.release
    dsimp only
    rw [ho]
    exact hrest

/-- Overrides that waited for a type and were offered before change no mark. -/
theorem arrive_quiet (t : Token) (h : ∀ e ∈ st.parked, s.Offered st st e.overrider) :
    ∃ parked, (∀ e ∈ parked, s.Offered st st e.overrider) ∧
      MarkState.arrive s.model s.overrides t st = { st with parked } := by
  obtain ⟨parked, hparked, hrelease⟩ := release_quiet (st.parked.filter (·.type == t))
    { st with parked := st.parked.filter (·.type != t) }
    fun e he => h e (List.mem_filter.mp he).1
  refine ⟨parked, fun e he => (hparked e he).elim (fun hold => ?_) id, hrelease⟩
  exact h e (List.mem_filter.mp hold).1

end Setting

end CilTrim
