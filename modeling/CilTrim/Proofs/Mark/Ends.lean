import CilTrim.Mark.Run

/-!
# How steps and loops end

A step of marking ends with a result or with a fault. A loop repeats a step until that says that it
is done, and what each turn keeps holds at the end:

* `Marking.Ends`: from a state, a step ends as said;
* `Marking.Ends.forM`: a loop over a list;
* `Marking.Repeats`: how a loop without a bound ends;
* `Marking.Repeats.of_bound`: a loop with a bound ends so, if each turn lowers a measure;
* `Marking.Repeats.ends`: what each turn keeps.
-/

namespace CilTrim

namespace Marking

variable {α β : Type}

/-- From a state, a step ends with a result and a state as said, or with a fault as said. -/
def Ends (x : Marking α) (st : MarkState) (post : α → MarkState → Prop)
    (fault : MarkFault → Prop) : Prop :=
  match x st with
  | .ok a st' => post a st'
  | .error e _ => fault e

section Ends

variable {st st' : MarkState} {post post' : α → MarkState → Prop} {fault fault' : MarkFault → Prop}

@[simp] theorem ends_pure {a : α} : Ends (pure a) st post fault ↔ post a st := Iff.rfl

@[simp] theorem ends_throw {e : MarkFault} : Ends (throw e) st post fault ↔ fault e := Iff.rfl

@[simp] theorem ends_get {post : MarkState → MarkState → Prop} :
    Ends get st post fault ↔ post st st := Iff.rfl

@[simp] theorem ends_set {post : PUnit → MarkState → Prop} :
    Ends (set st') st post fault ↔ post ⟨⟩ st' := Iff.rfl

@[simp] theorem ends_modify {f : MarkState → MarkState} {post : PUnit → MarkState → Prop} :
    Ends (modify f) st post fault ↔ post ⟨⟩ (f st) := Iff.rfl

@[simp] theorem ends_bind {x : Marking β} {f : β → Marking α} :
    Ends (x >>= f) st post fault ↔
      Ends x st (fun b st' => Ends (f b) st' post fault) fault := by
  unfold Ends
  simp only [bind, EStateM.bind]
  cases x st <;> exact Iff.rfl

theorem Ends.mono {x : Marking α} (h : Ends x st post fault)
    (hpost : ∀ a st', post a st' → post' a st') (hfault : ∀ e, fault e → fault' e) :
    Ends x st post' fault' := by
  unfold Ends at h ⊢
  cases hx : x st with
  | ok a st' =>
    rw [hx] at h
    exact hpost a st' h
  | error e st' =>
    rw [hx] at h
    exact hfault e h

/-- What two results say of one step holds together. -/
theorem Ends.and {x : Marking α} (h : Ends x st post fault) (h' : Ends x st post' fault') :
    Ends x st (fun a st' => post a st' ∧ post' a st') fun e => fault e ∧ fault' e := by
  unfold Ends at h h' ⊢
  cases hx : x st with
  | ok a st' =>
    rw [hx] at h h'
    exact ⟨h, h'⟩
  | error e st' =>
    rw [hx] at h h'
    exact ⟨h, h'⟩

theorem Ends.ok {x : Marking α} {a : α} (h : Ends x st post fault) (hx : x st = .ok a st') :
    post a st' := by
  unfold Ends at h
  rwa [hx] at h

theorem ends_of_eq_ok {x : Marking α} {a : α} (hx : x st = .ok a st') :
    Ends x st post fault ↔ post a st' := by
  unfold Ends
  rw [hx]

/-- What holds wherever a step ends with a result. -/
theorem Ends.of_ok {x : Marking α} (h : ∀ a st', x st = .ok a st' → post a st') :
    Ends x st post fun _ => True := by
  unfold Ends
  cases hx : x st with
  | ok a st' => exact h a st' hx
  | error e st' => exact trivial

theorem Ends.error {x : Marking α} {e : MarkFault} (h : Ends x st post fault)
    (hx : x st = .error e st') : fault e := by
  unfold Ends at h
  rwa [hx] at h

/-- A step ends where it ends. -/
theorem Ends.eq {x : Marking α} (h : Ends x st post fault) :
    Ends x st (fun a st' => x st = .ok a st' ∧ post a st') fault := by
  unfold Ends at h ⊢
  cases hx : x st with
  | ok a st' =>
    rw [hx] at h
    exact ⟨rfl, h⟩
  | error e st' =>
    rw [hx] at h
    exact h

/-- A loop over a list relates its ends as its steps do, and each element is done from its step
on. -/
theorem Ends.forM {xs : List β} {f : β → Marking PUnit} (R : MarkState → MarkState → Prop)
    (done : β → MarkState → Prop) (refl : ∀ st, R st st)
    (trans : ∀ {st st' st''}, R st st' → R st' st'' → R st st'')
    (keep : ∀ {x st st'}, R st st' → done x st → done x st')
    (step : ∀ x ∈ xs, ∀ st', R st st' →
      Ends (f x) st' (fun _ st'' => R st' st'' ∧ done x st'') fault) :
    Ends (xs.forM f) st (fun _ st' => R st st' ∧ ∀ x ∈ xs, done x st') fault := by
  induction xs generalizing st with
  | nil => exact ⟨refl st, fun x hx => by cases hx⟩
  | cons x rest ih =>
    refine ends_bind.mpr ((step x List.mem_cons_self st (refl st)).mono ?_ fun _ he => he)
    rintro _ st₁ ⟨hR, hx⟩
    refine (ih fun y hy st' hR' => step y (List.mem_cons_of_mem _ hy) st' (trans hR hR')).mono ?_
      fun _ he => he
    rintro _ st₂ ⟨hR', hrest⟩
    exact ⟨trans hR hR', List.forall_mem_cons.mpr ⟨keep hR' hx, hrest⟩⟩

/-- What each step of a loop over a list keeps holds at its end. -/
theorem Ends.forM_keeps {xs : List β} {f : β → Marking PUnit} {inv : MarkState → Prop}
    (start : inv st)
    (step : ∀ x ∈ xs, ∀ st', inv st' → Ends (f x) st' (fun _ => inv) fault) :
    Ends (xs.forM f) st (fun _ => inv) fault := by
  induction xs generalizing st with
  | nil => exact start
  | cons x rest ih =>
    refine ends_bind.mpr ((step x List.mem_cons_self st start).mono ?_ fun _ => id)
    exact fun _ st' h => ih h fun y hy => step y (List.mem_cons_of_mem _ hy)

end Ends

attribute [irreducible] Ends

/-! ## Loops -/

/-- How a loop ends that repeats a step for as long as its result is true. -/
inductive Repeats (turn : Marking Bool) :
    MarkState → EStateM.Result MarkFault MarkState Unit → Prop where
  | fault {e : MarkFault} {st st' : MarkState} :
    turn st = .error e st' → Repeats turn st (.error e st')
  | last {st st' : MarkState} : turn st = .ok false st' → Repeats turn st (.ok () st')
  | next {st st' : MarkState} {r : EStateM.Result MarkFault MarkState Unit} :
    turn st = .ok true st' → Repeats turn st' r → Repeats turn st r

namespace Repeats

variable {turn : Marking Bool} {st : MarkState}

/-- A bound on the turns of a loop is never met, if each turn lowers a measure below it. -/
theorem of_bound (loop : Nat → Marking Unit)
    (unfold_loop : ∀ fuel, loop (fuel + 1) = do if ← turn then loop fuel)
    (measure : MarkState → Nat)
    (lowers : ∀ {st st'}, turn st = .ok true st' → measure st' < measure st) {fuel : Nat}
    (room : measure st < fuel) : Repeats turn st (loop fuel st) := by
  induction fuel generalizing st with
  | zero => omega
  | succ fuel ih =>
    rw [unfold_loop]
    simp only [bind, EStateM.bind]
    cases hx : turn st with
    | error e st' => exact .fault hx
    | ok more st' =>
      cases more with
      | false => exact .last hx
      | true =>
        have := lowers hx
        exact .next hx (ih (by omega))

/-- A loop ends in one way. -/
theorem unique {r r' : EStateM.Result MarkFault MarkState Unit} (h : Repeats turn st r)
    (h' : Repeats turn st r') : r = r' := by
  induction h with
  | fault hx =>
    cases h' with
    | fault hx' =>
      cases hx.symm.trans hx'
      rfl
    | last hx' | next hx' => cases hx.symm.trans hx'
  | last hx =>
    cases h' with
    | last hx' =>
      cases hx.symm.trans hx'
      rfl
    | fault hx' | next hx' => cases hx.symm.trans hx'
  | next hx _ ih =>
    cases h' with
    | next hx' hrest =>
      cases hx.symm.trans hx'
      exact ih hrest
    | fault hx' | last hx' => cases hx.symm.trans hx'

/-- Two loops end alike if their turns do, as far as the first one needs them to. What is needed at
its end is needed all the way back. -/
theorem transfer {turn' : Marking Bool} (inv needed : MarkState → Prop)
    {r : EStateM.Result MarkFault MarkState Unit} (h : Repeats turn st r) (start : inv st)
    (keeps : ∀ {st st' more}, inv st → turn st = .ok more st' →
      inv st' ∧ (needed st' → needed st))
    (same : ∀ {st st' more}, inv st → needed st' → turn st = .ok more st' →
      turn' st = .ok more st') :
    ∀ st', r = .ok () st' → needed st' → Repeats turn' st r ∧ needed st := by
  induction h with
  | fault => exact nofun
  | last hx =>
    rintro _ ⟨⟩ hneeded
    exact ⟨.last (same start hneeded hx), (keeps start hx).2 hneeded⟩
  | next hx _ ih =>
    intro st' hr hneeded
    obtain ⟨hrest, hneeded₁⟩ := ih (keeps start hx).1 st' hr hneeded
    exact ⟨.next (same start hneeded₁ hx) hrest, (keeps start hx).2 hneeded₁⟩

/-- What each turn keeps holds when the loop ends. -/
theorem ends (inv : MarkState → Prop) {post : MarkState → Prop} {fault : MarkFault → Prop}
    {x : Marking Unit} (h : Repeats turn st (x st)) (start : inv st)
    (keeps : ∀ {st}, inv st →
      Ends turn st (fun more st' => if more = true then inv st' else post st') fault) :
    Ends x st (fun _ => post) fault := by
  unfold Ends
  generalize x st = r at h
  induction h with
  | fault hx => exact (keeps start).error hx
  | last hx => simpa using (keeps start).ok hx
  | next hx _ ih => exact ih (by simpa using (keeps start).ok hx)

end Repeats

end Marking

end CilTrim
