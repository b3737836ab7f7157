import Mathlib.Control.Monad.Basic

/-!
# Results that may be faults

* `exists_ok_of_isOk`, `toOption_eq_some`, `mapError_eq_ok_iff`, `bind_eq_ok_iff`: when there is a
  result, of steps one after another too;
* `bind_eq_error_iff`, `error_of_bind_pure`, `exists_error_of_foldlM`: where the fault of such
  steps comes from.
-/

namespace CilTrim

variable {ε ε' α β : Type}

/-- A result that is no fault has a value. -/
theorem exists_ok_of_isOk {x : Except ε α} (h : x.isOk = true) : ∃ a, x = .ok a := by
  cases x with
  | ok a => exact ⟨a, rfl⟩
  | error e => cases h

theorem toOption_eq_some {x : Except ε α} {a : α} : x.toOption = some a ↔ x = .ok a := by
  cases x <;> simp [Except.toOption]

theorem mapError_eq_ok_iff {x : Except ε α} {f : ε → ε'} {a : α} :
    x.mapError f = .ok a ↔ x = .ok a := by
  cases x <;> simp [Except.mapError]

/-- Steps one after another have a result if each of them has one. -/
theorem bind_eq_ok_iff {x : Except ε α} {f : α → Except ε β} {b : β} :
    x >>= f = .ok b ↔ ∃ a, x = .ok a ∧ f a = .ok b := by
  cases x <;> simp [bind, Except.bind]

/-- The fault of steps one after another is the fault of one of them. -/
theorem bind_eq_error_iff {x : Except ε α} {f : α → Except ε β} {e : ε} :
    x >>= f = .error e ↔ x = .error e ∨ ∃ a, x = .ok a ∧ f a = .error e := by
  cases x <;> simp [bind, Except.bind]

/-- What is done with a result does not fail. -/
theorem error_of_bind_pure {x : Except ε α} {f : α → β} {e : ε}
    (h : (x >>= fun a => pure (f a)) = .error e) : x = .error e := by
  cases x with
  | ok a => cases h
  | error e' =>
    cases h
    rfl

/-- The fault of a step for each item of a list is the fault of the step for one of them. -/
theorem exists_error_of_foldlM {f : β → α → Except ε β} {items : List α} {start : β} {e : ε}
    (h : items.foldlM f start = .error e) : ∃ item ∈ items, ∃ state, f state item = .error e := by
  induction items generalizing start with
  | nil => cases h
  | cons item items ih =>
    rw [List.foldlM_cons, bind_eq_error_iff] at h
    obtain hitem | ⟨next, -, hitems⟩ := h
    · exact ⟨item, List.mem_cons_self, start, hitem⟩
    · obtain ⟨other, hmem, state, hother⟩ := ih hitems
      exact ⟨other, List.mem_cons_of_mem _ hmem, state, hother⟩

end CilTrim
