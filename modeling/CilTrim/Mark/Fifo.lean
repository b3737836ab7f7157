/-!
# Queues

First in, first out. The view of a queue is the list of its elements, the oldest first:

* `Fifo.push`, `Fifo.pop?`, with `Fifo.toList_push` and `Fifo.pop?_eq`.
-/

namespace CilTrim

/-- A queue: elements to be taken, and in reverse those that came later. -/
structure Fifo (α : Type) where
  front : List α
  back : List α
deriving Repr

namespace Fifo

variable {α : Type}

/-- A queue without elements. -/
def empty : Fifo α := ⟨[], []⟩

/-- The elements, the oldest first. -/
def toList (q : Fifo α) : List α := q.front ++ q.back.reverse

/-- The queue with one more element. -/
def push (q : Fifo α) (a : α) : Fifo α := { q with back := a :: q.back }

/-- The oldest element, and the queue without it. -/
def pop? (q : Fifo α) : Option (α × Fifo α) :=
  match q.front with
  | a :: front => some (a, { q with front })
  | [] =>
    match q.back.reverse with
    | a :: front => some (a, ⟨front, []⟩)
    | [] => none

/-- There are no elements. -/
def isEmpty (q : Fifo α) : Bool := q.front.isEmpty && q.back.isEmpty

@[simp] theorem toList_empty : (empty : Fifo α).toList = [] := rfl

@[simp] theorem toList_push (q : Fifo α) (a : α) : (q.push a).toList = q.toList ++ [a] := by
  simp [toList, push]

/-- Taking an element takes the first of the list. -/
theorem pop?_eq (q : Fifo α) :
    (q.pop?.map fun (a, rest) => a :: rest.toList) =
      if q.toList = [] then none else some q.toList := by
  obtain ⟨front, back⟩ := q
  cases front with
  | cons a front => simp [pop?, toList]
  | nil =>
    cases h : back.reverse with
    | nil => simp_all [pop?, toList]
    | cons a front => simp_all [pop?, toList]

theorem toList_of_pop?_eq_none {q : Fifo α} (h : q.pop? = none) : q.toList = [] := by
  have he := q.pop?_eq
  rw [h] at he
  split at he
  · assumption
  · cases he

theorem toList_of_pop?_eq_some {q rest : Fifo α} {a : α} (h : q.pop? = some (a, rest)) :
    q.toList = a :: rest.toList := by
  have he := q.pop?_eq
  rw [h] at he
  split at he
  · cases he
  · exact (Option.some.inj he).symm

@[simp] theorem isEmpty_iff (q : Fifo α) : q.isEmpty = true ↔ q.toList = [] := by
  simp [isEmpty, toList]

end Fifo

end CilTrim
