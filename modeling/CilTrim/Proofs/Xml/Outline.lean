import CilTrim.Xml.Event

/-!
# The elements of a text

Well-nested tags outline a sequence of elements, of which the last may be left open, as may the last
one inside it, and so on:

* `Xml.Forest`: complete elements, one behind another;
* `Xml.Outline`: complete elements, and an open one behind them, if there is one;
* `Xml.Nested`: every end tag closes the innermost open element;
* `Xml.Nested.exists_outline`: well-nested tags have an outline;
* `Xml.Lacks`, `Xml.Outline.Outermost`: where elements with a name stand.
-/

namespace CilTrim.Xml

/-- Complete elements, one behind another. -/
inductive Forest where
  | nil
  /-- An element that is one tag, with those behind it. -/
  | empty (tag : Tag) (rest : Forest)
  /-- An element with a start tag and an end tag, with those inside and behind it. -/
  | node (tag : Tag) (inside rest : Forest)
deriving Repr, DecidableEq

/-- Elements of which only the last may be open, and inside that one as well. -/
inductive Outline where
  | whole (elements : Forest)
  | broken (elements : Forest) (tag : Tag) (inside : Outline)
deriving Repr, DecidableEq

namespace Forest

/-- The tags of elements. -/
def events : Forest → List Event
  | nil => []
  | empty tag rest => .empty tag :: rest.events
  | node tag inside rest => .opened tag :: (inside.events ++ .closed tag.name :: rest.events)

end Forest

namespace Outline

/-- The tags of elements. -/
def events : Outline → List Event
  | whole elements => elements.events
  | broken elements tag inside => elements.events ++ .opened tag :: inside.events

/-- Elements behind one that is one tag. -/
def behindEmpty (tag : Tag) : Outline → Outline
  | whole elements => whole (.empty tag elements)
  | broken elements last inside => broken (.empty tag elements) last inside

/-- Elements behind one with a start tag and an end tag. -/
def behindNode (tag : Tag) (f : Forest) : Outline → Outline
  | whole elements => whole (.node tag f elements)
  | broken elements last inside => broken (.node tag f elements) last inside

@[simp] theorem events_behindEmpty (tag : Tag) (o : Outline) :
    (o.behindEmpty tag).events = .empty tag :: o.events := by
  cases o <;> rfl

@[simp] theorem events_behindNode (tag : Tag) (f : Forest) (o : Outline) :
    (o.behindNode tag f).events =
      .opened tag :: (f.events ++ .closed tag.name :: o.events) := by
  cases o <;> simp [behindNode, events, Forest.events]

end Outline

/-! ## Nesting -/

/-- Behind open elements, innermost first, every end tag closes the innermost one. -/
inductive Nested : List String → List Event → Prop where
  | nil {stack : List String} : Nested stack []
  | empty {stack : List String} {tag : Tag} {events : List Event} : Nested stack events →
    Nested stack (.empty tag :: events)
  | opened {stack : List String} {tag : Tag} {events : List Event} :
    Nested (tag.name :: stack) events → Nested stack (.opened tag :: events)
  | closed {stack : List String} {name : String} {events : List Event} : Nested stack events →
    Nested (name :: stack) (.closed name :: events)

/-- Well-nested tags outline elements, up to an end tag that closes an element which is open. -/
theorem Nested.split {stack : List String} {events : List Event} (h : Nested stack events) :
    (∃ o : Outline, events = o.events) ∨
      ∃ name outer, ∃ f : Forest, ∃ rest, stack = name :: outer ∧
        events = f.events ++ .closed name :: rest ∧ Nested outer rest := by
  -- What stands behind an element is shorter than the tags of the element and it.
  induction hlength : events.length using Nat.strongRecOn generalizing stack events with
  | ind n ih =>
    subst hlength
    cases h with
    | nil => exact .inl ⟨.whole .nil, rfl⟩
    | @empty _ tag events h =>
      rcases ih _ (by simp) h rfl with ⟨o, rfl⟩ | ⟨name, outer, f, rest, rfl, rfl, hrest⟩
      · exact .inl ⟨o.behindEmpty tag, (o.events_behindEmpty tag).symm⟩
      · exact .inr ⟨name, outer, .empty tag f, rest, rfl, rfl, hrest⟩
    | @closed outer name events h => exact .inr ⟨name, outer, .nil, events, rfl, rfl, h⟩
    | @opened _ tag events h =>
      rcases ih _ (by simp) h rfl with ⟨o, rfl⟩ | ⟨_, _, inside, rest, ⟨rfl, rfl⟩, rfl, hrest⟩
      · exact .inl ⟨.broken .nil tag o, rfl⟩
      rcases ih _ (by simp; omega) hrest rfl with
        ⟨o, rfl⟩ | ⟨name, outer, f, behind, rfl, rfl, hbehind⟩
      · exact .inl ⟨o.behindNode tag inside, (o.events_behindNode tag inside).symm⟩
      · exact .inr ⟨name, outer, .node tag inside f, behind, rfl, by simp [Forest.events], hbehind⟩

/-- Well-nested tags outline elements. -/
theorem Nested.exists_outline {events : List Event} (h : Nested [] events) :
    ∃ o : Outline, events = o.events := by
  rcases h.split with h | ⟨_, _, _, _, hstack, -⟩
  · exact h
  · cases hstack

/-! ## Elements by name -/

section Names

variable {name : String} {events first second : List Event}

/-- The name of the element that a tag is for. -/
def Event.element : Event → String
  | .opened tag | .empty tag => tag.name
  | .closed name => name

/-- No tag is for an element with a name. -/
def Lacks (name : String) (events : List Event) : Prop :=
  ∀ event ∈ events, event.element ≠ name

@[simp] theorem lacks_nil : Lacks name [] := by
  simp [Lacks]

@[simp] theorem lacks_cons {event : Event} :
    Lacks name (event :: events) ↔ event.element ≠ name ∧ Lacks name events := by
  simp [Lacks]

@[simp] theorem lacks_append :
    Lacks name (first ++ second) ↔ Lacks name first ∧ Lacks name second := by
  simp [Lacks, or_imp, forall_and]

/-- Each of some elements, with those inside it, is as `p` says. -/
def Forest.All (p : Tag → Forest → Prop) : Forest → Prop
  | nil => True
  | empty tag rest => p tag nil ∧ rest.All p
  | node tag inside rest => p tag inside ∧ rest.All p

instance {name : String} {events : List Event} : Decidable (Lacks name events) :=
  inferInstanceAs (Decidable (∀ event ∈ events, event.element ≠ name))

instance Forest.decidableAll {p : Tag → Forest → Prop} [∀ tag inside, Decidable (p tag inside)] :
    (f : Forest) → Decidable (f.All p)
  | nil => .isTrue trivial
  | empty tag rest =>
    have := decidableAll (p := p) rest
    inferInstanceAs (Decidable (p tag nil ∧ rest.All p))
  | node tag inside rest =>
    have := decidableAll (p := p) rest
    inferInstanceAs (Decidable (p tag inside ∧ rest.All p))

theorem Forest.lacks_events_iff {f : Forest} : Lacks name f.events ↔
    f.All fun tag inside => tag.name ≠ name ∧ Lacks name inside.events := by
  induction f with
  | nil => simp [events, All]
  | empty tag rest ih => simp [events, All, Event.element, ih]
  | node tag inside rest _ ih =>
    simp only [events, All, lacks_cons, lacks_append, Event.element, ih]
    exact ⟨fun ⟨htag, hinside, _, hrest⟩ => ⟨⟨htag, hinside⟩, hrest⟩,
      fun ⟨⟨htag, hinside⟩, hrest⟩ => ⟨htag, hinside, htag, hrest⟩⟩

/-- Elements with a name stand inside no others. -/
def Forest.Outermost (name : String) (f : Forest) : Prop :=
  f.All fun _ inside => Lacks name inside.events

instance {name : String} {f : Forest} : Decidable (f.Outermost name) :=
  inferInstanceAs (Decidable (f.All fun _ inside => Lacks name inside.events))

/-- Elements with a name stand inside no others. -/
def Outline.Outermost (name : String) : Outline → Prop
  | whole elements => elements.Outermost name
  | broken elements _ inside => elements.Outermost name ∧ Lacks name inside.events

end Names

end CilTrim.Xml
