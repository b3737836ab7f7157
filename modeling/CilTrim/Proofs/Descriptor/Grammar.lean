import CilTrim.Descriptor.Parser
import CilTrim.Proofs.Except
import CilTrim.Proofs.Xml.Outline

/-!
# The grammar of descriptors

Which elements write a descriptor, whatever tokenizer tells the attributes of their tags:

* `Descriptor.Sequence`: elements that write items, one behind another;
* `Descriptor.Names`, `Descriptor.Says`: what the attributes of a tag hold;
* `Descriptor.Members`: elements that name methods and fields;
* `Descriptor.WritesType`, `Descriptor.WritesAssembly`, `Descriptor.WritesLinker`: elements that
  write entries;
* `Descriptor.Writes`: elements that write a descriptor.
-/

namespace CilTrim.Descriptor

open Xml

variable {tag : Tag} {key : String} {e : TypeEntry} {a : AssemblyEntry} {f : Forest}
  {d : Descriptor}

/-! ## Sequences -/

/-- Elements one behind another, each of which writes an item with its tag and, unless it is one
tag, the elements inside it. -/
inductive Sequence {β : Type} (Writes : Tag → Option Forest → β → Prop) :
    Forest → List β → Prop where
  | nil : Sequence Writes .nil []
  | empty {tag : Tag} {rest : Forest} {x : β} {xs : List β} : Writes tag none x →
    Sequence Writes rest xs → Sequence Writes (.empty tag rest) (x :: xs)
  | node {tag : Tag} {inside rest : Forest} {x : β} {xs : List β} : Writes tag (some inside) x →
    Sequence Writes rest xs → Sequence Writes (.node tag inside rest) (x :: xs)

theorem sequence_nil_iff {β : Type} {Writes : Tag → Option Forest → β → Prop} {xs : List β} :
    Sequence Writes .nil xs ↔ xs = [] := by
  constructor
  · intro h
    cases h
    rfl
  · intro h
    rw [h]
    exact .nil

/-- What holds of every element that writes an item holds of each of a sequence of them. -/
theorem Sequence.all {β : Type} {Writes : Tag → Option Forest → β → Prop}
    {p : Tag → Forest → Prop} {xs : List β} (h : Sequence Writes f xs)
    (each : ∀ {tag inside x}, Writes tag inside x → p tag (inside.getD .nil)) : f.All p := by
  induction h with
  | nil => trivial
  | empty hx _ ih | node hx _ ih => exact ⟨each hx, ih⟩

/-- What writes items in one way writes them in another, if that is so of each of them. -/
theorem Sequence.mono {β : Type} {Writes Writes' : Tag → Option Forest → β → Prop} {xs : List β}
    (h : Sequence Writes f xs)
    (each : ∀ {tag inside}, ∀ x ∈ xs, Writes tag inside x → Writes' tag inside x) :
    Sequence Writes' f xs := by
  induction h with
  | nil => exact .nil
  | empty hx _ ih =>
    exact .empty (each _ List.mem_cons_self hx) (ih fun x h => each x (List.mem_cons_of_mem _ h))
  | node hx _ ih =>
    exact .node (each _ List.mem_cons_self hx) (ih fun x h => each x (List.mem_cons_of_mem _ h))

/-! ## Descriptors -/

variable [Tokenizer]

/-- An attribute of a tag holds a name, which is not empty. -/
def Names (tag : Tag) (key name : String) : Prop :=
  Tokenizer.value? tag key = .ok (some name) ∧ name ≠ ""

/-- An attribute of a tag holds a word in any case, or is missing. -/
inductive Says {α : Type} (ofWord? : String → Option α) (tag : Tag) (key : String) :
    Option α → Prop where
  | nothing : Tokenizer.value? tag key = .ok none → Says ofWord? tag key none
  | word {value : String} {meaning : α} : Tokenizer.value? tag key = .ok (some value) →
    ofWord? value.toLower = some meaning → Says ofWord? tag key (some meaning)

/-- Elements that name methods and fields. Each of them is one tag. -/
inductive Members : Forest → List String → List String → Prop where
  | nil : Members .nil [] []
  | method {tag : Tag} {rest : Forest} {name : String} {methods fields : List String} :
    tag.name = "method" → Names tag "name" name → Members rest methods fields →
    Members (.empty tag rest) (name :: methods) fields
  | field {tag : Tag} {rest : Forest} {name : String} {methods fields : List String} :
    tag.name = "field" → Names tag "name" name → Members rest methods fields →
    Members (.empty tag rest) methods (name :: fields)

/-- An element writes the entry for a type. -/
structure WritesType (tag : Tag) (inside : Option Forest) (e : TypeEntry) : Prop where
  element : tag.name = "type"
  name : Names tag "fullname" e.fullName
  preserve : Says TypePreserve.ofWord? tag "preserve" e.preserve
  members : Members (inside.getD .nil) e.methods e.fields

/-- An element writes the entry for an assembly. -/
structure WritesAssembly (tag : Tag) (inside : Option Forest) (a : AssemblyEntry) : Prop where
  element : tag.name = "assembly"
  name : Names tag "fullname" a.fullName
  action : Says LinkAction.ofWord? tag "action" a.action
  types : Sequence WritesType (inside.getD .nil) a.types

/-- An element writes a descriptor. -/
structure WritesLinker (tag : Tag) (inside : Option Forest) (entries : List AssemblyEntry) :
    Prop where
  element : tag.name = "linker"
  assemblies : Sequence WritesAssembly (inside.getD .nil) entries

/-- Elements write a descriptor, in which the entries of all of them are taken together. -/
def Writes (f : Forest) (d : Descriptor) : Prop :=
  ∃ parts, Sequence WritesLinker f parts ∧ d.assemblies = parts.flatten

/-! ## Elements -/

theorem members_nil_iff {methods fields : List String} :
    Members .nil methods fields ↔ methods = [] ∧ fields = [] := by
  constructor
  · intro h
    cases h
    exact ⟨rfl, rfl⟩
  · rintro ⟨hmethods, hfields⟩
    rw [hmethods, hfields]
    exact .nil

/-- The tag of an element for a type writes the entry without the members. -/
theorem writesType_some_iff {inside : Forest} : WritesType tag (some inside) e ↔
    WritesType tag none { e with methods := [], fields := [] } ∧
      Members inside e.methods e.fields :=
  ⟨fun h => ⟨⟨h.element, h.name, h.preserve, .nil⟩, h.members⟩,
    fun ⟨h, hmembers⟩ => ⟨h.element, h.name, h.preserve, hmembers⟩⟩

/-- The tag of an element for an assembly writes the entry without the types. -/
theorem writesAssembly_some_iff {inside : Forest} : WritesAssembly tag (some inside) a ↔
    WritesAssembly tag none { a with types := [] } ∧ Sequence WritesType inside a.types :=
  ⟨fun h => ⟨⟨h.element, h.name, h.action, .nil⟩, h.types⟩,
    fun ⟨h, htypes⟩ => ⟨h.element, h.name, h.action, htypes⟩⟩

/-- No element that names a member is a `linker`. -/
theorem Members.lacks {methods fields : List String} (h : Members f methods fields) :
    Lacks "linker" f.events := by
  induction h with
  | nil => exact lacks_nil
  | method hname _ _ ih | field hname _ _ ih =>
    refine lacks_cons.mpr ⟨?_, ih⟩
    simp [Event.element, hname]

/-- In elements that write a descriptor, `linker` elements stand inside no others. -/
theorem Writes.outermost (h : Writes f d) : f.Outermost "linker" := by
  obtain ⟨parts, hparts, -⟩ := h
  refine hparts.all fun hlinker => ?_
  refine Forest.lacks_events_iff.mpr (hlinker.assemblies.all fun hassembly => ?_)
  refine ⟨by simp [hassembly.element], ?_⟩
  refine Forest.lacks_events_iff.mpr (hassembly.types.all fun htype => ?_)
  exact ⟨by simp [htype.element], htype.members.lacks⟩

/-! ## Attributes -/

theorem attribute?_eq_ok_iff {value? : Option String} :
    attribute? tag key = .ok value? ↔ Tokenizer.value? tag key = .ok value? :=
  mapError_eq_ok_iff

theorem required_eq_ok_iff {name : String} :
    required tag key = .ok name ↔ Names tag key name := by
  unfold required Names
  rw [bind_eq_ok_iff]
  simp only [attribute?_eq_ok_iff]
  constructor
  · rintro ⟨value?, hvalue, h⟩
    cases value? with
    | none => cases h
    | some value =>
      dsimp only at h
      split at h
      · cases h
      · rename_i hempty
        cases h
        exact ⟨hvalue, by simpa using hempty⟩
  · rintro ⟨hvalue, hname⟩
    exact ⟨some name, hvalue, by simp [hname, pure, Except.pure]⟩

theorem optionalWord_eq_ok_iff {α : Type} {ofWord? : String → Option α} {meaning? : Option α} :
    optionalWord ofWord? tag key = .ok meaning? ↔ Says ofWord? tag key meaning? := by
  unfold optionalWord
  rw [bind_eq_ok_iff]
  simp only [attribute?_eq_ok_iff]
  constructor
  · rintro ⟨value?, hvalue, h⟩
    cases value? with
    | none =>
      cases h
      exact .nothing hvalue
    | some value =>
      dsimp only at h
      split at h
      · rename_i hmeaning
        cases h
        exact .word hvalue hmeaning
      · cases h
  · intro h
    cases h with
    | nothing hvalue => exact ⟨none, hvalue, rfl⟩
    | word hvalue hmeaning => exact ⟨_, hvalue, by simp [hmeaning, pure, Except.pure]⟩

theorem typeEntry_eq_ok_iff (h : tag.name = "type") :
    typeEntry tag = .ok e ↔ WritesType tag none e := by
  obtain ⟨fullName, preserve, methods, fields⟩ := e
  unfold typeEntry
  simp only [bind_eq_ok_iff, required_eq_ok_iff, optionalWord_eq_ok_iff, pure, Except.pure,
    Except.ok.injEq]
  constructor
  · rintro ⟨_, hname, _, hpreserve, heq⟩
    cases heq
    exact ⟨h, hname, hpreserve, .nil⟩
  · rintro ⟨_, hname, hpreserve, hmembers⟩
    cases hmembers
    exact ⟨_, hname, _, hpreserve, rfl⟩

theorem assemblyEntry_eq_ok_iff (h : tag.name = "assembly") :
    assemblyEntry tag = .ok a ↔ WritesAssembly tag none a := by
  obtain ⟨fullName, action, types⟩ := a
  unfold assemblyEntry
  simp only [bind_eq_ok_iff, required_eq_ok_iff, optionalWord_eq_ok_iff, pure, Except.pure,
    Except.ok.injEq]
  constructor
  · rintro ⟨_, hname, _, haction, heq⟩
    cases heq
    exact ⟨h, hname, haction, .nil⟩
  · rintro ⟨_, hname, haction, htypes⟩
    cases htypes
    exact ⟨_, hname, _, haction, rfl⟩

end CilTrim.Descriptor
