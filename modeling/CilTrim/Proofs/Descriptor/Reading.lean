import CilTrim.Proofs.Descriptor.Grammar

/-!
# Reading elements

The elements that are read are those of the grammar, but for `linker` elements, which are read
wherever they stand:

* `Descriptor.Progress.Reads`: what reading a tag does, where it may stand;
* `Descriptor.Progress.readsAll_sequence`: elements are read as items, if each of them is;
* `Descriptor.Progress.readsAll_members`, `Descriptor.Progress.readsAll_types`,
  `Descriptor.Progress.readsAll_assemblies`, `Descriptor.Progress.readsAll_linkers`: the elements
  that are read at each level.
-/

namespace CilTrim.Descriptor

open Xml

namespace Progress

variable {tag : Tag} {event : Event} {events first second : List Event} {f : Forest}
  {p q : Progress} {b : Bool} {a : AssemblyEntry} {e : TypeEntry} {done : List AssemblyEntry}

/-! ## Levels -/

/-- Inside an assembly, with entries for types that are complete. -/
def inAssembly (b : Bool) (a : AssemblyEntry) (done : List AssemblyEntry)
    (types : List TypeEntry) : Progress :=
  ⟨b, some { a with types }, none, done⟩

/-- Inside a linker, with entries for assemblies that are complete. -/
def inLinkerElement (done : List AssemblyEntry) : Progress :=
  ⟨true, none, none, done⟩

/-- Outside of all elements, with descriptors that are complete. -/
def outside (parts : List (List AssemblyEntry)) : Progress :=
  ⟨false, none, none, parts.flatten⟩

theorem closed_type (h : tag.name = "type") :
    (⟨b, some a, some e, done⟩ : Progress).closed tag.name =
      ⟨b, some (a.addType e), none, done⟩ := by
  rw [h]
  rfl

theorem closed_assembly (h : tag.name = "assembly") :
    (⟨b, some a, none, done⟩ : Progress).closed tag.name = ⟨b, none, none, done ++ [a]⟩ := by
  rw [h]
  rfl

theorem closed_linker (h : tag.name = "linker") :
    (⟨b, none, none, done⟩ : Progress).closed tag.name = ⟨false, none, none, done⟩ := by
  rw [h]
  rfl

/-! ## Tags -/

variable [Tokenizer]

/-- What reading a tag does, where it may stand. A `linker` element may stand anywhere. -/
inductive Reads : Progress → Event → Progress → Prop where
  | linker {p : Progress} {tag : Tag} : tag.name = "linker" →
    Reads p (.opened tag) { p with inLinker := true }
  | emptyLinker {p : Progress} {tag : Tag} : tag.name = "linker" → Reads p (.empty tag) p
  | assembly {tag : Tag} {a : AssemblyEntry} {type? : Option TypeEntry}
    {done : List AssemblyEntry} : WritesAssembly tag none a →
    Reads ⟨true, none, type?, done⟩ (.opened tag) ⟨true, some a, type?, done⟩
  | emptyAssembly {tag : Tag} {a : AssemblyEntry} {type? : Option TypeEntry}
    {done : List AssemblyEntry} : WritesAssembly tag none a →
    Reads ⟨true, none, type?, done⟩ (.empty tag) ⟨true, none, type?, done ++ [a]⟩
  | type {b : Bool} {tag : Tag} {a : AssemblyEntry} {e : TypeEntry}
    {done : List AssemblyEntry} : WritesType tag none e →
    Reads ⟨b, some a, none, done⟩ (.opened tag) ⟨b, some a, some e, done⟩
  | emptyType {b : Bool} {tag : Tag} {a : AssemblyEntry} {e : TypeEntry}
    {done : List AssemblyEntry} : WritesType tag none e →
    Reads ⟨b, some a, none, done⟩ (.empty tag) ⟨b, some (a.addType e), none, done⟩
  | method {b : Bool} {tag : Tag} {a? : Option AssemblyEntry} {e : TypeEntry} {name : String}
    {done : List AssemblyEntry} : tag.name = "method" → Names tag "name" name →
    Reads ⟨b, a?, some e, done⟩ (.empty tag)
      ⟨b, a?, some { e with methods := e.methods ++ [name] }, done⟩
  | field {b : Bool} {tag : Tag} {a? : Option AssemblyEntry} {e : TypeEntry} {name : String}
    {done : List AssemblyEntry} : tag.name = "field" → Names tag "name" name →
    Reads ⟨b, a?, some e, done⟩ (.empty tag)
      ⟨b, a?, some { e with fields := e.fields ++ [name] }, done⟩
  | closed {p : Progress} {name : String} : Reads p (.closed name) (p.closed name)

theorem opened_eq_ok_iff : p.opened tag = .ok q ↔ p.Reads (.opened tag) q := by
  constructor
  · intro h
    unfold opened at h
    split at h
    case h_1 hname =>
      cases h
      exact .linker hname
    case h_2 hname hassembly =>
      obtain ⟨inLinker, assembly?, type?, done⟩ := p
      cases hassembly
      cases inLinker with
      | false => cases h
      | true =>
        obtain ⟨a, hentry, h⟩ := bind_eq_ok_iff.mp h
        cases h
        exact .assembly ((assemblyEntry_eq_ok_iff hname).mp hentry)
    case h_3 hname hassembly htype =>
      obtain ⟨inLinker, assembly?, type?, done⟩ := p
      cases hassembly
      cases htype
      obtain ⟨e, hentry, h⟩ := bind_eq_ok_iff.mp h
      cases h
      exact .type ((typeEntry_eq_ok_iff hname).mp hentry)
    case h_4 => cases h
  · intro h
    unfold opened
    cases h with
    | linker hname =>
      rw [hname]
      rfl
    | assembly hentry =>
      rw [hentry.element]
      exact bind_eq_ok_iff.mpr ⟨_, (assemblyEntry_eq_ok_iff hentry.element).mpr hentry, rfl⟩
    | type hentry =>
      rw [hentry.element]
      exact bind_eq_ok_iff.mpr ⟨_, (typeEntry_eq_ok_iff hentry.element).mpr hentry, rfl⟩

theorem empty_eq_ok_iff : p.empty tag = .ok q ↔ p.Reads (.empty tag) q := by
  constructor
  · intro h
    unfold empty at h
    split at h
    case h_1 hname =>
      cases h
      exact .emptyLinker hname
    case h_2 hname hassembly =>
      obtain ⟨inLinker, assembly?, type?, done⟩ := p
      cases hassembly
      cases inLinker with
      | false => cases h
      | true =>
        obtain ⟨a, hentry, h⟩ := bind_eq_ok_iff.mp h
        cases h
        exact .emptyAssembly ((assemblyEntry_eq_ok_iff hname).mp hentry)
    case h_3 hname hassembly htype =>
      obtain ⟨inLinker, assembly?, type?, done⟩ := p
      cases hassembly
      cases htype
      obtain ⟨e, hentry, h⟩ := bind_eq_ok_iff.mp h
      cases h
      exact .emptyType ((typeEntry_eq_ok_iff hname).mp hentry)
    case h_4 hname htype =>
      obtain ⟨inLinker, assembly?, type?, done⟩ := p
      cases htype
      obtain ⟨name, hentry, h⟩ := bind_eq_ok_iff.mp h
      cases h
      exact .method hname (required_eq_ok_iff.mp hentry)
    case h_5 hname htype =>
      obtain ⟨inLinker, assembly?, type?, done⟩ := p
      cases htype
      obtain ⟨name, hentry, h⟩ := bind_eq_ok_iff.mp h
      cases h
      exact .field hname (required_eq_ok_iff.mp hentry)
    case h_6 => cases h
  · intro h
    unfold empty
    cases h with
    | emptyLinker hname =>
      rw [hname]
      rfl
    | emptyAssembly hentry =>
      rw [hentry.element]
      exact bind_eq_ok_iff.mpr ⟨_, (assemblyEntry_eq_ok_iff hentry.element).mpr hentry, rfl⟩
    | emptyType hentry =>
      rw [hentry.element]
      exact bind_eq_ok_iff.mpr ⟨_, (typeEntry_eq_ok_iff hentry.element).mpr hentry, rfl⟩
    | method hname hvalue | field hname hvalue =>
      rw [hname]
      exact bind_eq_ok_iff.mpr ⟨_, required_eq_ok_iff.mpr hvalue, rfl⟩

theorem step_eq_ok_iff : p.step event = .ok q ↔ p.Reads event q := by
  cases event with
  | opened tag => exact opened_eq_ok_iff
  | empty tag => exact empty_eq_ok_iff
  | closed name =>
    constructor
    · intro h
      cases h
      exact .closed
    · intro h
      cases h
      rfl

/-- Tags are read one after another. -/
def ReadsAll (p : Progress) (events : List Event) (q : Progress) : Prop :=
  events.foldlM step p = .ok q

@[simp] theorem readsAll_nil : p.ReadsAll [] q ↔ p = q := by
  simp [ReadsAll, pure, Except.pure]

@[simp] theorem readsAll_cons :
    p.ReadsAll (event :: events) q ↔ ∃ r, p.Reads event r ∧ r.ReadsAll events q := by
  unfold ReadsAll
  rw [List.foldlM_cons, bind_eq_ok_iff]
  simp only [step_eq_ok_iff]

@[simp] theorem readsAll_append :
    p.ReadsAll (first ++ second) q ↔ ∃ r, p.ReadsAll first r ∧ r.ReadsAll second q := by
  unfold ReadsAll
  rw [List.foldlM_append, bind_eq_ok_iff]

/-! ## Elements -/

/-- Elements are read as items, if that is so of each of them. -/
theorem readsAll_sequence {β : Type} {level : List β → Progress}
    {Writes : Tag → Option Forest → β → Prop} {Allowed : Tag → Forest → Prop}
    (empty : ∀ {xs tag r}, Allowed tag .nil →
      ((level xs).Reads (.empty tag) r ↔ ∃ x, Writes tag none x ∧ level (xs ++ [x]) = r))
    (node : ∀ {xs tag inside r}, Allowed tag inside →
      ((level xs).ReadsAll (.opened tag :: (inside.events ++ [.closed tag.name])) r ↔
        ∃ x, Writes tag (some inside) x ∧ level (xs ++ [x]) = r))
    (h : f.All Allowed) {xs : List β} :
    (level xs).ReadsAll f.events q ↔ ∃ ys, Sequence Writes f ys ∧ level (xs ++ ys) = q := by
  induction f generalizing xs with
  | nil =>
    rw [Forest.events, readsAll_nil]
    constructor
    · intro hq
      exact ⟨[], .nil, by rw [List.append_nil, hq]⟩
    · rintro ⟨ys, hys, hq⟩
      cases hys
      rw [← hq, List.append_nil]
  | empty tag rest ih =>
    rw [Forest.events, readsAll_cons]
    constructor
    · rintro ⟨r, hr, hq⟩
      obtain ⟨x, hx, rfl⟩ := (empty h.1).mp hr
      obtain ⟨ys, hys, hq⟩ := (ih h.2).mp hq
      exact ⟨x :: ys, .empty hx hys, by rw [← hq, List.append_assoc, List.singleton_append]⟩
    · rintro ⟨ys, hys, hq⟩
      cases hys with
      | @empty _ _ x ys hx hys =>
        refine ⟨_, (empty h.1).mpr ⟨x, hx, rfl⟩, (ih h.2).mpr ⟨ys, hys, ?_⟩⟩
        rw [← hq, List.append_assoc, List.singleton_append]
  | node tag inside rest _ ih =>
    -- The element is read from its start tag to its end tag, and then the others are.
    have hevents : (Forest.node tag inside rest).events =
        (.opened tag :: (inside.events ++ [.closed tag.name])) ++ rest.events := by
      simp [Forest.events]
    rw [hevents, readsAll_append]
    constructor
    · rintro ⟨r, hr, hq⟩
      obtain ⟨x, hx, rfl⟩ := (node h.1).mp hr
      obtain ⟨ys, hys, hq⟩ := (ih h.2).mp hq
      exact ⟨x :: ys, .node hx hys, by rw [← hq, List.append_assoc, List.singleton_append]⟩
    · rintro ⟨ys, hys, hq⟩
      cases hys with
      | @node _ _ _ x ys hx hys =>
        refine ⟨_, (node h.1).mpr ⟨x, hx, rfl⟩, (ih h.2).mpr ⟨ys, hys, ?_⟩⟩
        rw [← hq, List.append_assoc, List.singleton_append]

/-- Inside a type, elements that name members are read. -/
theorem readsAll_members (h : Lacks "linker" f.events) :
    ReadsAll ⟨b, some a, some e, done⟩ f.events q ↔
      ∃ methods fields, Members f methods fields ∧ ⟨b, some a, some { e with
        methods := e.methods ++ methods, fields := e.fields ++ fields }, done⟩ = q := by
  induction f generalizing e with
  | nil =>
    rw [Forest.events, readsAll_nil]
    constructor
    · intro hq
      exact ⟨[], [], .nil, by simp [← hq]⟩
    · rintro ⟨methods, fields, hmembers, hq⟩
      cases hmembers
      simp [← hq]
  | empty tag rest ih =>
    obtain ⟨htag, hrest⟩ := lacks_cons.mp h
    rw [Forest.events, readsAll_cons]
    constructor
    · rintro ⟨r, hr, hq⟩
      cases hr with
      | emptyLinker hname => exact absurd hname htag
      | method hname hvalue =>
        obtain ⟨methods, fields, hmembers, hq⟩ := (ih hrest).mp hq
        exact ⟨_, _, .method hname hvalue hmembers, by simp [← hq]⟩
      | field hname hvalue =>
        obtain ⟨methods, fields, hmembers, hq⟩ := (ih hrest).mp hq
        exact ⟨_, _, .field hname hvalue hmembers, by simp [← hq]⟩
    · rintro ⟨methods, fields, hmembers, hq⟩
      cases hmembers with
      | method hname hvalue hmembers =>
        exact ⟨_, .method hname hvalue, (ih hrest).mpr ⟨_, _, hmembers, by simp [← hq]⟩⟩
      | field hname hvalue hmembers =>
        exact ⟨_, .field hname hvalue, (ih hrest).mpr ⟨_, _, hmembers, by simp [← hq]⟩⟩
  | node tag inside rest =>
    obtain ⟨htag, _⟩ := lacks_cons.mp h
    rw [Forest.events, readsAll_cons]
    constructor
    -- Only a `linker` may be opened here.
    · rintro ⟨r, hr, hq⟩
      cases hr with
      | linker hname => exact absurd hname htag
    · rintro ⟨methods, fields, hmembers, hq⟩
      cases hmembers

/-- Inside an assembly, elements that write entries for types are read. -/
theorem readsAll_types (h : Lacks "linker" f.events) {types : List TypeEntry} :
    (inAssembly b a done types).ReadsAll f.events q ↔
      ∃ more, Sequence WritesType f more ∧ inAssembly b a done (types ++ more) = q := by
  refine readsAll_sequence ?empty ?node (Forest.lacks_events_iff.mp h)
  case empty =>
    rintro types tag r ⟨htag, _⟩
    constructor
    · intro hr
      cases hr with
      | emptyLinker hname => exact absurd hname htag
      | emptyType he => exact ⟨_, he, rfl⟩
    · rintro ⟨e, he, hr⟩
      subst hr
      exact .emptyType he
  case node =>
    rintro types tag inside r ⟨htag, hinside⟩
    simp only [readsAll_cons, readsAll_append, readsAll_nil]
    constructor
    · rintro ⟨r₁, hr₁, r₂, hr₂, r₃, hr₃, hr⟩
      cases hr₁ with
      | linker hname => exact absurd hname htag
      | @type _ _ _ e _ he =>
        obtain ⟨hmethods, hfields⟩ := members_nil_iff.mp he.members
        obtain ⟨methods, fields, hmembers, hr₂⟩ := (readsAll_members hinside).mp hr₂
        rw [hmethods, hfields] at hr₂
        subst hr₂
        cases hr₃
        rw [closed_type he.element] at hr
        exact ⟨{ e with methods, fields }, ⟨he.element, he.name, he.preserve, hmembers⟩, hr⟩
    · rintro ⟨e, he, hr⟩
      obtain ⟨htype, hmembers⟩ := writesType_some_iff.mp he
      exact ⟨_, .type htype, _, (readsAll_members hinside).mpr ⟨_, _, hmembers, rfl⟩, _, .closed,
        (closed_type he.element).trans hr⟩

/-- Inside a linker, elements that write entries for assemblies are read. -/
theorem readsAll_assemblies (h : Lacks "linker" f.events) :
    (inLinkerElement done).ReadsAll f.events q ↔
      ∃ more, Sequence WritesAssembly f more ∧ inLinkerElement (done ++ more) = q := by
  refine readsAll_sequence ?empty ?node (Forest.lacks_events_iff.mp h)
  case empty =>
    rintro done tag r ⟨htag, _⟩
    constructor
    · intro hr
      cases hr with
      | emptyLinker hname => exact absurd hname htag
      | emptyAssembly ha => exact ⟨_, ha, rfl⟩
    · rintro ⟨a, ha, hr⟩
      subst hr
      exact .emptyAssembly ha
  case node =>
    rintro done tag inside r ⟨htag, hinside⟩
    simp only [readsAll_cons, readsAll_append, readsAll_nil]
    constructor
    · rintro ⟨r₁, hr₁, r₂, hr₂, r₃, hr₃, hr⟩
      cases hr₁ with
      | linker hname => exact absurd hname htag
      | @assembly _ a _ _ ha =>
        obtain ⟨types, htypes, hr₂⟩ := (readsAll_types hinside).mp hr₂
        rw [sequence_nil_iff.mp ha.types, List.nil_append] at hr₂
        subst hr₂
        cases hr₃
        rw [inAssembly, closed_assembly ha.element] at hr
        exact ⟨{ a with types }, ⟨ha.element, ha.name, ha.action, htypes⟩, hr⟩
    · rintro ⟨a, ha, hr⟩
      obtain ⟨hassembly, htypes⟩ := writesAssembly_some_iff.mp ha
      exact ⟨_, .assembly hassembly, _, (readsAll_types hinside).mpr ⟨_, htypes, rfl⟩, _, .closed,
        (closed_assembly ha.element).trans hr⟩

/-- Outside of all elements, elements that write descriptors are read. -/
theorem readsAll_linkers (h : f.Outermost "linker")
    {parts : List (List AssemblyEntry)} :
    (outside parts).ReadsAll f.events q ↔
      ∃ more, Sequence WritesLinker f more ∧ outside (parts ++ more) = q := by
  refine readsAll_sequence ?empty ?node h
  case empty =>
    intro parts tag r _
    constructor
    · intro hr
      cases hr with
      | emptyLinker hname => exact ⟨[], ⟨hname, .nil⟩, by simp [outside]⟩
    · rintro ⟨entries, ⟨hname, hentries⟩, hr⟩
      rw [sequence_nil_iff.mp hentries] at hr
      subst hr
      have hsame : outside (parts ++ [[]]) = outside parts := by simp [outside]
      rw [hsame]
      exact .emptyLinker hname
  case node =>
    intro parts tag inside r hinside
    simp only [readsAll_cons, readsAll_append, readsAll_nil]
    constructor
    · rintro ⟨r₁, hr₁, r₂, hr₂, r₃, hr₃, hr⟩
      cases hr₁ with
      | linker hname =>
        obtain ⟨entries, hentries, hr₂⟩ := (readsAll_assemblies hinside).mp hr₂
        subst hr₂
        cases hr₃
        rw [inLinkerElement, closed_linker hname] at hr
        exact ⟨entries, ⟨hname, hentries⟩, by rw [← hr]; simp [outside]⟩
    · rintro ⟨entries, ⟨hname, hentries⟩, hr⟩
      refine ⟨_, .linker hname, _, (readsAll_assemblies hinside).mpr ⟨_, hentries, rfl⟩, _,
        .closed, ?_⟩
      rw [inLinkerElement, closed_linker hname, ← hr]
      simp [outside]

theorem readsAll_start (h : f.Outermost "linker") :
    start.ReadsAll f.events q ↔
      ∃ parts, Sequence WritesLinker f parts ∧ ⟨false, none, none, parts.flatten⟩ = q := by
  have houtside : (outside []).ReadsAll f.events q ↔ _ := readsAll_linkers h
  exact houtside

/-- Only tags for `linker` elements open and close them. -/
theorem Reads.inLinker (h : p.Reads event q) (hevent : event.element ≠ "linker") :
    q.inLinker = p.inLinker := by
  cases h with
  | linker hname | emptyLinker hname => exact absurd hname hevent
  | closed =>
    unfold Progress.closed
    split
    case h_4 => exact absurd rfl hevent
    all_goals rfl
  | _ => rfl

theorem readsAll_inLinker (h : p.ReadsAll events q) (hevents : Lacks "linker" events) :
    q.inLinker = p.inLinker := by
  induction events generalizing p with
  | nil => rw [readsAll_nil.mp h]
  | cons event events ih =>
    obtain ⟨r, hr, hq⟩ := readsAll_cons.mp h
    obtain ⟨hevent, hevents⟩ := lacks_cons.mp hevents
    exact (ih hq hevents).trans (hr.inLinker hevent)

end Progress

end CilTrim.Descriptor
