import CilTrim.Proofs.Descriptor.Parsing
import CilTrim.Proofs.Xml.Scanning

/-!
# Printing descriptors

* `Descriptor.Prints`: the texts of a descriptor, and `Descriptor.print`: one of them;
* `Descriptor.Named`: no name in a descriptor is empty;
* `Descriptor.parse_print`: every text of a descriptor with names is read as it, if the tokenizer is
  faithful.
-/

namespace CilTrim.Descriptor

open Xml

/-! ## Texts -/

/-- An attribute for a word, if there is one. -/
def wordAttribute (key : String) (word? : Option String) : List (String × String) :=
  word?.toList.map fun word => (key, word)

/-- The attributes of the element for a type. -/
def typeAttributes (e : TypeEntry) : List (String × String) :=
  ("fullname", e.fullName) :: wordAttribute "preserve" (e.preserve.map TypePreserve.word)

/-- The attributes of the element for an assembly. -/
def assemblyAttributes (a : AssemblyEntry) : List (String × String) :=
  ("fullname", a.fullName) :: wordAttribute "action" (a.action.map LinkAction.word)

/-- Elements with the names of methods and fields. -/
inductive PrintsMembers : Forest → List String → List String → Prop where
  | nil : PrintsMembers .nil [] []
  | method {tag : Tag} {rest : Forest} {name : String} {methods fields : List String} :
    tag.name = "method" → tag.Holds [("name", name)] → PrintsMembers rest methods fields →
    PrintsMembers (.empty tag rest) (name :: methods) fields
  | field {tag : Tag} {rest : Forest} {name : String} {methods fields : List String} :
    tag.name = "field" → tag.Holds [("name", name)] → PrintsMembers rest methods fields →
    PrintsMembers (.empty tag rest) methods (name :: fields)

/-- An element for a type. -/
structure PrintsType (tag : Tag) (inside : Option Forest) (e : TypeEntry) : Prop where
  element : tag.name = "type"
  attributes : tag.Holds (typeAttributes e)
  members : PrintsMembers (inside.getD .nil) e.methods e.fields

/-- An element for an assembly. -/
structure PrintsAssembly (tag : Tag) (inside : Option Forest) (a : AssemblyEntry) : Prop where
  element : tag.name = "assembly"
  attributes : tag.Holds (assemblyAttributes a)
  types : Sequence PrintsType (inside.getD .nil) a.types

/-- An element for a descriptor. -/
structure PrintsLinker (tag : Tag) (inside : Option Forest) (entries : List AssemblyEntry) :
    Prop where
  element : tag.name = "linker"
  attributes : tag.Holds []
  assemblies : Sequence PrintsAssembly (inside.getD .nil) entries

/-- A text is that of an element for a descriptor. -/
def Prints (d : Descriptor) (text : String) : Prop :=
  ∃ f, Sequence PrintsLinker f [d.assemblies] ∧ f.Spells text.toList

/-! ## One of the texts -/

/-- Elements with names, in front of others. -/
def memberElements (element : String) (names : List String) (rest : Forest) : Forest :=
  names.foldr (fun name rest => .empty (.ofAttributes element [("name", name)]) rest) rest

/-- Elements for types, which are one tag if they have no members. -/
def typeElements : List TypeEntry → Forest
  | [] => .nil
  | e :: types =>
    let tag := Tag.ofAttributes "type" (typeAttributes e)
    if e.methods.isEmpty && e.fields.isEmpty then .empty tag (typeElements types)
    else
      .node tag (memberElements "method" e.methods (memberElements "field" e.fields .nil))
        (typeElements types)

/-- Elements for assemblies. -/
def assemblyElements : List AssemblyEntry → Forest
  | [] => .nil
  | a :: assemblies =>
    .node (.ofAttributes "assembly" (assemblyAttributes a)) (typeElements a.types)
      (assemblyElements assemblies)

/-- The text of a descriptor without blanks between the tags. -/
def print (d : Descriptor) : String :=
  String.ofList
    (Forest.node (.ofAttributes "linker" []) (assemblyElements d.assemblies) .nil).written

/-! ## Names -/

/-- An entry for a type has names. -/
structure NamedType (e : TypeEntry) : Prop where
  fullName : e.fullName ≠ ""
  methods : ∀ name ∈ e.methods, name ≠ ""
  fields : ∀ name ∈ e.fields, name ≠ ""

/-- An entry for an assembly has names. -/
structure NamedAssembly (a : AssemblyEntry) : Prop where
  fullName : a.fullName ≠ ""
  types : ∀ e ∈ a.types, NamedType e

/-- No name in a descriptor is empty. -/
def Named (d : Descriptor) : Prop :=
  ∀ a ∈ d.assemblies, NamedAssembly a

variable {tag : Tag} {attributes : List (String × String)} {e : TypeEntry} {a : AssemblyEntry}
  {inside : Option Forest} {f : Forest} {d : Descriptor}

/-! ## Words -/

theorem ofWord?_preserve (p : TypePreserve) :
    TypePreserve.ofWord? p.word.toLower = some p := by
  cases p <;> decide +kernel

theorem ofWord?_action (action : LinkAction) :
    LinkAction.ofWord? action.word.toLower = some action := by
  cases action <;> decide +kernel

theorem lookup_wordAttribute {key fullName : String} {word? : Option String}
    (h : key ≠ "fullname") :
    (("fullname", fullName) :: wordAttribute key word?).lookup key = word? := by
  have hkey : (key == "fullname") = false := by simpa using h
  cases word? <;> simp [wordAttribute, hkey, List.lookup_cons]

/-! ## Reading -/

section Reading

variable [x : Tokenizer]

theorem names_of_holds (faithful : x.Faithful) (h : tag.Holds attributes) {key name : String}
    (lookup : attributes.lookup key = some name) (hname : name ≠ "") : Names tag key name :=
  ⟨(faithful.value? h key).trans (congrArg _ lookup), hname⟩

theorem says_of_holds (faithful : x.Faithful) {α : Type} {word : α → String}
    {ofWord? : String → Option α}
    (words : ∀ meaning, ofWord? (word meaning).toLower = some meaning) {meaning? : Option α}
    {key fullName : String} (hkey : key ≠ "fullname")
    (h : tag.Holds (("fullname", fullName) :: wordAttribute key (meaning?.map word))) :
    Says ofWord? tag key meaning? := by
  have hvalue := (faithful.value? h key).trans (congrArg _ (lookup_wordAttribute hkey))
  cases meaning? with
  | none => exact .nothing hvalue
  | some meaning => exact .word hvalue (words meaning)

theorem PrintsMembers.members (faithful : x.Faithful) {methods fields : List String}
    (h : PrintsMembers f methods fields) (hmethods : ∀ name ∈ methods, name ≠ "")
    (hfields : ∀ name ∈ fields, name ≠ "") : Members f methods fields := by
  induction h with
  | nil => exact .nil
  | method hname htag _ ih =>
    exact .method hname (names_of_holds faithful htag rfl (hmethods _ List.mem_cons_self))
      (ih (fun name h => hmethods name (List.mem_cons_of_mem _ h)) hfields)
  | field hname htag _ ih =>
    exact .field hname (names_of_holds faithful htag rfl (hfields _ List.mem_cons_self))
      (ih hmethods fun name h => hfields name (List.mem_cons_of_mem _ h))

theorem PrintsType.writes (faithful : x.Faithful) (h : PrintsType tag inside e)
    (named : NamedType e) : WritesType tag inside e where
  element := h.element
  name := names_of_holds faithful h.attributes rfl named.fullName
  preserve := says_of_holds faithful ofWord?_preserve (by decide) h.attributes
  members := h.members.members faithful named.methods named.fields

theorem PrintsAssembly.writes (faithful : x.Faithful) (h : PrintsAssembly tag inside a)
    (named : NamedAssembly a) : WritesAssembly tag inside a where
  element := h.element
  name := names_of_holds faithful h.attributes rfl named.fullName
  action := says_of_holds faithful ofWord?_action (by decide) h.attributes
  types := h.types.mono fun e he htype => htype.writes faithful (named.types e he)

/-- Every text of a descriptor with names writes it, so it is read as it. -/
theorem parse_of_prints (faithful : x.Faithful) (named : d.Named) {text : String}
    (h : d.Prints text) : parse text = .ok d := by
  obtain ⟨f, hlinker, hspells⟩ := h
  have hdocument := faithful.document hspells
  refine parse_of_writes (congrArg (·.complete) hdocument) (congrArg (·.events) hdocument) ?_
  refine ⟨[d.assemblies], hlinker.mono fun entries hentries hlinker => ?_, by simp⟩
  rw [List.mem_singleton.mp hentries] at hlinker ⊢
  exact ⟨hlinker.element, hlinker.assemblies.mono fun a ha h => h.writes faithful (named a ha)⟩

end Reading

/-! ## Writing -/

theorem PrintsMembers.spells {methods fields : List String} (h : PrintsMembers f methods fields) :
    f.Spells f.written := by
  have hblank : IsBlank [] := by simp [IsBlank]
  induction h with
  | nil => exact .nil hblank
  | method _ htag _ ih | field _ htag _ ih => exact .empty hblank htag ih

theorem sequence_spells_written {β : Type} {Writes : Tag → Option Forest → β → Prop} {xs : List β}
    (h : Sequence Writes f xs) (each : ∀ {tag inside x}, Writes tag inside x →
      (∃ attributes, tag.Holds attributes) ∧ (inside.getD .nil).Spells (inside.getD .nil).written) :
    f.Spells f.written :=
  Forest.spells_written (h.all each)

theorem holds_name {element name : String} (helement : IsName element.toList) :
    (Tag.ofAttributes element [("name", name)]).Holds [("name", name)] := by
  refine Tag.holds_ofAttributes helement (fun a ha => ?_) (by simp)
  rw [List.mem_singleton.mp ha]
  change IsName "name".toList
  decide

theorem printsMembers_fields {fields : List String} :
    PrintsMembers (memberElements "field" fields .nil) [] fields := by
  induction fields with
  | nil => exact .nil
  | cons name fields ih => exact .field rfl (holds_name (by decide)) ih

theorem printsMembers_methods {methods fields : List String} (h : PrintsMembers f [] fields) :
    PrintsMembers (memberElements "method" methods f) methods fields := by
  induction methods with
  | nil => exact h
  | cons name methods ih => exact .method rfl (holds_name (by decide)) ih

theorem holds_wordAttribute {element key : String} (helement : IsName element.toList)
    (hkey : IsName key.toList) (hne : key ≠ "fullname") {fullName : String}
    {word? : Option String} :
    (Tag.ofAttributes element (("fullname", fullName) :: wordAttribute key word?)).Holds
      (("fullname", fullName) :: wordAttribute key word?) := by
  refine Tag.holds_ofAttributes helement (fun a ha => ?_) ?_
  · rcases List.mem_cons.mp ha with rfl | ha
    · change IsName "fullname".toList
      decide
    · obtain ⟨word, -, rfl⟩ := List.mem_map.mp ha
      exact hkey
  · cases word? <;> simp [wordAttribute, Ne.symm hne]

theorem sequence_typeElements {types : List TypeEntry} :
    Sequence PrintsType (typeElements types) types := by
  induction types with
  | nil => exact .nil
  | cons e types ih =>
    have htag : (Tag.ofAttributes "type" (typeAttributes e)).Holds (typeAttributes e) :=
      holds_wordAttribute (by decide) (by decide) (by decide)
    unfold typeElements
    split
    · rename_i hnone
      rw [Bool.and_eq_true, List.isEmpty_iff, List.isEmpty_iff] at hnone
      refine .empty ⟨rfl, htag, ?_⟩ ih
      rw [hnone.1, hnone.2]
      exact .nil
    · exact .node ⟨rfl, htag, printsMembers_methods printsMembers_fields⟩ ih

theorem sequence_assemblyElements {assemblies : List AssemblyEntry} :
    Sequence PrintsAssembly (assemblyElements assemblies) assemblies := by
  induction assemblies with
  | nil => exact .nil
  | cons a assemblies ih =>
    have htag : (Tag.ofAttributes "assembly" (assemblyAttributes a)).Holds (assemblyAttributes a) :=
      holds_wordAttribute (by decide) (by decide) (by decide)
    exact .node ⟨rfl, htag, sequence_typeElements⟩ ih

theorem prints_print : d.Prints d.print := by
  have htag : (Tag.ofAttributes "linker" []).Holds [] :=
    Tag.holds_ofAttributes (by decide) (by simp) (by simp)
  have hprints : Sequence PrintsLinker
      (.node (.ofAttributes "linker" []) (assemblyElements d.assemblies) .nil) [d.assemblies] :=
    .node ⟨rfl, htag, sequence_assemblyElements⟩ .nil
  refine ⟨_, hprints, ?_⟩
  rw [print, String.toList_ofList]
  refine sequence_spells_written hprints fun hlinker => ⟨⟨_, hlinker.attributes⟩, ?_⟩
  refine sequence_spells_written hlinker.assemblies fun ha => ⟨⟨_, ha.attributes⟩, ?_⟩
  exact sequence_spells_written ha.types fun he => ⟨⟨_, he.attributes⟩, he.members.spells⟩

/-- With a faithful tokenizer, a descriptor with names is read back from its text, and from every
other one that has blanks between and in the tags, either kind of quotes, methods and fields mixed,
or elements without content as one tag or two. -/
theorem parse_print [x : Tokenizer] (faithful : x.Faithful) (named : d.Named) :
    parse d.print = .ok d ∧ ∀ text, d.Prints text → parse text = .ok d :=
  ⟨parse_of_prints faithful named prints_print, fun _ => parse_of_prints faithful named⟩

namespace Manifest

/-- A descriptor whose names hold characters of markup. -/
def quoted : Descriptor :=
  ⟨[⟨"A&\"B\"", some .copy, [⟨"<'T'>", some .fields, ["a > b"], ["c\n"]⟩]⟩]⟩

theorem quoted_named : quoted.Named := by
  intro a ha
  rw [List.mem_singleton.mp ha]
  refine ⟨by decide, fun e he => ?_⟩
  rw [List.mem_singleton.mp he]
  exact ⟨by decide, by decide, by decide⟩

end Manifest

/-- Names with characters of markup are read back. -/
theorem parse_print_quoted : parse Manifest.quoted.print = .ok Manifest.quoted :=
  (parse_print scanner_faithful Manifest.quoted_named).1

example : Manifest.quoted.print.toList =
    "<linker><assembly fullname=\"A&amp;&quot;B&quot;\" action=\"copy\">".toList ++
      "<type fullname=\"&lt;&apos;T&apos;&gt;\" preserve=\"fields\">".toList ++
      "<method name=\"a &gt; b\"/><field name=\"c\n\"/></type></assembly></linker>".toList := by
  rw [print, String.toList_ofList]
  decide +kernel

end CilTrim.Descriptor
