import CilTrim.Proofs.Descriptor.Reading
import CilTrim.Proofs.Xml.Scanning

/-!
# Parsing descriptors

* `Descriptor.Progress.step_xml`: faults of XML come from attributes;
* `Descriptor.parse_of_writes`: elements that write a descriptor are read as it;
* `Descriptor.parse_outlined`: with any tokenizer that nests tags, a text is a descriptor exactly if
  its elements write one, but for `linker` elements inside others.
-/

namespace CilTrim.Descriptor

open Xml

/-! ## Faults -/

section Faults

variable [Tokenizer] {tag : Tag} {key : String}

theorem attribute?_eq_xml {cause : Xml.Fault} :
    attribute? tag key = .error (.xml cause) ↔ Tokenizer.value? tag key = .error cause := by
  unfold attribute?
  cases Tokenizer.value? tag key <;> simp [Except.mapError]

/-- A fault of XML comes from looking for the attribute, if what is done with its value has none. -/
theorem attribute?_bind_xml {β : Type} {f : Option String → Except Fault β} {cause : Xml.Fault}
    (hf : ∀ value?, f value? ≠ .error (.xml cause))
    (h : attribute? tag key >>= f = .error (.xml cause)) :
    Tokenizer.value? tag key = .error cause := by
  rcases bind_eq_error_iff.mp h with h | ⟨value?, -, h⟩
  · exact attribute?_eq_xml.mp h
  · exact absurd h (hf value?)

theorem required_xml {cause : Xml.Fault} (h : required tag key = .error (.xml cause)) :
    Tokenizer.value? tag key = .error cause := by
  refine attribute?_bind_xml (fun value? => ?_) h
  cases value? with
  | none => exact nofun
  | some value =>
    dsimp only
    split
    all_goals exact nofun

theorem optionalWord_xml {α : Type} {ofWord? : String → Option α} {cause : Xml.Fault}
    (h : optionalWord ofWord? tag key = .error (.xml cause)) :
    Tokenizer.value? tag key = .error cause := by
  refine attribute?_bind_xml (fun value? => ?_) h
  cases value? with
  | none => exact nofun
  | some value =>
    dsimp only
    split
    all_goals exact nofun

/-- A fault of XML comes from an attribute. -/
theorem entry_xml {α β : Type} {ofWord? : String → Option α} {key' : String}
    {make : String → Option α → β} {cause : Xml.Fault}
    (h : (do
      let name ← required tag key
      let meaning? ← optionalWord ofWord? tag key'
      pure (make name meaning?)) = .error (.xml cause)) :
    ∃ key, Tokenizer.value? tag key = .error cause := by
  rcases bind_eq_error_iff.mp h with h | ⟨_, -, h⟩
  · exact ⟨_, required_xml h⟩
  · exact ⟨_, optionalWord_xml (error_of_bind_pure h)⟩

theorem Progress.opened_xml {p : Progress} {cause : Xml.Fault}
    (h : p.opened tag = .error (.xml cause)) : ∃ key, Tokenizer.value? tag key = .error cause := by
  unfold opened at h
  split at h
  case h_1 => cases h
  case h_2 =>
    split at h
    · exact entry_xml (error_of_bind_pure h)
    · cases h
  case h_3 => exact entry_xml (error_of_bind_pure h)
  case h_4 => cases h

theorem Progress.empty_xml {p : Progress} {cause : Xml.Fault}
    (h : p.empty tag = .error (.xml cause)) : ∃ key, Tokenizer.value? tag key = .error cause := by
  unfold empty at h
  split at h
  case h_1 => cases h
  case h_2 =>
    split at h
    · exact entry_xml (error_of_bind_pure h)
    · cases h
  case h_3 => exact entry_xml (error_of_bind_pure h)
  case h_4 | h_5 => exact ⟨_, required_xml (error_of_bind_pure h)⟩
  case h_6 => cases h

/-- Faults of XML come from attributes. -/
theorem Progress.step_xml {p : Progress} {event : Event} {cause : Xml.Fault}
    (h : p.step event = .error (.xml cause)) :
    ∃ tag key, (event = .opened tag ∨ event = .empty tag) ∧
      Tokenizer.value? tag key = .error cause := by
  cases event with
  | opened tag =>
    obtain ⟨key, hkey⟩ := opened_xml h
    exact ⟨tag, key, .inl rfl, hkey⟩
  | empty tag =>
    obtain ⟨key, hkey⟩ := empty_xml h
    exact ⟨tag, key, .inr rfl, hkey⟩
  | closed name => cases h

end Faults

/-! ## Descriptors -/

section Texts

variable [Tokenizer] {text : String} {f : Forest} {d : Descriptor}

theorem parse_eq_ok_iff (complete : (Tokenizer.document text).complete = true) :
    parse text = .ok d ↔
      ∃ q, Progress.start.ReadsAll (Tokenizer.document text).events q ∧ q.finish = .ok d := by
  unfold parse ofDocument Progress.ReadsAll
  rw [bind_eq_ok_iff, complete]
  rfl

/-- Elements that write a descriptor are read as it. -/
theorem parse_of_writes (complete : (Tokenizer.document text).complete = true)
    (events : (Tokenizer.document text).events = f.events) (h : Writes f d) :
    parse text = .ok d := by
  have houtermost := h.outermost
  obtain ⟨parts, hparts, hd⟩ := h
  rw [parse_eq_ok_iff complete, events]
  refine ⟨_, (Progress.readsAll_start houtermost).mpr ⟨parts, hparts, rfl⟩, ?_⟩
  cases d
  cases hd
  rfl

/-- An outline of a text that is a descriptor, with `linker` elements outermost, has no open
element. -/
theorem exists_whole {o : Outline} (complete : (Tokenizer.document text).complete = true)
    (events : (Tokenizer.document text).events = o.events) (h : parse text = .ok d)
    (outermost : o.Outermost "linker") : ∃ f, o = .whole f := by
  cases o with
  | whole f => exact ⟨f, rfl⟩
  | broken elements tag inside =>
    obtain ⟨q, hq, hfinish⟩ := (parse_eq_ok_iff complete).mp h
    rw [events, Outline.events, Progress.readsAll_append] at hq
    obtain ⟨r, hr, hq⟩ := hq
    obtain ⟨parts, -, rfl⟩ := (Progress.readsAll_start outermost.1).mp hr
    obtain ⟨r, hr, hq⟩ := Progress.readsAll_cons.mp hq
    -- The open element is a `linker`, as only that may stand outside, and nothing inside closes it.
    cases hr with
    | linker hname =>
      have hopen : q.inLinker = true := Progress.readsAll_inLinker hq outermost.2
      rw [Progress.finish, hopen] at hfinish
      cases hfinish

/-- Elements that are read as a descriptor write it, if `linker` elements are outermost. -/
theorem writes_of_parse (complete : (Tokenizer.document text).complete = true)
    (events : (Tokenizer.document text).events = f.events) (h : parse text = .ok d)
    (outermost : f.Outermost "linker") : Writes f d := by
  obtain ⟨q, hq, hfinish⟩ := (parse_eq_ok_iff complete).mp h
  rw [events] at hq
  obtain ⟨parts, hparts, rfl⟩ := (Progress.readsAll_start outermost).mp hq
  cases hfinish
  exact ⟨parts, hparts, rfl⟩

/-- If a tokenizer finds no fault in a text and nests its tags, then these outline elements. If
`linker` elements are outermost in the outline, then the text is a descriptor exactly if no element
is open and the elements write it. Otherwise the fault is about descriptors, unless an attribute is
at fault. -/
theorem parse_outlined (complete : (Tokenizer.document text).complete = true)
    (nested : Nested [] (Tokenizer.document text).events) :
    (∃ o : Outline, (Tokenizer.document text).events = o.events) ∧
      ∀ o : Outline, (Tokenizer.document text).events = o.events →
        (∀ d, parse text = .ok d ∧ o.Outermost "linker" ↔ ∃ f, o = .whole f ∧ Writes f d) ∧
        ∀ cause, parse text = .error (.xml cause) → ∃ tag key,
          (.opened tag ∈ o.events ∨ .empty tag ∈ o.events) ∧
            Tokenizer.value? tag key = .error cause := by
  refine ⟨nested.exists_outline, fun o ho => ⟨fun d => ⟨?_, ?_⟩, fun cause h => ?_⟩⟩
  · rintro ⟨hparse, houtermost⟩
    obtain ⟨f, rfl⟩ := exists_whole complete ho hparse houtermost
    exact ⟨f, rfl, writes_of_parse complete ho hparse houtermost⟩
  · rintro ⟨f, hf, hwrites⟩
    subst hf
    exact ⟨parse_of_writes complete ho hwrites, hwrites.outermost⟩
  · unfold parse ofDocument at h
    rcases bind_eq_error_iff.mp h with h | ⟨q, -, h⟩
    · obtain ⟨event, hevent, p, hstep⟩ := exists_error_of_foldlM h
      obtain ⟨tag, key, htag, hfault⟩ := Progress.step_xml hstep
      refine ⟨tag, key, ?_, hfault⟩
      rw [ho] at hevent
      rcases htag with rfl | rfl
      · exact .inl hevent
      · exact .inr hevent
    · rw [if_pos complete] at h
      unfold Progress.finish at h
      split at h <;> cases h

end Texts

/-! ## A manifest -/

namespace Manifest

/-- A descriptor as a text. -/
def text : String :=
  "<linker><assembly fullname='App' action='Copy'><type fullname='*'/></assembly></linker>"

/-- The elements of the text. -/
def elements : Forest :=
  .node ⟨"linker", []⟩
    (.node ⟨"assembly", " fullname='App' action='Copy'".toList⟩
      (.empty ⟨"type", " fullname='*'".toList⟩ .nil) .nil) .nil

/-- The descriptor. -/
def descriptor : Descriptor :=
  ⟨[⟨"App", some .copy, [⟨"*", none, [], []⟩]⟩]⟩

theorem document_text : Tokenizer.document text = ⟨elements.events, true⟩ := by
  decide +kernel

theorem parse_text : parse text = .ok descriptor := by
  unfold parse
  rw [document_text]
  decide +kernel

end Manifest

/-- The elements of the text write the descriptor. -/
theorem parse_outlined_manifest : Writes Manifest.elements Manifest.descriptor := by
  have hmanifest := (@parse_outlined scanner Manifest.text
    (congrArg (·.complete) Manifest.document_text) (scan_nested Manifest.text)).2
    (.whole Manifest.elements) (congrArg (·.events) Manifest.document_text)
  have houtermost : Manifest.elements.Outermost "linker" := by decide +kernel
  obtain ⟨f, hf, hwrites⟩ := (hmanifest.1 _).mp ⟨Manifest.parse_text, houtermost⟩
  cases hf
  exact hwrites

/-- A `linker` element that is left open around another one is not noticed, and a method that is
written with two tags is misplaced. -/
theorem parse_unclosed :
    Tokenizer.document "<linker><linker></linker>" =
        ⟨(Outline.broken .nil ⟨"linker", []⟩ (.whole (.node ⟨"linker", []⟩ .nil .nil))).events,
          true⟩ ∧
      parse "<linker><linker></linker>" = .ok ⟨[]⟩ ∧
      parse ("<linker><assembly fullname='A'><type fullname='T'><method name='M'></method>" ++
        "</type></assembly></linker>") = .error (.misplaced "method") := by
  decide +kernel

end CilTrim.Descriptor
