import CilTrim.Context
import CilTrim.Proofs.Annotation.Marks
import CilTrim.Proofs.Model.Bound

/-!
# What a descriptor changes

Applying a descriptor is a sequence of requests, each of an entry to a type that it selects. What it
leaves behind is read off that sequence:

* `TypeEntry.Selects`: the types that an entry selects, with `Descriptor.mem_selected`;
* `Descriptor.requests`, `Descriptor.apply_view`: applying is one request after another;
* `TypeEntry.Roots`, `Descriptor.isMarked_apply`: what is marked;
* `TypeEntry.Lists`, `Descriptor.methodAction_apply`: the methods whose bodies are followed;
* `Descriptor.inForce`, `Descriptor.preserve_apply`: the last choice of members for a type, which
  overrules all others;
* `Descriptor.isProcessed_apply`, `Descriptor.methodsKept_apply`,
  `Descriptor.assemblyAction_apply`, `Descriptor.overrides_apply`: what stays.
-/

namespace CilTrim

/-- An entry of an assembly selects a type: any one of the assembly, or the one that has its name
when each plus is taken for a slash. -/
inductive TypeEntry.Selects (m : Model) (e : TypeEntry) (assembly t : Token) : Prop where
  | all {d : TypeDef} : e.fullName = Descriptor.allTypes → m.type? t = some d →
    d.assembly = assembly → Selects m e assembly t
  | named : e.fullName ≠ Descriptor.allTypes →
    m.findType? assembly (Descriptor.slashed e.fullName) = some t → Selects m e assembly t

/-- An entry names a method of a type. -/
def TypeEntry.Lists (m : Model) (e : TypeEntry) (type method : Token) : Prop :=
  ∃ owner definition, m.type? type = some owner ∧ method ∈ owner.methods ∧
    m.method? method = some definition ∧ definition.name ∈ e.methods

/-- What an entry makes a root of when it selects a type: the type, and the methods and fields that
it names. -/
inductive TypeEntry.Roots (m : Model) (e : TypeEntry) (type : Token) : Token → Prop where
  | type : Roots m e type type
  | method {method : Token} : e.Lists m type method → Roots m e type method
  | field {name : String} {field : Token} : name ∈ e.fields → m.findField? type name = some field →
    Roots m e type field

/-- Steps that each may replace a value leave the last replacement. -/
theorem foldl_getD_eq {α β : Type} (replacement? : α → Option β) (xs : List α) (b : β) :
    xs.foldl (fun b x => (replacement? x).getD b) b =
      (xs.filterMap replacement?).getLast?.getD b := by
  induction xs generalizing b with
  | nil => rfl
  | cons x rest ih =>
    rw [List.foldl_cons, ih]
    cases h : replacement? x with
    | none => rw [List.filterMap_cons_none h, Option.getD_none]
    | some b' =>
      rw [List.filterMap_cons_some h, List.getLast?_cons, Option.getD_some, Option.getD_some]

namespace Descriptor

variable {m : Model} {d : Descriptor} {a : Annotations} {e : TypeEntry} {type assembly t : Token}

/-! ## Requests -/

theorem mem_selected (wf : m.WellFormed) (fits : m.Fits) :
    t ∈ selected m assembly e ↔ e.Selects m assembly t := by
  unfold selected
  split <;> rename_i h
  · constructor
    · intro ht
      obtain ⟨definition, hd, rfl⟩ := List.mem_map.mp ht
      obtain ⟨hmem, hassembly⟩ := List.mem_filter.mp hd
      exact .all h (wf.type_of_mem fits hmem) (beq_iff_eq.mp hassembly)
    · rintro (⟨-, hd, hassembly⟩ | ⟨hne, -⟩)
      · refine List.mem_map.mpr ⟨_, List.mem_filter.mpr ⟨Rows.mem_of_find? hd, ?_⟩, wf.type_token hd⟩
        exact beq_iff_eq.mpr hassembly
      · exact absurd h hne
  · rw [Option.mem_toList]
    constructor
    · exact .named h
    · rintro (⟨heq, -, -⟩ | ⟨-, hfind⟩)
      · exact absurd heq h
      · exact hfind

/-- What is selected is a type of the model. -/
theorem isSome_of_selects (wf : m.WellFormed) (fits : m.Fits) (h : e.Selects m assembly t) :
    ∃ definition, m.type? t = some definition := by
  cases h with
  | all _ hd _ => exact ⟨_, hd⟩
  | named _ hfind => exact Option.isSome_iff_exists.mp (Model.type_of_findType? wf fits hfind)

/-- What a descriptor asks for, in order: each type that an entry selects, with the entry. -/
def requests (d : Descriptor) (m : Model) : List (Token × TypeEntry) :=
  d.assemblies.flatMap fun entry => (m.findAssembly? entry.fullName).toList.flatMap fun assembly =>
    entry.types.flatMap fun e => (selected m assembly.token e).map fun t => (t, e)

theorem mem_requests : (t, e) ∈ d.requests m ↔
    ∃ entry ∈ d.assemblies, ∃ assembly, m.findAssembly? entry.fullName = some assembly ∧
      e ∈ entry.types ∧ t ∈ selected m assembly.token e := by
  simp [requests, Option.mem_toList]

/-- A view of the annotations that the actions of a descriptor do not show, and that every request
changes in a way of its own, is changed by the requests one after another. -/
theorem apply_view {α : Type} (view : Annotations → α) (change : α → Token × TypeEntry → α)
    (action : ∀ entry ∈ d.assemblies, ∀ decided, entry.action = some decided →
      ∀ a t, view (a.onPolicy (·.setAssemblyAction t decided)) = view a)
    (request : ∀ a t e, view (applyType m e a t) = change (view a) (t, e))
    (applied : (d.apply m a).1 = none) :
    view (d.apply m a).2 = (d.requests m).foldl change (view a) := by
  have entry (assembly : Token) (e : TypeEntry) (a : Annotations) :
      view (applyEntry m assembly a e) =
        ((selected m assembly e).map fun t => (t, e)).foldl change (view a) := by
    rw [applyEntry, List.foldl_map]
    induction selected m assembly e generalizing a with
    | nil => rfl
    | cons t rest ih => rw [List.foldl_cons, List.foldl_cons, ih, request]
  have types (assembly : Token) (es : List TypeEntry) (a : Annotations) :
      view (es.foldl (applyEntry m assembly) a) =
        (es.flatMap fun e => (selected m assembly e).map fun t => (t, e)).foldl change
          (view a) := by
    induction es generalizing a with
    | nil => rfl
    | cons e rest ih => rw [List.foldl_cons, List.flatMap_cons, List.foldl_append, ih, entry]
  obtain ⟨entries⟩ := d
  unfold apply at applied ⊢
  induction entries generalizing a with
  | nil => rfl
  | cons first rest ih =>
    simp only [applyAll] at applied ⊢
    cases hfound : m.findAssembly? first.fullName with
    | none => simp [hfound] at applied
    | some assembly =>
      simp only [hfound] at applied ⊢
      have hrequests : requests ⟨first :: rest⟩ m =
          (first.types.flatMap fun e => (selected m assembly.token e).map fun t => (t, e)) ++
            requests ⟨rest⟩ m := by
        simp [requests, hfound]
      rw [ih (fun entry h => action entry (List.mem_cons_of_mem _ h)) applied, hrequests,
        List.foldl_append, applyAssembly, types]
      cases hdecided : first.action with
      | none => rfl
      | some decided => rw [action first List.mem_cons_self decided hdecided]

/-- A descriptor that can be applied names assemblies of the model. -/
theorem findAssembly_of_apply (applied : (d.apply m a).1 = none) {entry : AssemblyEntry}
    (h : entry ∈ d.assemblies) : ∃ assembly, m.findAssembly? entry.fullName = some assembly := by
  obtain ⟨entries⟩ := d
  unfold apply at applied
  induction entries generalizing a with
  | nil => cases h
  | cons first rest ih =>
    simp only [applyAll] at applied
    cases hfound : m.findAssembly? first.fullName with
    | none => simp [hfound] at applied
    | some assembly =>
      simp only [hfound] at applied
      rcases List.mem_cons.mp h with rfl | h
      · exact ⟨assembly, hfound⟩
      · exact ih applied h

/-! ## Marks -/

/-- The methods of a type that an entry names. -/
def listed (m : Model) (e : TypeEntry) (owner : TypeDef) : List Token :=
  e.methods.flatMap fun name => owner.methods.filter fun t => (m.method? t).any (·.name == name)

theorem mem_listed {owner : TypeDef} (h : m.type? type = some owner) :
    t ∈ listed m e owner ↔ e.Lists m type t := by
  simp only [listed, List.mem_flatMap, List.mem_filter, Option.any_eq_true, beq_iff_eq,
    TypeEntry.Lists, h, Option.some.injEq]
  constructor
  · rintro ⟨name, hname, hmem, definition, hd, rfl⟩
    exact ⟨owner, definition, rfl, hmem, hd, hname⟩
  · rintro ⟨owner, definition, rfl, hmem, hd, hname⟩
    exact ⟨_, hname, hmem, definition, hd, rfl⟩

/-- Makes roots of methods whose bodies are followed. -/
def parseAll (marks : Marks) (methods : List Token) : Marks :=
  methods.foldl (fun marks t => (marks.mark t .root).setMethodAction t .parse) marks

/-- The marks after a request. -/
def markRequest (m : Model) (marks : Marks) (request : Token × TypeEntry) : Marks :=
  match m.type? request.1 with
  | none => marks.mark request.1 .root
  | some owner =>
    (parseAll (marks.mark request.1 .root) (listed m request.2 owner)).markAll
      (request.2.fields.filterMap (m.findField? request.1))

theorem marks_applyType : (applyType m e a type).marks = markRequest m a.marks (type, e) := by
  have methods (owner : TypeDef) (names : List String) (marks : Marks) :
      names.foldl (rootMethods m owner) marks =
        parseAll marks (names.flatMap fun name =>
          owner.methods.filter fun t => (m.method? t).any (·.name == name)) := by
    rw [parseAll, List.foldl_flatMap]
    rfl
  have fields (names : List String) (marks : Marks) :
      names.foldl (rootField m type) marks =
        marks.markAll (names.filterMap (m.findField? type)) := by
    induction names generalizing marks with
    | nil => rfl
    | cons name rest ih =>
      rw [List.foldl_cons, ih, rootField]
      cases h : m.findField? type name with
      | none => rw [List.filterMap_cons_none h]
      | some field =>
        rw [List.filterMap_cons_some h]
        rfl
  unfold applyType
  -- A choice of members is no matter of marks.
  generalize hchosen : (if e.effectivePreserve = .nothing then a.onMarks (·.mark type .root)
    else (a.onMarks (·.mark type .root)).onPolicy (·.setPreserve type e.effectivePreserve)) = a'
  have hmarks : a'.marks = a.marks.mark type .root := by
    rw [← hchosen]
    split <;> rfl
  simp only [hchosen, markRequest]
  cases m.type? type with
  | none => exact hmarks
  | some owner => simp only [Annotations.onMarks, methods, fields, hmarks, listed]

@[simp] theorem isMarked_setMethodAction {marks : Marks} {node : Token} {action : MethodAction} :
    (marks.setMethodAction node action).isMarked t = marks.isMarked t :=
  rfl

theorem methodAction_setMethodAction {marks : Marks} {node : Token} {action : MethodAction} :
    (marks.setMethodAction node action).methodAction t =
      if t = node then action else marks.methodAction t := by
  unfold Marks.setMethodAction Marks.methodAction
  dsimp only
  rw [Marks.getElem?_insert]
  split <;> rfl

theorem isMarked_parseAll {marks : Marks} {methods : List Token} :
    (parseAll marks methods).isMarked t = true ↔ t ∈ methods ∨ marks.isMarked t = true := by
  induction methods generalizing marks with
  | nil => simp [parseAll]
  | cons method rest ih =>
    have step : parseAll marks (method :: rest) =
      parseAll ((marks.mark method .root).setMethodAction method .parse) rest := rfl
    rw [step, ih, isMarked_setMethodAction, Marks.isMarked_mark, List.mem_cons, or_left_comm,
      or_assoc]

theorem isMarked_markRequest {marks : Marks} :
    (markRequest m marks (type, e)).isMarked t = true ↔
      marks.isMarked t = true ∨ e.Roots m type t := by
  simp only [markRequest]
  cases htype : m.type? type with
  | none =>
    rw [Marks.isMarked_mark]
    constructor
    · rintro (rfl | h)
      · exact .inr .type
      · exact .inl h
    · rintro (h | h | ⟨owner, definition, howner, -⟩ | ⟨-, hfind⟩)
      · exact .inr h
      · exact .inl rfl
      · cases htype.symm.trans howner
      · simp [Model.findField?, htype] at hfind
  | some owner =>
    simp only [Marks.isMarked_markAll, isMarked_parseAll, Marks.isMarked_mark, mem_listed htype,
      List.mem_filterMap]
    constructor
    · rintro (⟨name, hname, hfind⟩ | h | rfl | h)
      · exact .inr (.field hname hfind)
      · exact .inr (.method h)
      · exact .inr .type
      · exact .inl h
    · rintro (h | h | h | ⟨hname, hfind⟩)
      · exact .inr (.inr (.inr h))
      · exact .inr (.inr (.inl rfl))
      · exact .inr (.inl h)
      · exact .inl ⟨_, hname, hfind⟩

theorem isProcessed_parseAll {marks : Marks} {methods : List Token} :
    (parseAll marks methods).isProcessed t = marks.isProcessed t := by
  induction methods generalizing marks with
  | nil => rfl
  | cons method rest ih => exact ih.trans Marks.isProcessed_mark

theorem isProcessed_markRequest {marks : Marks} {r : Token × TypeEntry} :
    (markRequest m marks r).isProcessed t = marks.isProcessed t := by
  unfold markRequest
  split
  · exact Marks.isProcessed_mark
  · rw [Marks.isProcessed_markAll, isProcessed_parseAll, Marks.isProcessed_mark]

theorem methodAction_parseAll {marks : Marks} {methods : List Token} :
    (parseAll marks methods).methodAction t =
      if t ∈ methods then .parse else marks.methodAction t := by
  induction methods generalizing marks with
  | nil => simp [parseAll]
  | cons method rest ih =>
    have step : parseAll marks (method :: rest) =
      parseAll ((marks.mark method .root).setMethodAction method .parse) rest := rfl
    rw [step, ih, methodAction_setMethodAction, Marks.methodAction_mark]
    by_cases hrest : t ∈ rest
    · rw [if_pos hrest, if_pos (List.mem_cons_of_mem _ hrest)]
    · simp only [hrest, if_false, List.mem_cons, or_false]

open Classical in
theorem methodAction_markRequest {marks : Marks} :
    (markRequest m marks (type, e)).methodAction t =
      if e.Lists m type t then .parse else marks.methodAction t := by
  simp only [markRequest]
  cases htype : m.type? type with
  | none =>
    have hnone : ¬ e.Lists m type t := fun ⟨_, _, howner, _⟩ => by cases htype.symm.trans howner
    rw [if_neg hnone, Marks.methodAction_mark]
  | some owner =>
    simp only [Marks.methodAction_markAll, methodAction_parseAll, Marks.methodAction_mark,
      mem_listed htype]

/-- The marks after a descriptor. -/
theorem marks_apply (applied : (d.apply m a).1 = none) :
    (d.apply m a).2.marks = (d.requests m).foldl (markRequest m) a.marks :=
  apply_view (·.marks) (markRequest m) (fun _ _ _ _ _ _ => rfl) (fun _ _ _ => marks_applyType)
    applied

/-- What is marked after a descriptor: what was, and what its entries make roots of. -/
theorem isMarked_apply (applied : (d.apply m a).1 = none) :
    (d.apply m a).2.marks.isMarked t = true ↔
      a.marks.isMarked t = true ∨ ∃ r ∈ d.requests m, r.2.Roots m r.1 t := by
  rw [marks_apply applied]
  generalize a.marks = marks
  induction d.requests m generalizing marks with
  | nil => simp
  | cons r rest ih =>
    rw [List.foldl_cons, ih, isMarked_markRequest, or_assoc, List.exists_mem_cons_iff]

/-- Only marking processes methods. -/
theorem isProcessed_apply (applied : (d.apply m a).1 = none) :
    (d.apply m a).2.marks.isProcessed t = a.marks.isProcessed t := by
  rw [marks_apply applied]
  generalize a.marks = marks
  induction d.requests m generalizing marks with
  | nil => rfl
  | cons r rest ih => rw [List.foldl_cons, ih, isProcessed_markRequest]

open Classical in
/-- The bodies of the methods that a descriptor names are to be parsed, whatever was decided on them
before. -/
theorem methodAction_apply (applied : (d.apply m a).1 = none) :
    (d.apply m a).2.marks.methodAction t =
      if ∃ r ∈ d.requests m, r.2.Lists m r.1 t then .parse else a.marks.methodAction t := by
  rw [marks_apply applied]
  generalize a.marks = marks
  induction d.requests m generalizing marks with
  | nil => simp
  | cons r rest ih =>
    rw [List.foldl_cons, ih, methodAction_markRequest]
    simp only [List.exists_mem_cons_iff]
    by_cases hrest : ∃ r ∈ rest, r.2.Lists m r.1 t
    · rw [if_pos hrest, if_pos (.inr hrest)]
    · simp only [hrest, or_false, if_false]

/-! ## Policies -/

theorem policy_applyType :
    (applyType m e a type).policy =
      if e.effectivePreserve = .nothing then a.policy
      else a.policy.setPreserve type e.effectivePreserve := by
  unfold applyType
  cases m.type? type <;> split <;> rfl

theorem overrides_applyType : (applyType m e a type).overrides = a.overrides := by
  unfold applyType
  cases m.type? type <;> dsimp only <;> split <;> rfl

theorem preserve_setPreserve {p : Policy} {chosen : TypePreserve} :
    (p.setPreserve type chosen).preserve t = if t = type then chosen else p.preserve t := by
  unfold Policy.setPreserve Policy.preserve
  dsimp only
  rw [Marks.getElem?_insert]
  split <;> rfl

/-- The choice of members that a request makes for a type, if it makes one. -/
def choice? (t : Token) (request : Token × TypeEntry) : Option TypePreserve :=
  if request.1 = t ∧ request.2.effectivePreserve ≠ .nothing then some request.2.effectivePreserve
  else none

/-- The choice of members that a descriptor leaves for a type, in place of an earlier one: the last
that it makes. -/
def inForce (d : Descriptor) (m : Model) (t : Token) (before : TypePreserve) : TypePreserve :=
  ((d.requests m).filterMap (choice? t)).getLast?.getD before

theorem preserve_applyType :
    (applyType m e a type).policy.preserve t =
      (choice? t (type, e)).getD (a.policy.preserve t) := by
  rw [policy_applyType]
  unfold choice?
  by_cases h : e.effectivePreserve = .nothing
  · rw [if_pos h, if_neg fun hc => hc.2 h, Option.getD_none]
  · rw [if_neg h, preserve_setPreserve]
    by_cases ht : t = type
    · rw [if_pos ht, if_pos ⟨ht.symm, h⟩, Option.getD_some]
    · rw [if_neg ht, if_neg fun hc => ht hc.1.symm, Option.getD_none]

/-- The members that are kept with a type after a descriptor. -/
theorem preserve_apply (applied : (d.apply m a).1 = none) :
    (d.apply m a).2.policy.preserve t = d.inForce m t (a.policy.preserve t) := by
  rw [apply_view (·.policy.preserve t) (fun before request => (choice? t request).getD before)
    (fun _ _ _ _ _ _ => rfl) (fun _ _ _ => preserve_applyType) applied, foldl_getD_eq]
  rfl

/-- A view of the annotations that no request changes stays as it is. -/
theorem apply_keeps {α : Type} (view : Annotations → α)
    (action : ∀ entry ∈ d.assemblies, ∀ decided, entry.action = some decided →
      ∀ a t, view (a.onPolicy (·.setAssemblyAction t decided)) = view a)
    (request : ∀ a t e, view (applyType m e a t) = view a) (applied : (d.apply m a).1 = none) :
    view (d.apply m a).2 = view a := by
  rw [apply_view view (fun b _ => b) action request applied, List.foldl_fixed]

/-- The methods that are kept with a type one by one stay as they are. -/
theorem methodsKept_apply (applied : (d.apply m a).1 = none) :
    (d.apply m a).2.policy.methodsKept t = a.policy.methodsKept t := by
  refine apply_keeps (·.policy.methodsKept t) (fun _ _ _ _ _ _ => rfl) (fun a t e => ?_) applied
  rw [policy_applyType]
  split <;> rfl

/-- A descriptor without actions changes no action for an assembly. -/
theorem assemblyAction_apply (noActions : ∀ entry ∈ d.assemblies, entry.action = none)
    (applied : (d.apply m a).1 = none) :
    (d.apply m a).2.policy.assemblyAction t = a.policy.assemblyAction t := by
  refine apply_keeps (·.policy.assemblyAction t) (fun entry hentry decided hdecided => ?_)
    (fun a t e => ?_) applied
  · rw [noActions entry hentry] at hdecided
    cases hdecided
  · rw [policy_applyType]
    split <;> rfl

/-- The override table stays as it is. -/
theorem overrides_apply (applied : (d.apply m a).1 = none) :
    (d.apply m a).2.overrides = a.overrides :=
  apply_keeps (·.overrides) (fun _ _ _ _ _ _ => rfl) (fun _ _ _ => overrides_applyType) applied

end Descriptor

end CilTrim
