import CilTrim.Proofs.Descriptor.Apply
import CilTrim.Proofs.Mark.Monotone

/-!
# What descriptors keep

A descriptor says what must be kept, and a run from it keeps that, but for one thing: of the choices
of members that are made for one type, only the last counts.

* `Context.described`: a session after a descriptor;
* `TypeEntry.Met`: what an entry asks of a type is kept;
* `Context.mark_described`: what a run from a descriptor keeps;
* `Settings.overruled`: an entry for all types is overruled by a later entry for one of them.
-/

namespace CilTrim

/-- One choice of members keeps no others than another. -/
structure TypePreserve.Within (p p' : TypePreserve) : Prop where
  fields : p.keepsFields = true → p'.keepsFields = true
  methods : p.keepsMethods = true → p'.keepsMethods = true

/-- What an entry asks of a type that it selects is kept, when it chooses the given members: the
type, its chosen members, and the methods and fields that the entry names. -/
structure TypeEntry.Met (m : Model) (marks : Marks) (e : TypeEntry) (chosen : TypePreserve)
    (t : Token) (definition : TypeDef) : Prop where
  type : marks.isMarked t = true
  fields : chosen.keepsFields = true → ∀ y ∈ definition.fields, marks.isMarked y = true
  methods : chosen.keepsMethods = true → ∀ y ∈ definition.methods, marks.isMarked y = true
  listedMethods : ∀ method ∈ m.methodsOf definition, method.name ∈ e.methods →
    marks.isMarked method.token = true
  listedFields : ∀ name ∈ e.fields, ∀ y, m.findField? t name = some y → marks.isMarked y = true

theorem TypeEntry.Met.within {m : Model} {marks : Marks} {e : TypeEntry} {p p' : TypePreserve}
    {t : Token} {definition : TypeDef} (h : e.Met m marks p' t definition) (hp : p.Within p') :
    e.Met m marks p t definition :=
  { h with fields := h.fields ∘ hp.fields, methods := h.methods ∘ hp.methods }

/-- If what an entry makes roots of is marked, then all that it asks for is reached, with the members
that are chosen for the type. -/
theorem TypeEntry.Met.of_reached {s : Setting} (wf : s.model.WellFormed) {marks marks' : Marks}
    (reached : ∀ t, marks'.isMarked t = true ↔ s.Reached marks t) {e : TypeEntry} {t : Token}
    (roots : ∀ y, e.Roots s.model t y → marks.isMarked y = true) {definition : TypeDef}
    (hd : s.model.type? t = some definition) :
    e.Met s.model marks' (s.policy.preserve t) t definition where
  type := (reached t).mpr (.root (roots t .type))
  fields := fun hk y hy =>
    (reached y).mpr (.type (.root (roots t .type)) hd (.preservedField hk hy))
  methods := fun hk y hy => by
    obtain ⟨method, hm : s.model.method? y = some method, -⟩ := wf.methods_listed.declared hd hy
    have hmem : method ∈ s.model.methodsOf definition := List.mem_filterMap.mpr ⟨y, hy, hm⟩
    rw [reached, ← wf.method_token hm]
    exact .type (.root (roots t .type)) hd (.preservedMethod hk hmem)
  listedMethods := fun method hmem hname => by
    obtain ⟨hlisted, hm⟩ := Model.mem_methodsOf wf hmem
    exact (reached _).mpr (.root (roots _ (.method ⟨definition, method, hd, hlisted, hm, hname⟩)))
  listedFields := fun name hname y hy => (reached y).mpr (.root (roots y (.field hname hy)))

namespace Context

variable {m : Model} {c : Context} {d : Descriptor} {returned : List Token}

/-- The session after a descriptor. -/
def described (c : Context) (m : Model) (d : Descriptor) : Context :=
  { c with annotations := (d.apply m c.annotations).2 }

/-- A text that is a descriptor is applied to a session as that descriptor. -/
theorem applyDescriptor_described [Xml.Tokenizer] {text : String}
    (parsed : Descriptor.parse text = .ok d)
    (applied : (d.apply m c.annotations).1 = none) :
    c.applyDescriptor m text = (.ok (), c.described m d) := by
  unfold applyDescriptor
  rw [parsed]
  dsimp only
  generalize hx : d.apply m c.annotations = x at applied
  obtain ⟨fault, annotations⟩ := x
  cases applied
  simp only [described, hx]

theorem overrides_described (applied : (d.apply m c.annotations).1 = none) :
    ((c.described m d).ensureOverrides m).annotations.overrides =
      (c.ensureOverrides m).annotations.overrides := by
  simp only [ensureOverrides_eq, onAnnotations, described, Descriptor.overrides_apply applied]

theorem fresh_described (applied : (d.apply m c.annotations).1 = none)
    (fresh : ∀ t, c.annotations.marks.isProcessed t = false) (t : Token) :
    (c.described m d).annotations.marks.isProcessed t = false :=
  (Descriptor.isProcessed_apply applied).trans (fresh t)

theorem policy_ensureOverrides :
    ((c.ensureOverrides m).setting m).policy = c.annotations.policy := by
  rw [ensureOverrides_eq]
  rfl

/-- A run from a descriptor keeps each type that an entry selects, with the methods and fields that
the entry names, and with the members that the last entry for the type chooses. So all is kept that
an entry asks for, if no later choice for the type keeps less. -/
theorem mark_described (built : Model.Built returned m) (fits : m.Fits)
    (new : c.annotations = .empty) (applied : (d.apply m c.annotations).1 = none)
    {stats : MarkStats} (h : ((c.described m d).mark m).1 = .ok stats) {entry : AssemblyEntry}
    (hentry : entry ∈ d.assemblies) {e : TypeEntry} (he : e ∈ entry.types) :
    ∃ assembly, m.findAssembly? entry.fullName = some assembly ∧
      ∀ t, e.Selects m assembly.token t → ∃ definition, m.type? t = some definition ∧
        e.Met m ((c.described m d).mark m).2.annotations.marks (d.inForce m t .nothing) t
          definition ∧
        (e.effectivePreserve.Within (d.inForce m t .nothing) →
          e.Met m ((c.described m d).mark m).2.annotations.marks e.effectivePreserve t
            definition) := by
  have wf := built.wellFormed fits
  obtain ⟨assembly, hassembly⟩ := Descriptor.findAssembly_of_apply applied hentry
  refine ⟨assembly, hassembly, fun t hselects => ?_⟩
  obtain ⟨definition, hd⟩ := Descriptor.isSome_of_selects wf fits hselects
  have hrequest : (t, e) ∈ d.requests m :=
    Descriptor.mem_requests.mpr ⟨entry, hentry, assembly, hassembly, he,
      (Descriptor.mem_selected wf fits).mpr hselects⟩
  have overrides : ((c.described m d).ensureOverrides m).annotations.overrides = .ofModel m := by
    rw [overrides_described applied, ensureOverrides_eq, onAnnotations, new]
    rfl
  have fresh := fresh_described applied (fun t => by rw [new]; rfl)
  have hmarked := isMarked_mark built fits overrides fresh h
  have hpreserve : (((c.described m d).ensureOverrides m).setting m).policy.preserve t =
      d.inForce m t .nothing := by
    rw [policy_ensureOverrides, described, Descriptor.preserve_apply applied, new]
    rfl
  have met : e.Met m ((c.described m d).mark m).2.annotations.marks (d.inForce m t .nothing) t
      definition := by
    rw [← hpreserve]
    exact .of_reached wf hmarked
      (fun y hy => (Descriptor.isMarked_apply applied).mpr (.inr ⟨_, hrequest, hy⟩)) hd
  exact ⟨definition, hd, met, met.within⟩

end Context

/-! ## A class among others -/

namespace Settings

/-- A class with a method, and a class with a field and a method. -/
def model : Model :=
  let m := (Model.empty.addAssembly "App").2
  let m := (m.addType (.ofClass ⟨0x20000001⟩ "App" "Program")).2
  let m := (m.addType (.ofClass ⟨0x20000001⟩ "App" "Settings")).2
  let m := (m.addMethod (((MethodDraft.ofName ⟨0x02000001⟩ "Main").returns
    (.definition ⟨0x02000001⟩)).withCode [.ret])).2
  let m := (m.addMethod (((MethodDraft.ofName ⟨0x02000002⟩ "Load").returns
    (.definition ⟨0x02000001⟩)).withCode [.ret])).2
  (m.addField { declaringType := ⟨0x02000002⟩, name := "path", type := .definition ⟨0x02000001⟩ }).2

theorem built : ∃ returned, Model.Built returned model := by
  refine ⟨_, .field _ (.method _ (.method _ (.type _ (.type _ (.assembly "App" .empty) ?_ ?_)
    ?_ ?_) ?_) ?_) ?_⟩
  · exact ⟨by decide, by decide⟩
  · exact nofun
  · exact ⟨by decide, by decide⟩
  · exact nofun
  · exact ⟨by decide, by decide⟩
  · exact ⟨by decide, by decide⟩
  · exact ⟨by decide, by decide⟩

theorem fits : model.Fits := by
  intro table
  cases table <;> decide

/-- The entry for all types, which are kept with all members. -/
def everything : TypeEntry := ⟨"*", none, [], []⟩

/-- The entry for the second class, which is kept with its fields. -/
def fieldsOnly : TypeEntry := ⟨"App.Settings", some .fields, [], []⟩

/-- A descriptor with entries for types of the assembly. -/
def describing (types : List TypeEntry) : Descriptor := ⟨[⟨"App", none, types⟩]⟩

/-- A session with nothing but a descriptor. -/
def session (types : List TypeEntry) : Context :=
  (Context.ofOptions .default).described model (describing types)

/-- The entry for all types selects the second class. -/
theorem everything_selects {assembly : AssemblyDef}
    (h : model.findAssembly? "App" = some assembly) :
    everything.Selects model assembly.token ⟨0x02000002⟩ := by
  have htoken : (model.findAssembly? "App").map (·.token) = some ⟨0x20000001⟩ := by decide +kernel
  have hplaced : (model.type? ⟨0x02000002⟩).map (·.assembly) = some ⟨0x20000001⟩ := by
    decide +kernel
  obtain ⟨definition, hd, hassembly⟩ := Option.map_eq_some_iff.mp hplaced
  rw [h] at htoken
  exact .all (by decide) hd (hassembly.trans (Option.some.inj htoken).symm)

end Settings

/-- When the entry for all types comes last, the class is kept with all its members. -/
theorem Context.mark_described_settings :
    ∃ definition, Settings.model.type? ⟨0x02000002⟩ = some definition ∧
      Settings.everything.Met Settings.model
        ((Settings.session [Settings.fieldsOnly, Settings.everything]).mark
          Settings.model).2.annotations.marks .all ⟨0x02000002⟩ definition := by
  obtain ⟨returned, built⟩ := Settings.built
  obtain ⟨stats, h⟩ := exists_ok_of_isOk
    (x := ((Settings.session [Settings.fieldsOnly, Settings.everything]).mark Settings.model).1)
    (by decide +kernel)
  obtain ⟨assembly, hassembly, hmet⟩ := Context.mark_described built Settings.fits rfl
    (by decide +kernel) h List.mem_cons_self (List.mem_cons_of_mem _ List.mem_cons_self)
  obtain ⟨definition, hd, hforce, -⟩ := hmet _ (Settings.everything_selects hassembly)
  have hall : (Settings.describing [Settings.fieldsOnly, Settings.everything]).inForce
      Settings.model ⟨0x02000002⟩ .nothing = .all := by decide +kernel
  rw [hall] at hforce
  rw [Settings.session]
  exact ⟨definition, hd, hforce⟩

/-- When the entry for the class comes last, it overrules the entry for all types, and the method of
the class is not kept, though that entry asks for it. -/
theorem Settings.overruled :
    (∃ returned, Model.Built returned model) ∧ model.Fits ∧
      ((describing [everything, fieldsOnly]).apply model .empty).1 = none ∧
      ((session [everything, fieldsOnly]).mark model).1.isOk = true ∧
      (∀ assembly, model.findAssembly? "App" = some assembly →
        everything.Selects model assembly.token ⟨0x02000002⟩) ∧
      everything.effectivePreserve.keepsMethods = true ∧
      ⟨0x06000002⟩ ∈ (model.type? ⟨0x02000002⟩).toList.flatMap (·.methods) ∧
      ((session [everything, fieldsOnly]).mark model).2.annotations.marks.isMarked
        ⟨0x06000002⟩ = false := by
  refine ⟨built, fits, ?_, ?_, fun _ => everything_selects, ?_, ?_, ?_⟩
  all_goals decide +kernel

end CilTrim
