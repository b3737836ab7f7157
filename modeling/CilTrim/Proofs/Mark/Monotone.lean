import CilTrim.Proofs.Mark.Repeat
import CilTrim.Proofs.Mark.Resume

/-!
# Monotonicity

A session that asks for more never keeps less: no rule looks for what is absent. Both sessions are
compared through their rules, since what a run marks is what its rules reach from its roots:

* `Policy.AsksNoMore`, `MarkOptions.AsksNoMore`, `SpecialAttributes.AsksNoMore`,
  `Setting.AsksNoMore`: one choice of what to keep asks for no more than another;
* `Setting.TypeRequires.choosing`, `Setting.MethodRequires.choosing`: each rule holds under another
  choice, but for what the policy keeps with types and for what is forced;
* `Setting.TypeRequires.mono` and its kin: each rule holds under the choice that asks for more;
* `Setting.Closed.anti`: a set that is closed under more rules is closed under fewer;
* `Context.AsksNoMore`, `Context.mark_mono`: two sessions over one model.
-/

namespace CilTrim

/-! ## Choices -/

/-- Two policies do the same with the assemblies in which definitions of a model stand. -/
def Policy.ActsAs (p : Policy) (m : Model) (p' : Policy) : Prop :=
  ∀ {t assembly : Token}, m.assemblyOf? t = some assembly →
    p.assemblyAction assembly = p'.assemblyAction assembly

/-- One policy keeps no more members with the types of a model than another. Both do the same with
the assemblies in which definitions stand. -/
structure Policy.AsksNoMore (m : Model) (p p' : Policy) : Prop where
  actions {t assembly : Token} : m.assemblyOf? t = some assembly →
    p.assemblyAction assembly = p'.assemblyAction assembly
  fields {t : Token} {d : TypeDef} : m.type? t = some d →
    (p.preserve t).keepsFields = true → (p'.preserve t).keepsFields = true
  methods {t : Token} {d : TypeDef} : m.type? t = some d →
    (p.preserve t).keepsMethods = true → (p'.preserve t).keepsMethods = true
  kept {t : Token} {d : TypeDef} : m.type? t = some d → p.methodsKept t ⊆ p'.methodsKept t

/-- Some options follow no more than others. -/
structure MarkOptions.AsksNoMore (o o' : MarkOptions) : Prop where
  staticConstructors : o.staticConstructors = true → o'.staticConstructors = true
  unlinkedOverrides : o.unlinkedOverrides = true → o'.unlinkedOverrides = true
  typeArguments : o.typeArguments = true → o'.typeArguments = true

/-- An attribute is registered to name members of a kind. -/
def SpecialAttributes.Names (r : SpecialAttributes) (name : String) (kind : MemberKinds) : Prop :=
  ∃ kinds, r.get? name = some kinds ∧ kinds.includes kind = true

/-- One registry has no attribute name members of a kind that it does not name in another. -/
structure SpecialAttributes.AsksNoMore (r r' : SpecialAttributes) : Prop where
  methods {name : String} : r.Names name .methods → r'.Names name .methods
  fields {name : String} : r.Names name .fields → r'.Names name .fields
  properties {name : String} : r.Names name .properties → r'.Names name .properties

namespace Setting

/-- The setting with other choices of what to keep. -/
def choosing (s : Setting) (p : Policy) (o : MarkOptions) (r : SpecialAttributes) : Setting :=
  { s with policy := p, options := o, special := r }

/-- A setting keeps no more than it would with other choices. -/
structure AsksNoMore (s : Setting) (p : Policy) (o : MarkOptions) (r : SpecialAttributes) :
    Prop where
  policy : s.policy.AsksNoMore s.model p
  options : s.options.AsksNoMore o
  special : s.special.AsksNoMore r

variable {s : Setting} {p : Policy} {o : MarkOptions} {r : SpecialAttributes}
  {marks marks' : Marks} {S : Token → Prop} {t y owner : Token}

/-! ## Attributes -/

theorem AttributeRequires.mono {a : Attribute} (h : s.AttributeRequires owner a y)
    (options : s.options.AsksNoMore o) : (s.choosing p o r).AttributeRequires owner a y := by
  cases h with
  | constructor hn => exact .constructor hn
  | type harray hvalue hoption hmem hname hstands hn =>
    exact .type harray hvalue (options.typeArguments hoption) hmem hname hstands hn
  | field harray hctor hvalue hmem hfield htype hfind =>
    exact .field harray hctor hvalue hmem hfield htype hfind
  | setter harray hctor hvalue hmem hfield htype hfind =>
    exact .setter harray hctor hvalue hmem hfield htype hfind

theorem SpecialName.mono {a : Attribute} {kinds kind : MemberKinds} {name : String}
    (h : s.SpecialName a kinds name) (hkind : kinds.includes kind = true)
    (names : ∀ {name}, s.special.Names name kind → r.Names name kind) :
    ∃ kinds', (s.choosing p o r).SpecialName a kinds' name ∧ kinds'.includes kind = true := by
  obtain ⟨ctor, type, value, rest, hctor, htype, hget, hrest⟩ := h
  obtain ⟨kinds', hget', hkind'⟩ := names ⟨kinds, hget, hkind⟩
  exact ⟨kinds', ⟨ctor, type, value, rest, hctor, htype, hget', hrest⟩, hkind'⟩

theorem SpecialMember.mono {as : List Attribute} (h : s.SpecialMember t as y)
    (special : s.special.AsksNoMore r) : (s.choosing p o r).SpecialMember t as y := by
  cases h with
  | method htype ha hname hkind hmem heq =>
    obtain ⟨kinds', hname', hkind'⟩ := hname.mono hkind special.methods
    exact .method htype ha hname' hkind' hmem heq
  | field ha hname hkind hfind =>
    obtain ⟨kinds', hname', hkind'⟩ := hname.mono hkind special.fields
    exact .field ha hname' hkind' hfind
  | accessor ha hname hkind hfind hproperty haccessor =>
    obtain ⟨kinds', hname', hkind'⟩ := hname.mono hkind special.properties
    exact .accessor ha hname' hkind' hfind hproperty haccessor

/-! ## Types and fields -/

theorem TypeMentions.mono {d : TypeDef} {x : TypeRef} (h : s.TypeMentions d x) :
    (s.choosing p o r).TypeMentions d x := by
  cases h with
  | base hb => exact .base hb
  | interface hi => exact .interface hi
  | constraint hp hd hx => exact .constraint hp hd hx

theorem TypeAttribute.mono {d : TypeDef} {a : Attribute} (h : s.TypeAttribute t d owner a) :
    (s.choosing p o r).TypeAttribute t d owner a := by
  cases h with
  | own ha => exact .own ha
  | genericParam hp hd ha => exact .genericParam hp hd ha

theorem OverridesUnlinked.mono (h : s.OverridesUnlinked t) (actions : s.policy.ActsAs s.model p) :
    (s.choosing p o r).OverridesUnlinked t := by
  obtain ⟨base, assembly, habove, hassembly, haction⟩ := h
  exact ⟨base, assembly, habove, hassembly, (actions hassembly).symm.trans_ne haction⟩

/-- The members that the policy keeps with a type as a whole. -/
inductive Preserves (s : Setting) (t : Token) (d : TypeDef) : Token → Prop where
  | field {y : Token} : (s.policy.preserve t).keepsFields = true → y ∈ d.fields → Preserves s t d y
  | method {method : MethodDef} : (s.policy.preserve t).keepsMethods = true →
    method ∈ s.model.methodsOf d → Preserves s t d method.token

/-- What a type keeps, it keeps under other choices too, unless the policy keeps it as a member. -/
theorem TypeRequires.choosing {d : TypeDef} (h : s.TypeRequires t d y)
    (actions : s.policy.ActsAs s.model p) (kept : s.policy.methodsKept t ⊆ p.methodsKept t)
    (options : s.options.AsksNoMore o) (special : s.special.AsksNoMore r) :
    (s.choosing p o r).TypeRequires t d y ∨ s.Preserves t d y := by
  cases h with
  | preservedField hk hy => exact .inr (.field hk hy)
  | preservedMethod hk hm => exact .inr (.method hk hm)
  | assembly => exact .inl .assembly
  | module => exact .inl .module
  | enclosing ho => exact .inl (.enclosing ho)
  | mention hm hn => exact .inl (.mention hm.mono hn)
  | attributed ha hr => exact .inl (.attributed ha.mono (hr.mono options))
  | genericParam hp hparam => exact .inl (.genericParam hp hparam)
  | delegateMethod hdelegate hy => exact .inl (.delegateMethod hdelegate hy)
  | serialization hs hm hctor => exact .inl (.serialization hs hm hctor)
  | special hs => exact .inl (.special (hs.mono special))
  | valueField hv hy => exact .inl (.valueField hv hy)
  | staticConstructor hopt hm hc =>
    exact .inl (.staticConstructor (options.staticConstructors hopt) hm hc)
  | unlinkedOverride hopt hy hu =>
    exact .inl (.unlinkedOverride (options.unlinkedOverrides hopt) hy (hu.mono actions))
  | keptMethod hy => exact .inl (.keptMethod (kept hy))

theorem TypeRequires.mono {d : TypeDef} (h : s.TypeRequires t d y) (less : s.AsksNoMore p o r)
    (hd : s.model.type? t = some d) : (s.choosing p o r).TypeRequires t d y := by
  rcases h.choosing less.policy.actions (less.policy.kept hd) less.options less.special with
    h | ⟨hk, hy⟩ | ⟨hk, hm⟩
  · exact h
  · exact .preservedField (less.policy.fields hd hk) hy
  · exact .preservedMethod (less.policy.methods hd hk) hm

theorem FieldRequires.mono {f : FieldDef} (h : s.FieldRequires t f y)
    (options : s.options.AsksNoMore o) : (s.choosing p o r).FieldRequires t f y := by
  cases h with
  | owner => exact .owner
  | type hn => exact .type hn
  | attributed ha hr => exact .attributed ha (hr.mono options)
  | marshaler hm => exact .marshaler hm

/-! ## Methods -/

/-- A body that is followed under one choice is followed under another that forces as much. -/
theorem Follows.mono (h : s.Follows marks t) (less : s.AsksNoMore p o r)
    (forced : marks.methodAction t = .forceParse → marks'.methodAction t = .forceParse) :
    (s.choosing p o r).Follows marks' t :=
  h.imp forced fun hlink assembly hassembly =>
    (less.policy.actions hassembly).symm.trans (hlink assembly hassembly)

/-- The references in the body of a method. -/
inductive BodyMentions (d : MethodDef) : MemberRef → Prop where
  | localVariable {b : Body} {r : TypeRef} : d.body = some b → r ∈ b.locals →
    BodyMentions d (.type r)
  | caught {b : Body} {h : Handler} {r : TypeRef} : d.body = some b → h ∈ b.handlers →
    h.catchType? = some r → BodyMentions d (.type r)
  | operand {b : Body} {i : Instruction} {r : MemberRef} : d.body = some b →
    i ∈ b.instructions → operandMember? i.operand = some r → BodyMentions d r

/-- A method mentions what its body does, if that is followed. -/
theorem BodyMentions.followed {d : MethodDef} {x : MemberRef} (h : BodyMentions d x)
    (follows : s.Follows marks t) : s.MethodMentions marks t d x := by
  cases h with
  | localVariable hb hx => exact .localVariable follows hb hx
  | caught hb hh hx => exact .caught follows hb hh hx
  | operand hb hi hx => exact .operand follows hb hi hx

/-- What a method mentions, it mentions under other choices too, unless it does so in its body. -/
theorem MethodMentions.choosing {d : MethodDef} {x : MemberRef}
    (h : s.MethodMentions marks t d x) :
    (s.choosing p o r).MethodMentions marks' t d x ∨ s.Follows marks t ∧ BodyMentions d x := by
  cases h with
  | parameter hp => exact .inl (.parameter hp)
  | constraint hp hd hx => exact .inl (.constraint hp hd hx)
  | explicitOverride hx => exact .inl (.explicitOverride hx)
  | localVariable hf hb hx => exact .inr ⟨hf, .localVariable hb hx⟩
  | caught hf hb hh hx => exact .inr ⟨hf, .caught hb hh hx⟩
  | operand hf hb hi hx => exact .inr ⟨hf, .operand hb hi hx⟩

theorem MethodAttribute.mono {d : MethodDef} {a : Attribute} (h : s.MethodAttribute t d owner a) :
    (s.choosing p o r).MethodAttribute t d owner a := by
  cases h with
  | own ha => exact .own ha
  | parameter hp ha => exact .parameter hp ha
  | genericParam hp hd ha => exact .genericParam hp hd ha
  | property ho hp ha => exact .property ho hp ha
  | event ho he ha => exact .event ho he ha

/-- What a method keeps, it keeps under other choices too, unless its body does. -/
theorem MethodRequires.choosing {d : MethodDef} (h : s.MethodRequires marks t d y)
    (options : s.options.AsksNoMore o) (special : s.special.AsksNoMore r) :
    (s.choosing p o r).MethodRequires marks' t d y ∨
      s.Follows marks t ∧ ∃ x, BodyMentions d x ∧ s.model.Names x y := by
  cases h with
  | mention hm hn =>
    rcases hm.choosing with hm | ⟨hf, hx⟩
    · exact .inl (.mention hm hn)
    · exact .inr ⟨hf, _, hx, hn⟩
  | owner => exact .inl .owner
  | attributed ha hr => exact .inl (.attributed ha.mono (hr.mono options))
  | special hs => exact .inl (.special (hs.mono special))
  | marshaler hp hm => exact .inl (.marshaler hp hm)
  | genericParam hp hd => exact .inl (.genericParam hp hd)
  | overridden ha => exact .inl (.overridden ha)
  | property ho hp => exact .inl (.property ho hp)
  | event ho he => exact .inl (.event ho he)
  | accessor ho he hy => exact .inl (.accessor ho he hy)

theorem MethodRequires.mono {d : MethodDef} (h : s.MethodRequires marks t d y)
    (less : s.AsksNoMore p o r)
    (forced : marks.methodAction t = .forceParse → marks'.methodAction t = .forceParse) :
    (s.choosing p o r).MethodRequires marks' t d y := by
  rcases h.choosing less.options less.special with h | ⟨hf, x, hx, hn⟩
  · exact h
  · exact .mention (hx.followed (hf.mono less forced)) hn

/-! ## Whole models -/

theorem RootAttribute.mono {a : Attribute} (h : s.RootAttribute owner a) :
    (s.choosing p o r).RootAttribute owner a := by
  cases h with
  | assembly hd ha => exact .assembly hd ha
  | module hd hx hm ha => exact .module hd hx hm ha

/-- Some marks force no body of a method that others do not. -/
def ForcesNoMore (s : Setting) (marks marks' : Marks) : Prop :=
  ∀ t d, s.model.method? t = some d → marks.methodAction t = .forceParse →
    marks'.methodAction t = .forceParse

/-- A set that has all that more rules keep has all that fewer rules keep. -/
theorem Closed.anti (h : (s.choosing p o r).Closed marks' S) (less : s.AsksNoMore p o r)
    (forced : s.ForcesNoMore marks marks') :
    s.Closed marks S where
  type ht hd hr := h.type ht hd (hr.mono less hd)
  field ht hf hr := h.field ht hf (hr.mono less.options)
  method ht hd hr := h.method ht hd (hr.mono less (forced _ _ hd))
  attributed ha hr := h.attributed ha.mono (hr.mono less.options)
  overrider hb hv ho hd ht := h.overrider hb hv ho hd ht

/-- What is reached is reached from more roots by more rules. -/
theorem Reached.choosing (h : s.Reached marks t) (less : s.AsksNoMore p o r)
    (roots : ∀ t, marks.isMarked t = true → marks'.isMarked t = true)
    (forced : s.ForcesNoMore marks marks') :
    (s.choosing p o r).Reached marks' t :=
  h.least (Reached.closed.anti less forced) fun t ht => .root (roots t ht)

end Setting

/-! ## Sessions -/

namespace Context

/-- A session asks for no more than another over the same model: the other has its roots, forces the
bodies that it forces, and makes choices that ask for as much. Both have one core library. -/
structure AsksNoMore (m : Model) (c c' : Context) : Prop where
  roots (t : Token) : c.annotations.marks.isMarked t = true →
    c'.annotations.marks.isMarked t = true
  forced {t : Token} {d : MethodDef} : m.method? t = some d →
    c.annotations.marks.methodAction t = .forceParse →
    c'.annotations.marks.methodAction t = .forceParse
  corlibName : c.options.corlibName = c'.options.corlibName
  policy : c.annotations.policy.AsksNoMore m c'.annotations.policy
  options : c.options.AsksNoMore c'.options
  special : c.special.AsksNoMore c'.special

variable {m : Model} {c c' : Context} {returned : List Token}

/-- What a run of a session from the overrides of the model marks is what its rules reach. -/
theorem isMarked_mark (built : Model.Built returned m) (fits : m.Fits)
    (overrides : (c.ensureOverrides m).annotations.overrides = .ofModel m)
    (fresh : ∀ t, c.annotations.marks.isProcessed t = false) {stats : MarkStats}
    (h : (c.mark m).1 = .ok stats) (t : Token) :
    (c.mark m).2.annotations.marks.isMarked t = true ↔
      ((c.ensureOverrides m).setting m).Reached c.annotations.marks t := by
  have reg : ((c.ensureOverrides m).setting m).Regular :=
    Setting.regular_of_built built fits overrides
  have hsame : (c.ensureOverrides m).annotations.marks = c.annotations.marks := by
    rw [ensureOverrides_eq]
    rfl
  rw [← hsame] at fresh ⊢
  have resumes := Setting.resumes_of_fresh (s := (c.ensureOverrides m).setting m) fresh
  obtain ⟨start, st, hran, hmarks⟩ := Setting.mark_ran reg resumes h
  calc (c.mark m).2.annotations.marks.isMarked t = true
      ↔ st.marks.isMarked t = true := by rw [← hmarks]; rfl
    _ ↔ _ := (hran.marks_iff reg resumes t).1

/-- The setting of a session that asks for no more than another is that of the other, up to what is
chosen. -/
theorem AsksNoMore.setting (less : c.AsksNoMore m c')
    (overrides : (c.ensureOverrides m).annotations.overrides = .ofModel m)
    (overrides' : (c'.ensureOverrides m).annotations.overrides = .ofModel m) :
    (c'.ensureOverrides m).setting m = ((c.ensureOverrides m).setting m).choosing
        c'.annotations.policy c'.options c'.special ∧
      ((c.ensureOverrides m).setting m).AsksNoMore
        c'.annotations.policy c'.options c'.special := by
  simp only [ensureOverrides_eq, onAnnotations] at overrides overrides' ⊢
  constructor
  · simp only [Context.setting, Setting.choosing, overrides, overrides', corlib?, less.corlibName]
  · exact ⟨less.policy, less.options, less.special⟩

/-- A session that asks for more marks all that another one marks, if both runs end well. -/
theorem mark_mono (built : Model.Built returned m) (fits : m.Fits)
    (overrides : (c.ensureOverrides m).annotations.overrides = .ofModel m)
    (overrides' : (c'.ensureOverrides m).annotations.overrides = .ofModel m)
    (fresh : ∀ t, c.annotations.marks.isProcessed t = false)
    (fresh' : ∀ t, c'.annotations.marks.isProcessed t = false)
    (less : c.AsksNoMore m c') {stats stats' : MarkStats}
    (h : (c.mark m).1 = .ok stats) (h' : (c'.mark m).1 = .ok stats') {t : Token}
    (ht : (c.mark m).2.annotations.marks.isMarked t = true) :
    (c'.mark m).2.annotations.marks.isMarked t = true := by
  obtain ⟨hsetting, hless⟩ := less.setting overrides overrides'
  have hreached := (isMarked_mark built fits overrides fresh h t).mp ht
  refine (isMarked_mark built fits overrides' fresh' h' t).mpr ?_
  rw [hsetting]
  exact hreached.choosing hless less.roots fun _ _ => less.forced

end Context

/-- A session with the program and its root, in which only plain references are followed. -/
def Shapes.frugal : Context :=
  (Context.ofOptions .minimal).onAnnotations fun a => { a with marks := Shapes.roots }

/-- A session with the program and its root, in which a class is kept with its members. -/
def Shapes.generous : Context :=
  Shapes.session.onAnnotations fun a => a.onPolicy (·.setPreserve ⟨0x02000001⟩ .all)

theorem Shapes.frugal_asksNoMore : Shapes.frugal.AsksNoMore Shapes.model Shapes.generous where
  roots _ h := h
  forced _ h := h
  corlibName := rfl
  policy := by
    refine ⟨fun _ => rfl, fun _ h => ?_, fun _ h => ?_, fun _ => ?_⟩
    · simp [frugal, Context.ofOptions, Context.onAnnotations, Annotations.empty, Policy.default,
        Policy.preserve, TypePreserve.keepsFields] at h
    · simp [frugal, Context.ofOptions, Context.onAnnotations, Annotations.empty, Policy.default,
        Policy.preserve, TypePreserve.keepsMethods] at h
    · exact List.Subset.refl _
  options := ⟨nofun, nofun, nofun⟩
  special := ⟨id, id, id⟩

/-- What the frugal session keeps, the generous one keeps. -/
theorem Context.mark_mono_shapes :
    (Shapes.frugal.mark Shapes.model).2.annotations.marks.isMarked ⟨0x06000002⟩ = true ∧
      (Shapes.generous.mark Shapes.model).2.annotations.marks.isMarked ⟨0x06000002⟩ = true := by
  obtain ⟨returned, built⟩ := Shapes.built
  obtain ⟨stats, h⟩ := exists_ok_of_isOk (x := (Shapes.frugal.mark Shapes.model).1)
    (by decide +kernel)
  obtain ⟨stats', h'⟩ := exists_ok_of_isOk (x := (Shapes.generous.mark Shapes.model).1)
    (by decide +kernel)
  have hkept : (Shapes.frugal.mark Shapes.model).2.annotations.marks.isMarked ⟨0x06000002⟩ = true :=
    by decide +kernel
  exact ⟨hkept, Context.mark_mono built Shapes.fits rfl rfl Shapes.fresh Shapes.fresh
    Shapes.frugal_asksNoMore h h' hkept⟩

end CilTrim
