import CilTrim.Proofs.Except
import CilTrim.Proofs.Mark.Reference

/-!
# Demands of definitions

The demands of a definition keep what the rules say it keeps, and fail if the rules say that it has
an unbound reference:

* `Setting.keeps_typeNeeds`, `Setting.keeps_fieldNeeds`, `Setting.keeps_methodNeeds`,
  `Setting.keeps_assemblyNeeds`;
* `Setting.fails_typeNeeds`, `Setting.fails_fieldNeeds`, `Setting.fails_methodNeeds`,
  `Setting.fails_assemblyNeeds`.
-/

namespace CilTrim

namespace Setting

variable {s : Setting} {reason : Reason} {n : Need} {owner y : Token}

/-! ## Attributes -/

mutual

/-- The demands of an argument are those of the type names in it. -/
theorem mem_argument {scopes : List Token} {d : Demand} : (a : Argument) →
    (d ∈ s.argument scopes reason a ↔
      ∃ name, a.NamesType name ∧ d ∈ s.typeName scopes reason name)
  | .type name => by
    unfold argument
    constructor
    · intro h
      split at h <;> rename_i hn
      · cases h
      · exact ⟨name, .type (fun he => hn (String.isEmpty_iff.mpr he)), h⟩
    · rintro ⟨_, h, ha⟩
      cases h with
      | type hn => rwa [if_neg fun he => hn (String.isEmpty_iff.mp he)]
  | .array items => by
    rw [argument, mem_arguments items]
    constructor
    · rintro ⟨item, hi, name, hn, h⟩
      exact ⟨name, .item hi hn, h⟩
    · rintro ⟨name, hn, h⟩
      cases hn with
      | item hi hn => exact ⟨_, hi, name, hn, h⟩
  | .bool _ | .char _ | .i1 _ | .u1 _ | .i2 _ | .u2 _ | .i4 _ | .u4 _ | .i8 _ | .u8 _ | .r4 _
  | .r8 _ | .string _ | .enum _ _ => by
    simp only [argument, List.not_mem_nil, false_iff]
    rintro ⟨name, hn, -⟩
    cases hn

theorem mem_arguments {scopes : List Token} {d : Demand} : (as : List Argument) →
    (d ∈ s.arguments scopes reason as ↔
      ∃ a ∈ as, ∃ name, a.NamesType name ∧ d ∈ s.typeName scopes reason name)
  | [] => by simp only [arguments, List.not_mem_nil, false_and, exists_false]
  | a :: rest => by
    simp only [arguments, List.mem_append, List.mem_cons, or_and_right, exists_or, exists_eq_left,
      mem_argument a, mem_arguments rest]

end

theorem asks_argument {scopes : List Token} {a : Argument} :
    Asks (s.argument scopes reason a) n ↔
      ∃ name, a.NamesType name ∧ Asks (s.typeName scopes reason name) n :=
  asks_of_mem fun _ => mem_argument a

theorem asks_namedMember {ctor : Token} {named : NamedArgument} :
    Asks (s.namedMember ctor reason named) n ↔
      ∃ type y, s.model.declaringTypeOf? ctor = some type ∧ n = .kept y ∧
        ((named.isField = true ∧ s.model.findInheritedField? type named.name = some y) ∨
          (named.isField = false ∧ s.model.findSetter? type named.name = some y)) := by
  unfold namedMember
  cases s.model.declaringTypeOf? ctor with
  | none => simp
  | some type => cases named.isField <;> simp [eq_comm, and_comm]

theorem boundMethod?_eq {a : MethodRef} {ctor : Token} :
    s.boundMethod? a = some ctor ↔ ¬ a.OnArray ∧ s.model.resolveMethod a = .ok ctor := by
  unfold boundMethod?
  rw [Model.resolveMethod_element]
  split <;> rename_i h <;> rw [isArrayMethod_iff] at h
  · simp [h]
  · rw [toOption_eq_some, and_iff_right h]

/-- What an attribute amounts to. -/
def AttributeNeed (s : Setting) (owner : Token) (a : Attribute) : Need → Prop
  | .kept y => s.AttributeRequires owner a y
  | .failure => s.model.MethodDangles a.constructor

/-- The demands of the value of an attribute: types that arguments name, and members that named
arguments set. -/
theorem asks_attributeValue {ctor : Token} {value : AttributeValue} :
    Asks (s.attributeValue owner ctor reason value) n ↔
      (∃ argument name, (argument ∈ value.fixed ∨ ∃ named ∈ value.named, named.value = argument) ∧
        s.options.typeArguments = true ∧ argument.NamesType name ∧
        Asks (s.typeName (s.nameScopes owner) reason name) n) ∨
      ∃ named ∈ value.named, Asks (s.namedMember ctor reason named) n := by
  simp only [attributeValue, asks_append, asks_flatMap, asks_ite, asks_argument]
  constructor
  · rintro (⟨a, ha, ho, name, hn, h⟩ | ⟨named, hm, h | ⟨ho, name, hn, h⟩⟩)
    · exact .inl ⟨a, name, .inl ha, ho, hn, h⟩
    · exact .inr ⟨named, hm, h⟩
    · exact .inl ⟨_, name, .inr ⟨named, hm, rfl⟩, ho, hn, h⟩
  · rintro (⟨a, name, ha | ⟨named, hm, rfl⟩, ho, hn, h⟩ | ⟨named, hm, h⟩)
    · exact .inl ⟨a, ha, ho, name, hn, h⟩
    · exact .inr ⟨named, hm, .inr ⟨ho, name, hn, h⟩⟩
    · exact .inr ⟨named, hm, .inl h⟩

theorem asks_oneAttribute_parts {a : Attribute} :
    Asks (s.oneAttribute owner reason a) n ↔ s.MethodNeed a.constructor n ∨
      ∃ ctor value, ¬ a.constructor.OnArray ∧ s.model.resolveMethod a.constructor = .ok ctor ∧
        s.model.decodeAttribute a = .ok value ∧
        Asks (s.attributeValue owner ctor reason value) n := by
  unfold oneAttribute
  rw [asks_append, asks_methodRef]
  refine or_congr_right ?_
  constructor
  · intro h
    cases hb : s.boundMethod? a.constructor with
    | none => simp [hb] at h
    | some ctor =>
      obtain ⟨ha, hr⟩ := boundMethod?_eq.mp hb
      cases hd : s.model.decodeAttribute a with
      | error fault => simp [hb, hd] at h
      | ok value =>
        simp only [hb, hd] at h
        exact ⟨ctor, value, ha, hr, rfl, h⟩
  · rintro ⟨ctor, value, ha, hr, hd, h⟩
    simp only [boundMethod?_eq.mpr ⟨ha, hr⟩, hd]
    exact h

theorem asks_oneAttribute (wf : s.model.WellFormed) (fits : s.model.Fits) {a : Attribute} :
    Asks (s.oneAttribute owner reason a) n ↔ s.AttributeNeed owner a n := by
  rw [asks_oneAttribute_parts]
  simp only [asks_attributeValue, asks_namedMember]
  cases n with
  | failure =>
    constructor
    · rintro (h | ⟨ctor, value, -, -, -, ⟨a', name, -, -, -, h⟩ | ⟨named, -, type, y, -, h, -⟩⟩)
      · exact h
      · exact absurd h (not_fails_typeName wf fits)
      · cases h
    · exact .inl
  | kept y =>
    constructor
    · rintro (h | ⟨ctor, value, ha, hr, hd, ⟨a', name, hm, ho, hn, h⟩ |
        ⟨named, hm, type, y, ht, hy, ⟨hf, h⟩ | ⟨hf, h⟩⟩⟩)
      · exact .constructor h
      · obtain ⟨r, hs, h⟩ := keeps_typeName.mp h
        exact .type ha hd ho hm hn hs h
      · cases hy
        exact .field ha hr hd hm hf ht h
      · cases hy
        exact .setter ha hr hd hm hf ht h
    · intro h
      cases h with
      | constructor h => exact .inl h
      | type ha hd ho hm hn hs h =>
        obtain ⟨ctor, hr⟩ : ∃ ctor, s.model.resolveMethod a.constructor = .ok ctor := by
          cases hr : s.model.resolveMethod a.constructor with
          | error cause =>
            simp [Model.decodeAttribute, hr, Except.mapError, bind, Except.bind] at hd
          | ok ctor => exact ⟨ctor, rfl⟩
        exact .inr ⟨ctor, _, ha, hr, hd, .inl ⟨_, _, hm, ho, hn, keeps_typeName.mpr ⟨_, hs, h⟩⟩⟩
      | field ha hr hd hm hf ht h =>
        exact .inr ⟨_, _, ha, hr, hd, .inr ⟨_, hm, _, y, ht, rfl, .inl ⟨hf, h⟩⟩⟩
      | setter ha hr hd hm hf ht h =>
        exact .inr ⟨_, _, ha, hr, hd, .inr ⟨_, hm, _, y, ht, rfl, .inr ⟨hf, h⟩⟩⟩

theorem asks_attributes (wf : s.model.WellFormed) (fits : s.model.Fits) {as : List Attribute} :
    Asks (s.attributes owner reason as) n ↔ ∃ a ∈ as, s.AttributeNeed owner a n := by
  simp only [attributes, asks_flatMap, asks_oneAttribute wf fits]

theorem keeps_marshal {spec : Option MarshalSpec} :
    Asks (s.marshal owner reason spec) (.kept y) ↔ s.MarshalRequires owner spec y := by
  unfold marshal MarshalRequires
  cases spec with
  | none => simp
  | some spec' =>
    cases hn : spec'.customType? with
    | none => simp [hn]
    | some name => simp [hn, keeps_typeName]

theorem not_fails_marshal (wf : s.model.WellFormed) (fits : s.model.Fits)
    {spec : Option MarshalSpec} : ¬ Asks (s.marshal owner reason spec) .failure := by
  unfold marshal
  split
  · exact not_fails_typeName wf fits
  · exact asks_nil

/-! ## Parts of definitions -/

theorem asks_genericParam (wf : s.model.WellFormed) (fits : s.model.Fits) {p : Token} :
    Asks (s.genericParam reason p) n ↔ ∃ param, s.model.genericParam? p = some param ∧
      (n = .kept p ∨ (∃ a ∈ param.attributes, s.AttributeNeed p a n) ∨
        ∃ r ∈ param.constraints, s.TypeNeed r n) := by
  unfold genericParam
  cases s.model.genericParam? p with
  | none => simp
  | some param =>
    simp [asks_attributes wf fits, asks_typeRefs, eq_comm]

theorem specialName?_eq {a : Attribute} {kinds : MemberKinds} {name : String} :
    s.specialName? a = some (kinds, name) ↔ s.SpecialName a kinds name := by
  constructor
  · intro h
    obtain ⟨ctor, hc, h⟩ := Option.bind_eq_some_iff.mp h
    obtain ⟨type, ht, h⟩ := Option.bind_eq_some_iff.mp h
    obtain ⟨kinds', hk, h⟩ := Option.bind_eq_some_iff.mp h
    obtain ⟨value, hv, h⟩ := Option.bind_eq_some_iff.mp h
    split at h
    · rename_i name' rest hf
      split at h
      · cases h
      · rename_i hn
        cases h
        exact ⟨ctor, type, value, rest, toOption_eq_some.mp hc, ht, hk, toOption_eq_some.mp hv, hf,
          fun he => hn (String.isEmpty_iff.mpr he)⟩
    · cases h
  · rintro ⟨ctor, type, value, rest, hc, ht, hk, hv, hf, hn⟩
    simp [specialName?, hc, ht, hk, hv, hf, hn, Except.toOption]

theorem asks_membersNamed {type : TypeDef} {target : Token} {kinds : MemberKinds} {name : String} :
    Asks (s.membersNamed type target reason kinds name) n ↔ ∃ y, n = .kept y ∧
      ((kinds.includes .methods = true ∧
          ∃ method ∈ s.model.methodsOf type, method.name = name ∧ method.token = y) ∨
        (kinds.includes .fields = true ∧ s.model.findField? target name = some y) ∨
        (kinds.includes .properties = true ∧
          ∃ p property, s.model.findProperty? target name = some p ∧
            s.model.property? p = some property ∧
            (property.getter = some y ∨ property.setter = some y))) := by
  unfold membersNamed
  simp only [asks_append, asks_ite, asks_methodsWhere, asks_map, Option.mem_toList, beq_iff_eq,
    Demand.need?, Option.some.injEq]
  constructor
  · rintro ((⟨hk, method, hm, hn, rfl⟩ | ⟨hk, y, hy, rfl⟩) | ⟨hk, h⟩)
    · exact ⟨_, rfl, .inl ⟨hk, method, hm, hn, rfl⟩⟩
    · exact ⟨y, rfl, .inr (.inl ⟨hk, hy⟩)⟩
    · cases hp : (s.model.findProperty? target name).bind s.model.property? with
      | none => simp [hp] at h
      | some property =>
        obtain ⟨p, hf, hp'⟩ := Option.bind_eq_some_iff.mp hp
        simp only [hp, asks_map, List.mem_append, Option.mem_toList, Demand.need?,
          Option.some.injEq] at h
        obtain ⟨y, hy, rfl⟩ := h
        exact ⟨y, rfl, .inr (.inr ⟨hk, p, property, hf, hp', hy⟩)⟩
  · rintro ⟨y, rfl, ⟨hk, method, hm, hn, rfl⟩ | ⟨hk, hy⟩ | ⟨hk, p, property, hf, hp, hy⟩⟩
    · exact .inl (.inl ⟨hk, method, hm, hn, rfl⟩)
    · exact .inl (.inr ⟨hk, y, hy, rfl⟩)
    · refine .inr ⟨hk, ?_⟩
      simp only [hf, hp, Option.bind_some, asks_map, List.mem_append, Option.mem_toList,
        Demand.need?, Option.some.injEq]
      exact ⟨y, hy, rfl⟩

theorem asks_specialMembers {target : Token} {as : List Attribute} :
    Asks (s.specialMembers target reason as) n ↔
      ∃ y, n = .kept y ∧ s.SpecialMember target as y := by
  unfold specialMembers
  cases ht : s.model.type? target with
  | none =>
    simp only [asks_nil, false_iff]
    rintro ⟨y, -, h⟩
    cases h with
    | method ht' => simp [ht] at ht'
    | field _ _ _ hy => simp [Model.findField?, ht] at hy
    | accessor _ _ _ hf => simp [Model.findProperty?, ht] at hf
  | some type =>
    simp only [asks_flatMap]
    constructor
    · rintro ⟨a, ha, h⟩
      cases hs : s.specialName? a with
      | none => simp [hs] at h
      | some named =>
        obtain ⟨kinds, name⟩ := named
        have hn := specialName?_eq.mp hs
        simp only [hs, asks_membersNamed] at h
        obtain ⟨y, rfl, ⟨hk, method, hm, hm', rfl⟩ | ⟨hk, hy⟩ | ⟨hk, p, property, hf, hp, hy⟩⟩ := h
        · exact ⟨_, rfl, .method ht ha hn hk hm hm'⟩
        · exact ⟨y, rfl, .field ha hn hk hy⟩
        · exact ⟨y, rfl, .accessor ha hn hk hf hp hy⟩
    · rintro ⟨y, rfl, h⟩
      cases h with
      | method ht' ha hn hk hm hm' =>
        cases ht.symm.trans ht'
        refine ⟨_, ha, ?_⟩
        simp only [specialName?_eq.mpr hn, asks_membersNamed]
        exact ⟨_, rfl, .inl ⟨hk, _, hm, hm', rfl⟩⟩
      | field ha hn hk hy =>
        refine ⟨_, ha, ?_⟩
        simp only [specialName?_eq.mpr hn, asks_membersNamed]
        exact ⟨_, rfl, .inr (.inl ⟨hk, hy⟩)⟩
      | accessor ha hn hk hf hp hy =>
        refine ⟨_, ha, ?_⟩
        simp only [specialName?_eq.mpr hn, asks_membersNamed]
        exact ⟨_, rfl, .inr (.inr ⟨hk, _, _, hf, hp, hy⟩)⟩

/-! ## Types -/

theorem hasUnlinkedBase_iff {method : Token} :
    s.hasUnlinkedBase method = true ↔ s.OverridesUnlinked method := by
  simp only [hasUnlinkedBase, List.any_eq_true, Option.any_eq_true, bne_iff_ne,
    OverrideTable.mem_basesAbove, OverridesUnlinked]
  constructor
  · rintro ⟨base, hb, assembly, ha, hl⟩
    exact ⟨base, assembly, hb, ha, hl⟩
  · rintro ⟨base, assembly, hb, ha, hl⟩
    exact ⟨base, hb, assembly, ha, hl⟩

theorem asks_allFields {d : TypeDef} :
    Asks (allFields d reason) n ↔ ∃ y ∈ d.fields, n = .kept y := by
  simp only [allFields, asks_map, Demand.need?, Option.some.injEq, eq_comm]

theorem asks_preserved {d : TypeDef} :
    Asks (s.preserved d reason) n ↔
      (∃ y ∈ s.policy.methodsKept d.token, n = .kept y) ∨
      ((s.policy.preserve d.token).keepsFields = true ∧ ∃ y ∈ d.fields, n = .kept y) ∨
      ((s.policy.preserve d.token).keepsMethods = true ∧
        ∃ method ∈ s.model.methodsOf d, n = .kept method.token) := by
  simp only [preserved, asks_append, asks_map, asks_ite, asks_allFields, asks_methodsWhere,
    true_and, Demand.need?, Option.some.injEq, or_assoc, eq_comm]

variable {t : Token} {d : TypeDef}

/-- The demands of a type, by where they come from. -/
theorem asks_typeNeeds (wf : s.model.WellFormed) (fits : s.model.Fits)
    (ht : s.model.type? t = some d) :
    Asks (s.typeNeeds t d) n ↔
      n = .kept d.assembly ∨ n = .kept d.module ∨
      (∃ outer, d.declaringType = some outer ∧ n = .kept outer) ∨
      (∃ r, d.base = some r ∧ s.TypeNeed r n) ∨ (∃ r ∈ d.interfaces, s.TypeNeed r n) ∨
      (∃ a ∈ d.attributes, s.AttributeNeed t a n) ∨
      (∃ p ∈ d.genericParams, ∃ param, s.model.genericParam? p = some param ∧
        (n = .kept p ∨ (∃ a ∈ param.attributes, s.AttributeNeed p a n) ∨
          ∃ r ∈ param.constraints, s.TypeNeed r n)) ∨
      (s.model.isDelegate t = true ∧ ∃ y ∈ d.methods, n = .kept y) ∨
      (d.isSerializable = true ∧ ∃ method ∈ s.model.methodsOf d,
        (method.isDefaultConstructor = true ∨ s.isSerializationConstructor method = true) ∧
          n = .kept method.token) ∨
      (∃ y, n = .kept y ∧ s.SpecialMember t d.attributes y) ∨
      (s.model.isValueType t = true ∧ ∃ y ∈ d.fields, n = .kept y) ∨
      (s.options.staticConstructors = true ∧ ∃ method ∈ s.model.methodsOf d,
        method.isStaticConstructor = true ∧ n = .kept method.token) ∨
      (s.options.unlinkedOverrides = true ∧ ∃ y ∈ d.methods,
        s.OverridesUnlinked y ∧ n = .kept y) ∨
      (∃ y ∈ s.policy.methodsKept t, n = .kept y) ∨
      ((s.policy.preserve t).keepsFields = true ∧ ∃ y ∈ d.fields, n = .kept y) ∨
      ((s.policy.preserve t).keepsMethods = true ∧
        ∃ method ∈ s.model.methodsOf d, n = .kept method.token) := by
  unfold typeNeeds
  simp only [asks_append, asks_cons, asks_nil, asks_map, asks_flatMap, asks_ite, asks_typeRefs,
    asks_attributes wf fits, asks_genericParam wf fits, asks_methodsWhere, asks_specialMembers,
    asks_allFields, asks_preserved, wf.type_token ht, Demand.need?, reduceCtorEq, or_false,
    List.mem_filter, hasUnlinkedBase_iff, Option.mem_toList, Option.some.injEq, Bool.or_eq_true,
    and_assoc, or_assoc]
  simp only [eq_comm]

/-- The demands of a type keep what the type keeps. -/
theorem keeps_typeNeeds (wf : s.model.WellFormed) (fits : s.model.Fits)
    (ht : s.model.type? t = some d) :
    Asks (s.typeNeeds t d) (.kept y) ↔ s.TypeRequires t d y := by
  rw [asks_typeNeeds wf fits ht]
  simp only [Need.kept.injEq]
  constructor
  · rintro (rfl | rfl | ⟨outer, ho, rfl⟩ | ⟨r, hr, h⟩ | ⟨r, hr, h⟩ | ⟨a, ha, h⟩ |
      ⟨p, hp, param, hm, rfl | ⟨a, ha, h⟩ | ⟨r, hr, h⟩⟩ | ⟨hd, y, hy, rfl⟩ |
      ⟨hs, method, hm, hc, rfl⟩ | ⟨y, rfl, h⟩ | ⟨hv, y, hy, rfl⟩ | ⟨ho, method, hm, hc, rfl⟩ |
      ⟨ho, y, hy, hu, rfl⟩ | ⟨y, hy, rfl⟩ | ⟨hk, y, hy, rfl⟩ | ⟨hk, method, hm, rfl⟩)
    · exact .assembly
    · exact .module
    · exact .enclosing ho
    · exact .mention (.base hr) h
    · exact .mention (.interface hr) h
    · exact .attributed (.own ha) h
    · exact .genericParam hp hm
    · exact .attributed (.genericParam hp hm ha) h
    · exact .mention (.constraint hp hm hr) h
    · exact .delegateMethod hd hy
    · exact .serialization hs hm hc
    · exact .special h
    · exact .valueField hv hy
    · exact .staticConstructor ho hm hc
    · exact .unlinkedOverride ho hy hu
    · exact .keptMethod hy
    · exact .preservedField hk hy
    · exact .preservedMethod hk hm
  · intro h
    cases h with
    | assembly => simp
    | module => simp
    | enclosing ho => simp [ho]
    | mention hm h => cases hm <;> grind [TypeNeed]
    | attributed ha h => cases ha <;> grind [AttributeNeed]
    | genericParam hp hm => grind
    | delegateMethod hd hy => grind
    | serialization hs hm hc => grind
    | special h => grind
    | valueField hv hy => grind
    | staticConstructor ho hm hc => grind
    | unlinkedOverride ho hy hu => grind
    | keptMethod hy => grind
    | preservedField hk hy => grind
    | preservedMethod hk hm => grind

/-- The demands of a type fail if the type has an unbound reference. -/
theorem fails_typeNeeds (wf : s.model.WellFormed) (fits : s.model.Fits)
    (ht : s.model.type? t = some d) :
    Asks (s.typeNeeds t d) .failure ↔ s.TypeUnbound t d := by
  rw [asks_typeNeeds wf fits ht]
  simp only [reduceCtorEq, and_false, exists_false, false_and, false_or, or_false]
  constructor
  · rintro (⟨r, hr, h⟩ | ⟨r, hr, h⟩ | ⟨a, ha, h⟩ | ⟨p, hp, param, hm, ⟨a, ha, h⟩ | ⟨r, hr, h⟩⟩)
    · exact .mention (.base hr) h
    · exact .mention (.interface hr) h
    · exact .attributed (.own ha) h
    · exact .attributed (.genericParam hp hm ha) h
    · exact .mention (.constraint hp hm hr) h
  · intro h
    cases h with
    | mention hm h =>
      cases hm with
      | base hr => exact .inl ⟨_, hr, h⟩
      | interface hr => exact .inr (.inl ⟨_, hr, h⟩)
      | constraint hp hm hr => exact .inr (.inr (.inr ⟨_, hp, _, hm, .inr ⟨_, hr, h⟩⟩))
    | attributed ha h =>
      cases ha with
      | own ha => exact .inr (.inr (.inl ⟨_, ha, h⟩))
      | genericParam hp hm ha => exact .inr (.inr (.inr ⟨_, hp, _, hm, .inl ⟨_, ha, h⟩⟩))

/-! ## Fields and assemblies -/

theorem keeps_fieldNeeds (wf : s.model.WellFormed) (fits : s.model.Fits) {f : FieldDef} :
    Asks (s.fieldNeeds t f) (.kept y) ↔ s.FieldRequires t f y := by
  simp only [fieldNeeds, List.cons_append, asks_append, asks_cons, asks_typeRef,
    asks_attributes wf fits, keeps_marshal, Demand.need?, Option.some.injEq, Need.kept.injEq]
  constructor
  · rintro (rfl | (h | ⟨a, ha, h⟩) | h)
    · exact .owner
    · exact .type h
    · exact .attributed ha h
    · exact .marshaler h
  · intro h
    cases h with
    | owner => exact .inl rfl
    | type h => exact .inr (.inl (.inl h))
    | attributed ha h => exact .inr (.inl (.inr ⟨_, ha, h⟩))
    | marshaler h => exact .inr (.inr h)

theorem fails_fieldNeeds (wf : s.model.WellFormed) (fits : s.model.Fits) {f : FieldDef} :
    Asks (s.fieldNeeds t f) .failure ↔ s.FieldUnbound f := by
  simp only [fieldNeeds, List.cons_append, asks_append, asks_cons, asks_typeRef,
    asks_attributes wf fits, not_fails_marshal wf fits, or_false, Demand.need?, Option.some.injEq,
    reduceCtorEq, false_or]
  constructor
  · rintro (h | ⟨a, ha, h⟩)
    · exact .type h
    · exact .attributed ha h
  · intro h
    cases h with
    | type h => exact .inl h
    | attributed ha h => exact .inr ⟨_, ha, h⟩

theorem asks_assemblyNeeds (wf : s.model.WellFormed) (fits : s.model.Fits) {d : AssemblyDef} :
    Asks (s.assemblyNeeds t d) n ↔ (∃ a ∈ d.attributes, s.AttributeNeed t a n) ∨
      ∃ x ∈ d.modules, ∃ module, s.model.module? x = some module ∧
        ∃ a ∈ module.attributes, s.AttributeNeed x a n := by
  unfold assemblyNeeds
  rw [asks_append, asks_attributes wf fits, asks_flatMap]
  refine or_congr_right (exists_congr fun x => and_congr_right fun _ => ?_)
  cases s.model.module? x with
  | none => simp
  | some module => simp [asks_attributes wf fits]

/-- The demands of an assembly keep what its attributes and those of its modules keep. -/
theorem keeps_assemblyNeeds (wf : s.model.WellFormed) (fits : s.model.Fits) {d : AssemblyDef}
    (ht : d.token = t) (hd : d ∈ s.model.assemblies.toList)
    (h : Asks (s.assemblyNeeds t d) (.kept y)) :
    ∃ owner a, s.RootAttribute owner a ∧ s.AttributeRequires owner a y := by
  subst ht
  rcases (asks_assemblyNeeds wf fits).mp h with ⟨a, ha, h⟩ | ⟨x, hx, module, hm, a, ha, h⟩
  · exact ⟨_, a, .assembly hd ha, h⟩
  · exact ⟨x, a, .module hd hx hm ha, h⟩

theorem fails_assemblyNeeds (wf : s.model.WellFormed) (fits : s.model.Fits) {d : AssemblyDef}
    (ht : d.token = t) (hd : d ∈ s.model.assemblies.toList)
    (h : Asks (s.assemblyNeeds t d) .failure) :
    ∃ owner a, s.RootAttribute owner a ∧ s.model.MethodDangles a.constructor := by
  subst ht
  rcases (asks_assemblyNeeds wf fits).mp h with ⟨a, ha, h⟩ | ⟨x, hx, module, hm, a, ha, h⟩
  · exact ⟨_, a, .assembly hd ha, h⟩
  · exact ⟨x, a, .module hd hx hm ha, h⟩

/-- An attribute of an assembly or a module is among the demands of an assembly of the model. -/
theorem asks_of_rootAttribute (wf : s.model.WellFormed) (fits : s.model.Fits) {a : Attribute}
    (ha : s.RootAttribute owner a) (h : s.AttributeNeed owner a n) :
    ∃ d ∈ s.model.assemblies.toList, Asks (s.assemblyNeeds d.token d) n := by
  cases ha with
  | assembly hd ha => exact ⟨_, hd, (asks_assemblyNeeds wf fits).mpr (.inl ⟨a, ha, h⟩)⟩
  | module hd hx hm ha =>
    exact ⟨_, hd, (asks_assemblyNeeds wf fits).mpr (.inr ⟨_, hx, _, hm, a, ha, h⟩)⟩

/-! ## Methods -/

/-- What a parameter of a method amounts to. -/
def ParameterNeed (s : Setting) (t : Token) (p : Parameter) (n : Need) : Prop :=
  s.TypeNeed p.type n ∨ (∃ a ∈ p.attributes, s.AttributeNeed t a n) ∨
    ∃ y, n = .kept y ∧ s.MarshalRequires t p.marshal y

theorem asks_parameter (wf : s.model.WellFormed) (fits : s.model.Fits) {p : Parameter} :
    Asks (s.parameter t p) n ↔ s.ParameterNeed t p n := by
  simp only [parameter, asks_append, asks_typeRef, asks_attributes wf fits, or_assoc, ParameterNeed]
  refine or_congr_right (or_congr_right ?_)
  cases n with
  | kept y => simp [keeps_marshal]
  | failure => simp [not_fails_marshal wf fits]

theorem asks_operand {o : Operand} :
    Asks (s.operand reason o) n ↔ ∃ r, operandMember? o = some r ∧ s.MemberNeed r n := by
  cases o with
  | field r =>
    simp only [operand, operandMember?, Option.some.injEq, exists_eq_left', asks_fieldRef]
    cases n <;> exact Iff.rfl
  | method r =>
    simp only [operand, operandMember?, Option.some.injEq, exists_eq_left', asks_methodRef]
    cases n <;> exact Iff.rfl
  | type r =>
    simp only [operand, operandMember?, Option.some.injEq, exists_eq_left', asks_typeRef]
    cases n <;> exact Iff.rfl
  | token r =>
    simp only [operand, operandMember?, Option.some.injEq, exists_eq_left', asks_memberRef]
  | _ => simp [operand, operandMember?]

theorem asks_body {b : Body} :
    Asks (s.body reason b) n ↔ (∃ r ∈ b.locals, s.TypeNeed r n) ∨
      (∃ h ∈ b.handlers, ∃ r, h.catchType? = some r ∧ s.TypeNeed r n) ∨
      ∃ i ∈ b.instructions, ∃ r, operandMember? i.operand = some r ∧ s.MemberNeed r n := by
  simp only [body, asks_append, asks_typeRefs, asks_flatMap, asks_operand, List.mem_filterMap,
    or_assoc]
  refine or_congr_right (or_congr_left ?_)
  constructor
  · rintro ⟨r, ⟨h, hh, hr⟩, hn⟩
    exact ⟨h, hh, r, hr, hn⟩
  · rintro ⟨h, hh, r, hr, hn⟩
    exact ⟨r, ⟨h, hh, hr⟩, hn⟩

theorem asks_accessorOwner (wf : s.model.WellFormed) (fits : s.model.Fits) {o : Token} :
    Asks (s.accessorOwner reason o) n ↔
      (∃ property, s.model.property? o = some property ∧
        (n = .kept o ∨ ∃ a ∈ property.attributes, s.AttributeNeed o a n)) ∨
      ∃ event, s.model.event? o = some event ∧
        (n = .kept o ∨ (∃ a ∈ event.attributes, s.AttributeNeed o a n) ∨
          ∃ y ∈ event.accessors, n = .kept y) := by
  unfold accessorOwner
  cases he : s.model.event? o with
  | none =>
    cases s.model.property? o with
    | none => simp
    | some property => simp [asks_attributes wf fits, eq_comm]
  | some event =>
    simp [Model.property_of_event he, asks_attributes wf fits, eq_comm]

end Setting

/-- The action of a method whose body may be followed: one that was asked for, and otherwise to
parse the body. -/
def Marks.Parses (marks : Marks) (t : Token) (action : MethodAction) : Prop :=
  action ≠ .nothing ∧ (action = .forceParse ↔ marks.methodAction t = .forceParse)

namespace Setting

variable {s : Setting} {reason : Reason} {n : Need} {t y : Token} {marks : Marks}
  {action : MethodAction} {d : MethodDef}

theorem followsBody_iff (h : marks.Parses t action) :
    s.followsBody t action = true ↔ s.Follows marks t := by
  obtain ⟨hne, hforce⟩ := h
  unfold followsBody Follows
  rw [← hforce]
  cases ha : s.model.assemblyOf? t <;> cases action <;> simp_all

/-- The demands of a method, by where they come from. -/
theorem asks_methodNeeds (wf : s.model.WellFormed) (fits : s.model.Fits)
    (ht : s.model.method? t = some d) (hp : marks.Parses t action) :
    Asks (s.methodNeeds t d action) n ↔
      n = .kept d.declaringType ∨ (∃ a ∈ d.attributes, s.AttributeNeed t a n) ∨
      (∃ y, n = .kept y ∧ s.SpecialMember d.declaringType d.attributes y) ∨
      (∃ p ∈ d.params, s.ParameterNeed t p n) ∨
      (∃ p ∈ d.genericParams, ∃ param, s.model.genericParam? p = some param ∧
        (n = .kept p ∨ (∃ a ∈ param.attributes, s.AttributeNeed p a n) ∨
          ∃ r ∈ param.constraints, s.TypeNeed r n)) ∨
      (∃ r ∈ d.overrides, s.MethodNeed r n) ∨
      (∃ y, s.overrides.Above t y ∧ n = .kept y) ∨ s.ParameterNeed t d.result n ∨
      (s.Follows marks t ∧ ∃ b, d.body = some b ∧
        ((∃ r ∈ b.locals, s.TypeNeed r n) ∨
        (∃ h ∈ b.handlers, ∃ r, h.catchType? = some r ∧ s.TypeNeed r n) ∨
        ∃ i ∈ b.instructions, ∃ r, operandMember? i.operand = some r ∧ s.MemberNeed r n)) ∨
      ∃ o, d.accessorOf = some o ∧
        ((∃ property, s.model.property? o = some property ∧
          (n = .kept o ∨ ∃ a ∈ property.attributes, s.AttributeNeed o a n)) ∨
        ∃ event, s.model.event? o = some event ∧
          (n = .kept o ∨ (∃ a ∈ event.attributes, s.AttributeNeed o a n) ∨
            ∃ y ∈ event.accessors, n = .kept y)) := by
  unfold methodNeeds
  simp only [asks_append, asks_cons, asks_nil, asks_map, asks_flatMap, asks_ite,
    asks_attributes wf fits, asks_specialMembers, asks_parameter wf fits,
    asks_genericParam wf fits, asks_methodRef, OverrideTable.mem_basesAbove, asks_body,
    asks_accessorOwner wf fits, wf.method_token ht, followsBody_iff hp, Demand.need?,
    reduceCtorEq, or_false, and_false, Option.mem_toList, Option.some.injEq, or_assoc]
  simp only [eq_comm]

/-- The demands of a method keep what the method keeps. -/
theorem keeps_methodNeeds (wf : s.model.WellFormed) (fits : s.model.Fits)
    (ht : s.model.method? t = some d) (hp : marks.Parses t action) :
    Asks (s.methodNeeds t d action) (.kept y) ↔ s.MethodRequires marks t d y := by
  rw [asks_methodNeeds wf fits ht hp]
  have parameter {p : Parameter} (hp : HasParameter d p) (h : s.ParameterNeed t p (.kept y)) :
      s.MethodRequires marks t d y := by
    rcases h with h | ⟨a, ha, h⟩ | ⟨y', hy, h⟩
    · exact .mention (.parameter hp) h
    · exact .attributed (.parameter hp ha) h
    · cases hy
      exact .marshaler hp h
  simp only [Need.kept.injEq]
  constructor
  · rintro (rfl | ⟨a, ha, h⟩ | ⟨y, rfl, h⟩ | ⟨p, hp, h⟩ |
      ⟨p, hp, param, hm, rfl | ⟨a, ha, h⟩ | ⟨r, hr, h⟩⟩ | ⟨r, hr, h⟩ | ⟨y, h, rfl⟩ | h |
      ⟨hf, b, hb, ⟨r, hr, h⟩ | ⟨c, hc, r, hr, h⟩ | ⟨i, hi, r, hr, h⟩⟩ |
      ⟨o, ho, ⟨property, hp, rfl | ⟨a, ha, h⟩⟩ | ⟨event, he, rfl | ⟨a, ha, h⟩ | ⟨y, hy, rfl⟩⟩⟩)
    · exact .owner
    · exact .attributed (.own ha) h
    · exact .special h
    · exact parameter (.inl hp) h
    · exact .genericParam hp hm
    · exact .attributed (.genericParam hp hm ha) h
    · exact .mention (.constraint hp hm hr) h
    · exact .mention (.explicitOverride hr) h
    · exact .overridden h
    · exact parameter (.inr rfl) h
    · exact .mention (.localVariable hf hb hr) h
    · exact .mention (.caught hf hb hc hr) h
    · exact .mention (.operand hf hb hi hr) h
    · exact .property ho hp
    · exact .attributed (.property ho hp ha) h
    · exact .event ho he
    · exact .attributed (.event ho he ha) h
    · exact .accessor ho he hy
  · have parameter {p : Parameter} (hp : HasParameter d p) (h : s.ParameterNeed t p (.kept y)) :
        (∃ p ∈ d.params, s.ParameterNeed t p (.kept y)) ∨
          s.ParameterNeed t d.result (.kept y) := by
      rcases hp with hp | rfl
      · exact .inl ⟨p, hp, h⟩
      · exact .inr h
    intro h
    cases h with
    | owner => exact .inl rfl
    | mention hm h =>
      cases hm with
      | parameter hp =>
        have := parameter hp (.inl h)
        grind
      | constraint hp hm hr =>
        have h : s.TypeNeed _ (.kept y) := h
        grind
      | explicitOverride hr =>
        have h : s.MethodNeed _ (.kept y) := h
        grind
      | localVariable hf hb hr =>
        have h : s.TypeNeed _ (.kept y) := h
        grind
      | caught hf hb hc hr =>
        have h : s.TypeNeed _ (.kept y) := h
        grind
      | operand hf hb hi hr =>
        have h : s.MemberNeed _ (.kept y) := h
        grind
    | attributed ha h =>
      have need : s.AttributeNeed _ _ (.kept y) := h
      cases ha with
      | parameter hp ha =>
        have := parameter hp (.inr (.inl ⟨_, ha, need⟩))
        grind
      | _ => grind
    | special h => grind
    | marshaler hp h =>
      have := parameter hp (.inr (.inr ⟨y, rfl, h⟩))
      grind
    | genericParam hp hm => grind
    | overridden h => grind
    | property ho hp => grind
    | event ho he => grind
    | accessor ho he hy => grind

/-- The demands of a method fail if the method has an unbound reference. -/
theorem fails_methodNeeds (wf : s.model.WellFormed) (fits : s.model.Fits)
    (ht : s.model.method? t = some d) (hp : marks.Parses t action) :
    Asks (s.methodNeeds t d action) .failure ↔ s.MethodUnbound marks t d := by
  rw [asks_methodNeeds wf fits ht hp]
  simp only [reduceCtorEq, and_false, exists_false, false_and, false_or, or_false, ParameterNeed]
  constructor
  · rintro (⟨a, ha, h⟩ | ⟨p, hp, h | ⟨a, ha, h⟩⟩ | ⟨p, hp, param, hm, ⟨a, ha, h⟩ | ⟨r, hr, h⟩⟩ |
      ⟨r, hr, h⟩ | (h | ⟨a, ha, h⟩) |
      ⟨hf, b, hb, ⟨r, hr, h⟩ | ⟨c, hc, r, hr, h⟩ | ⟨i, hi, r, hr, h⟩⟩ |
      ⟨o, ho, ⟨property, hp, ⟨a, ha, h⟩⟩ | ⟨event, he, ⟨a, ha, h⟩⟩⟩)
    · exact .attributed (.own ha) h
    · exact .mention (.parameter (.inl hp)) h
    · exact .attributed (.parameter (.inl hp) ha) h
    · exact .attributed (.genericParam hp hm ha) h
    · exact .mention (.constraint hp hm hr) h
    · exact .mention (.explicitOverride hr) h
    · exact .mention (.parameter (.inr rfl)) h
    · exact .attributed (.parameter (.inr rfl) ha) h
    · exact .mention (.localVariable hf hb hr) h
    · exact .mention (.caught hf hb hc hr) h
    · exact .mention (.operand hf hb hi hr) h
    · exact .attributed (.property ho hp ha) h
    · exact .attributed (.event ho he ha) h
  · intro h
    cases h with
    | mention hm h =>
      cases hm with
      | parameter hp =>
        have h : s.TypeNeed _ .failure := h
        rcases hp with hp | rfl <;> grind
      | constraint hp hm hr =>
        have h : s.TypeNeed _ .failure := h
        grind
      | explicitOverride hr =>
        have h : s.MethodNeed _ .failure := h
        grind
      | localVariable hf hb hr =>
        have h : s.TypeNeed _ .failure := h
        grind
      | caught hf hb hc hr =>
        have h : s.TypeNeed _ .failure := h
        grind
      | operand hf hb hi hr =>
        have h : s.MemberNeed _ .failure := h
        grind
    | attributed ha h =>
      cases ha with
      | parameter hp ha =>
        have h : s.AttributeNeed t _ .failure := h
        rcases hp with hp | rfl <;> grind
      | own ha =>
        have h : s.AttributeNeed t _ .failure := h
        grind
      | genericParam hp hm ha =>
        exact .inr (.inr (.inl ⟨_, hp, _, hm, .inl ⟨_, ha, h⟩⟩))
      | property ho hp ha =>
        exact .inr (.inr (.inr (.inr (.inr (.inr ⟨_, ho, .inl ⟨_, hp, _, ha, h⟩⟩)))))
      | event ho he ha =>
        exact .inr (.inr (.inr (.inr (.inr (.inr ⟨_, ho, .inr ⟨_, he, _, ha, h⟩⟩)))))

end Setting

end CilTrim
