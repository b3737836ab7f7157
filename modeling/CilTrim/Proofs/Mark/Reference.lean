import CilTrim.Proofs.Mark.Edge
import CilTrim.Proofs.Model.Bound

/-!
# Demands of references

The demands of a reference are those of its parts, and they keep what the reference names:

* `Need`, `Asks`: what the demands of a list amount to, whatever their order;
* `Setting.asks_typeRef`, `Setting.asks_methodRef`, `Setting.asks_fieldRef`: references keep what
  they name, and fail if they dangle;
* `Setting.asks_typeName`: type names in metadata keep what they stand for, and never fail.
-/

namespace CilTrim

/-! ## Needs -/

/-- What a demand amounts to. -/
inductive Need where
  /-- A definition is kept. -/
  | kept (token : Token)
  /-- Marking fails. -/
  | failure

/-- What a demand amounts to, if it is neither bookkeeping nor passed over. -/
@[simp] def Demand.need? : Demand → Option Need
  | .node token _ | .type token _ | .method token _ | .field token _ => some (.kept token)
  | .unresolved _ => some .failure
  | _ => none

/-- One of the demands of a list amounts to a need. -/
def Asks (ds : List Demand) (n : Need) : Prop :=
  ∃ d ∈ ds, d.need? = some n

section Asks

variable {n : Need} {d : Demand} {ds es : List Demand} {α : Type}

@[simp] theorem asks_nil : ¬ Asks [] n := by
  rintro ⟨d, hd, -⟩
  cases hd

@[simp] theorem asks_cons : Asks (d :: ds) n ↔ d.need? = some n ∨ Asks ds n := by
  simp only [Asks, List.mem_cons, or_and_right, exists_or, exists_eq_left]

@[simp] theorem asks_append : Asks (ds ++ es) n ↔ Asks ds n ∨ Asks es n := by
  simp only [Asks, List.mem_append, or_and_right, exists_or]

/-- A list that consists of the members of others asks for what they ask for. -/
theorem asks_of_mem {p : α → Prop} {f : α → List Demand}
    (h : ∀ d, d ∈ ds ↔ ∃ x, p x ∧ d ∈ f x) : Asks ds n ↔ ∃ x, p x ∧ Asks (f x) n := by
  constructor
  · rintro ⟨d, hd, hn⟩
    obtain ⟨x, hx, hd⟩ := (h d).mp hd
    exact ⟨x, hx, d, hd, hn⟩
  · rintro ⟨x, hx, d, hd, hn⟩
    exact ⟨d, (h d).mpr ⟨x, hx, hd⟩, hn⟩

@[simp] theorem asks_flatMap {xs : List α} {f : α → List Demand} :
    Asks (xs.flatMap f) n ↔ ∃ x ∈ xs, Asks (f x) n :=
  asks_of_mem fun _ => List.mem_flatMap

@[simp] theorem asks_map {xs : List α} {f : α → Demand} :
    Asks (xs.map f) n ↔ ∃ x ∈ xs, (f x).need? = some n := by
  simp only [Asks, List.mem_map, exists_exists_and_eq_and]

@[simp] theorem asks_ite {c : Prop} [Decidable c] :
    Asks (if c then ds else []) n ↔ c ∧ Asks ds n := by
  split <;> rename_i h
  · exact ⟨fun hd => ⟨h, hd⟩, And.right⟩
  · exact ⟨fun hd => absurd hd asks_nil, fun hd => absurd hd.1 h⟩

end Asks

namespace Setting

variable {s : Setting} {reason : Reason} {n : Need} {y : Token}

/-! ## Types -/

theorem asks_methodsWhere {type : TypeDef} {test : MethodDef → Bool} :
    Asks (s.methodsWhere type reason test) n ↔
      ∃ method ∈ s.model.methodsOf type, test method = true ∧ n = .kept method.token := by
  simp only [methodsWhere, asks_map, List.mem_filter, Demand.need?, Option.some.injEq, and_assoc,
    eq_comm]

theorem asks_constructorsFor {param : Token} {argument : TypeRef} :
    Asks (s.constructorsFor reason param argument) n ↔
      (∃ p, s.model.genericParam? param = some p ∧ p.needsDefaultConstructor = true) ∧
      argument.isConstructible = true ∧
      ∃ t type, s.model.resolveType argument = .ok t ∧ s.model.type? t = some type ∧
        ∃ method ∈ s.model.methodsOf type, method.isDefaultConstructor = true ∧
          n = .kept method.token := by
  unfold constructorsFor
  rw [asks_ite, Option.any_eq_true]
  refine and_congr_right fun _ => ?_
  cases argument with
  | definition | external | generic =>
    refine Iff.trans ?_ (and_iff_right rfl).symm
    generalize s.model.resolveType _ = resolved
    cases resolved with
    | error cause => simp [Except.toOption]
    | ok t =>
      simp only [Except.toOption, Option.bind_some, Except.ok.injEq]
      cases hd : s.model.type? t with
      | none => simp [hd]
      | some type => simp [asks_methodsWhere, hd]
  | _ => simp [TypeRef.isConstructible]

theorem asks_constructors {params : List Token} {args : List TypeRef} :
    Asks (s.constructors reason params args) n ↔
      ∃ ctor, s.model.ConstructorDemanded params args ctor ∧ n = .kept ctor := by
  simp only [constructors, asks_ite, asks_flatMap, Prod.exists, asks_constructorsFor,
    Model.ConstructorDemanded]
  constructor
  · rintro ⟨hl, param, argument, hz, hp, hc, t, type, hr, hd, method, hm, hm', rfl⟩
    exact ⟨_, ⟨hl, param, argument, hz, hp, hc, t, type, hr, hd, method, hm, hm', rfl⟩, rfl⟩
  · rintro ⟨_, ⟨hl, param, argument, hz, hp, hc, t, type, hr, hd, method, hm, hm', rfl⟩, rfl⟩
    exact ⟨hl, param, argument, hz, hp, hc, t, type, hr, hd, method, hm, hm', rfl⟩

theorem asks_namedType {r : TypeRef} :
    Asks (s.namedType reason r) n ↔
      (∃ t, s.model.resolveType r = .ok t ∧ n = .kept t) ∨
        ∃ cause, s.model.resolveType r = .error cause ∧ n = .failure := by
  unfold namedType
  cases s.model.resolveType r <;> simp [eq_comm]

theorem typeRefs_eq (rs : List TypeRef) : s.typeRefs reason rs = rs.flatMap (s.typeRef reason) := by
  induction rs with
  | nil => rw [typeRefs, List.flatMap_nil]
  | cons r rest ih => rw [typeRefs, List.flatMap_cons, ih]

/-- Generic parameters that there are not ask for nothing. -/
theorem not_constructorDemanded_nil {args : List TypeRef} {ctor : Token} :
    ¬ s.model.ConstructorDemanded [] args ctor := by
  rintro ⟨-, param, argument, hz, -⟩
  rw [List.zip_nil_left] at hz
  cases hz

theorem constructorDemanded_typeParams {e : TypeRef} {args : List TypeRef} {ctor : Token} :
    s.model.ConstructorDemanded (s.typeParams e) args ctor ↔
      ∃ t type, s.model.resolveType e = .ok t ∧ s.model.type? t = some type ∧
        s.model.ConstructorDemanded type.genericParams args ctor := by
  unfold typeParams
  cases s.model.resolveType e with
  | error cause => simp [Except.toOption, not_constructorDemanded_nil]
  | ok t =>
    simp only [Except.toOption, Option.bind_some, Except.ok.injEq]
    cases hd : s.model.type? t <;> simp [hd, not_constructorDemanded_nil]

/-- The demands of a part of a reference that are not those of parts inside it. -/
def partDemands (s : Setting) (reason : Reason) : TypeRef → List Demand
  | .generic e arguments => s.constructors reason (s.typeParams e) arguments
  | .definition token => s.namedType reason (.definition token)
  | .external scope fullName => s.namedType reason (.external scope fullName)
  | .primitive kind => s.namedType reason (.primitive kind)
  | _ => []

mutual

/-- The demands of a reference are those of its parts. -/
theorem mem_typeRef {d : Demand} : (r : TypeRef) →
    (d ∈ s.typeRef reason r ↔ ∃ p, r.Part p ∧ d ∈ s.partDemands reason p)
  | .generic e args => by
    rw [typeRef, List.mem_append, List.mem_append, mem_typeRefs args, mem_typeRef e]
    constructor
    · rintro ((⟨a, ha, p, hp, hd⟩ | hd) | ⟨p, hp, hd⟩)
      · exact ⟨p, .argument ha hp, hd⟩
      · exact ⟨_, .self _, hd⟩
      · exact ⟨p, .instantiated hp, hd⟩
    · rintro ⟨p, hp, hd⟩
      cases hp with
      | self => exact .inl (.inr hd)
      | argument ha hp => exact .inl (.inl ⟨_, ha, p, hp, hd⟩)
      | instantiated hp => exact .inr ⟨p, hp, hd⟩
  | .modified m required e => by
    simp only [typeRef, List.mem_append, TypeRef.part_modified, or_and_right, exists_or,
      exists_eq_left, partDemands, mem_typeRef m, mem_typeRef e, List.not_mem_nil, false_or]
  | .array e _ => by
    simp only [typeRef, TypeRef.part_array, or_and_right, exists_or, exists_eq_left, partDemands,
      List.not_mem_nil, false_or, mem_typeRef e]
  | .pointer e => by
    simp only [typeRef, TypeRef.part_pointer, or_and_right, exists_or, exists_eq_left, partDemands,
      List.not_mem_nil, false_or, mem_typeRef e]
  | .byRef e => by
    simp only [typeRef, TypeRef.part_byRef, or_and_right, exists_or, exists_eq_left, partDemands,
      List.not_mem_nil, false_or, mem_typeRef e]
  | .pinned e => by
    simp only [typeRef, TypeRef.part_pinned, or_and_right, exists_or, exists_eq_left, partDemands,
      List.not_mem_nil, false_or, mem_typeRef e]
  | .typeParameter i => by
    simp [typeRef, TypeRef.part_leaf (.typeParameter i) (.inr rfl), partDemands]
  | .methodParameter i => by
    simp [typeRef, TypeRef.part_leaf (.methodParameter i) (.inr rfl), partDemands]
  | .definition t => by
    simp [typeRef, TypeRef.part_leaf (.definition t) (.inl rfl), partDemands]
  | .external scope name => by
    simp [typeRef, TypeRef.part_leaf (.external scope name) (.inl rfl), partDemands]
  | .primitive kind => by
    simp [typeRef, TypeRef.part_leaf (.primitive kind) (.inl rfl), partDemands]

theorem mem_typeRefs {d : Demand} : (rs : List TypeRef) →
    (d ∈ s.typeRefs reason rs ↔ ∃ r ∈ rs, ∃ p, r.Part p ∧ d ∈ s.partDemands reason p)
  | [] => by simp only [typeRefs, List.not_mem_nil, false_and, exists_false]
  | r :: rest => by
    simp only [typeRefs, List.mem_append, List.mem_cons, or_and_right, exists_or, exists_eq_left,
      mem_typeRef r, mem_typeRefs rest]

end

/-- What a reference to a type amounts to. -/
def TypeNeed (s : Setting) (r : TypeRef) : Need → Prop
  | .kept y => s.model.TypeNames r y
  | .failure => s.model.TypeDangles r

theorem asks_partDemands {p : TypeRef} :
    Asks (s.partDemands reason p) n ↔
      (p.isNamed = true ∧ Asks (s.namedType reason p) n) ∨
        ∃ e args, p = .generic e args ∧ Asks (s.constructors reason (s.typeParams e) args) n := by
  cases p <;> simp [partDemands, TypeRef.isNamed]

theorem asks_typeRef {r : TypeRef} : Asks (s.typeRef reason r) n ↔ s.TypeNeed r n := by
  rw [asks_of_mem fun _ => mem_typeRef r]
  simp only [asks_partDemands, asks_namedType, asks_constructors, constructorDemanded_typeParams]
  cases n with
  | kept y =>
    constructor
    · rintro ⟨p, hp, ⟨hl, ⟨t, ht, hn⟩ | ⟨cause, -, hn⟩⟩ |
        ⟨e, args, rfl, ctor, ⟨t, type, ht, hd, hc⟩, hn⟩⟩
      · cases hn
        exact .leaf hp hl ht
      · cases hn
      · cases hn
        exact .constructor hp ht hd hc
    · intro h
      cases h with
      | leaf hp hl ht => exact ⟨_, hp, .inl ⟨hl, .inl ⟨y, ht, rfl⟩⟩⟩
      | constructor hp ht hd hc =>
        exact ⟨_, hp, .inr ⟨_, _, rfl, y, ⟨_, _, ht, hd, hc⟩, rfl⟩⟩
  | failure =>
    constructor
    · rintro ⟨p, hp, ⟨hl, ⟨t, ht, hn⟩ | ⟨cause, hc, -⟩⟩ | ⟨e, args, rfl, ctor, -, hn⟩⟩
      · cases hn
      · exact ⟨p, cause, hp, hl, hc⟩
      · cases hn
    · rintro ⟨p, cause, hp, hl, hc⟩
      exact ⟨p, hp, .inl ⟨hl, .inr ⟨cause, hc, rfl⟩⟩⟩

theorem asks_typeRefs {rs : List TypeRef} :
    Asks (s.typeRefs reason rs) n ↔ ∃ r ∈ rs, s.TypeNeed r n := by
  simp only [typeRefs_eq, asks_flatMap, asks_typeRef]

/-! ## Members -/

/-- What a reference to a method amounts to. -/
def MethodNeed (s : Setting) (r : MethodRef) : Need → Prop
  | .kept y => s.model.MethodNames r y
  | .failure => s.model.MethodDangles r

/-- What a reference to a field amounts to. -/
def FieldNeed (s : Setting) (r : FieldRef) : Need → Prop
  | .kept y => s.model.FieldNames r y
  | .failure => s.model.FieldDangles r

theorem constructorDemanded_methodParams {e : MethodRef} {args : List TypeRef} {ctor : Token} :
    s.model.ConstructorDemanded (s.methodParams e) args ctor ↔
      ∃ t method, s.model.resolveMethod e = .ok t ∧ s.model.method? t = some method ∧
        s.model.ConstructorDemanded method.genericParams args ctor := by
  unfold methodParams
  cases s.model.resolveMethod e with
  | error cause => simp [Except.toOption, not_constructorDemanded_nil]
  | ok t =>
    simp only [Except.toOption, Option.bind_some, Except.ok.injEq]
    cases hd : s.model.method? t <;> simp [hd, not_constructorDemanded_nil]

theorem asks_methodArguments {r : MethodRef} :
    Asks (s.methodArguments reason r) n ↔
      ∃ e args, r.Instantiates e args ∧
        ((∃ a ∈ args, s.TypeNeed a n) ∨
          ∃ ctor, s.model.ConstructorDemanded (s.methodParams e) args ctor ∧ n = .kept ctor) := by
  induction r with
  | definition token =>
    simp only [methodArguments, asks_nil, false_iff]
    rintro ⟨e, args, h, -⟩
    cases h
  | member declaringType name signature =>
    simp only [methodArguments, asks_nil, false_iff]
    rintro ⟨e, args, h, -⟩
    cases h
  | generic e args ih =>
    simp only [methodArguments, asks_append, asks_typeRefs, asks_constructors, ih]
    constructor
    · rintro (h | ⟨e', args', hi, h⟩)
      · exact ⟨e, args, .self e args, h⟩
      · exact ⟨e', args', .inner hi, h⟩
    · rintro ⟨e', args', hi, h⟩
      cases hi with
      | self => exact .inl h
      | inner hi => exact .inr ⟨e', args', hi, h⟩

theorem asks_genericOwner {declaringType : TypeRef} :
    Asks (s.genericOwner reason declaringType) n ↔
      declaringType.isGeneric = true ∧ s.TypeNeed declaringType n := by
  simp only [genericOwner, asks_ite, asks_typeRef]

theorem isArrayMethod_iff {r : MethodRef} : isArrayMethod r = true ↔ r.OnArray := by
  unfold isArrayMethod MethodRef.OnArray
  cases r.element with
  | definition | generic => simp
  | member declaringType name signature => cases declaringType <;> simp [TypeRef.isArray]

theorem asks_resolveMethod {r : MethodRef} :
    Asks (match s.model.resolveMethod r.element with
      | .ok token => [.method token reason]
      | .error cause => [.unresolved cause]) n ↔
      (∃ t, s.model.resolveMethod r = .ok t ∧ n = .kept t) ∨
        ∃ cause, s.model.resolveMethod r = .error cause ∧ n = .failure := by
  have same := s.model.resolveMethod_element r
  cases he : s.model.resolveMethod r.element with
  | error cause =>
    cases hr : s.model.resolveMethod r with
    | error cause' => simp [eq_comm]
    | ok t => simp [he, hr, Except.toOption] at same
  | ok t =>
    cases hr : s.model.resolveMethod r with
    | error cause => simp [he, hr, Except.toOption] at same
    | ok t' =>
      simp only [he, hr, Except.toOption, Option.some.injEq] at same
      simp [same, eq_comm]

/-- The demands of a reference to a method, by where they come from. -/
theorem asks_methodRef_parts {r : MethodRef} :
    Asks (s.methodRef reason r) n ↔
      Asks (s.methodArguments reason r) n ∨
      (∃ declaringType name signature, r.element = .member declaringType name signature ∧
        declaringType.isGeneric = true ∧ s.TypeNeed declaringType n) ∨
      ¬ r.OnArray ∧ ((∃ t, s.model.resolveMethod r = .ok t ∧ n = .kept t) ∨
        ∃ cause, s.model.resolveMethod r = .error cause ∧ n = .failure) := by
  unfold methodRef
  rw [asks_append]
  refine or_congr_right ?_
  split <;> rename_i ha <;> rw [isArrayMethod_iff] at ha
  · -- Arrays are no generic types, so nothing else is demanded.
    obtain ⟨e, rank, name, signature, hr⟩ := ha
    simp only [asks_nil, hr, MethodRef.member.injEq, MethodRef.OnArray, false_iff, not_or]
    refine ⟨?_, fun h => h.1 ⟨e, rank, name, signature, rfl, rfl, rfl⟩⟩
    rintro ⟨declaringType, name', signature', ⟨rfl, -, -⟩, hg, -⟩
    cases hg
  · rw [asks_append]
    refine or_congr ?_ (asks_resolveMethod.trans (and_iff_right ha).symm)
    cases r.element with
    | definition | generic => simp
    | member declaringType name signature => simp [asks_genericOwner]

theorem asks_methodRef {r : MethodRef} : Asks (s.methodRef reason r) n ↔ s.MethodNeed r n := by
  rw [asks_methodRef_parts, asks_methodArguments]
  simp only [constructorDemanded_methodParams]
  cases n with
  | kept y =>
    constructor
    · rintro (⟨e, args, hi, ⟨a, ha, h⟩ | ⟨ctor, ⟨t, method, ht, hm, hc⟩, hn⟩⟩ |
        ⟨declaringType, name, signature, he, hg, h⟩ | ⟨ha, ⟨t, ht, hn⟩ | ⟨cause, -, hn⟩⟩)
      · exact .argument hi ha h
      · cases hn
        exact .constructor hi ht hm hc
      · exact .owner he hg h
      · cases hn
        exact .method ha ht
      · cases hn
    · intro h
      cases h with
      | argument hi ha h => exact .inl ⟨_, _, hi, .inl ⟨_, ha, h⟩⟩
      | constructor hi ht hm hc => exact .inl ⟨_, _, hi, .inr ⟨y, ⟨_, _, ht, hm, hc⟩, rfl⟩⟩
      | owner he hg h => exact .inr (.inl ⟨_, _, _, he, hg, h⟩)
      | method ha ht => exact .inr (.inr ⟨ha, .inl ⟨y, ht, rfl⟩⟩)
  | failure =>
    constructor
    · rintro (⟨e, args, hi, ⟨a, ha, h⟩ | ⟨ctor, -, hn⟩⟩ |
        ⟨declaringType, name, signature, he, hg, h⟩ | ⟨ha, ⟨t, -, hn⟩ | ⟨cause, hc, -⟩⟩)
      · exact .argument hi ha h
      · cases hn
      · exact .owner he hg h
      · cases hn
      · exact .method ha hc
    · intro h
      cases h with
      | argument hi ha h => exact .inl ⟨_, _, hi, .inl ⟨_, ha, h⟩⟩
      | owner he hg h => exact .inr (.inl ⟨_, _, _, he, hg, h⟩)
      | method ha hc => exact .inr (.inr ⟨ha, .inr ⟨_, hc, rfl⟩⟩)

theorem asks_fieldRef {r : FieldRef} : Asks (s.fieldRef reason r) n ↔ s.FieldNeed r n := by
  unfold fieldRef
  rw [asks_append]
  refine (or_congr_left (b := ∃ declaringType name fieldType,
    r = .member declaringType name fieldType ∧ declaringType.isGeneric = true ∧
      s.TypeNeed declaringType n) ?_).trans ?_
  · cases r with
    | definition => simp
    | member declaringType name fieldType => simp [asks_genericOwner]
  cases n with
  | kept y =>
    constructor
    · rintro (⟨declaringType, name, fieldType, rfl, hg, h⟩ | h)
      · exact .owner rfl hg h
      · cases hr : s.model.resolveField r with
        | error cause => simp [hr] at h
        | ok t =>
          simp only [hr, asks_cons, Demand.need?, Option.some.injEq, Need.kept.injEq, asks_nil,
            or_false] at h
          exact .field (h ▸ hr)
    · intro h
      cases h with
      | owner he hg h => exact .inl ⟨_, _, _, he, hg, h⟩
      | field hr => exact .inr (by simp [hr])
  | failure =>
    constructor
    · rintro (⟨declaringType, name, fieldType, rfl, hg, h⟩ | h)
      · exact .owner rfl hg h
      · cases hr : s.model.resolveField r with
        | error cause => exact .field hr
        | ok t => simp [hr] at h
    · intro h
      cases h with
      | owner he hg h => exact .inl ⟨_, _, _, he, hg, h⟩
      | field hr => exact .inr (by simp [hr])

/-- What a reference to any member amounts to. -/
def MemberNeed (s : Setting) (r : MemberRef) : Need → Prop
  | .kept y => s.model.Names r y
  | .failure => s.model.Dangles r

theorem asks_memberRef {r : MemberRef} : Asks (s.memberRef reason r) n ↔ s.MemberNeed r n := by
  cases r with
  | type r => exact asks_typeRef.trans (by cases n <;> exact Iff.rfl)
  | method r => exact asks_methodRef.trans (by cases n <;> exact Iff.rfl)
  | field r => exact asks_fieldRef.trans (by cases n <;> exact Iff.rfl)

/-! ## Type names -/

end Setting

namespace Model

variable {m : Model}

theorem dangles_applyModifier {r : TypeRef} {modifier : TypeNameModifier}
    (h : m.TypeDangles (applyModifier r modifier)) : m.TypeDangles r := by
  obtain ⟨leaf, cause, hp, hl, hc⟩ := h
  refine ⟨leaf, cause, ?_, hl, hc⟩
  cases modifier with
  | szArray =>
    rcases TypeRef.part_array.mp hp with rfl | hp
    · cases hl
    · exact hp
  | array rank =>
    rcases TypeRef.part_array.mp hp with rfl | hp
    · cases hl
    · exact hp
  | pointer =>
    rcases TypeRef.part_pointer.mp hp with rfl | hp
    · cases hl
    · exact hp
  | byRef =>
    rcases TypeRef.part_byRef.mp hp with rfl | hp
    · cases hl
    · exact hp

theorem dangles_applyModifiers {modifiers : List TypeNameModifier} {r : TypeRef}
    (h : m.TypeDangles (modifiers.foldl applyModifier r)) : m.TypeDangles r := by
  induction modifiers generalizing r with
  | nil => exact h
  | cons modifier rest ih => exact dangles_applyModifier (ih h)

theorem not_dangles_definition {t : Token} (h : (m.type? t).isSome) :
    ¬ m.TypeDangles (.definition t) := by
  rintro ⟨leaf, cause, hp, -, hc⟩
  rw [(TypeRef.part_leaf (.definition t) (.inl rfl)).mp hp] at hc
  simp only [resolveType, TypeRef.element, h, if_true, reduceCtorEq] at hc

theorem dangles_generic {e : TypeRef} {args : List TypeRef} (h : m.TypeDangles (.generic e args)) :
    m.TypeDangles e ∨ ∃ a ∈ args, m.TypeDangles a := by
  obtain ⟨leaf, cause, hp, hl, hc⟩ := h
  cases hp with
  | self => cases hl
  | argument ha hp => exact .inr ⟨_, ha, leaf, cause, hp, hl, hc⟩
  | instantiated hp => exact .inl ⟨leaf, cause, hp, hl, hc⟩

theorem type_of_findNamed? (wf : m.WellFormed) (fits : m.Fits) {scopes : List Token}
    {name : TypeName} {t : Token} (h : m.findNamed? scopes name = some t) :
    (m.type? t).isSome := by
  unfold findNamed? at h
  split at h
  · obtain ⟨assembly, -, hf⟩ := Option.bind_eq_some_iff.mp h
    exact type_of_findType? wf fits hf
  · obtain ⟨scope, -, hf⟩ := List.exists_of_findSome?_eq_some h
    exact type_of_findType? wf fits hf

mutual

/-- A name that stands for a type stands for one of the model. -/
theorem not_dangles_resolveTypeName? (wf : m.WellFormed) (fits : m.Fits) {scopes : List Token} :
    (name : TypeName) → {r : TypeRef} → m.resolveTypeName? scopes name = some r →
      ¬ m.TypeDangles r
  | ⟨space, name, nested, arguments, modifiers, assembly⟩, r, h => by
    unfold resolveTypeName? at h
    split at h
    · cases h
    · rename_i t hf
      have ht := not_dangles_definition (type_of_findNamed? wf fits hf)
      split at h
      · cases h
      · rename_i args ha
        cases h
        intro hd
        replace hd := dangles_applyModifiers hd
        split at hd
        · exact ht hd
        · rcases dangles_generic hd with hd | ⟨a, ha', hd⟩
          · exact ht hd
          · exact not_dangles_resolveTypeNames? wf fits arguments ha a ha' hd

theorem not_dangles_resolveTypeNames? (wf : m.WellFormed) (fits : m.Fits) {scopes : List Token} :
    (names : List TypeName) → {rs : List TypeRef} → m.resolveTypeNames? scopes names = some rs →
      ∀ r ∈ rs, ¬ m.TypeDangles r
  | [], rs, h => by
    cases h
    intro r hr
    cases hr
  | name :: rest, rs, h => by
    unfold resolveTypeNames? at h
    split at h
    · cases h
    · rename_i r hr
      obtain ⟨rs, hrs, rfl⟩ := Option.map_eq_some_iff.mp h
      intro r' hr'
      rcases List.mem_cons.mp hr' with rfl | hr'
      · exact not_dangles_resolveTypeName? wf fits name hr
      · exact not_dangles_resolveTypeNames? wf fits rest hrs r' hr'

end

end Model

namespace Setting

variable {s : Setting} {reason : Reason} {n : Need} {owner y : Token}

theorem asks_typeName {scopes : List Token} {name : String} :
    Asks (s.typeName scopes reason name) n ↔ ∃ parsed r, TypeName.parse name = .ok parsed ∧
      s.model.resolveTypeName? scopes parsed = some r ∧ s.TypeNeed r n := by
  unfold typeName
  cases TypeName.parse name with
  | error fault => simp
  | ok parsed => cases hr : s.model.resolveTypeName? scopes parsed <;> simp [hr, asks_typeRef]

/-- A name of a definition keeps what it stands for. -/
theorem keeps_typeName {name : String} :
    Asks (s.typeName (s.nameScopes owner) reason name) (.kept y) ↔
      ∃ r, s.StandsFor owner name r ∧ s.model.TypeNames r y := by
  rw [asks_typeName]
  constructor
  · rintro ⟨parsed, r, hp, hr, h⟩
    exact ⟨r, ⟨parsed, hp, hr⟩, h⟩
  · rintro ⟨r, ⟨parsed, hp, hr⟩, h⟩
    exact ⟨parsed, r, hp, hr, h⟩

theorem not_fails_typeName (wf : s.model.WellFormed) (fits : s.model.Fits) {scopes : List Token}
    {name : String} : ¬ Asks (s.typeName scopes reason name) .failure := by
  rw [asks_typeName]
  rintro ⟨parsed, r, -, hr, h⟩
  exact Model.not_dangles_resolveTypeName? wf fits parsed hr h

end Setting

end CilTrim
