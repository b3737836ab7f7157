import CilTrim.Proofs.Override.Pairs

/-!
# Interfaces and their slots

The walk over the interfaces of a type lists each interface once, with the arguments it is first
met with. So it lists everything that the type implements exactly if no interface is instantiated
in two ways. The slots of what it lists are filled by the virtual methods of the type:

* `Model.Implements`: the interfaces of a type, with those they build on;
* `Model.interfacesOf_complete_iff`: when the walk lists all of it;
* `Model.SlotsFilled`: the table has the methods of a type that fit the slots of an interface;
* `Model.slots_filled`: the two together, with a type that has one interface in two ways as the
  example of what is missed.
-/

namespace CilTrim

namespace Model

/-! ## What a type implements -/

/-- The references to interfaces of a type: those it declares, and those of the interfaces it refers
to, with arguments put in. -/
inductive InterfaceRef (m : Model) (type : TypeDef) : TypeRef → Prop where
  | declared {r : TypeRef} : r ∈ type.interfaces → InterfaceRef m type r
  | inherited {r r' : TypeRef} {t : Token} : InterfaceRef m type r → m.resolveType r = .ok t →
    r' ∈ m.inheritedInterfaces t r.typeArguments → InterfaceRef m type r'

/-- A type implements an interface, instantiated with arguments. -/
def Implements (m : Model) (type : TypeDef) (interface : Token × List TypeRef) : Prop :=
  ∃ r, m.InterfaceRef type r ∧ m.resolveType r = .ok interface.1 ∧ r.typeArguments = interface.2

/-- A type implements no interface in two ways. -/
def ImplementsOnce (m : Model) (type : TypeDef) : Prop :=
  ∀ t args args', m.Implements type (t, args) → m.Implements type (t, args') → args = args'

variable {m : Model} {type : TypeDef} {fuel : Nat} {visited : List Token} {pending : List TypeRef}

/-! ## The walk -/

/-- Only what is implemented is listed. -/
theorem implements_of_mem_interfacesFrom (hp : ∀ r ∈ pending, m.InterfaceRef type r)
    {i : Token × List TypeRef} (hi : i ∈ m.interfacesFrom fuel visited pending) :
    m.Implements type i := by
  fun_induction interfacesFrom m fuel visited pending with
  | case1 => cases hi
  | case2 => cases hi
  | case3 fuel visited r pending cause hr ih =>
    exact ih (fun r' hr' => hp r' (List.mem_cons_of_mem _ hr')) hi
  | case4 fuel visited r pending t hr hv ih =>
    exact ih (fun r' hr' => hp r' (List.mem_cons_of_mem _ hr')) hi
  | case5 fuel visited r pending t hr hv args ih =>
    have hroot := hp r List.mem_cons_self
    rcases List.mem_cons.mp hi with rfl | hi
    · exact ⟨r, hroot, hr, rfl⟩
    · refine ih (fun r' hr' => ?_) hi
      rcases List.mem_append.mp hr' with hr' | hr'
      · exact .inherited hroot hr hr'
      · exact hp r' (List.mem_cons_of_mem _ hr')

/-- What has been visited is not listed again. -/
theorem not_mem_of_mem_interfacesFrom {i : Token × List TypeRef}
    (hi : i ∈ m.interfacesFrom fuel visited pending) : i.1 ∉ visited := by
  fun_induction interfacesFrom m fuel visited pending with
  | case1 => cases hi
  | case2 => cases hi
  | case3 fuel visited r pending cause hr ih => exact ih hi
  | case4 fuel visited r pending t hr hv ih => exact ih hi
  | case5 fuel visited r pending t hr hv args ih =>
    rcases List.mem_cons.mp hi with rfl | hi
    · exact hv
    · exact fun h => ih hi (List.mem_cons_of_mem _ h)

/-- Nothing is listed with two lists of arguments. -/
theorem args_eq_of_mem_interfacesFrom {t : Token} {a b : List TypeRef}
    (ha : (t, a) ∈ m.interfacesFrom fuel visited pending)
    (hb : (t, b) ∈ m.interfacesFrom fuel visited pending) : a = b := by
  fun_induction interfacesFrom m fuel visited pending with
  | case1 => cases ha
  | case2 => cases ha
  | case3 fuel visited r pending cause hr ih => exact ih ha hb
  | case4 fuel visited r pending t hr hv ih => exact ih ha hb
  | case5 fuel visited r pending t' hr hv args ih =>
    have head {c : List TypeRef} (hc : (t', c) ∈ (t', args) ::
        m.interfacesFrom fuel (t' :: visited) (m.inheritedInterfaces t' args ++ pending)) :
        c = args := by
      rcases List.mem_cons.mp hc with h | h
      · exact congrArg Prod.snd h
      · exact absurd List.mem_cons_self (not_mem_of_mem_interfacesFrom h)
    by_cases ht : t = t'
    · subst ht
      rw [head ha, head hb]
    · have tail {c : List TypeRef} (hc : (t, c) ∈ (t', args) ::
          m.interfacesFrom fuel (t' :: visited) (m.inheritedInterfaces t' args ++ pending)) :=
        (List.mem_cons.mp hc).resolve_left fun h => ht (congrArg Prod.fst h)
      exact ih (tail ha) (tail hb)

/-! ## The length of the walk -/

/-- The number of references to interfaces in types that have not been visited. -/
def unvisitedInterfaces (m : Model) (visited : List Token) : Nat :=
  ((m.types.toList.zipIdx.filter fun row =>
    !visited.any (·.index? .typeDef == some row.2)).flatMap (·.1.interfaces)).length

theorem unvisitedInterfaces_nil : m.unvisitedInterfaces [] = m.interfaceCount := by
  have h : m.types.toList.zipIdx.flatMap (·.1.interfaces) =
      (m.types.toList.zipIdx.map Prod.fst).flatMap (·.interfaces) := by
    rw [List.flatMap_map]
  simp only [unvisitedInterfaces, List.any_nil, Bool.not_false, List.filter_true, h,
    List.zipIdx_map_fst, interfaceCount]

/-- Leaving out one element leaves out what it brings. -/
theorem length_flatMap_filter {α β : Type} {p q : α → Bool} (f : α → List β)
    (hqp : ∀ x, q x = true → p x = true) {x : α} (hp : p x = true) (hq : q x = false) :
    ∀ {xs : List α}, x ∈ xs →
      (f x).length + ((xs.filter q).flatMap f).length ≤ ((xs.filter p).flatMap f).length := by
  intro xs hx
  induction xs with
  | nil => cases hx
  | cons y ys ih =>
    rcases List.mem_cons.mp hx with rfl | hx
    · have hsub := (List.monotone_filter_right ys hqp).flatMap f
      have := hsub.length_le
      rw [List.filter_cons_of_neg (by simp [hq]), List.filter_cons_of_pos hp, List.flatMap_cons,
        List.length_append]
      omega
    · have := ih hx
      cases hy : q y with
      | true =>
        rw [List.filter_cons_of_pos hy, List.filter_cons_of_pos (hqp y hy), List.flatMap_cons,
          List.flatMap_cons, List.length_append, List.length_append]
        omega
      | false =>
        rw [List.filter_cons_of_neg (by simp [hy]), List.filter_cons]
        split
        · rw [List.flatMap_cons, List.length_append]
          omega
        · exact this

/-- Visiting a type uses up the references that it brings. -/
theorem unvisitedInterfaces_cons {t : Token} (ht : t ∉ visited) (args : List TypeRef) :
    (m.inheritedInterfaces t args).length + m.unvisitedInterfaces (t :: visited) ≤
      m.unvisitedInterfaces visited := by
  have hqp (row : TypeDef × Nat)
      (h : (!(t :: visited).any (·.index? .typeDef == some row.2)) = true) :
      (!visited.any (·.index? .typeDef == some row.2)) = true := by
    rw [Bool.not_eq_true', List.any_cons, Bool.or_eq_false_iff] at h
    rw [h.2]
    rfl
  unfold inheritedInterfaces
  split
  · rename_i d hd
    obtain ⟨i, hi, hrow⟩ := Option.bind_eq_some_iff.mp hd
    have hmem : (d, i) ∈ m.types.toList.zipIdx := by
      rw [List.mk_mem_zipIdx_iff_getElem?, Array.getElem?_toList]
      exact hrow
    have hfresh : (!visited.any (·.index? .typeDef == some i)) = true := by
      rw [Bool.not_eq_true', List.any_eq_false]
      intro v hv he
      exact ht (Token.index?_inj hi (beq_iff_eq.mp he) ▸ hv)
    have hseen : (!(t :: visited).any (·.index? .typeDef == some i)) = false := by
      rw [List.any_cons, hi, beq_self_eq_true]
      rfl
    rw [List.length_map]
    exact length_flatMap_filter (fun row => row.1.interfaces) hqp hfresh hseen hmem
  · rw [List.length_nil, Nat.zero_add]
    exact ((List.monotone_filter_right _ hqp).flatMap _).length_le

/-! ## What the walk lists -/

/-- The type that a reference binds to has been visited or is listed. -/
def Noted (m : Model) (visited : List Token) (out : List (Token × List TypeRef)) (r : TypeRef) :
    Prop :=
  ∀ t, m.resolveType r = .ok t → t ∈ visited ∨ ∃ args, (t, args) ∈ out

theorem Noted.of_visited {t : Token} {args : List TypeRef} {out : List (Token × List TypeRef)}
    {r : TypeRef} (h : m.Noted (t :: visited) out r) : m.Noted visited ((t, args) :: out) r := by
  intro t' ht'
  rcases h t' ht' with hv | ⟨args', hi⟩
  · rcases List.mem_cons.mp hv with rfl | hv
    · exact .inr ⟨args, List.mem_cons_self⟩
    · exact .inl hv
  · exact .inr ⟨args', List.mem_cons_of_mem _ hi⟩

/-- With enough fuel, the walk leaves out no reference: none that it starts from, and none of what
it lists. -/
theorem interfacesFrom_listed (room : pending.length + m.unvisitedInterfaces visited < fuel) :
    (∀ r ∈ pending, m.Noted visited (m.interfacesFrom fuel visited pending) r) ∧
      ∀ i ∈ m.interfacesFrom fuel visited pending, ∀ r ∈ m.inheritedInterfaces i.1 i.2,
        m.Noted visited (m.interfacesFrom fuel visited pending) r := by
  fun_induction interfacesFrom m fuel visited pending with
  | case1 => omega
  | case2 => exact ⟨fun r hr => (by cases hr), fun i hi => (by cases hi)⟩
  | case3 fuel visited r pending cause hr ih =>
    rw [List.length_cons] at room
    obtain ⟨hpending, hout⟩ := ih (by omega)
    refine ⟨List.forall_mem_cons.mpr ⟨fun t ht => ?_, hpending⟩, hout⟩
    rw [hr] at ht
    cases ht
  | case4 fuel visited r pending t hr hv ih =>
    rw [List.length_cons] at room
    obtain ⟨hpending, hout⟩ := ih (by omega)
    refine ⟨List.forall_mem_cons.mpr ⟨fun t' ht' => ?_, hpending⟩, hout⟩
    rw [hr] at ht'
    cases ht'
    exact .inl hv
  | case5 fuel visited r pending t hr hv args ih =>
    have hspent := unvisitedInterfaces_cons (m := m) hv args
    rw [List.length_cons] at room
    obtain ⟨hpending, hout⟩ := ih (by rw [List.length_append]; omega)
    refine ⟨List.forall_mem_cons.mpr ⟨fun t' ht' => ?_, fun r' hr' => ?_⟩, ?_⟩
    · rw [hr] at ht'
      cases ht'
      exact .inr ⟨args, List.mem_cons_self⟩
    · exact (hpending r' (List.mem_append_right _ hr')).of_visited
    · refine List.forall_mem_cons.mpr ⟨fun r' hr' => ?_, fun i hi r' hr' => ?_⟩
      · exact (hpending r' (List.mem_append_left _ hr')).of_visited
      · exact (hout i hi r' hr').of_visited

/-- The walk lists, with some arguments, every interface that a reference of the type or of what is
listed names. -/
theorem exists_mem_interfacesOf {r : TypeRef} {t : Token}
    (hr : r ∈ type.interfaces ∨ ∃ i ∈ m.interfacesOf type, r ∈ m.inheritedInterfaces i.1 i.2)
    (ht : m.resolveType r = .ok t) : ∃ args, (t, args) ∈ m.interfacesOf type := by
  have room : type.interfaces.length + m.unvisitedInterfaces [] <
      type.interfaces.length + m.interfaceCount + 1 := by
    rw [unvisitedInterfaces_nil]
    omega
  obtain ⟨hroots, hout⟩ := interfacesFrom_listed room
  have hnoted : m.Noted [] (m.interfacesOf type) r := by
    rcases hr with hr | ⟨i, hi, hr⟩
    · exact hroots r hr
    · exact hout i hi r hr
  exact (hnoted t ht).resolve_left (List.not_mem_nil)

theorem implements_of_mem_interfacesOf {i : Token × List TypeRef}
    (hi : i ∈ m.interfacesOf type) : m.Implements type i :=
  implements_of_mem_interfacesFrom (fun _ => .declared) hi

/-- A type that implements no interface in two ways has all that it implements listed. -/
theorem mem_interfacesOf_of_once (once : m.ImplementsOnce type) {i : Token × List TypeRef}
    (hi : m.Implements type i) : i ∈ m.interfacesOf type := by
  -- An interface that is listed with some arguments is listed with those of each reference.
  have only {r : TypeRef} {t : Token} (href : m.InterfaceRef type r) (ht : m.resolveType r = .ok t)
      (h : ∃ args, (t, args) ∈ m.interfacesOf type) :
      (t, r.typeArguments) ∈ m.interfacesOf type := by
    obtain ⟨args, hmem⟩ := h
    have := once t _ _ (implements_of_mem_interfacesOf hmem) ⟨r, href, ht, rfl⟩
    rwa [this] at hmem
  obtain ⟨t, args⟩ := i
  obtain ⟨r, href, ht, rfl⟩ := hi
  dsimp only at ht ⊢
  induction href generalizing t with
  | declared hr => exact only (.declared hr) ht (exists_mem_interfacesOf (.inl hr) ht)
  | inherited href' ht' hr ih =>
    refine only (.inherited href' ht' hr) ht (exists_mem_interfacesOf (.inr ?_) ht)
    exact ⟨_, ih _ ht', hr⟩

/-- The walk lists all that a type implements exactly if it implements no interface in two ways. -/
theorem interfacesOf_complete_iff :
    (∀ i, m.Implements type i → i ∈ m.interfacesOf type) ↔ m.ImplementsOnce type := by
  constructor
  · intro all t args args' h h'
    exact args_eq_of_mem_interfacesFrom (all _ h) (all _ h')
  · exact fun once i => mem_interfacesOf_of_once once

/-! ## Slots -/

/-- A virtual method of a type fits a slot of an instantiated interface. -/
structure Fills (m : Model) (type : TypeDef) (args : List TypeRef) (slot method : MethodDef) :
    Prop where
  declared : method ∈ m.methodsOf type
  isVirtual : method.isVirtual = true
  name : method.name = slot.name
  signature : m.signaturesEqual (slot.signature.substitute args) method.signature = true

/-- If methods of a type fit a slot of an instantiated interface, then the override table has one of
them for the slot, unless it is the slot itself. -/
def SlotsFilled (m : Model) (type : TypeDef) (interface : Token × List TypeRef) : Prop :=
  ∀ d slot, m.type? interface.1 = some d → slot ∈ m.methodsOf d →
    (∃ method, m.Fills type interface.2 slot method) →
      ∃ method, m.Fills type interface.2 slot method ∧
        (slot.token = method.token ∨ (slot.token, method.token) ∈ (OverrideTable.ofModel m).edges)

/-- The first virtual method of a type that fits a slot of an instantiated interface. -/
def firstFilling? (m : Model) (type : TypeDef) (args : List TypeRef) (slot : MethodDef) :
    Option MethodDef :=
  ((m.methodsOf type).filter (·.isVirtual)).find? fun method =>
    method.name == slot.name &&
      m.signaturesEqual (slot.signature.substitute args) method.signature

theorem Fills.of_firstFilling? {args : List TypeRef} {slot method : MethodDef}
    (h : m.firstFilling? type args slot = some method) : m.Fills type args slot method := by
  obtain ⟨hdeclared, hvirtual⟩ := List.mem_filter.mp (List.mem_of_find?_eq_some h)
  have hfit := List.find?_some h
  rw [Bool.and_eq_true, beq_iff_eq] at hfit
  exact ⟨hdeclared, hvirtual, hfit.1, hfit.2⟩

theorem Fills.exists_firstFilling? {args : List TypeRef} {slot method : MethodDef}
    (h : m.Fills type args slot method) :
    ∃ found, m.firstFilling? type args slot = some found := by
  refine Option.isSome_iff_exists.mp (List.find?_isSome.mpr ⟨method, ?_, ?_⟩)
  · exact List.mem_filter.mpr ⟨h.declared, h.isVirtual⟩
  · rw [h.name, beq_self_eq_true, h.signature]
    rfl

/-- The pairs that an interface contributes to a type. -/
def pairsFor (m : Model) (type : TypeDef) (interface : Token × List TypeRef) :
    List (Token × Token) :=
  m.interfacePairs ((m.methodsOf type).filter (·.isVirtual)) ((m.hierarchy type.token).drop 1)
    interface

/-- A pair has a slot of the interface, with the first method of the type that fits it or with one
that the type inherits. -/
theorem mem_pairsFor {i : Token × List TypeRef} {base overrider : Token} :
    (base, overrider) ∈ m.pairsFor type i ↔
      ∃ d slot, m.type? i.1 = some d ∧ slot ∈ m.methodsOf d ∧ slot.token = base ∧
        ((∃ method, m.firstFilling? type i.2 slot = some method ∧ method.token = overrider) ∨
          (m.firstFilling? type i.2 slot = none ∧
            m.nearestVirtual? ((m.hierarchy type.token).drop 1) slot.name
              (slot.signature.substitute i.2) = some overrider)) := by
  have himpl (slot : MethodDef) :
      m.implementation? ((m.methodsOf type).filter (·.isVirtual))
        ((m.hierarchy type.token).drop 1) i.2 slot =
      ((m.firstFilling? type i.2 slot).map (·.token)).or
        (m.nearestVirtual? ((m.hierarchy type.token).drop 1) slot.name
          (slot.signature.substitute i.2)) := by
    unfold implementation?
    cases h : m.firstFilling? type i.2 slot with
    | none | some =>
      rw [firstFilling?] at h
      simp only [h]
      rfl
  have hcases (slot : MethodDef) :
      m.implementation? ((m.methodsOf type).filter (·.isVirtual))
          ((m.hierarchy type.token).drop 1) i.2 slot = some overrider ↔
        (∃ method, m.firstFilling? type i.2 slot = some method ∧ method.token = overrider) ∨
          (m.firstFilling? type i.2 slot = none ∧
            m.nearestVirtual? ((m.hierarchy type.token).drop 1) slot.name
              (slot.signature.substitute i.2) = some overrider) := by
    rw [himpl]
    cases m.firstFilling? type i.2 slot <;> simp
  unfold pairsFor interfacePairs
  cases hd : m.type? i.1 with
  | none => simp
  | some d =>
    simp only [List.mem_filterMap, Option.map_eq_some_iff, Prod.mk.injEq, Option.some.injEq]
    constructor
    · rintro ⟨slot, hslot, _, himpl, rfl, rfl⟩
      exact ⟨d, slot, rfl, hslot, rfl, (hcases slot).mp himpl⟩
    · rintro ⟨d', slot, rfl, hslot, rfl, h⟩
      exact ⟨slot, hslot, _, (hcases slot).mpr h, rfl, rfl⟩

/-- The slots of what is listed are filled. -/
theorem slotsFilled_of_mem (ht : type ∈ m.types.toList) (hc : type.isInterface = false)
    {i : Token × List TypeRef} (hi : i ∈ m.interfacesOf type) : m.SlotsFilled type i := by
  rintro d slot hd hslot ⟨method, hfills⟩
  obtain ⟨found, hfound⟩ := hfills.exists_firstFilling?
  refine ⟨found, .of_firstFilling? hfound, ?_⟩
  by_cases he : slot.token = found.token
  · exact .inl he
  · refine .inr (OverrideTable.mem_ofModel.mpr ⟨he, type, ht, hc, ?_⟩)
    refine List.mem_append_right _ (List.mem_flatMap.mpr ⟨i, hi, ?_⟩)
    exact mem_pairsFor.mpr ⟨d, slot, hd, hslot, rfl, .inl ⟨found, hfound, rfl⟩⟩

/-! ## Slots that are left open -/

/-- The bases of a type do not come back to what has been visited. -/
theorem not_mem_of_mem_hierarchyFrom {limit : Nat} {visited : List Token} {t : Token}
    {args : List TypeRef} {base : Token × List TypeRef}
    (h : base ∈ m.hierarchyFrom limit visited t args) : base.1 ∉ visited := by
  induction limit generalizing visited t args with
  | zero => cases h
  | succ limit ih =>
    unfold hierarchyFrom at h
    split at h
    · cases h
    · rename_i ht
      rcases List.mem_cons.mp h with rfl | h
      · exact ht
      · split at h
        · exact fun hv => ih h (List.mem_cons_of_mem _ hv)
        · cases h

theorem ne_of_mem_bases {t : Token} {base : Token × List TypeRef}
    (h : base ∈ (m.hierarchy t).drop 1) : base.1 ≠ t := by
  unfold hierarchy maxHierarchy at h
  unfold hierarchyFrom at h
  rw [if_neg (List.not_mem_nil), List.drop_one, List.tail_cons] at h
  split at h
  · rintro rfl
    exact not_mem_of_mem_hierarchyFrom h List.mem_cons_self
  · cases h

/-- What a type inherits is not declared on it. -/
theorem ne_of_nearestVirtual? (wf : m.WellFormed) (fits : m.Fits) (ht : type ∈ m.types.toList)
    {name : String} {signature : Signature} {method : MethodDef} (hm : method ∈ m.methodsOf type) :
    m.nearestVirtual? ((m.hierarchy type.token).drop 1) name signature ≠ some method.token := by
  intro h
  obtain ⟨base, hbase, hb⟩ := List.exists_of_findSome?_eq_some h
  obtain ⟨d, hd, hf⟩ := Option.bind_eq_some_iff.mp hb
  obtain ⟨found, hfound, htoken⟩ := Option.map_eq_some_iff.mp hf
  have hlist := (mem_methodsOf wf (List.mem_of_find?_eq_some hfound)).1
  rw [htoken] at hlist
  obtain ⟨e, he, howner⟩ := wf.methods_listed.declared hd hlist
  obtain ⟨e', he', howner'⟩ :=
    wf.methods_listed.declared (wf.type_of_mem fits ht) (mem_methodsOf wf hm).1
  cases he.symm.trans he'
  exact ne_of_mem_bases hbase (howner.symm.trans howner')

/-- The interfaces of a type pair a slot with a method of the type that fits it for some arguments
exactly if that is the first method that fits for the arguments by which the interface is listed. -/
theorem paired_iff (wf : m.WellFormed) (fits : m.Fits) (ht : type ∈ m.types.toList) {t : Token}
    {d : TypeDef} {slot : MethodDef} (hd : m.type? t = some d) (hslot : slot ∈ m.methodsOf d)
    {method : MethodDef} (hm : method ∈ m.methodsOf type) :
    (∃ i ∈ m.interfacesOf type, (slot.token, method.token) ∈ m.pairsFor type i) ↔
      ∃ args, (t, args) ∈ m.interfacesOf type ∧
        m.firstFilling? type args slot = some method := by
  constructor
  · rintro ⟨⟨t', args⟩, hi, hpair⟩
    obtain ⟨d', slot', hd', hslot', htoken, ⟨found, hfound, he⟩ | ⟨-, hbase⟩⟩ :=
      mem_pairsFor.mp hpair
    · obtain ⟨hx, hs⟩ := mem_methodsOf wf hslot
      obtain ⟨hx', hs'⟩ := mem_methodsOf wf hslot'
      rw [htoken] at hx' hs'
      cases hs.symm.trans hs'
      obtain ⟨e, hown, howner⟩ := wf.methods_listed.declared hd hx
      obtain ⟨e', hown', howner'⟩ := wf.methods_listed.declared hd' hx'
      cases hown.symm.trans hown'
      cases howner.symm.trans howner'
      have hf := (mem_methodsOf wf (Fills.of_firstFilling? hfound).declared).2
      rw [he] at hf
      cases hf.symm.trans (mem_methodsOf wf hm).2
      exact ⟨args, hi, hfound⟩
    · exact absurd hbase (ne_of_nearestVirtual? wf fits ht hm)
  · rintro ⟨args, hi, hfound⟩
    exact ⟨_, hi, mem_pairsFor.mpr ⟨d, slot, hd, hslot, rfl, .inl ⟨method, hfound, rfl⟩⟩⟩

/-- The slots of all that a class implements are filled, if it implements no interface in two ways.
This is exactly when the walk lists all of it. Otherwise the slots of what the walk lists are
filled, and by nothing but the first methods that fit for the arguments that it lists. -/
theorem slots_filled (ht : type ∈ m.types.toList) (hc : type.isInterface = false) :
    (m.ImplementsOnce type → ∀ i, m.Implements type i → m.SlotsFilled type i) ∧
    ((∀ i, m.Implements type i → i ∈ m.interfacesOf type) ↔ m.ImplementsOnce type) ∧
    (∀ i ∈ m.interfacesOf type, m.SlotsFilled type i) ∧
    (m.WellFormed → m.Fits → ∀ t d slot method, m.type? t = some d → slot ∈ m.methodsOf d →
      method ∈ m.methodsOf type →
      ((∃ i ∈ m.interfacesOf type, (slot.token, method.token) ∈ m.pairsFor type i) ↔
        ∃ args, (t, args) ∈ m.interfacesOf type ∧
          m.firstFilling? type args slot = some method)) := by
  refine ⟨fun once i hi => ?_, interfacesOf_complete_iff, fun i => slotsFilled_of_mem ht hc,
    fun wf fits t d slot method hd hslot hm => paired_iff wf fits ht hd hslot hm⟩
  exact slotsFilled_of_mem ht hc (mem_interfacesOf_of_once once hi)

end Model

namespace Consumers

/-- A generic interface with a method, and a class that implements it for integers and for
strings. -/
def model : Model :=
  let m := (Model.empty.addAssembly "App").2
  let m := (m.addType { TypeDraft.ofInterface ⟨0x20000001⟩ "App" "IConsumer" with
    generics := [⟨"T", 0, []⟩] }).2
  let m := (m.addType { TypeDraft.ofClass ⟨0x20000001⟩ "App" "Reader" with
    interfaces := [.generic (.definition ⟨0x02000001⟩) [.primitive .i4],
      .generic (.definition ⟨0x02000001⟩) [.primitive .string]] }).2
  let m := (m.addMethod ((MethodDraft.ofName ⟨0x02000001⟩ "Accept").asAbstract.inNewSlot.addParam
    ⟨"item", .typeParameter 0, [], none⟩)).2
  let m := (m.addMethod ((MethodDraft.ofName ⟨0x02000002⟩ "Accept").asVirtual.inNewSlot.addParam
    ⟨"item", .primitive .i4, [], none⟩)).2
  (m.addMethod ((MethodDraft.ofName ⟨0x02000002⟩ "Accept").asVirtual.inNewSlot.addParam
    ⟨"item", .primitive .string, [], none⟩)).2

/-- The interface. -/
def consumer : TypeDef := (model.type? ⟨0x02000001⟩).get (by decide +kernel)

/-- The class. -/
def reader : TypeDef := (model.type? ⟨0x02000002⟩).get (by decide +kernel)

/-- The method of the interface. -/
def slot : MethodDef := (model.method? ⟨0x06000001⟩).get (by decide +kernel)

/-- The method of the class for strings. -/
def acceptText : MethodDef := (model.method? ⟨0x06000003⟩).get (by decide +kernel)

theorem reader_mem : reader ∈ model.types.toList :=
  Rows.mem_of_find? (Option.some_get _).symm

theorem reader_isClass : reader.isInterface = false := by decide +kernel

theorem acceptText_fills : model.Fills reader [.primitive .string] slot acceptText where
  declared := List.mem_filterMap.mpr ⟨⟨0x06000003⟩, by decide +kernel, (Option.some_get _).symm⟩
  isVirtual := by decide +kernel
  name := by decide +kernel
  signature := by decide +kernel

end Consumers

namespace Model

/-- The interface is listed for integers, and its slot is filled. -/
theorem slots_filled_consumers :
    Consumers.model.SlotsFilled Consumers.reader (⟨0x02000001⟩, [.primitive .i4]) := by
  refine (slots_filled Consumers.reader_mem Consumers.reader_isClass).2.2.1 _ ?_
  have h : Consumers.model.interfacesOf Consumers.reader =
    [(⟨0x02000001⟩, [.primitive .i4])] := rfl
  rw [h]
  exact List.mem_singleton_self _

/-- The class implements the interface for strings too, and has a method that fits. But the table
has none for the slot. -/
theorem slots_open_consumers :
    ¬ ∀ type ∈ Consumers.model.types.toList, type.isInterface = false →
      ∀ i, Consumers.model.Implements type i → Consumers.model.SlotsFilled type i := by
  intro h
  have himpl : Consumers.model.Implements Consumers.reader
      (⟨0x02000001⟩, [.primitive .string]) := by
    refine ⟨.generic (.definition ⟨0x02000001⟩) [.primitive .string], .declared ?_, rfl, rfl⟩
    have hrefs : Consumers.reader.interfaces =
      [.generic (.definition ⟨0x02000001⟩) [.primitive .i4],
        .generic (.definition ⟨0x02000001⟩) [.primitive .string]] := rfl
    rw [hrefs]
    exact List.mem_cons_of_mem _ (List.mem_singleton_self _)
  obtain ⟨method, hfills, hpair⟩ := h _ Consumers.reader_mem Consumers.reader_isClass _ himpl
    Consumers.consumer Consumers.slot (Option.some_get _).symm
    (List.mem_filterMap.mpr ⟨⟨0x06000001⟩, by decide +kernel, (Option.some_get _).symm⟩)
    ⟨_, Consumers.acceptText_fills⟩
  have hopen : ∀ x ∈ Consumers.model.methodsOf Consumers.reader,
      Consumers.model.signaturesEqual (Consumers.slot.signature.substitute [.primitive .string])
        x.signature = true →
      Consumers.slot.token ≠ x.token ∧
        (Consumers.slot.token, x.token) ∉ (OverrideTable.ofModel Consumers.model).edges := by
    decide +kernel
  obtain ⟨hne, hnone⟩ := hopen method hfills.declared hfills.signature
  exact hpair.elim hne hnone

end Model

end CilTrim
