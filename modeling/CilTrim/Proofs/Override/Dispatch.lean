import CilTrim.Proofs.Override.Pairs

/-!
# Class dispatch

Which method a virtual call ends in. It starts at the method that the call names, and each class
from there down to that of the object may put one of its own in place. A method takes over from
those that it names and from the one whose slot it takes, which is the nearest that fits:

* `Model.Nearest`: the nearest virtual method of a name and signature, with
  `Model.nearestVirtual?_eq_some_iff`;
* `Model.TakesOver`: a method of a class takes over from another, with
  `Model.mem_overriddenBy` and `Model.TakesOver.mem_ofModel`;
* `Model.Visits`, `Model.Dispatches`, `Model.DispatchesOn`: what a class, a chain of classes and the
  chain from the class of an object up to that of the method make of a call;
* `Model.Dispatches.induct`: what holds of the target because taking over preserves it.
-/

namespace CilTrim

namespace Model

variable {m : Model} {type : TypeDef} {method : MethodDef} {t base current next target : Token}

/-! ## Slots of bases -/

/-- A method of an instantiated class has the slot that another method takes: it is virtual, and
with the arguments put in it has the same name and signature. -/
structure Matches (m : Model) (method : MethodDef) (args : List TypeRef) (candidate : MethodDef) :
    Prop where
  isVirtual : candidate.isVirtual = true
  name : candidate.name = method.name
  signature : m.signaturesEqual (candidate.signature.substitute args) method.signature = true

/-- No method of an instantiated class has the slot. -/
def NoneOn (m : Model) (method : MethodDef) (on : Token × List TypeRef) : Prop :=
  ∀ type, m.type? on.1 = some type → ∀ other ∈ m.methodsOf type, ¬ m.Matches method on.2 other

/-- The first method of an instantiated class that has the slot. -/
def FirstOn (m : Model) (method : MethodDef) (on : Token × List TypeRef) (base : Token) : Prop :=
  ∃ type before candidate after, m.type? on.1 = some type ∧
    m.methodsOf type = before ++ candidate :: after ∧ m.Matches method on.2 candidate ∧
    (∀ other ∈ before, ¬ m.Matches method on.2 other) ∧ candidate.token = base

/-- The first method that has the slot on the nearest of some bases where there is one. -/
def Nearest (m : Model) (bases : List (Token × List TypeRef)) (method : MethodDef) (base : Token) :
    Prop :=
  ∃ nearer on further, bases = nearer ++ on :: further ∧ m.FirstOn method on base ∧
    ∀ other ∈ nearer, m.NoneOn method other

theorem matches_iff {args : List TypeRef} {candidate : MethodDef} :
    (candidate.isVirtual && candidate.name == method.name &&
      m.signaturesEqual (candidate.signature.substitute args) method.signature) = true ↔
      m.Matches method args candidate := by
  simp only [Bool.and_eq_true, beq_iff_eq]
  exact ⟨fun h => ⟨h.1.1, h.1.2, h.2⟩, fun h => ⟨⟨h.isVirtual, h.name⟩, h.signature⟩⟩

theorem virtualOn?_eq_none_iff {on : Token × List TypeRef} :
    m.virtualOn? method.name method.signature on = none ↔ m.NoneOn method on := by
  simp only [virtualOn?, Option.bind_eq_none_iff, Option.map_eq_none_iff, List.find?_eq_none,
    matches_iff, NoneOn]

theorem virtualOn?_eq_some_iff {on : Token × List TypeRef} :
    m.virtualOn? method.name method.signature on = some base ↔ m.FirstOn method on base := by
  simp only [virtualOn?, Option.bind_eq_some_iff, Option.map_eq_some_iff,
    List.find?_eq_some_iff_append, matches_iff, Bool.not_eq_true', ← Bool.not_eq_true, FirstOn]
  constructor
  · rintro ⟨type, ht, candidate, ⟨hmatches, before, after, hsplit, hbefore⟩, rfl⟩
    exact ⟨type, before, candidate, after, ht, hsplit, hmatches, hbefore, rfl⟩
  · rintro ⟨type, before, candidate, after, ht, hsplit, hmatches, hbefore, rfl⟩
    exact ⟨type, ht, candidate, ⟨hmatches, before, after, hsplit, hbefore⟩, rfl⟩

/-- The search finds the nearest virtual method. -/
theorem nearestVirtual?_eq_some_iff {bases : List (Token × List TypeRef)} :
    m.nearestVirtual? bases method.name method.signature = some base ↔
      m.Nearest bases method base := by
  simp only [nearestVirtual?, List.findSome?_eq_some_iff, virtualOn?_eq_some_iff,
    virtualOn?_eq_none_iff, Nearest]

/-! ## Taking over -/

/-- A method of a class takes over from another: it is virtual, and it names the other as one that
it overrides, or takes its slot. -/
structure TakesOver (m : Model) (type : TypeDef) (current : Token) (method : MethodDef) : Prop where
  declared : method ∈ m.methodsOf type
  isVirtual : method.isVirtual = true
  overrides : (∃ r ∈ method.overrides, m.resolveMethod r = .ok current) ∨
    (method.isNewSlot = false ∧ m.Nearest ((m.hierarchy type.token).drop 1) method current)

theorem mem_overriddenBy {bases : List (Token × List TypeRef)} :
    base ∈ m.overriddenBy bases method ↔ (∃ r ∈ method.overrides, m.resolveMethod r = .ok base) ∨
      (method.isNewSlot = false ∧ m.Nearest bases method base) := by
  have bound (r : MethodRef) :
      (m.resolveMethod r).toOption = some base ↔ m.resolveMethod r = .ok base := by
    cases m.resolveMethod r <;> simp [Except.toOption]
  unfold overriddenBy
  rw [List.mem_append, List.mem_filterMap]
  simp only [bound]
  refine or_congr_right ?_
  cases method.isNewSlot with
  | true => simp
  | false => simp [nearestVirtual?_eq_some_iff]

/-- The table has a method with what it takes over from, unless that is the method itself. -/
theorem TakesOver.mem_ofModel (h : m.TakesOver type current method) (ht : type ∈ m.types.toList)
    (hclass : type.isInterface = false) :
    current = method.token ∨ (current, method.token) ∈ (OverrideTable.ofModel m).edges := by
  by_cases he : current = method.token
  · exact .inl he
  · refine .inr (OverrideTable.mem_ofModel.mpr ⟨he, type, ht, hclass, List.mem_append_left _ ?_⟩)
    refine List.mem_flatMap.mpr ⟨method, List.mem_filter.mpr ⟨h.declared, h.isVirtual⟩, ?_⟩
    exact List.mem_map.mpr ⟨current, mem_overriddenBy.mpr h.overrides, rfl⟩

/-! ## Targets -/

/-- A class puts one of its methods in place of another, at once or by way of others that it puts
there. -/
def Replaces (m : Model) (t : Token) : Token → Token → Prop :=
  Relation.TransGen fun current next => ∃ type method, m.type? t = some type ∧
    m.TakesOver type current method ∧ method.token = next

/-- What a class makes of a call. The method stays only if no method of the class takes over. -/
inductive Visits (m : Model) (t current : Token) : Token → Prop where
  | keeps : (∀ next, ¬ m.Replaces t current next) → Visits m t current current
  | replaces {next : Token} : m.Replaces t current next → Visits m t current next

/-- What classes make of a call, one after another. -/
inductive Dispatches (m : Model) : List Token → Token → Token → Prop where
  | done (current : Token) : Dispatches m [] current current
  | visit {t current next target : Token} {rest : List Token} : m.Visits t current next →
    Dispatches m rest next target → Dispatches m (t :: rest) current target

/-- What a call of a method on an object of a class ends in: the classes below the one that
declares the method are visited, down to that of the object. -/
def DispatchesOn (m : Model) (derived method target : Token) : Prop :=
  ∃ below declaring args above, m.hierarchy derived = below ++ (declaring, args) :: above ∧
    m.declaringTypeOf? method = some declaring ∧
    m.Dispatches (below.reverse.map (·.1)) method target

theorem exists_visits (m : Model) (t current : Token) : ∃ next, m.Visits t current next := by
  by_cases h : ∃ next, m.Replaces t current next
  · obtain ⟨next, h⟩ := h
    exact ⟨next, .replaces h⟩
  · exact ⟨current, .keeps fun next hn => h ⟨next, hn⟩⟩

/-- Every call ends somewhere. -/
theorem exists_dispatches (m : Model) (ts : List Token) (current : Token) :
    ∃ target, m.Dispatches ts current target := by
  induction ts generalizing current with
  | nil => exact ⟨current, .done current⟩
  | cons t rest ih =>
    obtain ⟨next, hvisits⟩ := m.exists_visits t current
    obtain ⟨target, htarget⟩ := ih next
    exact ⟨target, .visit hvisits htarget⟩

theorem exists_dispatchesOn {derived declaring : Token} {args : List TypeRef}
    (inherited : (declaring, args) ∈ m.hierarchy derived)
    (declared : m.declaringTypeOf? base = some declaring) :
    ∃ target, m.DispatchesOn derived base target := by
  obtain ⟨below, above, hsplit⟩ := List.append_of_mem inherited
  obtain ⟨target, htarget⟩ := m.exists_dispatches (below.reverse.map (·.1)) base
  exact ⟨target, below, declaring, args, above, hsplit, declared, htarget⟩

variable {P : Token → Prop} {ts : List Token}

/-- What methods that take over keep holds of whatever replaces a method. -/
theorem Replaces.induct (h : m.Replaces t current next)
    (step : ∀ {type current method}, m.type? t = some type → m.TakesOver type current method →
      P current → P method.token) (start : P current) : P next := by
  induction h with
  | single h =>
    obtain ⟨type, method, ht, htakes, rfl⟩ := h
    exact step ht htakes start
  | tail _ h ih =>
    obtain ⟨type, method, ht, htakes, rfl⟩ := h
    exact step ht htakes ih

/-- What methods that take over keep holds of the target of a call. -/
theorem Dispatches.induct (h : m.Dispatches ts current target)
    (step : ∀ t ∈ ts, ∀ {type current method}, m.type? t = some type →
      m.TakesOver type current method → P current → P method.token)
    (start : P current) : P target := by
  induction h with
  | done current => exact start
  | @visit t _ _ _ rest hvisits _ ih =>
    refine ih (fun t ht => step t (List.mem_cons_of_mem _ ht)) ?_
    cases hvisits with
    | keeps => exact start
    | replaces h => exact h.induct (step t List.mem_cons_self) start

end Model

end CilTrim
