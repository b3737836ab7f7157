import CilTrim.Proofs.Mark.Kinds

/-!
# Reasons of demands

A demand gives the node that needs it as its reason. In the demands of a definition, that node is
the definition itself, or a generic parameter that an earlier demand has marked for it:

* `Demand.Gives`, `Setting.Give`: demands for one reason, with `Setting.give_typeRef`,
  `Setting.give_attributes` and the like;
* `Reason.Backed`, `Demand.Backed`: the reason is known, or what is marked is credited to it;
* `Setting.AllBacked`: each demand of a list is backed by what is known or what earlier ones mark;
* `Setting.allBacked_typeNeeds`, `Setting.allBacked_methodNeeds`: the demands of definitions.
-/

namespace CilTrim

/-- A reason is known, or what is marked for it is credited to it. -/
def Reason.Backed (credits : Token → Token → Prop) (known : Token → Prop) (t : Token) :
    Reason → Prop
  | .root => True
  | .node p => known p ∨ credits p t

namespace Demand

/-- A demand for a reason. It is not about the bookkeeping of a method. -/
def Gives (reason : Reason) : Demand → Prop
  | .node _ r | .type _ r | .method _ r | .field _ r => r = reason
  | .overridable _ | .finished _ => False
  | _ => True

/-- The reason of a demand is backed, and the method that bookkeeping is about is known. -/
def Backed (credits : Token → Token → Prop) (known : Token → Prop) : Demand → Prop
  | .node t r | .type t r | .method t r | .field t r => r.Backed credits known t
  | .overridable t | .finished t => known t
  | _ => True

variable {credits : Token → Token → Prop} {known known' : Token → Prop} {d : Demand} {p : Token}

theorem Backed.mono (h : d.Backed credits known) (hk : ∀ {t}, known t → known' t) :
    d.Backed credits known' := by
  cases d with
  | node t r | type t r | method t r | field t r =>
    cases r with
    | root => trivial
    | node p => exact h.imp_left hk
  | overridable | finished => exact hk h
  | _ => trivial

/-- A demand is backed by the node that it gives as the reason. -/
theorem Gives.backed (h : d.Gives (.node p))
    (hp : ∀ {t}, d.need? = some (.kept t) → known p ∨ credits p t) : d.Backed credits known := by
  cases d with
  | node t r | type t r | method t r | field t r =>
    cases h
    exact hp rfl
  | overridable | finished => exact h.elim
  | _ => trivial

end Demand

namespace Setting

variable {s : Setting} {reason : Reason}

/-- Demands for one reason. -/
def Give (reason : Reason) (ds : List Demand) : Prop :=
  ∀ d ∈ ds, d.Gives reason

section Lists

variable {d : Demand} {ds es : List Demand} {α : Type}

@[simp] theorem give_nil : Give reason [] := nofun

@[simp] theorem give_cons : Give reason (d :: ds) ↔ d.Gives reason ∧ Give reason ds :=
  List.forall_mem_cons

@[simp] theorem give_append : Give reason (ds ++ es) ↔ Give reason ds ∧ Give reason es :=
  List.forall_mem_append

theorem give_flatMap {xs : List α} {f : α → List Demand} (h : ∀ x ∈ xs, Give reason (f x)) :
    Give reason (xs.flatMap f) :=
  List.forall_mem_flatMap.mpr h

theorem give_map {xs : List α} {f : α → Demand} (h : ∀ x, (f x).Gives reason) :
    Give reason (xs.map f) :=
  List.forall_mem_map.mpr fun x _ => h x

theorem give_ite {c : Prop} [Decidable c] (h : Give reason ds) :
    Give reason (if c then ds else []) := by
  split
  · exact h
  · exact give_nil

end Lists

/-! ## References -/

theorem give_methodsWhere {type : TypeDef} {test : MethodDef → Bool} :
    Give reason (s.methodsWhere type reason test) :=
  give_map fun _ => rfl

theorem give_constructors {params : List Token} {args : List TypeRef} :
    Give reason (s.constructors reason params args) := by
  refine give_ite (give_flatMap fun x _ => give_ite ?_)
  cases x.2 with
  | definition | external | generic =>
    dsimp only
    split
    · exact give_methodsWhere
    · exact give_nil
  | _ => exact give_nil

theorem give_namedType {r : TypeRef} : Give reason (s.namedType reason r) := by
  unfold namedType
  split <;> simp [Demand.Gives]

theorem give_typeRef {r : TypeRef} : Give reason (s.typeRef reason r) := by
  intro d hd
  obtain ⟨p, -, hd⟩ := (mem_typeRef r).mp hd
  cases p with
  | generic e args => exact give_constructors d hd
  | definition | external | primitive => exact give_namedType d hd
  | _ => cases hd

theorem give_typeRefs {rs : List TypeRef} : Give reason (s.typeRefs reason rs) := by
  rw [typeRefs_eq]
  exact give_flatMap fun _ _ => give_typeRef

theorem give_methodArguments (r : MethodRef) : Give reason (s.methodArguments reason r) := by
  induction r with
  | definition | member => exact give_nil
  | generic e args ih =>
    simp only [methodArguments, give_append]
    exact ⟨⟨give_typeRefs, give_constructors⟩, ih⟩

theorem give_methodRef {r : MethodRef} : Give reason (s.methodRef reason r) := by
  unfold methodRef
  rw [give_append]
  refine ⟨give_methodArguments r, ?_⟩
  split
  · exact give_nil
  · rw [give_append]
    constructor
    · split
      · exact give_ite give_typeRef
      · exact give_nil
    · split <;> simp [Demand.Gives]

theorem give_fieldRef {r : FieldRef} : Give reason (s.fieldRef reason r) := by
  unfold fieldRef
  rw [give_append]
  constructor
  · split
    · exact give_ite give_typeRef
    · exact give_nil
  · split <;> simp [Demand.Gives]

theorem give_memberRef (r : MemberRef) : Give reason (s.memberRef reason r) := by
  cases r with
  | type r => exact give_typeRef
  | method r => exact give_methodRef
  | field r => exact give_fieldRef

/-! ## Attributes -/

theorem give_typeName {scopes : List Token} {name : String} :
    Give reason (s.typeName scopes reason name) := by
  unfold typeName
  split
  · simp [Demand.Gives]
  · split
    · exact give_typeRef
    · simp [Demand.Gives]

theorem give_namedMember {ctor : Token} {named : NamedArgument} :
    Give reason (s.namedMember ctor reason named) := by
  unfold namedMember
  split
  · exact give_nil
  · split <;> exact give_map fun _ => rfl

theorem give_attributeValue {owner ctor : Token} {value : AttributeValue} :
    Give reason (s.attributeValue owner ctor reason value) := by
  have types (a : Argument) : Give reason
      (if s.options.typeArguments then s.argument (s.nameScopes owner) reason a else []) := by
    refine give_ite fun d hd => ?_
    obtain ⟨name, -, hd⟩ := (mem_argument a).mp hd
    exact give_typeName d hd
  unfold attributeValue
  rw [give_append]
  refine ⟨give_flatMap fun a _ => types a, give_flatMap fun named _ => ?_⟩
  rw [give_append]
  exact ⟨give_namedMember, types named.value⟩

theorem give_attributes {owner : Token} {as : List Attribute} :
    Give reason (s.attributes owner reason as) := by
  refine give_flatMap fun a _ => ?_
  unfold oneAttribute
  rw [give_append]
  refine ⟨give_methodRef, ?_⟩
  split
  · exact give_nil
  · split
    · exact give_attributeValue
    · simp [Demand.Gives]

theorem give_marshal {owner : Token} {spec : Option MarshalSpec} :
    Give reason (s.marshal owner reason spec) := by
  unfold marshal
  split
  · exact give_typeName
  · exact give_nil

/-! ## Definitions -/

theorem give_membersNamed {type : TypeDef} {target : Token} {kinds : MemberKinds} {name : String} :
    Give reason (s.membersNamed type target reason kinds name) := by
  simp only [membersNamed, give_append]
  refine ⟨⟨give_ite give_methodsWhere, give_ite (give_map fun _ => rfl)⟩, give_ite ?_⟩
  split
  · exact give_map fun _ => rfl
  · exact give_nil

theorem give_specialMembers {target : Token} {as : List Attribute} :
    Give reason (s.specialMembers target reason as) := by
  unfold specialMembers
  split
  · exact give_nil
  · refine give_flatMap fun a _ => ?_
    split
    · exact give_membersNamed
    · exact give_nil

theorem give_preserved {d : TypeDef} : Give reason (s.preserved d reason) := by
  simp only [preserved, give_append]
  exact ⟨⟨give_map fun _ => rfl, give_ite (give_map fun _ => rfl)⟩, give_ite give_methodsWhere⟩

theorem give_assemblyNeeds {t : Token} {d : AssemblyDef} :
    Give (.node t) (s.assemblyNeeds t d) := by
  unfold assemblyNeeds
  rw [give_append]
  refine ⟨give_attributes, give_flatMap fun module _ => ?_⟩
  split
  · exact give_attributes
  · exact give_nil

theorem give_fieldNeeds {t : Token} {f : FieldDef} : Give (.node t) (s.fieldNeeds t f) := by
  simp only [fieldNeeds, List.cons_append, give_cons, give_append]
  exact ⟨rfl, ⟨give_typeRef, give_attributes⟩, give_marshal⟩

theorem give_parameter {t : Token} {p : Parameter} : Give (.node t) (s.parameter t p) := by
  simp only [parameter, give_append]
  exact ⟨⟨give_typeRef, give_attributes⟩, give_marshal⟩

theorem give_body {b : Body} : Give reason (s.body reason b) := by
  simp only [body, give_append]
  refine ⟨⟨give_typeRefs, give_typeRefs⟩, give_flatMap fun i _ => ?_⟩
  cases i.operand with
  | field r => exact give_fieldRef
  | method r => exact give_methodRef
  | type r => exact give_typeRef
  | token r => exact give_memberRef r
  | _ => exact give_nil

theorem give_accessorOwner {o : Token} : Give reason (s.accessorOwner reason o) := by
  unfold accessorOwner
  split
  · exact give_cons.mpr ⟨rfl, give_attributes⟩
  · simp only [List.cons_append, give_cons, give_append]
    exact ⟨rfl, give_attributes, give_map fun _ => rfl⟩
  · exact give_nil

/-! ## Lists in order -/

/-- Each demand of a list is backed by what is known or what the earlier ones mark. -/
def AllBacked (credits : Token → Token → Prop) : (Token → Prop) → List Demand → Prop
  | _, [] => True
  | known, d :: ds =>
    d.Backed credits known ∧ AllBacked credits (fun t => known t ∨ d.need? = some (.kept t)) ds

section AllBacked

variable {credits : Token → Token → Prop} {known known' : Token → Prop} {ds es : List Demand}
  {α : Type} {t : Token}

theorem AllBacked.mono (h : AllBacked credits known ds) (hk : ∀ {t}, known t → known' t) :
    AllBacked credits known' ds := by
  induction ds generalizing known known' with
  | nil => trivial
  | cons d ds ih => exact ⟨h.1.mono hk, ih h.2 (Or.imp_left hk)⟩

theorem AllBacked.append (h : AllBacked credits known ds) (h' : AllBacked credits known es) :
    AllBacked credits known (ds ++ es) := by
  induction ds generalizing known with
  | nil => exact h'
  | cons d ds ih => exact ⟨h.1, ih h.2 (h'.mono .inl)⟩

theorem AllBacked.flatMap {xs : List α} {f : α → List Demand}
    (h : ∀ x ∈ xs, AllBacked credits known (f x)) : AllBacked credits known (xs.flatMap f) := by
  induction xs with
  | nil => trivial
  | cons x xs ih =>
    rw [List.flatMap_cons]
    exact (h x List.mem_cons_self).append (ih fun y hy => h y (List.mem_cons_of_mem _ hy))

theorem allBacked_of_forall (h : ∀ d ∈ ds, d.Backed credits known) :
    AllBacked credits known ds := by
  induction ds generalizing known with
  | nil => trivial
  | cons d ds ih =>
    exact ⟨h d List.mem_cons_self, ih fun e he => (h e (List.mem_cons_of_mem _ he)).mono .inl⟩

/-- Demands for one reason are backed if it is known. -/
theorem Give.allBacked (h : Give (.node t) ds) (ht : known t) : AllBacked credits known ds :=
  allBacked_of_forall fun d hd => (h d hd).backed fun _ => .inl ht

/-- A generic parameter is marked for its owner, and is the reason for what it needs. -/
theorem allBacked_genericParam (ht : known t) (p : Token) :
    AllBacked credits known (s.genericParam (.node t) p) := by
  unfold genericParam
  split
  · trivial
  · refine ⟨.inl ht, Give.allBacked ?_ (.inr rfl)⟩
    exact give_append.mpr ⟨give_attributes, give_typeRefs⟩

/-- The demands of a type are backed if the type is known. -/
theorem allBacked_typeNeeds {d : TypeDef} (hd : d.token = t) (ht : known t) :
    AllBacked credits known (s.typeNeeds t d) := by
  subst hd
  have given {ds : List Demand} (h : Give (.node d.token) ds) : AllBacked credits known ds :=
    h.allBacked ht
  simp only [typeNeeds, List.append_assoc]
  refine .append (given ?_) (.append (given (give_map fun _ => rfl))
    (.append (given give_typeRefs) (.append (given give_typeRefs) (.append (given give_attributes)
      (.append (.flatMap fun p _ => allBacked_genericParam ht p) (given ?_))))))
  · simp [Demand.Gives]
  · simp only [give_append, give_cons, give_nil, and_true]
    exact ⟨give_ite (give_map fun _ => rfl), give_ite give_methodsWhere, give_specialMembers,
      give_ite (give_map fun _ => rfl), give_ite give_methodsWhere,
      give_ite (give_map fun _ => rfl), trivial, give_preserved⟩

/-- The demands of a method are backed if the method is known. -/
theorem allBacked_methodNeeds {d : MethodDef} {action : MethodAction} (hd : d.token = t)
    (ht : known t) : AllBacked credits known (s.methodNeeds t d action) := by
  subst hd
  have given {ds : List Demand} (h : Give (.node d.token) ds) : AllBacked credits known ds :=
    h.allBacked ht
  have overridable : AllBacked credits known
      (if d.isVirtual then [.overridable d.token] else []) := by
    split
    · exact ⟨ht, trivial⟩
    · trivial
  simp only [methodNeeds, List.append_assoc]
  refine .append (given (give_cons.mpr ⟨rfl, give_nil⟩)) (.append (given give_attributes)
    (.append (given give_specialMembers) (.append (given (give_flatMap fun _ _ => give_parameter))
      (.append (.flatMap fun p _ => allBacked_genericParam ht p)
        (.append (given (give_flatMap fun _ _ => give_methodRef))
          (.append (given (give_map fun _ => rfl)) (.append overridable
            (.append (given give_parameter) (.append (given ?_) (.append (given ?_) ?_))))))))))
  · exact give_ite (give_flatMap fun _ _ => give_body)
  · exact give_flatMap fun _ _ => give_accessorOwner
  · exact ⟨ht, trivial⟩

end AllBacked

end Setting

end CilTrim
