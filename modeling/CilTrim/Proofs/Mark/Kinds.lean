import CilTrim.Proofs.Mark.Needs

/-!
# Kinds of demands

A demand for a type names a token of the table of types, and so on: no definition is ever marked
under the wrong kind. Of fields and methods more is known: they are definitions of the model, unless
users have asked to keep something else as a method:

* `Setting.Formed`, `Setting.Regular`: the settings of runs;
* `Setting.NamesMethods`: what users and overrides keep as methods are methods;
* `Setting.Apt`: a demand of the right kind;
* `Setting.apt_typeNeeds`, `Setting.apt_fieldNeeds`, `Setting.apt_methodNeeds`,
  `Setting.apt_assemblyNeeds`.
-/

namespace CilTrim

/-- A token in no table whose definitions need something. -/
def Token.IsPlain (t : Token) : Prop :=
  t.isIn .typeDef = false ∧ t.isIn .field = false ∧ t.isIn .methodDef = false

theorem Token.isPlain_of_isIn {t : Token} {table : Table} (h : t.isIn table = true)
    (hne : table ≠ .typeDef ∧ table ≠ .field ∧ table ≠ .methodDef) : t.IsPlain := by
  have other {table' : Table} (hne : table ≠ table') : t.isIn table' = false :=
    Bool.eq_false_iff.mpr fun h' => hne (Token.table_unique h h')
  exact ⟨other hne.1, other hne.2.1, other hne.2.2⟩

namespace Setting

/-- The model is well formed, and tokens tell its definitions apart. -/
structure Formed (s : Setting) : Prop where
  wellFormed : s.model.WellFormed
  fits : s.model.Fits

/-- The model is well formed, and overrides are those of the model. -/
structure Regular (s : Setting) : Prop extends Formed s where
  overrides_eq : s.overrides = .ofModel s.model

/-- What users ask to keep as methods are methods of the model. -/
def KeepsMethods (s : Setting) : Prop :=
  ∀ t, ∀ y ∈ s.policy.methodsKept t, (s.model.method? y).isSome

/-- What overrides pair are methods of the model. -/
def PairsMethods (s : Setting) : Prop :=
  ∀ edge ∈ s.overrides.edges, (s.model.method? edge.1).isSome ∧ (s.model.method? edge.2).isSome

/-- Whatever is kept as a method is a method of the model. -/
structure NamesMethods (s : Setting) : Prop where
  keeps : s.KeepsMethods
  pairs : s.PairsMethods

/-- The table of a model pairs methods of it. -/
theorem Regular.namesMethods {s : Setting} (h : s.Regular) (keeps : s.KeepsMethods) :
    s.NamesMethods where
  keeps := keeps
  pairs edge he := by
    rw [h.overrides_eq] at he
    exact (OverrideTable.ofModel_methods h.wellFormed he).imp_right Model.IsVirtual.isSome

/-- A demand of the right kind. Bookkeeping is about methods of `own` alone. -/
def Apt (s : Setting) (own : Token → Prop) : Demand → Prop
  | .node t _ => t.IsPlain
  | .type t _ => t.isIn .typeDef = true
  | .field t _ => (s.model.field? t).isSome
  | .method t _ => s.NamesMethods → (s.model.method? t).isSome
  | .assembly t => (s.model.assembly? t).isSome
  | .overridable t => own t ∧ s.model.IsVirtual t
  | .finished t => own t
  | _ => True

/-- Every demand of a list is of the right kind. -/
def AllApt (s : Setting) (own : Token → Prop) (ds : List Demand) : Prop :=
  ∀ d ∈ ds, s.Apt own d

variable {s : Setting} {own : Token → Prop} {reason : Reason}

section Lists

variable {d : Demand} {ds es : List Demand} {α : Type}

@[simp] theorem allApt_nil : s.AllApt own [] := fun _ hd => by cases hd

@[simp] theorem allApt_cons : s.AllApt own (d :: ds) ↔ s.Apt own d ∧ s.AllApt own ds :=
  List.forall_mem_cons

@[simp] theorem allApt_append :
    s.AllApt own (ds ++ es) ↔ s.AllApt own ds ∧ s.AllApt own es :=
  List.forall_mem_append

theorem allApt_flatMap {xs : List α} {f : α → List Demand} (h : ∀ x ∈ xs, s.AllApt own (f x)) :
    s.AllApt own (xs.flatMap f) := by
  intro d hd
  obtain ⟨x, hx, hd⟩ := List.mem_flatMap.mp hd
  exact h x hx d hd

theorem allApt_map {xs : List α} {f : α → Demand} (h : ∀ x ∈ xs, s.Apt own (f x)) :
    s.AllApt own (xs.map f) := by
  intro d hd
  obtain ⟨x, hx, rfl⟩ := List.mem_map.mp hd
  exact h x hx

theorem allApt_ite {c : Prop} [Decidable c] (h : c → s.AllApt own ds) :
    s.AllApt own (if c then ds else []) := by
  split
  · exact h ‹c›
  · exact allApt_nil

end Lists

/-! ## References -/

theorem apt_methodsWhere (h : s.Formed) {type : TypeDef} {test : MethodDef → Bool} :
    s.AllApt own (s.methodsWhere type reason test) := by
  refine allApt_map fun method hm _ => ?_
  rw [(Model.mem_methodsOf h.wellFormed (List.mem_filter.mp hm).1).2]
  rfl

theorem apt_constructors (h : s.Formed) {params : List Token} {args : List TypeRef} :
    s.AllApt own (s.constructors reason params args) := by
  refine allApt_ite fun _ => allApt_flatMap ?_
  rintro ⟨param, argument⟩ -
  refine allApt_ite fun _ => ?_
  cases argument with
  | definition | external | generic =>
    dsimp only
    split
    · exact apt_methodsWhere h
    · exact allApt_nil
  | _ => exact allApt_nil

theorem apt_namedType (h : s.Formed) {r : TypeRef} : s.AllApt own (s.namedType reason r) := by
  unfold namedType
  split
  · rename_i t ht
    rw [allApt_cons]
    exact ⟨Model.isIn_of_type? (Model.type_of_resolveType h.wellFormed h.fits ht), allApt_nil⟩
  · rw [allApt_cons]
    exact ⟨trivial, allApt_nil⟩

theorem apt_typeRef (h : s.Formed) {r : TypeRef} : s.AllApt own (s.typeRef reason r) := by
  intro d hd
  obtain ⟨p, -, hd⟩ := (mem_typeRef r).mp hd
  cases p with
  | generic e args => exact apt_constructors h d hd
  | definition | external | primitive => exact apt_namedType h d hd
  | _ => cases hd

theorem apt_typeRefs (h : s.Formed) {rs : List TypeRef} : s.AllApt own (s.typeRefs reason rs) := by
  rw [typeRefs_eq]
  exact allApt_flatMap fun _ _ => apt_typeRef h

theorem apt_genericOwner (h : s.Formed) {r : TypeRef} :
    s.AllApt own (s.genericOwner reason r) :=
  allApt_ite fun _ => apt_typeRef h

theorem apt_methodArguments (h : s.Formed) (r : MethodRef) :
    s.AllApt own (s.methodArguments reason r) := by
  induction r with
  | definition | member => exact allApt_nil
  | generic e args ih =>
    simp only [methodArguments, allApt_append]
    exact ⟨⟨apt_typeRefs h, apt_constructors h⟩, ih⟩

theorem apt_methodRef (h : s.Formed) {r : MethodRef} : s.AllApt own (s.methodRef reason r) := by
  unfold methodRef
  rw [allApt_append]
  refine ⟨apt_methodArguments h r, ?_⟩
  split
  · exact allApt_nil
  · rw [allApt_append]
    constructor
    · split
      · exact apt_genericOwner h
      · exact allApt_nil
    · split
      · rename_i t ht
        rw [allApt_cons]
        exact ⟨fun _ => Model.method_of_resolveMethod ht, allApt_nil⟩
      · rw [allApt_cons]
        exact ⟨trivial, allApt_nil⟩

theorem apt_fieldRef (h : s.Formed) {r : FieldRef} : s.AllApt own (s.fieldRef reason r) := by
  unfold fieldRef
  rw [allApt_append]
  constructor
  · split
    · exact apt_genericOwner h
    · exact allApt_nil
  · split
    · rename_i t ht
      rw [allApt_cons]
      exact ⟨Model.field_of_resolveField ht, allApt_nil⟩
    · rw [allApt_cons]
      exact ⟨trivial, allApt_nil⟩

theorem apt_memberRef (h : s.Formed) (r : MemberRef) : s.AllApt own (s.memberRef reason r) := by
  cases r with
  | type r => exact apt_typeRef h
  | method r => exact apt_methodRef h
  | field r => exact apt_fieldRef h

/-! ## Attributes -/

theorem apt_typeName (h : s.Formed) {scopes : List Token} {name : String} :
    s.AllApt own (s.typeName scopes reason name) := by
  unfold typeName
  split
  · exact allApt_cons.mpr ⟨trivial, allApt_nil⟩
  · split
    · exact apt_typeRef h
    · exact allApt_cons.mpr ⟨trivial, allApt_nil⟩

theorem apt_namedMember (h : s.Formed) {ctor : Token} {named : NamedArgument} :
    s.AllApt own (s.namedMember ctor reason named) := by
  unfold namedMember
  split
  · exact allApt_nil
  · split
    · refine allApt_map fun y hy => ?_
      exact Model.field_of_findInheritedField? (Option.mem_toList.mp hy)
    · refine allApt_map fun y hy _ => ?_
      exact Model.method_of_findSetter? h.wellFormed (Option.mem_toList.mp hy)

theorem apt_attributeValue (h : s.Formed) {owner ctor : Token} {value : AttributeValue} :
    s.AllApt own (s.attributeValue owner ctor reason value) := by
  have types (a : Argument) : s.AllApt own
      (if s.options.typeArguments then s.argument (s.nameScopes owner) reason a else []) := by
    refine allApt_ite fun _ d hd => ?_
    obtain ⟨name, -, hd⟩ := (mem_argument a).mp hd
    exact apt_typeName h d hd
  unfold attributeValue
  rw [allApt_append]
  refine ⟨allApt_flatMap fun a _ => types a, allApt_flatMap fun named _ => ?_⟩
  rw [allApt_append]
  exact ⟨apt_namedMember h, types named.value⟩

theorem apt_attributes (h : s.Formed) {owner : Token} {as : List Attribute} :
    s.AllApt own (s.attributes owner reason as) := by
  refine allApt_flatMap fun a _ => ?_
  unfold oneAttribute
  rw [allApt_append]
  refine ⟨apt_methodRef h, ?_⟩
  split
  · exact allApt_nil
  · split
    · exact apt_attributeValue h
    · exact allApt_cons.mpr ⟨trivial, allApt_nil⟩

theorem apt_marshal (h : s.Formed) {owner : Token} {spec : Option MarshalSpec} :
    s.AllApt own (s.marshal owner reason spec) := by
  unfold marshal
  split
  · exact apt_typeName h
  · exact allApt_nil

/-! ## Definitions -/

theorem apt_genericParam (h : s.Formed) {p : Token} : s.AllApt own (s.genericParam reason p) := by
  unfold genericParam
  split
  · exact allApt_nil
  · rename_i param hp
    have hin : p.isIn .genericParam = true := Rows.isIn_of_find? hp
    simp only [List.cons_append, allApt_cons, allApt_append]
    exact ⟨Token.isPlain_of_isIn hin (by decide), apt_attributes h, apt_typeRefs h⟩

theorem apt_membersNamed (h : s.Formed) {type : TypeDef} {target : Token} {kinds : MemberKinds}
    {name : String} : s.AllApt own (s.membersNamed type target reason kinds name) := by
  simp only [membersNamed, allApt_append]
  refine ⟨⟨allApt_ite fun _ => apt_methodsWhere h, allApt_ite fun _ => allApt_map fun y hy => ?_⟩,
    allApt_ite fun _ => ?_⟩
  · exact Model.field_of_findField? (Option.mem_toList.mp hy)
  · split
    · rename_i property hp
      obtain ⟨p, -, hp⟩ := Option.bind_eq_some_iff.mp hp
      refine allApt_map fun y hy _ => h.wellFormed.property_accessors hp ?_
      exact List.mem_append_left _ hy
    · exact allApt_nil

theorem apt_specialMembers (h : s.Formed) {target : Token} {as : List Attribute} :
    s.AllApt own (s.specialMembers target reason as) := by
  unfold specialMembers
  split
  · exact allApt_nil
  · refine allApt_flatMap fun a _ => ?_
    split
    · exact apt_membersNamed h
    · exact allApt_nil

theorem apt_ownMethods (h : s.Formed) {t : Token} {d : TypeDef} (ht : s.model.type? t = some d)
    {ys : List Token} (hys : ∀ y ∈ ys, y ∈ d.methods) :
    s.AllApt own (ys.map (.method · reason)) := by
  refine allApt_map fun y hy _ => ?_
  obtain ⟨e, he, -⟩ := h.wellFormed.methods_listed.declared ht (hys y hy)
  exact Option.isSome_iff_exists.mpr ⟨e, he⟩

theorem apt_allFields (h : s.Formed) {t : Token} {d : TypeDef} (ht : s.model.type? t = some d) :
    s.AllApt own (allFields d reason) := by
  refine allApt_map fun y hy => ?_
  obtain ⟨e, he, -⟩ := h.wellFormed.fields_listed.declared ht hy
  exact Option.isSome_iff_exists.mpr ⟨e, he⟩

theorem apt_preserved (h : s.Formed) {t : Token} {d : TypeDef} (ht : s.model.type? t = some d) :
    s.AllApt own (s.preserved d reason) := by
  simp only [preserved, allApt_append]
  exact ⟨⟨allApt_map fun y hy names => names.keeps _ y hy, allApt_ite fun _ => apt_allFields h ht⟩,
    allApt_ite fun _ => apt_methodsWhere h⟩

theorem apt_typeNeeds (h : s.Formed) {t : Token} {d : TypeDef} (ht : s.model.type? t = some d) :
    s.AllApt own (s.typeNeeds t d) := by
  have placed := h.wellFormed.type_placed ht
  have assembly : d.assembly.IsPlain := by
    obtain ⟨e, he⟩ := Option.isSome_iff_exists.mp placed.assembly
    exact Token.isPlain_of_isIn (Rows.isIn_of_find? he) (by decide)
  have module : d.module.IsPlain := Token.isPlain_of_isIn placed.module (by decide)
  have enclosing : s.AllApt own (d.declaringType.toList.map (.type · (.node t))) :=
    allApt_map fun outer ho => Model.isIn_of_type? (placed.enclosing (Option.mem_toList.mp ho))
  have genericParams : s.AllApt own (d.genericParams.flatMap (s.genericParam (.node t))) :=
    allApt_flatMap fun _ _ => apt_genericParam h
  have unlinked : s.AllApt own
      ((d.methods.filter s.hasUnlinkedBase).map (.method · (.node t))) :=
    apt_ownMethods h ht fun y hy => (List.mem_filter.mp hy).1
  simp only [typeNeeds, allApt_append, allApt_cons, allApt_nil, and_true, and_assoc]
  refine ⟨assembly, module, placed.assembly, enclosing, apt_typeRefs h, apt_typeRefs h,
    apt_attributes h, genericParams, allApt_ite fun _ => ?_, allApt_ite fun _ => ?_,
    apt_specialMembers h, allApt_ite fun _ => ?_, allApt_ite fun _ => ?_,
    allApt_ite fun _ => unlinked, trivial, apt_preserved h ht⟩
  · exact apt_ownMethods h ht fun _ => id
  · exact apt_methodsWhere h
  · exact apt_allFields h ht
  · exact apt_methodsWhere h

theorem apt_assemblyNeeds (h : s.Formed) {t : Token} {d : AssemblyDef} :
    s.AllApt own (s.assemblyNeeds t d) := by
  unfold assemblyNeeds
  rw [allApt_append]
  refine ⟨apt_attributes h, allApt_flatMap fun module _ => ?_⟩
  split
  · exact apt_attributes h
  · exact allApt_nil

theorem apt_fieldNeeds (h : s.Formed) {t : Token} {f : FieldDef} (ht : s.model.field? t = some f) :
    s.AllApt own (s.fieldNeeds t f) := by
  obtain ⟨d, hd, -⟩ := h.wellFormed.fields_listed.listed ht
  simp only [fieldNeeds, List.cons_append, allApt_cons, allApt_append]
  exact ⟨Rows.isIn_of_find? hd, ⟨apt_typeRef h, apt_attributes h⟩, apt_marshal h⟩

theorem apt_parameter (h : s.Formed) {t : Token} {p : Parameter} :
    s.AllApt own (s.parameter t p) := by
  simp only [parameter, allApt_append]
  exact ⟨⟨apt_typeRef h, apt_attributes h⟩, apt_marshal h⟩

theorem apt_body (h : s.Formed) {b : Body} : s.AllApt own (s.body reason b) := by
  simp only [body, allApt_append]
  refine ⟨⟨apt_typeRefs h, apt_typeRefs h⟩, allApt_flatMap fun i _ => ?_⟩
  cases i.operand with
  | field r => exact apt_fieldRef h
  | method r => exact apt_methodRef h
  | type r => exact apt_typeRef h
  | token r => exact apt_memberRef h r
  | _ => exact allApt_nil

theorem apt_accessorOwner (h : s.Formed) {o : Token} :
    s.AllApt own (s.accessorOwner reason o) := by
  unfold accessorOwner
  split
  · rename_i property hp
    have hin : o.isIn .property = true := Rows.isIn_of_find? hp
    rw [allApt_cons]
    exact ⟨Token.isPlain_of_isIn hin (by decide), apt_attributes h⟩
  · rename_i event _ he
    have hin : o.isIn .event = true := Rows.isIn_of_find? he
    simp only [List.cons_append, allApt_cons, allApt_append]
    exact ⟨Token.isPlain_of_isIn hin (by decide), apt_attributes h,
      allApt_map fun y hy _ => h.wellFormed.event_accessors he hy⟩
  · exact allApt_nil

theorem apt_methodNeeds (h : s.Formed) {t : Token} {d : MethodDef} {action : MethodAction}
    (ht : s.model.method? t = some d) : s.AllApt (· = t) (s.methodNeeds t d action) := by
  obtain ⟨owner, ho, -⟩ := h.wellFormed.methods_listed.listed ht
  have overridden : s.AllApt (· = t) ((s.overrides.basesAbove t).map (.method · (.node t))) := by
    refine allApt_map fun base hb names => ?_
    obtain ⟨overrider, he⟩ := (OverrideTable.mem_basesAbove.mp hb).edge
    exact (names.pairs _ he).1
  simp only [methodNeeds, allApt_append, allApt_cons, allApt_nil, and_true, and_assoc]
  refine ⟨Rows.isIn_of_find? ho, apt_attributes h, apt_specialMembers h,
    allApt_flatMap fun _ _ => ?_, allApt_flatMap fun _ _ => ?_, allApt_flatMap fun _ _ => ?_,
    overridden,
    allApt_ite fun hv => ?_, apt_parameter h, allApt_ite fun _ => allApt_flatMap fun _ _ => ?_,
    allApt_flatMap fun _ _ => ?_, rfl⟩
  · exact apt_parameter h
  · exact apt_genericParam h
  · exact apt_methodRef h
  · exact allApt_cons.mpr ⟨⟨rfl, d, ht, hv⟩, allApt_nil⟩
  · exact apt_body h
  · exact apt_accessorOwner h

end Setting

end CilTrim
