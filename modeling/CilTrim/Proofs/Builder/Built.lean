import CilTrim.Proofs.Builder.WellFormed

/-!
# Models that builders make

A builder adds definitions one by one, and its callers name as owners only what it has returned
before. Such models are well formed as long as their tables fit into tokens:

* `Model.Built`: the models that can be built, with the tokens returned on the way;
* `Model.Extends`: an operation takes nothing away;
* `Model.Built.wellFormed`: what is built and fits is well formed.
-/

namespace CilTrim

namespace Model

/-! ## Building -/

/-- A token of a table that a builder has returned. -/
def Returned (returned : List Token) (table : Table) (t : Token) : Prop :=
  t ∈ returned ∧ t.isIn table = true

/-- The models that can be built, with the tokens returned on the way. Owners and accessors are
tokens of the right table that were returned before; references are free. -/
inductive Built : List Token → Model → Prop where
  | empty : Built [] .empty
  | assembly {returned : List Token} {m : Model} (name : String) : Built returned m →
    Built ((m.addAssembly name).1 :: returned) (m.addAssembly name).2
  | corlib {returned : List Token} {m : Model} (assembly : Token) : Built returned m →
    Built returned (m.setCorlib assembly)
  | type {returned : List Token} {m : Model} (d : TypeDraft) : Built returned m →
    Returned returned .assembly d.assembly →
    (∀ outer, d.declaringType = some outer → Returned returned .typeDef outer) →
    Built ((m.addType d).1 :: returned) (m.addType d).2
  | method {returned : List Token} {m : Model} (d : MethodDraft) : Built returned m →
    Returned returned .typeDef d.declaringType →
    Built ((m.addMethod d).1 :: returned) (m.addMethod d).2
  | field {returned : List Token} {m : Model} (d : FieldDraft) : Built returned m →
    Returned returned .typeDef d.declaringType →
    Built ((m.addField d).1 :: returned) (m.addField d).2
  | property {returned : List Token} {m : Model} (d : PropertyDraft) : Built returned m →
    Returned returned .typeDef d.declaringType →
    (∀ t ∈ d.getter.toList ++ d.setter.toList ++ d.other, Returned returned .methodDef t) →
    Built ((m.addProperty d).1 :: returned) (m.addProperty d).2
  | event {returned : List Token} {m : Model} (d : EventDraft) : Built returned m →
    Returned returned .typeDef d.declaringType →
    (∀ t ∈ d.adder.toList ++ d.remover.toList ++ d.raiser.toList, Returned returned .methodDef t) →
    Built ((m.addEvent d).1 :: returned) (m.addEvent d).2
  | attributed {returned : List Token} {m m' : Model} (owner : Token) (a : Attribute) :
    Built returned m → m.addAttribute owner a = .ok m' → Built returned m'

/-! ## Operations -/

/-- What a model has, another has too. -/
structure Extends (m m' : Model) : Prop where
  size (table : Table) : m.size table ≤ m'.size table
  assembly {t : Token} : (m.assembly? t).isSome → (m'.assembly? t).isSome
  type {t : Token} : (m.type? t).isSome → (m'.type? t).isSome
  method {t : Token} : (m.method? t).isSome → (m'.method? t).isSome

namespace Extends

variable {m m' m'' : Model}

theorem refl (m : Model) : m.Extends m :=
  ⟨fun _ => Nat.le_refl _, id, id, id⟩

theorem trans (h : m.Extends m') (h' : m'.Extends m'') : m.Extends m'' :=
  ⟨fun table => Nat.le_trans (h.size table) (h'.size table), h'.assembly ∘ h.assembly,
    h'.type ∘ h.type, h'.method ∘ h.method⟩

theorem fits (h : m.Extends m') (hfits : m'.Fits) : m.Fits :=
  fun table => Nat.lt_of_le_of_lt (h.size table) (hfits table)

theorem addAssembly (m : Model) (name : String) : m.Extends (m.addAssembly name).2 where
  size table := by cases table <;> simp [Model.size, Model.addAssembly]
  assembly := Rows.isSome_push
  type := id
  method := id

theorem updateType (m : Model) (t : Token) (change : TypeDef → TypeDef) :
    m.Extends (m.updateType t change) := by
  unfold Model.updateType
  split
  · exact ⟨fun table => by cases table <;> simp [Model.size], id, Rows.isSome_modify, id⟩
  · exact refl m

theorem linkAccessor (m : Model) (owner : Token) (accessor : Token × UInt32) :
    m.Extends (m.linkAccessor owner accessor) := by
  unfold Model.linkAccessor Model.updateMethod
  split
  · exact ⟨fun table => by cases table <;> simp [Model.size], id, id, Rows.isSome_modify⟩
  · exact refl m

theorem linkAccessors (m : Model) (owner : Token) (accessors : List (Token × UInt32)) :
    m.Extends (accessors.foldl (fun m accessor => m.linkAccessor owner accessor) m) := by
  induction accessors generalizing m with
  | nil => exact refl m
  | cons accessor rest ih => exact trans (linkAccessor m owner accessor) (ih _)

theorem addGenericsFrom (m : Model) (owner : Token) (number : Nat) (drafts : List GenericDraft) :
    m.Extends (m.addGenericsFrom owner number drafts).2 := by
  induction drafts generalizing m number with
  | nil => exact refl m
  | cons draft rest ih =>
    refine trans ?_ (ih _ _)
    exact ⟨fun table => by cases table <;> simp [Model.size], id, id, id⟩

theorem listType (m : Model) (declaringType : Option Token) (module type : Token) :
    m.Extends (m.listType declaringType module type) := by
  unfold Model.listType
  split
  · exact updateType m _ _
  · exact ⟨fun table => by cases table <;> simp [Model.size], id, id, id⟩

theorem addAttribute {owner : Token} {a : Attribute} (h : m.addAttribute owner a = .ok m') :
    m.Extends m' := by
  unfold Model.addAttribute at h
  split at h
  · split at h
    · rw [← Except.ok.inj h]
      exact ⟨fun table => by cases table <;> simp [Model.size], Rows.isSome_modify, id, id⟩
    · cases h
  · split at h
    · rw [← Except.ok.inj h]
      exact ⟨fun table => by cases table <;> simp [Model.size], id, id, id⟩
    · cases h
  · cases h

theorem addType (m : Model) (d : TypeDraft) : m.Extends (m.addType d).2 := by
  let token := Token.next .typeDef m.types.size
  have generics := addGenericsFrom m token 0 d.generics
  have listed := listType (m.addGenericsFrom token 0 d.generics).2 d.declaringType
    (m.mainModule d.assembly) token
  refine (generics.trans listed).trans ⟨fun table => ?_, id, Rows.isSome_push, id⟩
  cases table <;> simp [Model.size, Model.addType, Model.addGenerics, token]

theorem push_method (m : Model) (e : MethodDef) :
    m.Extends { m with methods := m.methods.push e } :=
  ⟨fun table => by cases table <;> simp [Model.size], id, id, Rows.isSome_push⟩

theorem push_field (m : Model) (e : FieldDef) : m.Extends { m with fields := m.fields.push e } :=
  ⟨fun table => by cases table <;> simp [Model.size], id, id, id⟩

theorem push_property (m : Model) (p : PropertyDef) :
    m.Extends { m with properties := m.properties.push p } :=
  ⟨fun table => by cases table <;> simp [Model.size], id, id, id⟩

theorem push_event (m : Model) (e : EventDef) : m.Extends { m with events := m.events.push e } :=
  ⟨fun table => by cases table <;> simp [Model.size], id, id, id⟩

theorem addMethod (m : Model) (d : MethodDraft) : m.Extends (m.addMethod d).2 := by
  have generics := addGenericsFrom m (Token.next .methodDef m.methods.size) 0 d.generics
  exact (generics.trans (push_method _ _)).trans (updateType _ d.declaringType _)

theorem addField (m : Model) (d : FieldDraft) : m.Extends (m.addField d).2 :=
  (push_field m _).trans (updateType _ d.declaringType _)

theorem addProperty (m : Model) (d : PropertyDraft) : m.Extends (m.addProperty d).2 := by
  have linked := linkAccessors m (Token.next .property m.properties.size)
    (d.getter.toList.map (·, MethodSemantics.getter) ++
      d.setter.toList.map (·, MethodSemantics.setter) ++ d.other.map (·, MethodSemantics.other))
  exact (linked.trans (push_property _ _)).trans (updateType _ d.declaringType _)

theorem addEvent (m : Model) (d : EventDraft) : m.Extends (m.addEvent d).2 := by
  have linked := linkAccessors m (Token.next .event m.events.size)
    (d.adder.toList.map (·, MethodSemantics.adder) ++
      d.remover.toList.map (·, MethodSemantics.remover) ++
      d.raiser.toList.map (·, MethodSemantics.raiser))
  exact (linked.trans (push_event _ _)).trans (updateType _ d.declaringType _)

end Extends

theorem addGenericsFrom_eq (m : Model) (owner : Token) (number : Nat)
    (drafts : List GenericDraft) :
    ∃ params, (m.addGenericsFrom owner number drafts).2 = { m with genericParams := params } := by
  induction drafts generalizing m number with
  | nil => exact ⟨m.genericParams, rfl⟩
  | cons draft rest ih =>
    obtain ⟨params, h⟩ := ih
      { m with
        genericParams := m.genericParams.push
          { token := Token.next .genericParam m.genericParams.size, name := draft.name, number,
            owner, flags := draft.flags, constraints := draft.constraints, attributes := [] } }
      (number + 1)
    exact ⟨params, h⟩

theorem mainModule_isIn {m : Model} (h : m.WellFormed) (assembly : Token) :
    (m.mainModule assembly).isIn .module = true := by
  unfold mainModule
  cases hm : (m.assembly? assembly).bind (·.modules.head?) with
  | none => rfl
  | some module =>
    obtain ⟨d, hd, hh⟩ := Option.bind_eq_some_iff.mp hm
    exact h.assembly_module hd module (List.mem_of_mem_head? hh)

/-- Generic parameters and the list that a new type enters leave the number of types. -/
theorem size_listed (m : Model) (token : Token) (drafts : List GenericDraft)
    (declaringType : Option Token) (module : Token) :
    ((m.addGenericsFrom token 0 drafts).2.listType declaringType module token).types.size =
      m.types.size := by
  obtain ⟨params, e⟩ := addGenericsFrom_eq m token 0 drafts
  rw [e]
  unfold listType updateType
  repeat' split
  all_goals simp

theorem size_addType (m : Model) (d : TypeDraft) :
    (m.addType d).2.types.size = m.types.size + 1 := by
  show (Array.push _ _).size = _
  rw [Array.size_push, size_listed]

theorem updateType_eq (m : Model) {owner : Token} (h : owner.isIn .typeDef = true)
    (change : TypeDef → TypeDef) :
    m.updateType owner change = { m with types := m.types.modify owner.slot change } :=
  if_pos h

namespace WellFormed

variable {m : Model}

theorem withGenerics (h : m.WellFormed) (owner : Token) (number : Nat)
    (drafts : List GenericDraft) : (m.addGenericsFrom owner number drafts).2.WellFormed := by
  obtain ⟨params, e⟩ := addGenericsFrom_eq m owner number drafts
  rw [e]
  exact { h with }

theorem listType (h : m.WellFormed) (declaringType : Option Token) (module type : Token) :
    (m.listType declaringType module type).WellFormed := by
  unfold Model.listType
  split
  · exact h.updateType (by constructor <;> intro _ <;> rfl) (by intro _; rfl) (by intro _; rfl) _
  · exact { h with }

theorem addType (h : m.WellFormed) (d : TypeDraft) (room : m.types.size + 1 < Token.rowLimit)
    (hassembly : (m.assembly? d.assembly).isSome)
    (henclosing : ∀ outer, d.declaringType = some outer → (m.type? outer).isSome) :
    (m.addType d).2.WellFormed := by
  let token := Token.next .typeDef m.types.size
  let listed := (m.addGenericsFrom token 0 d.generics).2.listType d.declaringType
    (m.mainModule d.assembly) token
  have hlisted : listed.WellFormed := (h.withGenerics _ _ _).listType _ _ _
  have hext : m.Extends listed :=
    (Extends.addGenericsFrom m _ _ _).trans (Extends.listType _ _ _ _)
  have hsize : listed.types.size = m.types.size := size_listed m token d.generics _ _
  refine hlisted.push_type (hsize ▸ room) (congrArg (Token.next .typeDef) hsize.symm) ?_ rfl rfl
  exact ⟨hext.assembly hassembly, mainModule_isIn h d.assembly,
    fun ho => hext.type (henclosing _ ho)⟩

theorem addMethod (h : m.WellFormed) (d : MethodDraft)
    (room : m.methods.size + 1 < Token.rowLimit) (hown : (m.type? d.declaringType).isSome) :
    (m.addMethod d).2.WellFormed := by
  obtain ⟨owner, ho⟩ := Option.isSome_iff_exists.mp hown
  obtain ⟨params, e⟩ :=
    addGenericsFrom_eq m (Token.next .methodDef m.methods.size) 0 d.generics
  have hg : WellFormed { m with genericParams := params } := { h with }
  unfold Model.addMethod Model.addGenerics
  dsimp only
  rw [e, updateType_eq _ (Rows.isIn_of_find? ho)]
  refine hg.push_method room ?_ ?_ hown
  · rfl
  · rfl

theorem addField (h : m.WellFormed) (d : FieldDraft) (room : m.fields.size + 1 < Token.rowLimit)
    (hown : (m.type? d.declaringType).isSome) : (m.addField d).2.WellFormed := by
  obtain ⟨owner, ho⟩ := Option.isSome_iff_exists.mp hown
  unfold Model.addField
  dsimp only
  rw [updateType_eq _ (Rows.isIn_of_find? ho)]
  refine h.push_field room ?_ ?_ hown
  · rfl
  · rfl

theorem push_property (h : m.WellFormed) (room : m.properties.size + 1 < Token.rowLimit)
    {p : PropertyDef} (hacc : ∀ x ∈ p.accessors, (m.method? x).isSome) :
    WellFormed { m with properties := m.properties.push p } := by
  refine { h with property_accessors := fun hp hx => ?_ }
  rcases Rows.find?_of_push room hp with ⟨-, rfl⟩ | h₀
  · exact hacc _ hx
  · exact h.property_accessors h₀ hx

theorem push_event (h : m.WellFormed) (room : m.events.size + 1 < Token.rowLimit) {e : EventDef}
    (hacc : ∀ x ∈ e.accessors, (m.method? x).isSome) :
    WellFormed { m with events := m.events.push e } := by
  refine { h with event_accessors := fun he hx => ?_ }
  rcases Rows.find?_of_push room he with ⟨-, rfl⟩ | h₀
  · exact hacc _ hx
  · exact h.event_accessors h₀ hx

theorem addProperty (h : m.WellFormed) (d : PropertyDraft) (fits : (m.addProperty d).2.Fits)
    (hacc : ∀ t ∈ d.getter.toList ++ d.setter.toList ++ d.other, (m.method? t).isSome) :
    (m.addProperty d).2.WellFormed := by
  let accessors := d.getter.toList.map (·, MethodSemantics.getter) ++
    d.setter.toList.map (·, MethodSemantics.setter) ++ d.other.map (·, MethodSemantics.other)
  have linked := h.linkAccessors (Token.next .property m.properties.size) accessors
  have ext := Extends.linkAccessors m (Token.next .property m.properties.size) accessors
  refine updateType ?_ (by constructor <;> intro _ <;> rfl) (by intro _; rfl) (by intro _; rfl) _
  refine linked.push_property ?_ fun x hx => ext.method (hacc x hx)
  have hroom := (Extends.updateType _ d.declaringType _).fits fits .property
  simpa only [Model.size, Array.size_push] using hroom

theorem addEvent (h : m.WellFormed) (d : EventDraft) (fits : (m.addEvent d).2.Fits)
    (hacc : ∀ t ∈ d.adder.toList ++ d.remover.toList ++ d.raiser.toList, (m.method? t).isSome) :
    (m.addEvent d).2.WellFormed := by
  let accessors := d.adder.toList.map (·, MethodSemantics.adder) ++
    d.remover.toList.map (·, MethodSemantics.remover) ++
    d.raiser.toList.map (·, MethodSemantics.raiser)
  have linked := h.linkAccessors (Token.next .event m.events.size) accessors
  have ext := Extends.linkAccessors m (Token.next .event m.events.size) accessors
  refine updateType ?_ (by constructor <;> intro _ <;> rfl) (by intro _; rfl) (by intro _; rfl) _
  refine linked.push_event ?_ fun x hx => ext.method (hacc x hx)
  have hroom := (Extends.updateType _ d.declaringType _).fits fits .event
  simpa only [Model.size, Array.size_push] using hroom

end WellFormed

/-! ## Built models are well formed -/

/-- Tokens that a builder has returned name definitions. -/
structure Known (m : Model) (t : Token) : Prop where
  assembly : t.isIn .assembly = true → (m.assembly? t).isSome
  type : t.isIn .typeDef = true → (m.type? t).isSome
  method : t.isIn .methodDef = true → (m.method? t).isSome

theorem Known.mono {m m' : Model} {t : Token} (h : m.Known t) (ext : m.Extends m') : m'.Known t :=
  ⟨ext.assembly ∘ h.assembly, ext.type ∘ h.type, ext.method ∘ h.method⟩

theorem isIn_next (table : Table) (size : Nat) : (Token.next table size).isIn table = true := by
  rw [Token.isIn, Token.next, Token.tableNumber_ofParts, beq_self_eq_true]

theorem not_isIn_next {table other : Table} (h : table ≠ other) (size : Nat) :
    ¬ (Token.next table size).isIn other = true :=
  fun hin => h (Token.table_unique (isIn_next table size) hin)

/-- A definition of a table in which nothing else is looked for. -/
theorem Known.of_next {m : Model} {table : Table} (size : Nat) (ha : table ≠ .assembly)
    (ht : table ≠ .typeDef) (hm : table ≠ .methodDef) : m.Known (Token.next table size) :=
  ⟨fun h => absurd h (not_isIn_next ha size), fun h => absurd h (not_isIn_next ht size),
    fun h => absurd h (not_isIn_next hm size)⟩

theorem known_addAssembly {m : Model} (name : String) (fits : (m.addAssembly name).2.Fits) :
    (m.addAssembly name).2.Known (m.addAssembly name).1 where
  assembly _ := by
    have room : m.assemblies.size + 1 < Token.rowLimit := by
      simpa only [size, addAssembly, Array.size_push] using fits .assembly
    show (Rows.find? .assembly (m.assemblies.push _) (Token.next .assembly _)).isSome
    rw [Rows.find?_push room, if_pos rfl]; rfl
  type h := absurd h (not_isIn_next (by decide) _)
  method h := absurd h (not_isIn_next (by decide) _)

theorem known_addType {m : Model} (d : TypeDraft) (fits : (m.addType d).2.Fits) :
    (m.addType d).2.Known (m.addType d).1 where
  assembly h := absurd h (not_isIn_next (by decide) _)
  type _ := by
    have room : (m.addType d).2.types.size < Token.rowLimit := fits .typeDef
    rw [size_addType] at room
    show (Rows.find? .typeDef (Array.push _ _) (Token.next .typeDef m.types.size)).isSome
    rw [Rows.find?_push (by rw [size_listed]; exact room), if_pos (by rw [size_listed])]
    rfl
  method h := absurd h (not_isIn_next (by decide) _)

theorem methods_addMethod (m : Model) (d : MethodDraft) :
    ∃ e, (m.addMethod d).2.methods = m.methods.push e := by
  obtain ⟨params, h⟩ :=
    addGenericsFrom_eq m (Token.next .methodDef m.methods.size) 0 d.generics
  unfold addMethod addGenerics updateType
  dsimp only
  rw [h]
  split
  · exact ⟨_, rfl⟩
  · exact ⟨_, rfl⟩

theorem known_addMethod {m : Model} (d : MethodDraft) (fits : (m.addMethod d).2.Fits) :
    (m.addMethod d).2.Known (m.addMethod d).1 where
  assembly h := absurd h (not_isIn_next (by decide) _)
  type h := absurd h (not_isIn_next (by decide) _)
  method _ := by
    obtain ⟨e, he⟩ := methods_addMethod m d
    have room : m.methods.size + 1 < Token.rowLimit := by
      have h : (m.addMethod d).2.methods.size < Token.rowLimit := fits .methodDef
      rwa [he, Array.size_push] at h
    show (Rows.find? .methodDef (m.addMethod d).2.methods _).isSome
    rw [he]
    show (Rows.find? .methodDef (m.methods.push e) (Token.next .methodDef m.methods.size)).isSome
    rw [Rows.find?_push room, if_pos rfl]; rfl

/-- What is built and fits is well formed, and every token returned on the way names what it was
returned for. -/
theorem Built.known {returned : List Token} {m : Model} (h : Built returned m) (fits : m.Fits) :
    m.WellFormed ∧ ∀ t ∈ returned, m.Known t := by
  induction h with
  | empty => exact ⟨.empty, fun _ h => nomatch h⟩
  | @assembly _ m name _ ih =>
    have ext := Extends.addAssembly m name
    obtain ⟨wf, known⟩ := ih (ext.fits fits)
    refine ⟨wf.addAssembly name ?_, List.forall_mem_cons.mpr ⟨known_addAssembly name fits, ?_⟩⟩
    · simpa only [size, addAssembly, Array.size_push] using fits .assembly
    · exact fun t ht => (known t ht).mono ext
  | corlib assembly _ ih =>
    obtain ⟨wf, known⟩ := ih fits
    exact ⟨{ wf with }, fun t ht => ⟨(known t ht).assembly, (known t ht).type, (known t ht).method⟩⟩
  | @type _ m d _ ha ho ih =>
    have ext := Extends.addType m d
    obtain ⟨wf, known⟩ := ih (ext.fits fits)
    refine ⟨wf.addType d ?_ ((known _ ha.1).assembly ha.2) ?_,
      List.forall_mem_cons.mpr ⟨known_addType d fits, fun t ht => (known t ht).mono ext⟩⟩
    · exact size_addType m d ▸ fits .typeDef
    · exact fun outer h => (known _ (ho outer h).1).type (ho outer h).2
  | @method _ m d _ ho ih =>
    have ext := Extends.addMethod m d
    obtain ⟨wf, known⟩ := ih (ext.fits fits)
    refine ⟨wf.addMethod d ?_ ((known _ ho.1).type ho.2),
      List.forall_mem_cons.mpr ⟨known_addMethod d fits, fun t ht => (known t ht).mono ext⟩⟩
    obtain ⟨e, he⟩ := methods_addMethod m d
    have hsize := fits .methodDef
    rwa [size, he, Array.size_push] at hsize
  | @field _ m d _ ho ih =>
    have ext := Extends.addField m d
    obtain ⟨wf, known⟩ := ih (ext.fits fits)
    refine ⟨wf.addField d ?_ ((known _ ho.1).type ho.2), List.forall_mem_cons.mpr
      ⟨.of_next _ (by decide) (by decide) (by decide), fun t ht => (known t ht).mono ext⟩⟩
    have hsize := (Extends.updateType _ d.declaringType _).fits fits .field
    simpa only [size, Array.size_push] using hsize
  | @property _ m d _ _ hacc ih =>
    have ext := Extends.addProperty m d
    obtain ⟨wf, known⟩ := ih (ext.fits fits)
    exact ⟨wf.addProperty d fits fun t ht => (known _ (hacc t ht).1).method (hacc t ht).2,
      List.forall_mem_cons.mpr
        ⟨.of_next _ (by decide) (by decide) (by decide), fun t ht => (known t ht).mono ext⟩⟩
  | @event _ m d _ _ hacc ih =>
    have ext := Extends.addEvent m d
    obtain ⟨wf, known⟩ := ih (ext.fits fits)
    exact ⟨wf.addEvent d fits fun t ht => (known _ (hacc t ht).1).method (hacc t ht).2,
      List.forall_mem_cons.mpr
        ⟨.of_next _ (by decide) (by decide) (by decide), fun t ht => (known t ht).mono ext⟩⟩
  | attributed owner a _ ha ih =>
    have ext := Extends.addAttribute ha
    obtain ⟨wf, known⟩ := ih (ext.fits fits)
    exact ⟨wf.addAttribute ha, fun t ht => (known t ht).mono ext⟩

/-- What is built and fits is well formed. -/
theorem Built.wellFormed {returned : List Token} {m : Model} (h : Built returned m)
    (fits : m.Fits) : m.WellFormed :=
  (h.known fits).1

end Model

end CilTrim
