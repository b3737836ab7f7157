import CilTrim.Proofs.Builder.Lookup

/-!
# Well-formed models

Definitions hold their own tokens, owners exist and list their members, and accessors are methods.
Each change that a builder makes to a table keeps this:

* `Model.Fits`: every table has fewer than 2^24 rows;
* `Model.Listed`: the members of a table and the lists of the types that declare them agree;
* `Model.WellFormed`, with one lemma for each change in place and each addition.
-/

namespace CilTrim

namespace Model

/-- The number of rows of a table. -/
def size (m : Model) : Table → Nat
  | .module => m.modules.size
  | .typeDef => m.types.size
  | .field => m.fields.size
  | .methodDef => m.methods.size
  | .event => m.events.size
  | .property => m.properties.size
  | .assembly => m.assemblies.size
  | .genericParam => m.genericParams.size

/-- Every table has fewer rows than tokens can tell apart. -/
def Fits (m : Model) : Prop :=
  ∀ table, m.size table < Token.rowLimit

/-! ## Members and the types that list them -/

/-- The members of a table and the lists of the types that declare them agree. -/
structure Listed {α : Type} (table : Table) (rows : Array α) (owner : α → Token)
    (types : Array TypeDef) (list : TypeDef → List Token) : Prop where
  /-- What a type lists is a member declared on it. -/
  declared {t x : Token} {d : TypeDef} : Rows.find? .typeDef types t = some d → x ∈ list d →
    ∃ e, Rows.find? table rows x = some e ∧ owner e = t
  /-- A member is listed by the type that declares it. -/
  listed {x : Token} {e : α} : Rows.find? table rows x = some e →
    ∃ d, Rows.find? .typeDef types (owner e) = some d ∧ x ∈ list d

namespace Listed

variable {α : Type} {table : Table} {rows : Array α} {owner : α → Token} {types : Array TypeDef}
  {list : TypeDef → List Token}

theorem empty : Listed table (#[] : Array α) owner #[] list :=
  ⟨fun h => absurd h Rows.find?_empty, fun h => absurd h Rows.find?_empty⟩

theorem modify_types (h : Listed table rows owner types list) {change : TypeDef → TypeDef}
    (hc : ∀ d, list (change d) = list d) (i : Nat) :
    Listed table rows owner (types.modify i change) list where
  declared hd hx := by
    obtain ⟨d₀, h₀, rfl | rfl⟩ := Rows.find?_of_modify hd
    · rw [hc] at hx; exact h.declared h₀ hx
    · exact h.declared h₀ hx
  listed he := by
    obtain ⟨d, hd, hx⟩ := h.listed he
    obtain ⟨d', hd', rfl | rfl⟩ := Rows.find?_modify_of i change hd
    · exact ⟨_, hd', by rw [hc]; exact hx⟩
    · exact ⟨_, hd', hx⟩

theorem push_type (h : Listed table rows owner types list)
    (room : types.size + 1 < Token.rowLimit) {d : TypeDef} (hd : list d = []) :
    Listed table rows owner (types.push d) list where
  declared he hx := by
    rcases Rows.find?_of_push room he with ⟨-, rfl⟩ | h₀
    · rw [hd] at hx; cases hx
    · exact h.declared h₀ hx
  listed he := by
    obtain ⟨d', hd', hx⟩ := h.listed he
    exact ⟨d', Rows.find?_push_of hd', hx⟩

theorem modify_rows (h : Listed table rows owner types list) {change : α → α}
    (hc : ∀ e, owner (change e) = owner e) (i : Nat) :
    Listed table (rows.modify i change) owner types list where
  declared hd hx := by
    obtain ⟨e, he, ho⟩ := h.declared hd hx
    obtain ⟨e', he', rfl | rfl⟩ := Rows.find?_modify_of i change he
    · exact ⟨_, he', (hc e).trans ho⟩
    · exact ⟨_, he', ho⟩
  listed he := by
    obtain ⟨e₀, h₀, rfl | rfl⟩ := Rows.find?_of_modify he
    · rw [hc]; exact h.listed h₀
    · exact h.listed h₀

/-- A new member enters the list of its type. -/
theorem push_row (h : Listed table rows owner types list)
    (room : rows.size + 1 < Token.rowLimit) {e : α}
    (hown : (Rows.find? .typeDef types (owner e)).isSome) {change : TypeDef → TypeDef}
    (hc : ∀ d, list (change d) = list d ++ [Token.next table rows.size]) :
    Listed table (rows.push e) owner (types.modify (owner e).slot change) list where
  declared {t x d} hd hx := by
    have old {d₀ : TypeDef} (h₀ : Rows.find? .typeDef types t = some d₀) (hx : x ∈ list d₀) :
        ∃ e', Rows.find? table (rows.push e) x = some e' ∧ owner e' = t := by
      obtain ⟨e', he', ho⟩ := h.declared h₀ hx
      exact ⟨e', Rows.find?_push_of he', ho⟩
    rw [Rows.find?_modify hown] at hd
    split at hd
    · rename_i ht
      obtain ⟨d₀, h₀, rfl⟩ := Option.map_eq_some_iff.mp hd
      rw [hc, List.mem_append, List.mem_singleton] at hx
      rcases hx with hx | hx
      · exact old h₀ hx
      · exact ⟨e, by rw [hx, Rows.find?_push room, if_pos rfl], ht.symm⟩
    · exact old hd hx
  listed {x e'} he := by
    rcases Rows.find?_of_push room he with ⟨hx, rfl⟩ | h₀
    · obtain ⟨d, hd⟩ := Option.isSome_iff_exists.mp hown
      refine ⟨change d, ?_, ?_⟩
      · rw [Rows.find?_modify hown, if_pos rfl, hd, Option.map_some]
      · rw [hc, hx]
        exact List.mem_append_right _ (List.mem_singleton_self _)
    · obtain ⟨d, hd, hx⟩ := h.listed h₀
      obtain ⟨d', hd', rfl | rfl⟩ := Rows.find?_modify_of (owner e).slot change hd
      · exact ⟨_, hd', by rw [hc]; exact List.mem_append_left _ hx⟩
      · exact ⟨_, hd', hx⟩

end Listed

/-! ## Well-formed models -/

/-- The assembly and the module of a type, and the type around it, are what they should be. -/
structure Placed (assemblies : Array AssemblyDef) (types : Array TypeDef) (d : TypeDef) :
    Prop where
  assembly : (Rows.find? .assembly assemblies d.assembly).isSome
  module : d.module.isIn .module = true
  enclosing {outer : Token} : d.declaringType = some outer →
    (Rows.find? .typeDef types outer).isSome

/-- Definitions hold their own tokens, owners exist and list their members, and accessors are
methods. -/
structure WellFormed (m : Model) : Prop where
  assembly_numbered : Rows.Numbered .assembly (·.token) m.assemblies
  type_numbered : Rows.Numbered .typeDef (·.token) m.types
  method_numbered : Rows.Numbered .methodDef (·.token) m.methods
  field_numbered : Rows.Numbered .field (·.token) m.fields
  assembly_module {t : Token} {d : AssemblyDef} : m.assembly? t = some d →
    ∀ x ∈ d.modules, x.isIn .module = true
  type_placed {t : Token} {d : TypeDef} : m.type? t = some d → Placed m.assemblies m.types d
  methods_listed : Listed .methodDef m.methods (·.declaringType) m.types (·.methods)
  fields_listed : Listed .field m.fields (·.declaringType) m.types (·.fields)
  property_accessors {t x : Token} {p : PropertyDef} : m.property? t = some p →
    x ∈ p.accessors → (m.method? x).isSome
  event_accessors {t x : Token} {e : EventDef} : m.event? t = some e → x ∈ e.accessors →
    (m.method? x).isSome

namespace WellFormed

variable {m : Model}

theorem empty : WellFormed .empty where
  assembly_numbered := Rows.numbered_empty
  type_numbered := Rows.numbered_empty
  method_numbered := Rows.numbered_empty
  field_numbered := Rows.numbered_empty
  assembly_module h := absurd h Rows.find?_empty
  type_placed h := absurd h Rows.find?_empty
  methods_listed := Listed.empty
  fields_listed := Listed.empty
  property_accessors h := absurd h Rows.find?_empty
  event_accessors h := absurd h Rows.find?_empty

/-- A type that a token finds holds the token. -/
theorem type_token (h : m.WellFormed) {t : Token} {d : TypeDef} (hd : m.type? t = some d) :
    d.token = t :=
  h.type_numbered.token_of_find? hd

theorem method_token (h : m.WellFormed) {t : Token} {d : MethodDef} (hd : m.method? t = some d) :
    d.token = t :=
  h.method_numbered.token_of_find? hd

/-- A type of the model is found by its token. -/
theorem type_of_mem (h : m.WellFormed) (fits : m.Fits) {d : TypeDef} (hd : d ∈ m.types.toList) :
    m.type? d.token = some d :=
  h.type_numbered.find?_token (fits .typeDef) hd

theorem assembly_of_mem (h : m.WellFormed) (fits : m.Fits) {d : AssemblyDef}
    (hd : d ∈ m.assemblies.toList) : m.assembly? d.token = some d :=
  h.assembly_numbered.find?_token (fits .assembly) hd

/-! ## Changes in place -/

/-- A change of types that keeps where they are placed. -/
structure KeepsPlace (change : TypeDef → TypeDef) : Prop where
  token (d : TypeDef) : (change d).token = d.token
  assembly (d : TypeDef) : (change d).assembly = d.assembly
  module (d : TypeDef) : (change d).module = d.module
  declaringType (d : TypeDef) : (change d).declaringType = d.declaringType

theorem placed_modify {assemblies : Array AssemblyDef} {types : Array TypeDef}
    (h : ∀ {t d}, Rows.find? .typeDef types t = some d → Placed assemblies types d)
    {change : TypeDef → TypeDef} (hc : KeepsPlace change) {i : Nat} {t : Token} {d : TypeDef}
    (hd : Rows.find? .typeDef (types.modify i change) t = some d) :
    Placed assemblies (types.modify i change) d := by
  obtain ⟨d₀, h₀, hd₀⟩ := Rows.find?_of_modify hd
  have hp := h h₀
  rcases hd₀ with rfl | rfl
  · refine ⟨?_, ?_, fun ho => ?_⟩
    · rw [hc.assembly]; exact hp.assembly
    · rw [hc.module]; exact hp.module
    · rw [hc.declaringType] at ho; exact Rows.isSome_modify (hp.enclosing ho)
  · exact ⟨hp.assembly, hp.module, fun ho => Rows.isSome_modify (hp.enclosing ho)⟩

/-- A change of types that keeps where they are placed and what they list. -/
theorem modify_types (h : m.WellFormed) {change : TypeDef → TypeDef} (hc : KeepsPlace change)
    (hmethods : ∀ d, (change d).methods = d.methods) (hfields : ∀ d, (change d).fields = d.fields)
    (i : Nat) : WellFormed { m with types := m.types.modify i change } :=
  { h with
    type_numbered := h.type_numbered.modify hc.token i
    type_placed := placed_modify h.type_placed hc
    methods_listed := h.methods_listed.modify_types hmethods i
    fields_listed := h.fields_listed.modify_types hfields i }

theorem updateType (h : m.WellFormed) {change : TypeDef → TypeDef} (hc : KeepsPlace change)
    (hmethods : ∀ d, (change d).methods = d.methods) (hfields : ∀ d, (change d).fields = d.fields)
    (t : Token) : (m.updateType t change).WellFormed := by
  unfold Model.updateType
  split
  · exact h.modify_types hc hmethods hfields t.slot
  · exact h

theorem linkAccessor (h : m.WellFormed) (owner : Token) (accessor : Token × UInt32) :
    (m.linkAccessor owner accessor).WellFormed := by
  unfold Model.linkAccessor Model.updateMethod
  split
  · exact
      { h with
        method_numbered := h.method_numbered.modify (by intro _; rfl) _
        methods_listed := by
          dsimp only
          apply h.methods_listed.modify_rows
          intro _; rfl
        property_accessors := fun hp hx => Rows.isSome_modify (h.property_accessors hp hx)
        event_accessors := fun he hx => Rows.isSome_modify (h.event_accessors he hx) }
  · exact h

theorem linkAccessors (h : m.WellFormed) (owner : Token) (accessors : List (Token × UInt32)) :
    (accessors.foldl (fun m accessor => m.linkAccessor owner accessor) m).WellFormed := by
  induction accessors generalizing m with
  | nil => exact h
  | cons accessor rest ih => exact ih (h.linkAccessor owner accessor)

theorem addAttribute (h : m.WellFormed) {owner : Token} {a : Attribute} {m' : Model}
    (ha : m.addAttribute owner a = .ok m') : m'.WellFormed := by
  unfold Model.addAttribute at ha
  split at ha
  · split at ha
    · rw [← Except.ok.inj ha]
      refine
        { h with
          assembly_numbered := h.assembly_numbered.modify (by intro _; rfl) _
          assembly_module := fun hd => ?_
          type_placed := fun hd =>
            let hp := h.type_placed hd
            ⟨Rows.isSome_modify hp.assembly, hp.module, hp.enclosing⟩ }
      obtain ⟨d₀, h₀, rfl | rfl⟩ := Rows.find?_of_modify hd
      · exact fun x hx => h.assembly_module h₀ x hx
      · exact h.assembly_module h₀
    · cases ha
  · split at ha
    · rw [← Except.ok.inj ha]
      exact { h with }
    · cases ha
  · cases ha

/-! ## Additions -/

theorem addAssembly (h : m.WellFormed) (name : String)
    (room : m.assemblies.size + 1 < Token.rowLimit) : (m.addAssembly name).2.WellFormed := by
  refine
    { h with
      assembly_numbered := h.assembly_numbered.push rfl
      assembly_module := fun hd x hx => ?_
      type_placed := fun hd =>
        let hp := h.type_placed hd
        ⟨Rows.isSome_push hp.assembly, hp.module, hp.enclosing⟩ }
  rcases Rows.find?_of_push room hd with ⟨-, rfl⟩ | h₀
  · rw [List.mem_singleton.mp hx, Token.isIn, Token.next, Token.tableNumber_ofParts,
      beq_self_eq_true]
  · exact h.assembly_module h₀ x hx

/-- A new type, which has no members yet. -/
theorem push_type (h : m.WellFormed) (room : m.types.size + 1 < Token.rowLimit) {d : TypeDef}
    (htoken : d.token = Token.next .typeDef m.types.size) (hplaced : Placed m.assemblies m.types d)
    (hmethods : d.methods = []) (hfields : d.fields = []) :
    WellFormed { m with types := m.types.push d } := by
  have lift {e : TypeDef} (hp : Placed m.assemblies m.types e) :
      Placed m.assemblies (m.types.push d) e :=
    ⟨hp.assembly, hp.module, fun ho => Rows.isSome_push (hp.enclosing ho)⟩
  refine
    { h with
      type_numbered := h.type_numbered.push htoken
      type_placed := fun he => ?_
      methods_listed := h.methods_listed.push_type room hmethods
      fields_listed := h.fields_listed.push_type room hfields }
  rcases Rows.find?_of_push room he with ⟨-, rfl⟩ | h₀
  · exact lift hplaced
  · exact lift (h.type_placed h₀)

/-- A new method, which its type lists. -/
theorem push_method (h : m.WellFormed) (room : m.methods.size + 1 < Token.rowLimit)
    {e : MethodDef} {owner : Token} (howner : e.declaringType = owner)
    (htoken : e.token = Token.next .methodDef m.methods.size) (hown : (m.type? owner).isSome) :
    WellFormed
      { m with
        methods := m.methods.push e
        types := m.types.modify owner.slot fun t =>
          { t with methods := t.methods ++ [Token.next .methodDef m.methods.size] } } := by
  subst howner
  exact
    { h with
      type_numbered := h.type_numbered.modify (by intro _; rfl) _
      method_numbered := h.method_numbered.push htoken
      type_placed := placed_modify h.type_placed (by constructor <;> intro _ <;> rfl)
      methods_listed := by
        dsimp only
        apply h.methods_listed.push_row room hown
        intro _; rfl
      fields_listed := by
        dsimp only
        apply h.fields_listed.modify_types
        intro _; rfl
      property_accessors := fun hp hx => Rows.isSome_push (h.property_accessors hp hx)
      event_accessors := fun he hx => Rows.isSome_push (h.event_accessors he hx) }

/-- A new field, which its type lists. -/
theorem push_field (h : m.WellFormed) (room : m.fields.size + 1 < Token.rowLimit) {e : FieldDef}
    {owner : Token} (howner : e.declaringType = owner)
    (htoken : e.token = Token.next .field m.fields.size) (hown : (m.type? owner).isSome) :
    WellFormed
      { m with
        fields := m.fields.push e
        types := m.types.modify owner.slot fun t =>
          { t with fields := t.fields ++ [Token.next .field m.fields.size] } } := by
  subst howner
  exact
    { h with
      type_numbered := h.type_numbered.modify (by intro _; rfl) _
      field_numbered := h.field_numbered.push htoken
      type_placed := placed_modify h.type_placed (by constructor <;> intro _ <;> rfl)
      methods_listed := by
        dsimp only
        apply h.methods_listed.modify_types
        intro _; rfl
      fields_listed := by
        dsimp only
        apply h.fields_listed.push_row room hown
        intro _; rfl }

end WellFormed

end Model

end CilTrim
