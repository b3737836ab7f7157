import CilTrim.Proofs.Builder.Built
import Mathlib.Data.List.Basic

/-!
# The ledger of a model

Operations of a builder add definitions, and enter what they add into the lists of other
definitions. Apart from these entries nothing that once stands in a model changes:

* `Ledger`: the definitions of all tables without what later operations write into them;
* `Model.ledger`: the ledger of a model;
* `Model.addedAssembly`, `Model.addedType`, …: what each operation adds to it, as
  `Model.ledger_addAssembly`, `Model.ledger_addType`, … say; an attribute adds nothing;
* `Model.definition?`: lookup in any table, which gives the same while the ledger grows.
-/

namespace CilTrim

/-! ## What stays -/

/-- An assembly without its attributes. -/
def AssemblyDef.bare (d : AssemblyDef) : AssemblyDef :=
  { d with attributes := [] }

/-- A module without its types and attributes. -/
def ModuleDef.bare (d : ModuleDef) : ModuleDef :=
  { d with types := [], attributes := [] }

/-- A type without its members and nested types. -/
def TypeDef.bare (d : TypeDef) : TypeDef :=
  { d with fields := [], methods := [], properties := [], events := [], nestedTypes := [] }

/-- A method without the property or event it belongs to. -/
def MethodDef.bare (d : MethodDef) : MethodDef :=
  { d with semantics := 0, accessorOf := none }

@[simp] theorem AssemblyDef.bare_token (d : AssemblyDef) : d.bare.token = d.token := rfl

@[simp] theorem ModuleDef.bare_token (d : ModuleDef) : d.bare.token = d.token := rfl

@[simp] theorem TypeDef.bare_token (d : TypeDef) : d.bare.token = d.token := rfl

@[simp] theorem MethodDef.bare_token (d : MethodDef) : d.bare.token = d.token := rfl

/-- A definition of any table. -/
inductive Definition where
  | assembly (d : AssemblyDef)
  | module (d : ModuleDef)
  | type (d : TypeDef)
  | method (d : MethodDef)
  | field (d : FieldDef)
  | property (d : PropertyDef)
  | event (d : EventDef)
  | genericParam (d : GenericParamDef)

/-- The token that a definition holds. -/
def Definition.token : Definition → Token
  | .assembly d => d.token
  | .module d => d.token
  | .type d => d.token
  | .method d => d.token
  | .field d => d.token
  | .property d => d.token
  | .event d => d.token
  | .genericParam d => d.token

/-- The definitions of all tables, in the order in which they were added. -/
@[ext]
structure Ledger where
  assemblies : List AssemblyDef := []
  modules : List ModuleDef := []
  types : List TypeDef := []
  methods : List MethodDef := []
  fields : List FieldDef := []
  properties : List PropertyDef := []
  events : List EventDef := []
  genericParams : List GenericParamDef := []

namespace Ledger

variable {L new : Ledger} {t : Token}

instance : Append Ledger where
  append L new :=
    { assemblies := L.assemblies ++ new.assemblies
      modules := L.modules ++ new.modules
      types := L.types ++ new.types
      methods := L.methods ++ new.methods
      fields := L.fields ++ new.fields
      properties := L.properties ++ new.properties
      events := L.events ++ new.events
      genericParams := L.genericParams ++ new.genericParams }

@[simp] theorem assemblies_append (L new : Ledger) :
    (L ++ new).assemblies = L.assemblies ++ new.assemblies := rfl

@[simp] theorem modules_append (L new : Ledger) :
    (L ++ new).modules = L.modules ++ new.modules := rfl

@[simp] theorem types_append (L new : Ledger) : (L ++ new).types = L.types ++ new.types := rfl

@[simp] theorem methods_append (L new : Ledger) :
    (L ++ new).methods = L.methods ++ new.methods := rfl

@[simp] theorem fields_append (L new : Ledger) : (L ++ new).fields = L.fields ++ new.fields := rfl

@[simp] theorem properties_append (L new : Ledger) :
    (L ++ new).properties = L.properties ++ new.properties := rfl

@[simp] theorem events_append (L new : Ledger) : (L ++ new).events = L.events ++ new.events := rfl

@[simp] theorem genericParams_append (L new : Ledger) :
    (L ++ new).genericParams = L.genericParams ++ new.genericParams := rfl

theorem append_nil (L : Ledger) : L ++ ({} : Ledger) = L := by
  ext1 <;> exact List.append_nil _

theorem append_assoc (a b c : Ledger) : a ++ b ++ c = a ++ (b ++ c) := by
  ext1 <;> exact List.append_assoc _ _ _

/-! ## Tokens and lookup -/

/-- The definitions of a table. -/
def rows (L : Ledger) : Table → List Definition
  | .module => L.modules.map .module
  | .typeDef => L.types.map .type
  | .field => L.fields.map .field
  | .methodDef => L.methods.map .method
  | .event => L.events.map .event
  | .property => L.properties.map .property
  | .assembly => L.assemblies.map .assembly
  | .genericParam => L.genericParams.map .genericParam

/-- The tokens that the definitions of a table hold. -/
def tokens (L : Ledger) (table : Table) : List Token :=
  (L.rows table).map (·.token)

theorem rows_append (L new : Ledger) (table : Table) :
    (L ++ new).rows table = L.rows table ++ new.rows table := by
  cases table <;> exact List.map_append

theorem tokens_append (L new : Ledger) (table : Table) :
    (L ++ new).tokens table = L.tokens table ++ new.tokens table := by
  rw [tokens, rows_append, List.map_append, tokens, tokens]

/-- The definition at the place in a list that a token names. -/
def at? {α : Type} (table : Table) (rows : List α) (t : Token) : Option α :=
  (t.index? table).bind (rows[·]?)

theorem at?_append {α : Type} {table : Table} {rows : List α} {d : α}
    (h : at? table rows t = some d) (more : List α) : at? table (rows ++ more) t = some d := by
  obtain ⟨i, hi, hd⟩ := Option.bind_eq_some_iff.mp h
  have hlt : i < rows.length := (List.getElem?_eq_some_iff.mp hd).1
  rw [at?, hi, Option.bind_some, List.getElem?_append_left hlt, hd]

/-- What is added at the end of a list is found by the next token. -/
theorem at?_next {α : Type} {table : Table} {rows : List α} {size : Nat}
    (hsize : rows.length = size) (room : size + 1 < Token.rowLimit) (d : α) :
    at? table (rows ++ [d]) (Token.next table size) = some d := by
  rw [at?, Token.index?_next room, Option.bind_some, ← hsize, List.getElem?_concat_length]

/-- The module that a token names. -/
def module? (L : Ledger) (t : Token) : Option ModuleDef := at? .module L.modules t

/-- The type that a token names. -/
def type? (L : Ledger) (t : Token) : Option TypeDef := at? .typeDef L.types t

/-- The method that a token names. -/
def method? (L : Ledger) (t : Token) : Option MethodDef := at? .methodDef L.methods t

end Ledger

/-! ## The ledger of a model -/

namespace Model

/-- The definitions of a model without what later operations write into them. -/
def ledger (m : Model) : Ledger where
  assemblies := m.assemblies.toList.map (·.bare)
  modules := m.modules.toList.map (·.bare)
  types := m.types.toList.map (·.bare)
  methods := m.methods.toList.map (·.bare)
  fields := m.fields.toList
  properties := m.properties.toList
  events := m.events.toList
  genericParams := m.genericParams.toList

theorem length_tokens (m : Model) (table : Table) :
    (m.ledger.tokens table).length = m.size table := by
  cases table <;> simp [Ledger.tokens, Ledger.rows, ledger, size]

/-- Lookup among what is seen of the rows of a table is lookup in the table. -/
theorem at?_map {α β : Type} (table : Table) (rows : Array α) (view : α → β) (t : Token) :
    Ledger.at? table (rows.toList.map view) t = (Rows.find? table rows t).map view := by
  unfold Ledger.at? Rows.find?
  cases t.index? table with
  | none => rfl
  | some i =>
    rw [Option.bind_some, Option.bind_some, List.getElem?_map, Array.getElem?_toList]

theorem module?_ledger (m : Model) (t : Token) :
    m.ledger.module? t = (m.module? t).map (·.bare) :=
  at?_map .module m.modules _ t

theorem type?_ledger (m : Model) (t : Token) : m.ledger.type? t = (m.type? t).map (·.bare) :=
  at?_map .typeDef m.types _ t

theorem method?_ledger (m : Model) (t : Token) :
    m.ledger.method? t = (m.method? t).map (·.bare) :=
  at?_map .methodDef m.methods _ t

/-- The definition that a token names, without what later operations write into it. -/
def definition? (m : Model) (t : Token) : Option Definition :=
  match t.table? with
  | some .module => (m.module? t).map fun d => .module d.bare
  | some .typeDef => (m.type? t).map fun d => .type d.bare
  | some .field => (m.field? t).map .field
  | some .methodDef => (m.method? t).map fun d => .method d.bare
  | some .event => (m.event? t).map .event
  | some .property => (m.property? t).map .property
  | some .assembly => (m.assembly? t).map fun d => .assembly d.bare
  | some .genericParam => (m.genericParam? t).map .genericParam
  | none => none

theorem definition?_eq_at? (m : Model) {table : Table} {t : Token} (h : t.isIn table = true) :
    m.definition? t = Ledger.at? table (m.ledger.rows table) t := by
  have htable : t.table? = some table := Token.table?_of_isIn h
  have view {α : Type} {table : Table} {rows : Array α} {f : α → Definition}
      {ds : List Definition} (hrows : ds = rows.toList.map f) :
      (Rows.find? table rows t).map f = Ledger.at? table ds t :=
    hrows ▸ (at?_map table rows f t).symm
  unfold definition?
  rw [htable]
  cases table with
  | module | typeDef | methodDef | assembly => exact view (List.map_map ..)
  | field | event | property | genericParam => exact view rfl

/-! ## Changes in place -/

/-- A change of one row shows nowhere if what is looked at stays. -/
theorem map_modify {α β : Type} (rows : Array α) (i : Nat) {change : α → α} {f : α → β}
    (h : ∀ d, f (change d) = f d) : (rows.modify i change).toList.map f = rows.toList.map f := by
  apply List.ext_getElem?
  intro j
  rw [List.getElem?_map, List.getElem?_map, Array.getElem?_toList, Array.getElem?_toList,
    Array.getElem?_modify]
  split
  · rw [Option.map_map]
    exact Option.map_congr fun d _ => h d
  · rfl

theorem ledger_updateType (m : Model) (t : Token) {change : TypeDef → TypeDef}
    (h : ∀ d, (change d).bare = d.bare) : (m.updateType t change).ledger = m.ledger := by
  unfold updateType
  split
  · exact Ledger.ext rfl rfl (map_modify _ _ h) rfl rfl rfl rfl rfl
  · rfl

theorem ledger_linkAccessors (m : Model) (owner : Token) (accessors : List (Token × UInt32)) :
    (accessors.foldl (fun m accessor => m.linkAccessor owner accessor) m).ledger = m.ledger := by
  induction accessors generalizing m with
  | nil => rfl
  | cons accessor rest ih =>
    rw [List.foldl_cons, ih]
    unfold linkAccessor updateMethod
    split
    · exact Ledger.ext rfl rfl rfl (map_modify _ _ fun _ => rfl) rfl rfl rfl rfl
    · rfl

theorem ledger_listType (m : Model) (declaringType : Option Token) (module type : Token) :
    (m.listType declaringType module type).ledger = m.ledger := by
  unfold listType
  split
  · exact ledger_updateType m _ fun _ => rfl
  · exact Ledger.ext rfl (map_modify _ _ fun _ => rfl) rfl rfl rfl rfl rfl rfl

theorem ledger_addAttribute {m m' : Model} {owner : Token} {a : Attribute}
    (h : m.addAttribute owner a = .ok m') : m'.ledger = m.ledger := by
  unfold addAttribute at h
  split at h
  · split at h
    · rw [← Except.ok.inj h]
      exact Ledger.ext (map_modify _ _ fun _ => rfl) rfl rfl rfl rfl rfl rfl rfl
    · cases h
  · split at h
    · rw [← Except.ok.inj h]
      exact Ledger.ext rfl (map_modify _ _ fun _ => rfl) rfl rfl rfl rfl rfl rfl
    · cases h
  · cases h

end Model

/-! ## Additions -/

/-- The generic parameters that drafts become: their numbers count from `number` on, their tokens
from the end of the table. -/
def GenericDraft.define (owner : Token) (number size : Nat) (drafts : List GenericDraft) :
    List GenericParamDef :=
  drafts.mapIdx fun i draft =>
    { token := Token.next .genericParam (size + i), name := draft.name, number := number + i,
      owner, flags := draft.flags, constraints := draft.constraints, attributes := [] }

namespace Model

/-- The generic parameters that an operation adds for an owner. -/
def newGenerics (m : Model) (owner : Token) (drafts : List GenericDraft) :
    List GenericParamDef :=
  GenericDraft.define owner 0 m.genericParams.size drafts

theorem addGenericsFrom_define (m : Model) (owner : Token) (number : Nat)
    (drafts : List GenericDraft) :
    m.addGenericsFrom owner number drafts =
      ((GenericDraft.define owner number m.genericParams.size drafts).map (·.token),
        { m with
          genericParams := m.genericParams ++
            (GenericDraft.define owner number m.genericParams.size drafts).toArray }) := by
  induction drafts generalizing m number with
  | nil => simp [addGenericsFrom, GenericDraft.define]
  | cons draft rest ih =>
    rw [addGenericsFrom, ih]
    simp only [GenericDraft.define, List.mapIdx_cons, Array.size_push, Nat.add_right_comm,
      Nat.add_assoc, Nat.add_zero, List.map_cons]
    simp

theorem addGenerics_define (m : Model) (owner : Token) (drafts : List GenericDraft) :
    m.addGenerics owner drafts =
      ((m.newGenerics owner drafts).map (·.token),
        { m with genericParams := m.genericParams ++ (m.newGenerics owner drafts).toArray }) :=
  addGenericsFrom_define m owner 0 drafts

/-- The assembly that an operation adds. -/
def newAssembly (m : Model) (name : String) : AssemblyDef where
  token := Token.next .assembly m.assemblies.size
  name := name
  modules := [Token.next .module m.modules.size]
  attributes := []

/-- The type that an operation adds, before it has members. -/
def newType (m : Model) (d : TypeDraft) : TypeDef :=
  let token := Token.next .typeDef m.types.size
  { token, space := d.space, name := d.name, lookupName := m.lookupNameOf d, flags := d.flags,
    assembly := d.assembly, module := m.mainModule d.assembly, declaringType := d.declaringType,
    base := d.base, interfaces := d.interfaces, fields := [], methods := [], properties := [],
    events := [], nestedTypes := [],
    genericParams := (m.newGenerics token d.generics).map (·.token), attributes := d.attributes }

/-- The method that an operation adds. -/
def newMethod (m : Model) (d : MethodDraft) : MethodDef :=
  let token := Token.next .methodDef m.methods.size
  { token, name := d.name, declaringType := d.declaringType, access := d.access,
    layout := d.layout, modifiers := d.modifiers, semantics := 0, accessorOf := none,
    params := d.params, result := d.result,
    genericParams := (m.newGenerics token d.generics).map (·.token), overrides := d.overrides,
    body := d.body, attributes := d.attributes }

/-- The field that an operation adds. -/
def newField (m : Model) (d : FieldDraft) : FieldDef where
  token := Token.next .field m.fields.size
  name := d.name
  flags := d.flags
  declaringType := d.declaringType
  type := d.type
  attributes := d.attributes
  marshal := d.marshal

/-- The property that an operation adds. -/
def newProperty (m : Model) (d : PropertyDraft) : PropertyDef where
  token := Token.next .property m.properties.size
  name := d.name
  declaringType := d.declaringType
  type := d.type
  getter := d.getter
  setter := d.setter
  other := d.other
  attributes := d.attributes

/-- The event that an operation adds. -/
def newEvent (m : Model) (d : EventDraft) : EventDef where
  token := Token.next .event m.events.size
  name := d.name
  declaringType := d.declaringType
  type := d.type
  adder := d.adder
  remover := d.remover
  raiser := d.raiser
  attributes := d.attributes

/-! What each operation adds to the ledger. -/

def addedAssembly (m : Model) (name : String) : Ledger where
  assemblies := [m.newAssembly name]
  modules :=
    [{ token := Token.next .module m.modules.size, name := name ++ ".dll",
       assembly := Token.next .assembly m.assemblies.size, types := [], attributes := [] }]

def addedType (m : Model) (d : TypeDraft) : Ledger where
  types := [m.newType d]
  genericParams := m.newGenerics (Token.next .typeDef m.types.size) d.generics

def addedMethod (m : Model) (d : MethodDraft) : Ledger where
  methods := [m.newMethod d]
  genericParams := m.newGenerics (Token.next .methodDef m.methods.size) d.generics

def addedField (m : Model) (d : FieldDraft) : Ledger where
  fields := [m.newField d]

def addedProperty (m : Model) (d : PropertyDraft) : Ledger where
  properties := [m.newProperty d]

def addedEvent (m : Model) (d : EventDraft) : Ledger where
  events := [m.newEvent d]

theorem ledger_addAssembly (m : Model) (name : String) :
    (m.addAssembly name).2.ledger = m.ledger ++ m.addedAssembly name := by
  ext1 <;> simp [ledger, addAssembly, addedAssembly, newAssembly, AssemblyDef.bare, ModuleDef.bare]

theorem ledger_addType (m : Model) (d : TypeDraft) :
    (m.addType d).2.ledger = m.ledger ++ m.addedType d := by
  have pushed (listed : Model) (e : TypeDef) :
      ({ listed with types := listed.types.push e } : Model).ledger =
        listed.ledger ++ { types := [e.bare] } := by
    ext1 <;> simp [ledger]
  rw [addType, addGenerics_define]
  dsimp only
  rw [pushed, ledger_listType]
  ext1 <;> simp [ledger, addedType, newType, TypeDef.bare]

theorem ledger_addMethod (m : Model) (d : MethodDraft) :
    (m.addMethod d).2.ledger = m.ledger ++ m.addedMethod d := by
  rw [addMethod, addGenerics_define]
  refine (ledger_updateType _ d.declaringType (by intro _; rfl)).trans ?_
  ext1 <;> simp [ledger, addedMethod, newMethod, MethodDef.bare]

theorem ledger_addField (m : Model) (d : FieldDraft) :
    (m.addField d).2.ledger = m.ledger ++ m.addedField d := by
  refine (ledger_updateType _ d.declaringType (by intro _; rfl)).trans ?_
  ext1 <;> simp [ledger, addedField, newField]

theorem ledger_addProperty (m : Model) (d : PropertyDraft) :
    (m.addProperty d).2.ledger = m.ledger ++ m.addedProperty d := by
  have pushed (linked : Model) (e : PropertyDef) :
      ({ linked with properties := linked.properties.push e } : Model).ledger =
        linked.ledger ++ { properties := [e] } := by
    ext1 <;> simp [ledger]
  refine (ledger_updateType _ d.declaringType (by intro _; rfl)).trans ?_
  rw [pushed, ledger_linkAccessors]
  rfl

theorem ledger_addEvent (m : Model) (d : EventDraft) :
    (m.addEvent d).2.ledger = m.ledger ++ m.addedEvent d := by
  have pushed (linked : Model) (e : EventDef) :
      ({ linked with events := linked.events.push e } : Model).ledger =
        linked.ledger ++ { events := [e] } := by
    ext1 <;> simp [ledger]
  refine (ledger_updateType _ d.declaringType (by intro _; rfl)).trans ?_
  rw [pushed, ledger_linkAccessors]
  rfl

/-! ## Lookup while a ledger grows -/

section

variable {m m' : Model} {new : Ledger} (h : m'.ledger = m.ledger ++ new)
include h

/-- A model with less in its ledger has smaller tables. -/
theorem fits_of_ledger (fits : m'.Fits) : m.Fits := by
  intro table
  have hsize := fits table
  rw [← length_tokens, h, Ledger.tokens_append, List.length_append, length_tokens] at hsize
  omega

/-- What a token finds stays as it is. -/
theorem definition?_of_ledger {t : Token} {d : Definition} (hd : m.definition? t = some d) :
    m'.definition? t = some d := by
  cases htable : t.table? with
  | none =>
    rw [definition?, htable] at hd
    cases hd
  | some table =>
    have hin := Token.isIn_of_table? htable
    rw [definition?_eq_at? m hin] at hd
    rw [definition?_eq_at? m' hin, h, Ledger.rows_append]
    exact Ledger.at?_append hd _

/-- What was added last to a table is found by the token that was next. -/
theorem definition?_next (fits : m'.Fits) {table : Table} {d : Definition}
    (hnew : new.rows table = [d]) :
    m'.definition? (Token.next table (m.size table)) = some d := by
  have hlength : (m.ledger.rows table).length = m.size table := by
    rw [← length_tokens, Ledger.tokens, List.length_map]
  have hsize := fits table
  rw [← length_tokens, h, Ledger.tokens_append, List.length_append, length_tokens,
    Ledger.tokens, hnew] at hsize
  rw [definition?_eq_at? m' (isIn_next table _), h, Ledger.rows_append, hnew]
  exact Ledger.at?_next hlength hsize d

end

end Model

end CilTrim
