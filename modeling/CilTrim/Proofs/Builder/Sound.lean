import CilTrim.Proofs.Builder.Names
import CilTrim.Proofs.Builder.Rolls

/-!
# Ledgers of built models

What every definition of a built model satisfies, said of the ledger. As a ledger only grows, what
holds of a definition keeps holding, and an operation has to give it for what it adds:

* `Ledger.Sound`: definitions are numbered by their rows and refer to what is there, with
  `Ledger.Sound.append` for additions;
* `Model.Built.sound`: what is built and fits has a sound ledger, and lists in step with it.
-/

namespace CilTrim

namespace Ledger

variable {L new : Ledger}

/-! ## What holds of definitions -/

/-- An assembly has one module, which belongs to it. -/
def Home (L : Ledger) (d : AssemblyDef) : Prop :=
  ∃ x md, d.modules = [x] ∧ L.module? x = some md ∧ md.assembly = d.token

/-- The module of a type belongs to its assembly. -/
def Housed (L : Ledger) (d : TypeDef) : Prop :=
  ∃ md, L.module? d.module = some md ∧ md.assembly = d.assembly

/-- A generic parameter stands at its number in the list of its owner, a type or a method. -/
def InPlace (L : Ledger) (p : GenericParamDef) : Prop :=
  (∃ d, L.type? p.owner = some d ∧ d.genericParams[p.number]? = some p.token) ∨
    ∃ d, L.method? p.owner = some d ∧ d.genericParams[p.number]? = some p.token

theorem Home.append {d : AssemblyDef} (h : L.Home d) (new : Ledger) : (L ++ new).Home d := by
  obtain ⟨x, md, hx, hmd, ha⟩ := h
  exact ⟨x, md, hx, at?_append hmd _, ha⟩

theorem Housed.append {d : TypeDef} (h : L.Housed d) (new : Ledger) : (L ++ new).Housed d := by
  obtain ⟨md, hmd, ha⟩ := h
  exact ⟨md, at?_append hmd _, ha⟩

theorem InPlace.append {p : GenericParamDef} (h : L.InPlace p) (new : Ledger) :
    (L ++ new).InPlace p :=
  h.imp (fun ⟨d, hd, hp⟩ => ⟨d, at?_append hd _, hp⟩) fun ⟨d, hd, hp⟩ => ⟨d, at?_append hd _, hp⟩

/-- Definitions hold the tokens of their rows and refer to what is there. -/
structure Sound (L : Ledger) : Prop where
  numbered (table : Table) (i : Nat) (t : Token) : (L.tokens table)[i]? = some t →
    t = Token.next table i
  home : ∀ d ∈ L.assemblies, L.Home d
  housed : ∀ d ∈ L.types, L.Housed d
  ordered : L.Ordered
  named : ∀ d ∈ L.types, L.Named d.token d.lookupName
  inPlace : ∀ p ∈ L.genericParams, L.InPlace p

theorem Sound.empty : Sound {} where
  numbered table i t h := by cases table <;> cases h
  home _ h := by cases h
  housed _ h := by cases h
  ordered i d outer h := by cases h
  named _ h := by cases h
  inPlace _ h := by cases h

/-- Additions keep a ledger sound if what is added is. -/
theorem Sound.append (h : L.Sound)
    (numbered : ∀ (table : Table) (i : Nat) (t : Token), (new.tokens table)[i]? = some t →
      t = Token.next table ((L.tokens table).length + i))
    (home : ∀ d ∈ new.assemblies, (L ++ new).Home d)
    (housed : ∀ d ∈ new.types, (L ++ new).Housed d)
    (ordered : ∀ (i : Nat) (d : TypeDef) (outer : Token), new.types[i]? = some d →
      d.declaringType = some outer →
        ∃ j < L.types.length + i, outer.index? .typeDef = some j)
    (named : ∀ d ∈ new.types, (L ++ new).Named d.token d.lookupName)
    (inPlace : ∀ p ∈ new.genericParams, (L ++ new).InPlace p) : (L ++ new).Sound where
  numbered table i t ht := by
    rw [tokens_append, List.getElem?_append] at ht
    split at ht
    · exact h.numbered table i t ht
    · rw [numbered table _ t ht]
      congr 1
      omega
  home d hd := (List.mem_append.mp hd).elim (fun hd => (h.home d hd).append new) (home d)
  housed d hd := (List.mem_append.mp hd).elim (fun hd => (h.housed d hd).append new) (housed d)
  ordered i d outer hd ho := by
    rw [types_append, List.getElem?_append] at hd
    split at hd
    · exact h.ordered i d outer hd ho
    · obtain ⟨j, hj, houter⟩ := ordered _ d outer hd ho
      exact ⟨j, by omega, houter⟩
  named d hd := (List.mem_append.mp hd).elim (fun hd => (h.named d hd).append new) (named d)
  inPlace p hp := (List.mem_append.mp hp).elim (fun hp => (h.inPlace p hp).append new) (inPlace p)

/-- A table to which one definition is added. -/
theorem numbered_single {table : Table} {size i : Nat} {d : Definition} {t : Token}
    (hd : d.token = Token.next table size) (h : ([d].map (·.token))[i]? = some t) :
    t = Token.next table (size + i) := by
  rw [List.map_singleton, List.getElem?_singleton] at h
  split at h
  · rename_i hi
    rw [hi, Nat.add_zero, ← hd, Option.some.inj h]
  · cases h

/-! ## Generic parameters -/

/-- New generic parameters are numbered and hold the tokens of their rows. -/
theorem define_getElem? {owner : Token} {number size i : Nat} {drafts : List GenericDraft}
    {p : GenericParamDef} (h : (GenericDraft.define owner number size drafts)[i]? = some p) :
    p.token = Token.next .genericParam (size + i) ∧ p.number = number + i ∧ p.owner = owner := by
  rw [GenericDraft.define, List.getElem?_mapIdx] at h
  obtain ⟨draft, -, rfl⟩ := Option.map_eq_some_iff.mp h
  exact ⟨rfl, rfl, rfl⟩

end Ledger

namespace Model

open Ledger

variable {m : Model}

/-- A new generic parameter stands at its number among the new ones. -/
theorem newGenerics_getElem? {owner : Token} {drafts : List GenericDraft} {p : GenericParamDef}
    (h : p ∈ m.newGenerics owner drafts) :
    p.owner = owner ∧ ((m.newGenerics owner drafts).map (·.token))[p.number]? = some p.token := by
  obtain ⟨i, hi⟩ := List.mem_iff_getElem?.mp h
  obtain ⟨-, hnumber, howner⟩ := define_getElem? hi
  rw [hnumber, Nat.zero_add, List.getElem?_map, hi]
  exact ⟨howner, rfl⟩

theorem newGenerics_numbered {owner : Token} {drafts : List GenericDraft} {i : Nat} {t : Token}
    (h : (tokens { genericParams := m.newGenerics owner drafts } .genericParam)[i]? = some t) :
    t = Token.next .genericParam (m.size .genericParam + i) := by
  rw [tokens, rows, List.map_map, List.getElem?_map] at h
  obtain ⟨p, hp, rfl⟩ := Option.map_eq_some_iff.mp h
  exact (define_getElem? hp).1

/-! ## Tables of models with a sound ledger -/

/-- A table that the ledger shows is numbered. -/
theorem numbered_rows (h : m.ledger.Sound) {α : Type} {table : Table} {rows : Array α}
    {token : α → Token} (hrows : m.ledger.tokens table = rows.toList.map token) :
    Rows.Numbered table token rows := by
  intro i d hd
  apply h.numbered table
  rw [hrows, List.getElem?_map, Array.getElem?_toList, hd, Option.map_some]

theorem numbered_assemblies (h : m.ledger.Sound) :
    Rows.Numbered .assembly (·.token) m.assemblies :=
  numbered_rows h (by simp [tokens, rows, Definition.token, ledger])

theorem numbered_modules (h : m.ledger.Sound) : Rows.Numbered .module (·.token) m.modules :=
  numbered_rows h (by simp [tokens, rows, Definition.token, ledger])

theorem numbered_types (h : m.ledger.Sound) : Rows.Numbered .typeDef (·.token) m.types :=
  numbered_rows h (by simp [tokens, rows, Definition.token, ledger])

/-- The first module of an assembly belongs to it. -/
theorem mainModule_ledger (h : m.ledger.Sound) {assembly : Token}
    (ha : (m.assembly? assembly).isSome) :
    ∃ md, m.ledger.module? (m.mainModule assembly) = some md ∧ md.assembly = assembly := by
  obtain ⟨d, hd⟩ := Option.isSome_iff_exists.mp ha
  obtain ⟨x, md, hx, hmd, hassembly⟩ :=
    h.home d.bare (List.mem_map_of_mem (Rows.mem_of_find? hd))
  have hmodules : d.modules = [x] := hx
  have htoken : d.token = assembly := (numbered_assemblies h).token_of_find? hd
  refine ⟨md, ?_, hassembly.trans htoken⟩
  rw [mainModule, hd, Option.bind_some, hmodules]
  exact hmd

/-! ## Operations -/

theorem sound_addAssembly (h : m.ledger.Sound) (name : String)
    (room : m.modules.size + 1 < Token.rowLimit) : (m.addAssembly name).2.ledger.Sound := by
  rw [ledger_addAssembly]
  refine h.append (fun table i t ht => ?_) (fun d hd => ?_) nofun nofun nofun nofun
  · rw [length_tokens]
    cases table with
    | assembly | module => exact numbered_single rfl ht
    | _ => cases ht
  · rw [List.mem_singleton.mp hd]
    exact ⟨_, _, rfl, at?_next (by simp [ledger]) room _, rfl⟩

/-- A new type has got its name. -/
theorem named_newType (h : m.ledger.Sound) (d : TypeDraft)
    (room : m.types.size + 1 < Token.rowLimit)
    (henclosing : ∀ outer, d.declaringType = some outer → (m.type? outer).isSome) :
    (m.ledger ++ m.addedType d).Named (Token.next .typeDef m.types.size) (m.lookupNameOf d) := by
  have found : (m.ledger ++ m.addedType d).type? (Token.next .typeDef m.types.size) =
      some (m.newType d) :=
    at?_next (by simp [ledger]) room _
  unfold lookupNameOf
  cases ho : d.declaringType with
  | none => exact .outermost found ho
  | some outer =>
    obtain ⟨e, he⟩ := Option.isSome_iff_exists.mp (henclosing outer ho)
    have named := h.named e.bare (List.mem_map_of_mem (Rows.mem_of_find? he))
    rw [TypeDef.bare_token, (numbered_types h).token_of_find? he] at named
    rw [← fullName_of_named h.ordered named] at named
    exact .nested found ho (named.append _)

theorem sound_addType (h : m.ledger.Sound) (d : TypeDraft)
    (room : m.types.size + 1 < Token.rowLimit) (hassembly : (m.assembly? d.assembly).isSome)
    (henclosing : ∀ outer, d.declaringType = some outer → (m.type? outer).isSome) :
    (m.addType d).2.ledger.Sound := by
  have hlength : m.ledger.types.length = m.types.size := by simp [ledger]
  rw [ledger_addType]
  refine h.append (fun table i t ht => ?_) (List.forall_mem_nil _) (fun e he => ?_)
    (fun i e outer he ho => ?_) (fun e he => ?_) (fun p hp => ?_)
  · rw [length_tokens]
    cases table with
    | typeDef => exact numbered_single rfl ht
    | genericParam => exact newGenerics_numbered ht
    | _ => cases ht
  · rw [List.mem_singleton.mp he]
    obtain ⟨md, hmd, hmodule⟩ := mainModule_ledger h hassembly
    exact ⟨md, at?_append hmd _, hmodule⟩
  · rw [addedType, List.getElem?_singleton] at he
    split at he
    · rw [← Option.some.inj he] at ho
      obtain ⟨e, he⟩ := Option.isSome_iff_exists.mp (henclosing outer ho)
      obtain ⟨j, hj, hrow⟩ := Option.bind_eq_some_iff.mp he
      have hlt := (Array.getElem?_eq_some_iff.mp hrow).1
      exact ⟨j, by omega, hj⟩
    · cases he
  · rw [List.mem_singleton.mp he]
    exact named_newType h d room henclosing
  · obtain ⟨howner, hnumber⟩ := newGenerics_getElem? hp
    exact .inl ⟨m.newType d, by rw [howner]; exact at?_next hlength room _, hnumber⟩

theorem sound_addMethod (h : m.ledger.Sound) (d : MethodDraft)
    (room : m.methods.size + 1 < Token.rowLimit) : (m.addMethod d).2.ledger.Sound := by
  rw [ledger_addMethod]
  refine h.append (fun table i t ht => ?_) nofun nofun nofun nofun (fun p hp => ?_)
  · rw [length_tokens]
    cases table with
    | methodDef => exact numbered_single rfl ht
    | genericParam => exact newGenerics_numbered ht
    | _ => cases ht
  · obtain ⟨howner, hnumber⟩ := newGenerics_getElem? hp
    exact .inr
      ⟨m.newMethod d, by rw [howner]; exact at?_next (by simp [ledger]) room _, hnumber⟩

theorem sound_addField (h : m.ledger.Sound) (d : FieldDraft) : (m.addField d).2.ledger.Sound := by
  rw [ledger_addField]
  refine h.append (fun table i t ht => ?_) nofun nofun nofun nofun nofun
  rw [length_tokens]
  cases table with
  | field => exact numbered_single rfl ht
  | _ => cases ht

theorem sound_addProperty (h : m.ledger.Sound) (d : PropertyDraft) :
    (m.addProperty d).2.ledger.Sound := by
  rw [ledger_addProperty]
  refine h.append (fun table i t ht => ?_) nofun nofun nofun nofun nofun
  rw [length_tokens]
  cases table with
  | property => exact numbered_single rfl ht
  | _ => cases ht

theorem sound_addEvent (h : m.ledger.Sound) (d : EventDraft) : (m.addEvent d).2.ledger.Sound := by
  rw [ledger_addEvent]
  refine h.append (fun table i t ht => ?_) nofun nofun nofun nofun nofun
  rw [length_tokens]
  cases table with
  | event => exact numbered_single rfl ht
  | _ => cases ht

/-- What is built and fits has a sound ledger, and every list is in step with it. -/
theorem Built.sound {returned : List Token} (h : Built returned m) (fits : m.Fits) :
    m.ledger.Sound ∧ m.Enrolled := by
  induction h with
  | empty => exact ⟨.empty, .empty⟩
  | @assembly _ m name _ ih =>
    obtain ⟨sound, enrolled⟩ := ih ((Extends.addAssembly m name).fits fits)
    have room : m.modules.size + 1 < Token.rowLimit := by
      simpa only [size, addAssembly, Array.size_push] using fits .module
    exact ⟨sound_addAssembly sound name room, enrolled.grow (.addAssembly m name room)⟩
  | @corlib _ m assembly _ ih =>
    obtain ⟨sound, enrolled⟩ := ih fits
    exact ⟨sound, enrolled.grow (.setCorlib m assembly)⟩
  | @type _ m d built ha ho ih =>
    have fits₀ := (Extends.addType m d).fits fits
    obtain ⟨sound, enrolled⟩ := ih fits₀
    have known := (built.known fits₀).2
    have hassembly := (known _ ha.1).assembly ha.2
    have henclosing (outer : Token) (h : d.declaringType = some outer) :=
      (known _ (ho outer h).1).type (ho outer h).2
    have room : m.types.size + 1 < Token.rowLimit := size_addType m d ▸ fits .typeDef
    refine ⟨sound_addType sound d room hassembly henclosing,
      enrolled.grow (.addType m d room ?_ henclosing)⟩
    obtain ⟨md, hmd, -⟩ := mainModule_ledger sound hassembly
    rw [module?_ledger] at hmd
    obtain ⟨module, hmodule, -⟩ := Option.map_eq_some_iff.mp hmd
    rw [hmodule]
    rfl
  | @method _ m d built ho ih =>
    have fits₀ := (Extends.addMethod m d).fits fits
    obtain ⟨sound, enrolled⟩ := ih fits₀
    have howner := ((built.known fits₀).2 _ ho.1).type ho.2
    have room : m.methods.size + 1 < Token.rowLimit := by
      obtain ⟨e, he⟩ := methods_addMethod m d
      have hsize := fits .methodDef
      rwa [size, he, Array.size_push] at hsize
    exact ⟨sound_addMethod sound d room, enrolled.grow (.addMethod m d howner)⟩
  | @field _ m d built ho ih =>
    have fits₀ := (Extends.addField m d).fits fits
    obtain ⟨sound, enrolled⟩ := ih fits₀
    have howner := ((built.known fits₀).2 _ ho.1).type ho.2
    exact ⟨sound_addField sound d, enrolled.grow (.addField m d howner)⟩
  | @property _ m d built ho _ ih =>
    have fits₀ := (Extends.addProperty m d).fits fits
    obtain ⟨sound, enrolled⟩ := ih fits₀
    have howner := ((built.known fits₀).2 _ ho.1).type ho.2
    exact ⟨sound_addProperty sound d, enrolled.grow (.addProperty m d howner)⟩
  | @event _ m d built ho _ ih =>
    have fits₀ := (Extends.addEvent m d).fits fits
    obtain ⟨sound, enrolled⟩ := ih fits₀
    have howner := ((built.known fits₀).2 _ ho.1).type ho.2
    exact ⟨sound_addEvent sound d, enrolled.grow (.addEvent m d howner)⟩
  | attributed owner a _ ha ih =>
    obtain ⟨sound, enrolled⟩ := ih ((Extends.addAttribute ha).fits fits)
    exact ⟨ledger_addAttribute ha ▸ sound, enrolled.grow (.addAttribute ha)⟩

end Model

end CilTrim
