import CilTrim.Proofs.Builder.Ledger

/-!
# Lookup by name

A builder enters each assembly under its name, and each type under its assembly and the full name
that it has by then. What is entered under a key takes the place of what was entered there before.
Lookup by name is such an index:

* `Model.findAssembly?_addAssembly`, `Model.findType?_addType`: what is added is found under its
  key, and lookup under all other keys stays;
* `Model.findAssembly?_of_ledger`, `Model.findType?_of_ledger`: what adds no assembly or no type
  leaves lookup as it is;
* `Rows.Latest`, `Rows.Indexed`: an index holds, for a key, the last row with it, which each
  insertion keeps;
* `Model.Built.indexed`: so lookup in a built model finds the last assembly and the last type.
-/

namespace CilTrim

/-! ## Indexes of tables -/

namespace Rows

/-- The last row of a table with a property. -/
def Latest {α : Type} (rows : Array α) (p : α → Prop) (d : α) : Prop :=
  ∃ i : Nat, rows[i]? = some d ∧ p d ∧ ∀ (j : Nat) (e : α), i < j → rows[j]? = some e → ¬ p e

variable {α : Type} {rows : Array α} {p : α → Prop}

theorem Latest.mem {d : α} (h : Latest rows p d) : d ∈ rows.toList := by
  obtain ⟨i, hi, -⟩ := h
  exact Array.mem_toList_iff.mpr (Array.mem_of_getElem? hi)

/-- What is the last with a property is also the last with one that the same rows have. -/
theorem latest_congr {q : α → Prop} (h : ∀ d ∈ rows.toList, p d ↔ q d) (d : α) :
    Latest rows p d ↔ Latest rows q d := by
  have row {i : Nat} {e : α} (he : rows[i]? = some e) : p e ↔ q e :=
    h e (Array.mem_toList_iff.mpr (Array.mem_of_getElem? he))
  exact exists_congr fun i => and_congr_right fun hi => and_congr (row hi)
    (forall₄_congr fun j e _ he => not_congr (row he))

/-- The last row of what is seen of a table is what is seen of its last row. -/
theorem latest_map {β : Type} {view : α → β} {q : β → Prop} {e : β} :
    Latest (rows.map view) q e ↔ ∃ d, view d = e ∧ Latest rows (fun d => q (view d)) d := by
  simp only [Latest, Array.getElem?_map, Option.map_eq_some_iff]
  constructor
  · rintro ⟨i, ⟨d, hd, rfl⟩, hq, later⟩
    exact ⟨d, rfl, i, hd, hq, fun j d' hj hd' => later j _ hj ⟨d', hd', rfl⟩⟩
  · rintro ⟨d, rfl, i, hd, hq, later⟩
    refine ⟨i, ⟨d, hd, rfl⟩, hq, ?_⟩
    rintro j _ hj ⟨d', hd', rfl⟩
    exact later j d' hj hd'

/-- A new row is the last if it has the property; otherwise the last one stays. -/
theorem latest_push {d e : α} :
    Latest (rows.push e) p d ↔ p e ∧ d = e ∨ ¬ p e ∧ Latest rows p d := by
  have earlier {i : Nat} {d : α} (hd : rows[i]? = some d) :
      i < rows.size ∧ (rows.push e)[i]? = some d := by
    have hlt := (Array.getElem?_eq_some_iff.mp hd).1
    exact ⟨hlt, by rw [Array.getElem?_push, if_neg (by omega), hd]⟩
  constructor
  · rintro ⟨i, hd, hp, later⟩
    rw [Array.getElem?_push] at hd
    split at hd
    · obtain rfl := Option.some.inj hd
      exact .inl ⟨hp, rfl⟩
    · refine .inr ⟨later rows.size e (earlier hd).1 Array.getElem?_push_size, i, hd, hp, ?_⟩
      exact fun j d' hj hd' => later j d' hj (earlier hd').2
  · rintro (⟨hp, rfl⟩ | ⟨hp, i, hd, hq, later⟩)
    · refine ⟨rows.size, Array.getElem?_push_size, hp, fun j d' hj hd' => ?_⟩
      have := (Array.getElem?_eq_some_iff.mp hd').1
      rw [Array.size_push] at this
      omega
    · refine ⟨i, (earlier hd).2, hq, fun j d' hj hd' => ?_⟩
      rw [Array.getElem?_push] at hd'
      split at hd'
      · exact Option.some.inj hd' ▸ hp
      · exact later j d' hj hd'

/-- An index of a table holds, for a key, the token of the last row with it. -/
def Indexed {κ : Type} (rows : Array α) (key : α → κ) (token : α → Token)
    (index : κ → Option Token) : Prop :=
  ∀ k t, index k = some t ↔ ∃ d, token d = t ∧ Latest rows (key · = k) d

section

variable {κ : Type} {key : α → κ} {token : α → Token} {index : κ → Option Token}

/-- An index of what is seen of a table is an index of the table. -/
theorem Indexed.of_map {β : Type} {rows : Array β} {view : β → α}
    (h : Indexed (rows.toList.map view).toArray key token index) :
    Indexed rows (fun d => key (view d)) (fun d => token (view d)) index := by
  rw [← Array.toList_map, Array.toArray_toList] at h
  intro k t
  rw [h]
  simp only [latest_map]
  constructor
  · rintro ⟨_, rfl, d, rfl, latest⟩
    exact ⟨d, rfl, latest⟩
  · rintro ⟨d, rfl, latest⟩
    exact ⟨view d, rfl, d, rfl, latest⟩

/-- Nothing is found in an empty table. -/
theorem Indexed.empty (h : ∀ k, index k = none) : Indexed #[] key token index := by
  intro k t
  rw [h]
  refine ⟨nofun, ?_⟩
  rintro ⟨d, -, i, hd, -⟩
  cases hd

/-- An insertion for each row that is added keeps an index in step with the table. -/
theorem Indexed.push [DecidableEq κ] (h : Indexed rows key token index) {d : α}
    {index' : κ → Option Token}
    (insert : ∀ k, index' k = if key d = k then some (token d) else index k) :
    Indexed (rows.push d) key token index' := by
  intro k t
  rw [insert]
  simp only [latest_push]
  split
  · rename_i hk
    simp [hk]
  · rename_i hk
    simpa [hk] using h k t

end

end Rows

namespace Model

variable {m m' : Model}

/-! ## Assemblies -/

/-- Assemblies are looked up in the ledger. -/
theorem findAssembly?_ledger (m : Model) (name : String) :
    (m.findAssembly? name).map (·.bare) =
      m.ledger.assemblies.reverse.find? fun d => d.name == name := by
  rw [findAssembly?, ledger, ← List.map_reverse, List.find?_map]
  rfl

/-- An added assembly is found under its name; under all other names lookup stays. -/
theorem findAssembly?_addAssembly (m : Model) (added name : String) :
    (m.addAssembly added).2.findAssembly? name =
      if added = name then some (m.newAssembly added) else m.findAssembly? name := by
  let p (d : AssemblyDef) : Bool := d.name == name
  have hp : p (m.newAssembly added) = true ↔ added = name := beq_iff_eq
  have pushed : (m.addAssembly added).2.assemblies = m.assemblies.push (m.newAssembly added) := rfl
  rw [findAssembly?, pushed, Array.toList_push, List.reverse_append, List.reverse_singleton,
    List.singleton_append, findAssembly?]
  split
  · rename_i h
    rw [List.find?_cons_of_pos (hp.mpr h)]
  · rename_i h
    rw [List.find?_cons_of_neg (mt hp.mp h)]

/-- What adds no assembly finds the assemblies that were found before. -/
theorem findAssembly?_of_ledger (h : m'.ledger.assemblies = m.ledger.assemblies) (name : String) :
    (m'.findAssembly? name).map (·.bare) = (m.findAssembly? name).map (·.bare) := by
  rw [findAssembly?_ledger, findAssembly?_ledger, h]

/-! ## Types -/

/-- Types are looked up in the ledger. -/
theorem findType?_ledger (m : Model) (assembly : Token) (name : String) :
    m.findType? assembly name =
      (m.ledger.types.reverse.find? fun d =>
        d.assembly == assembly && d.lookupName == name).map (·.token) := by
  rw [findType?, ledger, ← List.map_reverse, List.find?_map, Option.map_map]
  rfl

/-- An added type is found under its name in its assembly; under all other names lookup stays. -/
theorem findType?_addType (m : Model) (d : TypeDraft) (assembly : Token) (name : String) :
    (m.addType d).2.findType? assembly name =
      if d.assembly = assembly ∧ m.lookupNameOf d = name then some (m.addType d).1
      else m.findType? assembly name := by
  let p (e : TypeDef) : Bool := e.assembly == assembly && e.lookupName == name
  have hp : p (m.newType d) = true ↔ d.assembly = assembly ∧ m.lookupNameOf d = name := by
    simp [p, newType]
  rw [findType?_ledger, ledger_addType, Ledger.types_append, addedType, List.reverse_append,
    List.reverse_singleton, List.singleton_append, findType?_ledger]
  split
  · rename_i h
    rw [List.find?_cons_of_pos (hp.mpr h)]
    rfl
  · rename_i h
    rw [List.find?_cons_of_neg (mt hp.mp h)]

/-- What adds no type finds the types that were found before. -/
theorem findType?_of_ledger (h : m'.ledger.types = m.ledger.types) (assembly : Token)
    (name : String) : m'.findType? assembly name = m.findType? assembly name := by
  rw [findType?_ledger, findType?_ledger, h]

/-! ## Lookup in built models -/

/-- Lookup by name finds the last row of the ledger. -/
structure Indexed (m : Model) : Prop where
  assemblies : Rows.Indexed m.ledger.assemblies.toArray (·.name) (·.token)
    fun name => (m.findAssembly? name).map (·.token)
  types : Rows.Indexed m.ledger.types.toArray (fun d => (d.assembly, d.lookupName)) (·.token)
    fun key => m.findType? key.1 key.2

namespace Indexed

theorem empty : Model.empty.Indexed where
  assemblies := .empty fun _ => rfl
  types := .empty fun _ => rfl

/-- The token under a name stays where no assembly is added. -/
theorem token_of_ledger (h : m'.ledger.assemblies = m.ledger.assemblies) (name : String) :
    (m'.findAssembly? name).map (·.token) = (m.findAssembly? name).map (·.token) := by
  simpa only [Option.map_map, Function.comp_def, AssemblyDef.bare_token] using
    congrArg (·.map AssemblyDef.token) (findAssembly?_of_ledger h name)

theorem addAssembly (h : m.Indexed) (added : String) : (m.addAssembly added).2.Indexed where
  assemblies := by
    rw [ledger_addAssembly, Ledger.assemblies_append, addedAssembly, ← List.push_toArray]
    refine h.assemblies.push fun name => ?_
    rw [findAssembly?_addAssembly]
    exact apply_ite (Option.map AssemblyDef.token) _ _ _
  types := by
    have same : (m.addAssembly added).2.ledger.types = m.ledger.types := by
      rw [ledger_addAssembly]
      exact List.append_nil _
    simpa only [same, findType?_of_ledger same] using h.types

theorem addType (h : m.Indexed) (d : TypeDraft) : (m.addType d).2.Indexed where
  assemblies := by
    have same : (m.addType d).2.ledger.assemblies = m.ledger.assemblies := by
      rw [ledger_addType]
      exact List.append_nil _
    simpa only [same, token_of_ledger same] using h.assemblies
  types := by
    rw [ledger_addType, Ledger.types_append, addedType, ← List.push_toArray]
    refine h.types.push fun key => ?_
    rw [findType?_addType]
    exact if_congr Prod.mk_inj.symm rfl rfl

/-- What adds neither an assembly nor a type leaves lookup as it is. -/
theorem of_append (h : m.Indexed) {new : Ledger} (grown : m'.ledger = m.ledger ++ new)
    (assemblies : new.assemblies = []) (types : new.types = []) : m'.Indexed where
  assemblies := by
    have same : m'.ledger.assemblies = m.ledger.assemblies := by
      rw [grown, Ledger.assemblies_append, assemblies, List.append_nil]
    simpa only [same, token_of_ledger same] using h.assemblies
  types := by
    have same : m'.ledger.types = m.ledger.types := by
      rw [grown, Ledger.types_append, types, List.append_nil]
    simpa only [same, findType?_of_ledger same] using h.types

/-- Lookup of assemblies by name finds the last one. -/
theorem assemblyRows (h : m.Indexed) : Rows.Indexed m.assemblies (·.name) (·.token)
    fun name => (m.findAssembly? name).map (·.token) :=
  h.assemblies.of_map

/-- Lookup of types by name finds the last one. -/
theorem typeRows (h : m.Indexed) :
    Rows.Indexed m.types (fun d => (d.assembly, d.lookupName)) (·.token)
      fun key => m.findType? key.1 key.2 :=
  h.types.of_map

end Indexed

/-- In what was built, lookup by name finds the last row of the ledger. -/
theorem Built.indexed {returned : List Token} (h : Built returned m) : m.Indexed := by
  induction h with
  | empty => exact .empty
  | assembly name _ ih => exact ih.addAssembly name
  | type d _ _ _ ih => exact ih.addType d
  | corlib _ _ ih => exact ih.of_append (Ledger.append_nil _).symm rfl rfl
  | method d _ _ ih => exact ih.of_append (ledger_addMethod _ d) rfl rfl
  | field d _ _ ih => exact ih.of_append (ledger_addField _ d) rfl rfl
  | property d _ _ _ ih => exact ih.of_append (ledger_addProperty _ d) rfl rfl
  | event d _ _ _ ih => exact ih.of_append (ledger_addEvent _ d) rfl rfl
  | attributed _ _ _ ha ih =>
    exact ih.of_append ((ledger_addAttribute ha).trans (Ledger.append_nil _).symm) rfl rfl

end Model

end CilTrim
