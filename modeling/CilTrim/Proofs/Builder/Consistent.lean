import CilTrim.Proofs.Builder.Index
import CilTrim.Proofs.Builder.Sound
import Mathlib.Data.List.Nodup
import Mathlib.Data.List.Perm.Basic

/-!
# The representation of built models

What a model that was built looks like, said of its tables and lists:

* `Model.Consistent`: rows hold their tokens, every member and every type stands in one list and
  only once, names are names along the types around a type, and lookup by name finds the last;
* `Model.Built.consistent`: what is built and fits is consistent.
-/

namespace CilTrim

/-! ## Lists that share out entries -/

/-- The lists of all owners hold each entry once. -/
theorem flatMap_enrolled_perm {entries : List (Token × Token)} {owners : List Token}
    (unique : owners.Nodup) (covered : ∀ e ∈ entries, e.2 ∈ owners) :
    (owners.flatMap (enrolled entries)).Perm (entries.map (·.1)) := by
  induction entries with
  | nil => simp [enrolled]
  | cons e rest ih =>
    have single : owners.flatMap (fun o => if e.2 = o then [e.1] else []) = [e.1] := by
      obtain ⟨before, after, rfl⟩ := List.append_of_mem (covered e List.mem_cons_self)
      obtain ⟨-, hcons, hdisjoint⟩ := List.nodup_append.mp unique
      have hbefore : before.flatMap (fun o => if e.2 = o then [e.1] else []) = [] :=
        List.flatMap_eq_nil_iff.mpr fun o ho =>
          if_neg (hdisjoint o ho e.2 List.mem_cons_self).symm
      have hafter : after.flatMap (fun o => if e.2 = o then [e.1] else []) = [] :=
        List.flatMap_eq_nil_iff.mpr fun o ho =>
          if_neg fun heq : e.2 = o => (List.nodup_cons.mp hcons).1 (heq ▸ ho)
      rw [List.flatMap_append, List.flatMap_cons, hbefore, hafter, if_pos rfl]
      rfl
    have split : enrolled (e :: rest) =
        fun o => (if e.2 = o then [e.1] else []) ++ enrolled rest o := by
      funext o
      by_cases h : e.2 = o <;> simp [enrolled, h]
    rw [split]
    refine (List.flatMap_append_perm owners _ _).symm.trans ?_
    rw [single]
    exact (ih fun e he => covered e (List.mem_cons_of_mem _ he)).cons e.1

namespace Ledger

variable {L : Ledger}

/-- The tables whose definitions are listed. -/
def listedTables : List Table :=
  [.methodDef, .field, .property, .event, .typeDef]

/-- Every member and every type has to be listed once. -/
theorem entries_perm (L : Ledger) :
    (Listing.all.flatMap fun l => (L.entries l).map (·.1)).Perm
      (listedTables.flatMap L.tokens) := by
  have types (ds : List TypeDef) :
      ((ds.filterMap fun d => d.declaringType.map (d.token, ·)).map (·.1) ++
        (ds.filterMap fun d =>
          if d.declaringType.isNone then some (d.token, d.module) else none).map (·.1)).Perm
        (ds.map (·.token)) := by
    induction ds with
    | nil => exact .nil
    | cons d ds ih =>
      cases ho : d.declaringType with
      | some outer => simpa [ho] using ih.cons d.token
      | none => simpa [ho] using List.perm_middle.trans (ih.cons d.token)
  simpa [Listing.all, listedTables, entries, tokens, rows, Definition.token,
    Function.comp_def] using (types L.types).append_left
      (L.tokens .methodDef ++ L.tokens .field ++ L.tokens .property ++ L.tokens .event)

namespace Sound

theorem tokens_nodup (h : L.Sound) {table : Table}
    (fits : (L.tokens table).length < Token.rowLimit) : (L.tokens table).Nodup := by
  refine List.nodup_iff_getElem?_ne_getElem?.mpr fun i j hij hj he => ?_
  have hi := List.getElem?_eq_getElem (Nat.lt_trans hij hj)
  have hj' := List.getElem?_eq_getElem hj
  have heq := h.numbered table i _ hi
  rw [hi, hj', Option.some.injEq] at he
  rw [he, h.numbered table j _ hj'] at heq
  have hindex := congrArg (Token.index? · table) heq
  rw [Token.index?_next (by omega), Token.index?_next (by omega), Option.some.injEq] at hindex
  omega

theorem isIn_of_mem (h : L.Sound) {table : Table} {t : Token} (ht : t ∈ L.tokens table) :
    t.isIn table = true := by
  obtain ⟨i, hi⟩ := List.mem_iff_getElem?.mp ht
  rw [h.numbered table i t hi]
  exact Model.isIn_next table i

/-- No token is held twice. -/
theorem listed_nodup (h : L.Sound) (fits : ∀ table, (L.tokens table).length < Token.rowLimit) :
    (listedTables.flatMap L.tokens).Nodup := by
  refine List.nodup_flatMap.mpr ⟨fun table _ => h.tokens_nodup (fits table), ?_⟩
  have distinct : listedTables.Pairwise (· ≠ ·) := by decide
  exact distinct.imp fun hne t ha hb =>
    hne (Token.table_unique (h.isIn_of_mem ha) (h.isIn_of_mem hb))

end Sound

end Ledger

namespace Model

variable {m : Model}

/-- All lists of one kind. -/
def lists (m : Model) (l : Listing) : List (List Token) :=
  if l = .outermost then m.modules.toList.map (·.types) else m.types.toList.map (·.list l)

/-- The tokens in all lists of all kinds. -/
def listed (m : Model) : List Token :=
  Listing.all.flatMap fun l => (m.lists l).flatten

/-- Rows that list what the ledger says share out its entries. -/
theorem flatten_perm {α : Type} {table : Table} {rows : Array α} {token : α → Token}
    {list : α → List Token} {entries : List (Token × Token)}
    (numbered : Rows.Numbered table token rows) (fits : rows.size < Token.rowLimit)
    (hlist : ∀ t d, Rows.find? table rows t = some d → list d = enrolled entries t)
    (howner : ∀ e ∈ entries, (Rows.find? table rows e.2).isSome) :
    ((rows.toList.map list).flatten).Perm (entries.map (·.1)) := by
  have hlists : rows.toList.map list = (rows.toList.map token).map (enrolled entries) := by
    rw [List.map_map]
    exact List.map_congr_left fun d hd => hlist _ d (numbered.find?_token fits hd)
  rw [hlists]
  refine flatMap_enrolled_perm (numbered.nodup fits) fun e he => ?_
  obtain ⟨d, hd⟩ := Option.isSome_iff_exists.mp (howner e he)
  exact List.mem_map.mpr ⟨d, Rows.mem_of_find? hd, numbered.token_of_find? hd⟩

theorem Enrolled.lists_perm (h : m.Enrolled) (sound : m.ledger.Sound) (fits : m.Fits)
    (l : Listing) : ((m.lists l).flatten).Perm ((m.ledger.entries l).map (·.1)) := by
  by_cases hl : l = .outermost
  · subst hl
    rw [lists, if_pos rfl]
    refine flatten_perm (numbered_modules sound) (fits .module) (fun t d hd => ?_) fun e he => ?_
    · exact h.list (by rw [list?_outermost]; exact Option.map_eq_some_iff.mpr ⟨d, hd, rfl⟩)
    · have := h.owner he
      rwa [list?_outermost, Option.isSome_map] at this
  · rw [lists, if_neg hl]
    refine flatten_perm (numbered_types sound) (fits .typeDef) (fun t d hd => ?_) fun e he => ?_
    · exact h.list (by rw [list?_of_ne _ hl]; exact Option.map_eq_some_iff.mpr ⟨d, hd, rfl⟩)
    · have := h.owner he
      rwa [list?_of_ne _ hl, Option.isSome_map] at this

/-- What has to be listed stands in the list of its owner, and nowhere else. -/
theorem Enrolled.once (h : m.Enrolled) (sound : m.ledger.Sound) (fits : m.Fits) {l : Listing}
    {x owner : Token} (hx : (x, owner) ∈ m.ledger.entries l) :
    m.listed.count x = 1 ∧ ∃ xs, m.list? l owner = some xs ∧ x ∈ xs := by
  have hperm : m.listed.Perm (Ledger.listedTables.flatMap m.ledger.tokens) :=
    (List.Perm.flatMap_left _ fun l _ => h.lists_perm sound fits l).trans
      (Ledger.entries_perm m.ledger)
  have hnodup : m.listed.Nodup :=
    hperm.nodup_iff.mpr (sound.listed_nodup fun table => length_tokens m table ▸ fits table)
  obtain ⟨xs, hxs⟩ := Option.isSome_iff_exists.mp (h.owner hx)
  have hmem : x ∈ xs := by
    rw [h.list hxs, enrolled]
    exact List.mem_map.mpr ⟨(x, owner), List.mem_filter.mpr ⟨hx, by simp⟩, rfl⟩
  refine ⟨List.count_eq_one_of_mem hnodup ?_, xs, hxs, hmem⟩
  rw [hperm.mem_iff, ← (Ledger.entries_perm m.ledger).mem_iff]
  exact List.mem_flatMap.mpr
    ⟨l, by cases l <;> decide, List.mem_map.mpr ⟨(x, owner), hx, rfl⟩⟩

/-! ## Lookup by token -/

/-- A definition is found by the token it holds. -/
theorem exists_definition? (sound : m.ledger.Sound) (fits : m.Fits) {table : Table} {t : Token}
    (h : t ∈ m.ledger.tokens table) : ∃ d, m.definition? t = some d ∧ d.token = t := by
  have hin := sound.isIn_of_mem h
  obtain ⟨i, hi⟩ := List.mem_iff_getElem?.mp h
  have hlt : i < m.size table := length_tokens m table ▸ (List.getElem?_eq_some_iff.mp hi).1
  have room := fits table
  have hindex : t.index? table = some i := by
    rw [sound.numbered table i t hi]
    exact Token.index?_next (by omega)
  rw [Ledger.tokens, List.getElem?_map] at hi
  obtain ⟨d, hd, htoken⟩ := Option.map_eq_some_iff.mp hi
  exact ⟨d, by rw [definition?_eq_at? m hin, Ledger.at?, hindex, Option.bind_some, hd], htoken⟩

/-- A builder returns tokens of what it has added. -/
theorem Built.mem_tokens {returned : List Token} (h : Built returned m) :
    ∀ t ∈ returned, ∃ table, t ∈ m.ledger.tokens table := by
  have grown {returned : List Token} {t : Token} {L new : Ledger} (table : Table)
      (ht : t ∈ new.tokens table) (ih : ∀ t ∈ returned, ∃ table, t ∈ L.tokens table) :
      ∀ x ∈ t :: returned, ∃ table, x ∈ (L ++ new).tokens table := by
    refine List.forall_mem_cons.mpr ⟨⟨table, ?_⟩, fun x hx => ?_⟩
    · rw [Ledger.tokens_append]
      exact List.mem_append_right _ ht
    · obtain ⟨table, hx⟩ := ih x hx
      exact ⟨table, by rw [Ledger.tokens_append]; exact List.mem_append_left _ hx⟩
  induction h with
  | empty => exact fun _ h => nomatch h
  | @assembly _ m name _ ih =>
    rw [ledger_addAssembly]
    exact grown .assembly (List.mem_singleton_self _) ih
  | corlib _ _ ih => exact ih
  | @type _ m d _ _ _ ih =>
    rw [ledger_addType]
    exact grown .typeDef (List.mem_singleton_self _) ih
  | @method _ m d _ _ ih =>
    rw [ledger_addMethod]
    exact grown .methodDef (List.mem_singleton_self _) ih
  | @field _ m d _ _ ih =>
    rw [ledger_addField]
    exact grown .field (List.mem_singleton_self _) ih
  | @property _ m d _ _ _ ih =>
    rw [ledger_addProperty]
    exact grown .property (List.mem_singleton_self _) ih
  | @event _ m d _ _ _ ih =>
    rw [ledger_addEvent]
    exact grown .event (List.mem_singleton_self _) ih
  | attributed _ _ _ ha ih =>
    rw [ledger_addAttribute ha]
    exact ih

/-! ## Consistent models -/

/-- The definitions and lists of a model are what its operations should have made of them. -/
structure Consistent (returned : List Token) (m : Model) : Prop where
  /-- A row holds the token of its table and its number, counted from one. -/
  numbered (table : Table) {i : Nat} {t : Token} : (m.ledger.tokens table)[i]? = some t →
    t.isIn table = true ∧ t.row.toNat = i + 1
  /-- A returned token finds the definition that holds it. -/
  found {t : Token} : t ∈ returned → ∃ d, m.definition? t = some d ∧ d.token = t
  /-- A member stands in one list of all lists there are, that of its type. An outermost type
  stands in the list of its module, any other in that of the type around it. -/
  once {l : Listing} {x owner : Token} : (x, owner) ∈ m.ledger.entries l →
    m.listed.count x = 1 ∧ ∃ xs, m.list? l owner = some xs ∧ x ∈ xs
  /-- The module of a type is one of its assembly. -/
  housed {d : TypeDef} : d ∈ m.types.toList →
    ∃ module, m.module? d.module = some module ∧ module.assembly = d.assembly
  /-- A generic parameter stands at its number in the list of its owner. -/
  inPlace {p : GenericParamDef} : p ∈ m.genericParams.toList →
    (∃ d, m.type? p.owner = some d ∧ d.genericParams[p.number]? = some p.token) ∨
      ∃ d, m.method? p.owner = some d ∧ d.genericParams[p.number]? = some p.token
  /-- A type stands in a later row than the type around it. -/
  enclosing {d : TypeDef} {outer : Token} : d ∈ m.types.toList → d.declaringType = some outer →
    (m.type? outer).isSome ∧ outer.row.toNat < d.token.row.toNat
  /-- So the types around a type come to an end, and its name is made of their names. -/
  fullName {d : TypeDef} : d ∈ m.types.toList → m.fullName d.token =
    match d.declaringType with
    | none => d.ownName
    | some outer => m.fullName outer ++ "/" ++ d.name
  wellFounded : WellFounded fun outer t => ∃ d, m.type? t = some d ∧ d.declaringType = some outer
  /-- The index of types holds, for an assembly and a full name, the last such type. -/
  typeIndex (assembly : Token) (name : String) (t : Token) :
    m.findType? assembly name = some t ↔ ∃ d, d.token = t ∧
      Rows.Latest m.types (fun d => d.assembly = assembly ∧ m.fullName d.token = name) d
  /-- The index of assemblies holds, for a name, the last such assembly. -/
  assemblyIndex (name : String) (d : AssemblyDef) :
    m.findAssembly? name = some d ↔ Rows.Latest m.assemblies (·.name = name) d

section

variable (sound : m.ledger.Sound) (fits : m.Fits)
include sound

theorem row_of_getElem? {table : Table} {i : Nat} {t : Token} (fits : m.Fits)
    (h : (m.ledger.tokens table)[i]? = some t) : t.row.toNat = i + 1 := by
  have hlt : i < m.size table := length_tokens m table ▸ (List.getElem?_eq_some_iff.mp h).1
  have room := fits table
  rw [sound.numbered table i t h]
  exact Token.row_of_index? (Token.index?_next (by omega))

theorem lookupName_eq {d : TypeDef} (hd : d ∈ m.types.toList) :
    d.lookupName = m.fullName d.token :=
  (fullName_of_named sound.ordered (sound.named d.bare (List.mem_map_of_mem hd))).symm

include fits

theorem type?_of_mem {d : TypeDef} (hd : d ∈ m.types.toList) : m.type? d.token = some d :=
  (numbered_types sound).find?_token (fits .typeDef) hd

/-- The name of a type is made of the names of the types around it. -/
theorem fullName_eq {d : TypeDef} (hd : d ∈ m.types.toList) : m.fullName d.token =
    match d.declaringType with
    | none => d.ownName
    | some outer => m.fullName outer ++ "/" ++ d.name := by
  have hfound : m.ledger.type? d.token = some d.bare := by
    rw [type?_ledger, type?_of_mem sound fits hd, Option.map_some]
  have named : m.ledger.Named d.token d.lookupName := sound.named d.bare (List.mem_map_of_mem hd)
  rw [← lookupName_eq sound hd]
  generalize d.lookupName = name at named
  cases named with
  | outermost he ho =>
    obtain rfl := Option.some.inj (hfound.symm.trans he)
    have ho : d.declaringType = none := ho
    rw [ho]
    rfl
  | nested he ho houter =>
    obtain rfl := Option.some.inj (hfound.symm.trans he)
    have ho : d.declaringType = some _ := ho
    rw [ho, ← fullName_of_named sound.ordered houter]
    rfl

/-- A type stands in a later row than the type around it. -/
theorem enclosing_lt {d : TypeDef} {outer : Token} (hd : d ∈ m.types.toList)
    (ho : d.declaringType = some outer) :
    (m.type? outer).isSome ∧ outer.row.toNat < d.token.row.toNat := by
  obtain ⟨i, hi⟩ := List.mem_iff_getElem?.mp hd
  have hbare : m.ledger.types[i]? = some d.bare := by
    rw [ledger, List.getElem?_map, hi, Option.map_some]
  obtain ⟨j, hj, houter⟩ := sound.ordered i d.bare outer hbare ho
  have htoken : (m.ledger.tokens .typeDef)[i]? = some d.token := by
    simp [Ledger.tokens, Ledger.rows, Definition.token, hbare]
  rw [row_of_getElem? sound fits htoken, Token.row_of_index? houter]
  rw [Array.getElem?_toList] at hi
  have hlt : j < m.types.size := Nat.lt_trans hj (Array.getElem?_eq_some_iff.mp hi).1
  refine ⟨?_, by omega⟩
  rw [type?, houter, Option.bind_some, Array.getElem?_eq_getElem hlt]
  rfl

theorem enclosing_wellFounded :
    WellFounded fun outer t => ∃ d, m.type? t = some d ∧ d.declaringType = some outer := by
  refine Subrelation.wf ?_ (measure fun t : Token => t.row.toNat).wf
  rintro outer t ⟨d, hd, ho⟩
  have htoken : d.token = t := (numbered_types sound).token_of_find? hd
  exact htoken ▸ (enclosing_lt sound fits (Rows.mem_of_find? hd) ho).2

end

/-- The last type under a name is the last with that full name. -/
theorem findType?_eq_some_iff (indexed : m.Indexed) (sound : m.ledger.Sound) (assembly : Token)
    (name : String) (t : Token) : m.findType? assembly name = some t ↔ ∃ d, d.token = t ∧
      Rows.Latest m.types (fun d => d.assembly = assembly ∧ m.fullName d.token = name) d := by
  refine (indexed.typeRows (assembly, name) t).trans (exists_congr fun d => and_congr_right ?_)
  intro _
  refine Rows.latest_congr (fun e he => ?_) d
  rw [Prod.mk.injEq, lookupName_eq sound he]

/-- An assembly is the last under a name if it is found there, as no other holds its token. -/
theorem findAssembly?_eq_some_iff (indexed : m.Indexed) (sound : m.ledger.Sound) (fits : m.Fits)
    (name : String) (d : AssemblyDef) :
    m.findAssembly? name = some d ↔ Rows.Latest m.assemblies (·.name = name) d := by
  have unique {d e : AssemblyDef} (hd : d ∈ m.assemblies.toList) (he : e ∈ m.assemblies.toList)
      (same : e.token = d.token) : e = d := by
    have numbered := numbered_assemblies sound
    have hfound := numbered.find?_token (fits .assembly) hd
    rw [← same, numbered.find?_token (fits .assembly) he] at hfound
    exact Option.some.inj hfound
  have found {d : AssemblyDef} (h : m.findAssembly? name = some d) : d ∈ m.assemblies.toList :=
    List.mem_reverse.mp (List.mem_of_find?_eq_some h)
  constructor
  · intro h
    obtain ⟨e, same, latest⟩ :=
      (indexed.assemblyRows name d.token).mp (Option.map_eq_some_iff.mpr ⟨d, h, rfl⟩)
    rwa [unique (found h) latest.mem same] at latest
  · intro latest
    obtain ⟨e, h, same⟩ := Option.map_eq_some_iff.mp
      ((indexed.assemblyRows name d.token).mpr ⟨d, rfl, latest⟩)
    rwa [unique latest.mem (found h) same] at h

/-- What is built and fits is consistent. -/
theorem Built.consistent {returned : List Token} (built : Built returned m) (fits : m.Fits) :
    m.Consistent returned := by
  obtain ⟨sound, enrolled⟩ := built.sound fits
  exact
    { numbered := fun table i t h =>
        ⟨sound.isIn_of_mem (List.mem_of_getElem? h), row_of_getElem? sound fits h⟩
      found := fun ht =>
        let ⟨_, hmem⟩ := built.mem_tokens _ ht
        exists_definition? sound fits hmem
      once := enrolled.once sound fits
      housed := fun {d} hd => by
        obtain ⟨md, hmd, hassembly⟩ := sound.housed d.bare (List.mem_map_of_mem hd)
        rw [module?_ledger] at hmd
        obtain ⟨module, hmodule, rfl⟩ := Option.map_eq_some_iff.mp hmd
        exact ⟨module, hmodule, hassembly⟩
      inPlace := fun {p} hp => by
        refine (sound.inPlace p hp).imp (fun ⟨d, hd, hn⟩ => ?_) fun ⟨d, hd, hn⟩ => ?_
        · rw [type?_ledger] at hd
          obtain ⟨e, he, rfl⟩ := Option.map_eq_some_iff.mp hd
          exact ⟨e, he, hn⟩
        · rw [method?_ledger] at hd
          obtain ⟨e, he, rfl⟩ := Option.map_eq_some_iff.mp hd
          exact ⟨e, he, hn⟩
      enclosing := enclosing_lt sound fits
      fullName := fullName_eq sound fits
      wellFounded := enclosing_wellFounded sound fits
      typeIndex := findType?_eq_some_iff built.indexed sound
      assemblyIndex := findAssembly?_eq_some_iff built.indexed sound fits }

end Model

end CilTrim
