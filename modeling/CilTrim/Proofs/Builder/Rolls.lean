import CilTrim.Proofs.Builder.Ledger

/-!
# Lists of members and types

A new member enters a list of the type that declares it, a nested type that of the type around it,
any other type that of its module. Nothing else changes these lists, so each of them is read off
the ledger:

* `Listing`: the lists there are, with `Ledger.entries` for what stands in which;
* `Model.Enters`: what an operation enters into lists, with one lemma for each operation;
* `Model.Enrolled`: every list holds what the ledger says, in that order.
-/

namespace CilTrim

/-- The lists into which definitions enter. -/
inductive Listing where
  | methods
  | fields
  | properties
  | events
  | nested
  | outermost
deriving DecidableEq

/-- All kinds of lists. -/
def Listing.all : List Listing :=
  [.methods, .fields, .properties, .events, .nested, .outermost]

/-- The list of a type; the outermost types stand in lists of modules. -/
def TypeDef.list (d : TypeDef) : Listing → List Token
  | .methods => d.methods
  | .fields => d.fields
  | .properties => d.properties
  | .events => d.events
  | .nested => d.nestedTypes
  | .outermost => []

/-- What has to be listed, each with the definition in whose list it stands. -/
def Ledger.entries (L : Ledger) : Listing → List (Token × Token)
  | .methods => L.methods.map fun e => (e.token, e.declaringType)
  | .fields => L.fields.map fun e => (e.token, e.declaringType)
  | .properties => L.properties.map fun e => (e.token, e.declaringType)
  | .events => L.events.map fun e => (e.token, e.declaringType)
  | .nested => L.types.filterMap fun d => d.declaringType.map (d.token, ·)
  | .outermost => L.types.filterMap fun d =>
      if d.declaringType.isNone then some (d.token, d.module) else none

theorem Ledger.entries_append (L new : Ledger) (l : Listing) :
    (L ++ new).entries l = L.entries l ++ new.entries l := by
  cases l <;> simp [entries]

/-- The entries of one owner. -/
def enrolled (entries : List (Token × Token)) (owner : Token) : List Token :=
  (entries.filter (·.2 = owner)).map (·.1)

@[simp] theorem enrolled_nil (owner : Token) : enrolled [] owner = [] := rfl

theorem enrolled_append (xs ys : List (Token × Token)) (owner : Token) :
    enrolled (xs ++ ys) owner = enrolled xs owner ++ enrolled ys owner := by
  simp [enrolled]

theorem enrolled_of_forall_eq {entries : List (Token × Token)} {owner : Token}
    (h : ∀ e ∈ entries, e.2 = owner) : enrolled entries owner = entries.map (·.1) := by
  rw [enrolled, List.filter_eq_self.mpr fun e he => decide_eq_true (h e he)]

theorem enrolled_of_forall_ne {entries : List (Token × Token)} {owner : Token}
    (h : ∀ e ∈ entries, e.2 ≠ owner) : enrolled entries owner = [] := by
  rw [enrolled, List.filter_eq_nil_iff.mpr fun e he => by simp [h e he], List.map_nil]

namespace Model

/-- The list that a token has, if it names a type or a module. -/
def list? (m : Model) (l : Listing) (t : Token) : Option (List Token) :=
  if l = .outermost then (m.module? t).map (·.types) else (m.type? t).map (·.list l)

theorem list?_outermost (m : Model) (t : Token) :
    m.list? .outermost t = (m.module? t).map (·.types) :=
  if_pos rfl

theorem list?_of_ne (m : Model) {l : Listing} (h : l ≠ .outermost) (t : Token) :
    m.list? l t = (m.type? t).map (·.list l) :=
  if_neg h

/-! ## What operations enter -/

/-- An operation enters definitions into the lists of others, and what it adds has empty lists. -/
structure Enters (m m' : Model) (entries : Listing → List (Token × Token)) : Prop where
  /-- An owner has been there before. -/
  owner {l : Listing} {e : Token × Token} : e ∈ entries l → (m.list? l e.2).isSome
  /-- Entries stand behind what is in a list. -/
  list {l : Listing} {t : Token} {xs : List Token} : m.list? l t = some xs →
    m'.list? l t = some (xs ++ enrolled (entries l) t)
  fresh {l : Listing} {t : Token} {xs : List Token} : m.list? l t = none →
    m'.list? l t = some xs → xs = []

namespace Enters

variable {m m' : Model} {entries : Listing → List (Token × Token)}

/-- An operation that adds no list. -/
theorem of_lists (howner : ∀ l, ∀ e ∈ entries l, (m.list? l e.2).isSome)
    (hlist : ∀ l t, m'.list? l t = (m.list? l t).map (· ++ enrolled (entries l) t)) :
    Enters m m' entries where
  owner he := howner _ _ he
  list hx := by rw [hlist, hx, Option.map_some]
  fresh hx hx' := by rw [hlist, hx] at hx'; cases hx'

/-- An operation that changes no list. -/
theorem of_same_lists (hentries : ∀ l, entries l = [])
    (hlist : ∀ l t, m'.list? l t = m.list? l t) : Enters m m' entries := by
  refine of_lists (fun l e he => ?_) fun l t => ?_
  · rw [hentries] at he
    cases he
  · simp [hlist, hentries]

/-- What is found after a change in place, by what it lists. -/
theorem map_find?_modify {α : Type} {table : Table} {rows : Array α} {owner : Token}
    (h : (Rows.find? table rows owner).isSome) {change : α → α} {list : α → List Token}
    {xs : List (Token × Token)} (hx : ∀ e ∈ xs, e.2 = owner)
    (hc : ∀ d, list (change d) = list d ++ xs.map (·.1)) (t : Token) :
    (Rows.find? table (rows.modify owner.slot change) t).map list =
      ((Rows.find? table rows t).map list).map (· ++ enrolled xs t) := by
  rw [Rows.find?_modify h, Option.map_map]
  by_cases ht : t = owner
  · subst ht
    rw [if_pos rfl, Option.map_map]
    refine Option.map_congr fun d _ => ?_
    rw [Function.comp_apply, Function.comp_apply, hc, enrolled_of_forall_eq hx]
  · have hnone : enrolled xs t = [] :=
      enrolled_of_forall_ne fun e he heq => ht (heq.symm.trans (hx e he))
    rw [if_neg ht, hnone]
    exact Option.map_congr fun d _ => (List.append_nil _).symm

/-- An operation that changes one type enters one definition into one of its lists. -/
theorem of_updateType {n : Model} {owner : Token} (h : (m.type? owner).isSome) (x : Token)
    (l₀ : Listing) (hl₀ : l₀ ≠ .outermost) {change : TypeDef → TypeDef}
    (htypes : n.types = m.types) (hmodules : n.modules = m.modules)
    (hentries : ∀ l, entries l = if l = l₀ then [(x, owner)] else [])
    (hchange : ∀ l d, (change d).list l = d.list l ++ if l = l₀ then [x] else []) :
    Enters m (n.updateType owner change) entries := by
  obtain ⟨d, hd⟩ := Option.isSome_iff_exists.mp h
  rw [updateType_eq n (Rows.isIn_of_find? hd), htypes]
  refine of_lists (fun l e he => ?_) fun l t => ?_
  · rw [hentries] at he
    split at he
    · rename_i hl
      rw [List.mem_singleton.mp he, list?_of_ne m (hl ▸ hl₀), Option.isSome_map]
      exact h
    · cases he
  · by_cases hl : l = .outermost
    · have hnone : entries .outermost = [] := by rw [hentries, if_neg hl₀.symm]
      subst hl
      simp [list?_outermost, module?, hmodules, hnone]
    · rw [list?_of_ne _ hl, list?_of_ne m hl, hentries]
      refine map_find?_modify h (fun e he => ?_) (fun d => ?_) t
      · split at he
        · rw [List.mem_singleton.mp he]
        · cases he
      · rw [hchange]
        split <;> rfl

/-- An operation that changes one module enters one type into its list. -/
theorem of_module {n : Model} {owner : Token} (h : (m.module? owner).isSome) (x : Token)
    {change : ModuleDef → ModuleDef} (htypes : n.types = m.types) (hmodules : n.modules = m.modules)
    (hentries : ∀ l, entries l = if l = .outermost then [(x, owner)] else [])
    (hchange : ∀ d, (change d).types = d.types ++ [x]) :
    Enters m { n with modules := n.modules.modify owner.slot change } entries := by
  refine of_lists (fun l e he => ?_) fun l t => ?_
  · rw [hentries] at he
    split at he
    · rename_i hl
      rw [List.mem_singleton.mp he, hl, list?_outermost, Option.isSome_map]
      exact h
    · cases he
  · by_cases hl : l = .outermost
    · rw [hentries, if_pos hl, hl, list?_outermost, list?_outermost, module?, hmodules]
      exact map_find?_modify h (by simp) hchange t
    · rw [list?_of_ne _ hl, list?_of_ne m hl, type?, htypes, hentries, if_neg hl]
      simp [type?]

/-- What an operation adds may have lists of its own, which are empty. -/
theorem of_new_list {n : Model} (h : Enters m m' entries)
    (hkept : ∀ l t xs, m'.list? l t = some xs → n.list? l t = some xs)
    (hnew : ∀ l t xs, n.list? l t = some xs → m'.list? l t = some xs ∨ xs = []) :
    Enters m n entries where
  owner := h.owner
  list hx := hkept _ _ _ (h.list hx)
  fresh hx hx' := (hnew _ _ _ hx').elim (h.fresh hx) id

/-- What is listed by a row stays when another row is added. -/
theorem map_find?_push_of {α β : Type} {table : Table} {rows : Array α} {list : α → β} {d : α}
    {t : Token} {xs : β} (h : (Rows.find? table rows t).map list = some xs) :
    (Rows.find? table (rows.push d) t).map list = some xs := by
  obtain ⟨e, he, hlist⟩ := Option.map_eq_some_iff.mp h
  exact Option.map_eq_some_iff.mpr ⟨e, Rows.find?_push_of he, hlist⟩

theorem map_find?_of_push {α β : Type} {table : Table} {rows : Array α}
    (room : rows.size + 1 < Token.rowLimit) {list : α → β} {d : α} {t : Token} {xs : β}
    (h : (Rows.find? table (rows.push d) t).map list = some xs) :
    (Rows.find? table rows t).map list = some xs ∨ xs = list d := by
  obtain ⟨e, he, hlist⟩ := Option.map_eq_some_iff.mp h
  rcases Rows.find?_of_push room he with ⟨-, rfl⟩ | h₀
  · exact .inr hlist.symm
  · exact .inl (Option.map_eq_some_iff.mpr ⟨e, h₀, hlist⟩)

/-- A new type without members. -/
theorem push_type (h : Enters m m' entries) (room : m'.types.size + 1 < Token.rowLimit)
    {d : TypeDef} (hd : ∀ l, d.list l = []) :
    Enters m { m' with types := m'.types.push d } entries := by
  refine h.of_new_list (fun l t xs hx => ?_) fun l t xs hx => ?_
  · by_cases hl : l = .outermost
    · subst hl
      exact hx
    · rw [list?_of_ne _ hl] at hx ⊢
      exact map_find?_push_of hx
  · by_cases hl : l = .outermost
    · subst hl
      exact .inl hx
    · rw [list?_of_ne _ hl] at hx ⊢
      exact hd l ▸ map_find?_of_push room hx

/-- A new module without types. -/
theorem push_module (h : Enters m m' entries) (room : m'.modules.size + 1 < Token.rowLimit)
    {d : ModuleDef} (hd : d.types = []) :
    Enters m { m' with modules := m'.modules.push d } entries := by
  refine h.of_new_list (fun l t xs hx => ?_) fun l t xs hx => ?_
  · by_cases hl : l = .outermost
    · subst hl
      rw [list?_outermost] at hx ⊢
      exact map_find?_push_of hx
    · rw [list?_of_ne _ hl] at hx ⊢
      exact hx
  · by_cases hl : l = .outermost
    · subst hl
      rw [list?_outermost] at hx ⊢
      exact hd ▸ map_find?_of_push room hx
    · rw [list?_of_ne _ hl] at hx ⊢
      exact .inl hx

end Enters

/-! ## Operations -/

/-- What an operation adds to the ledger, and the lists into which it enters it. -/
structure Grows (m m' : Model) (new : Ledger) : Prop where
  ledger : m'.ledger = m.ledger ++ new
  enters : Enters m m' new.entries

namespace Grows

/-- An operation that adds nothing. -/
theorem of_eq {m m' : Model} (hledger : m'.ledger = m.ledger) (htypes : m'.types = m.types)
    (hmodules : m'.modules.toList.map (·.types) = m.modules.toList.map (·.types)) :
    Grows m m' {} where
  ledger := hledger.trans (Ledger.append_nil _).symm
  enters := by
    refine .of_same_lists (fun l => by cases l <;> rfl) fun l t => ?_
    by_cases hl : l = .outermost
    · subst hl
      rw [list?_outermost, list?_outermost]
      refine (at?_map .module m'.modules (·.types) t).symm.trans ?_
      rw [hmodules]
      exact at?_map .module m.modules (·.types) t
    · rw [list?_of_ne _ hl, list?_of_ne _ hl, type?, htypes]
      rfl

theorem setCorlib (m : Model) (assembly : Token) : Grows m (m.setCorlib assembly) {} :=
  of_eq rfl rfl rfl

theorem addAttribute {m m' : Model} {owner : Token} {a : Attribute}
    (h : m.addAttribute owner a = .ok m') : Grows m m' {} := by
  have hledger := ledger_addAttribute h
  unfold Model.addAttribute at h
  split at h
  · split at h
    · obtain rfl := Except.ok.inj h
      exact of_eq hledger rfl rfl
    · cases h
  · split at h
    · obtain rfl := Except.ok.inj h
      exact of_eq hledger rfl (map_modify _ _ fun _ => rfl)
    · cases h
  · cases h

theorem addAssembly (m : Model) (name : String) (room : m.modules.size + 1 < Token.rowLimit) :
    Grows m (m.addAssembly name).2 (m.addedAssembly name) where
  ledger := ledger_addAssembly m name
  enters := by
    let token := Token.next .assembly m.assemblies.size
    let added : Model :=
      { m with
        assemblies := m.assemblies.push
          { token, name, modules := [Token.next .module m.modules.size], attributes := [] } }
    have same : Enters m added (m.addedAssembly name).entries :=
      .of_same_lists (fun l => by cases l <;> rfl) fun _ _ => rfl
    exact same.push_module room rfl

theorem addMethod (m : Model) (d : MethodDraft) (h : (m.type? d.declaringType).isSome) :
    Grows m (m.addMethod d).2 (m.addedMethod d) where
  ledger := ledger_addMethod m d
  enters := by
    rw [Model.addMethod, addGenerics_define]
    refine .of_updateType h (Token.next .methodDef m.methods.size) .methods (by decide) rfl rfl
      ?_ ?_
    · intro l
      cases l <;> rfl
    · intro l d
      cases l <;> simp [TypeDef.list]

theorem addField (m : Model) (d : FieldDraft) (h : (m.type? d.declaringType).isSome) :
    Grows m (m.addField d).2 (m.addedField d) where
  ledger := ledger_addField m d
  enters := by
    refine .of_updateType h (Token.next .field m.fields.size) .fields (by decide) rfl rfl ?_ ?_
    · intro l
      cases l <;> rfl
    · intro l d
      cases l <;> simp [TypeDef.list]

/-- Linking accessors changes methods only. -/
theorem linkAccessors_eq (m : Model) (owner : Token) (accessors : List (Token × UInt32)) :
    ∃ methods, accessors.foldl (fun m accessor => m.linkAccessor owner accessor) m =
      { m with methods := methods } := by
  induction accessors generalizing m with
  | nil => exact ⟨m.methods, rfl⟩
  | cons accessor rest ih =>
    obtain ⟨methods, h⟩ := ih (m.linkAccessor owner accessor)
    refine ⟨methods, h.trans ?_⟩
    unfold linkAccessor updateMethod
    split <;> rfl

theorem addProperty (m : Model) (d : PropertyDraft) (h : (m.type? d.declaringType).isSome) :
    Grows m (m.addProperty d).2 (m.addedProperty d) where
  ledger := ledger_addProperty m d
  enters := by
    rw [Model.addProperty]
    dsimp only
    obtain ⟨methods, hlink⟩ := linkAccessors_eq m (Token.next .property m.properties.size)
      (d.getter.toList.map (·, MethodSemantics.getter) ++
        d.setter.toList.map (·, MethodSemantics.setter) ++ d.other.map (·, MethodSemantics.other))
    rw [hlink]
    refine .of_updateType h (Token.next .property m.properties.size) .properties (by decide) rfl rfl
      ?_ ?_
    · intro l
      cases l <;> rfl
    · intro l d
      cases l <;> simp [TypeDef.list]

theorem addEvent (m : Model) (d : EventDraft) (h : (m.type? d.declaringType).isSome) :
    Grows m (m.addEvent d).2 (m.addedEvent d) where
  ledger := ledger_addEvent m d
  enters := by
    rw [Model.addEvent]
    dsimp only
    obtain ⟨methods, hlink⟩ := linkAccessors_eq m (Token.next .event m.events.size)
      (d.adder.toList.map (·, MethodSemantics.adder) ++
        d.remover.toList.map (·, MethodSemantics.remover) ++
        d.raiser.toList.map (·, MethodSemantics.raiser))
    rw [hlink]
    refine .of_updateType h (Token.next .event m.events.size) .events (by decide) rfl rfl ?_ ?_
    · intro l
      cases l <;> rfl
    · intro l d
      cases l <;> simp [TypeDef.list]

theorem addType (m : Model) (d : TypeDraft) (room : m.types.size + 1 < Token.rowLimit)
    (hmodule : (m.module? (m.mainModule d.assembly)).isSome)
    (henclosing : ∀ outer, d.declaringType = some outer → (m.type? outer).isSome) :
    Grows m (m.addType d).2 (m.addedType d) where
  ledger := ledger_addType m d
  enters := by
    let token := Token.next .typeDef m.types.size
    have listed : Enters m ((m.addGenerics token d.generics).2.listType d.declaringType
        (m.mainModule d.assembly) token) (m.addedType d).entries := by
      rw [addGenerics_define]
      unfold listType
      cases ho : d.declaringType with
      | some outer =>
        refine .of_updateType (henclosing outer ho) token .nested (by decide) rfl rfl ?_ ?_
        · intro l
          cases l <;> simp [Ledger.entries, addedType, newType, ho, token]
        · intro l d
          cases l <;> simp [TypeDef.list]
      | none =>
        refine .of_module hmodule token rfl rfl ?_ ?_
        · intro l
          cases l <;> simp [Ledger.entries, addedType, newType, ho, token]
        · intro d
          rfl
    have hsize := size_listed m token d.generics d.declaringType (m.mainModule d.assembly)
    exact listed.push_type (Nat.lt_of_le_of_lt (Nat.succ_le_succ hsize.le) room)
      fun l => by cases l <;> rfl

end Grows

/-! ## What is in the lists -/

/-- Every list holds what the ledger says, in that order. -/
structure Enrolled (m : Model) : Prop where
  owner {l : Listing} {e : Token × Token} : e ∈ m.ledger.entries l → (m.list? l e.2).isSome
  list {l : Listing} {t : Token} {xs : List Token} : m.list? l t = some xs →
    xs = enrolled (m.ledger.entries l) t

namespace Enrolled

variable {m m' : Model}

theorem empty : Enrolled .empty where
  owner {l e} he := by
    have hentries : Model.empty.ledger.entries l = [] := by cases l <;> rfl
    rw [hentries] at he
    cases he
  list {l t xs} hx := by
    have hnone : Model.empty.list? l t = none := by
      by_cases hl : l = .outermost
      · subst hl
        rw [list?_outermost, Option.map_eq_none_iff]
        exact Option.eq_none_iff_forall_ne_some.mpr fun d => Rows.find?_empty
      · rw [list?_of_ne _ hl, Option.map_eq_none_iff]
        exact Option.eq_none_iff_forall_ne_some.mpr fun d => Rows.find?_empty
    rw [hnone] at hx
    cases hx

/-- What an operation enters keeps the lists in step with the ledger. -/
theorem grow (h : m.Enrolled) {new : Ledger} (g : Grows m m' new) : m'.Enrolled where
  owner {l e} he := by
    rw [g.ledger, Ledger.entries_append, List.mem_append] at he
    have held : (m.list? l e.2).isSome := he.elim h.owner g.enters.owner
    obtain ⟨xs, hx⟩ := Option.isSome_iff_exists.mp held
    rw [g.enters.list hx]
    rfl
  list {l t xs} hx := by
    rw [g.ledger, Ledger.entries_append, enrolled_append]
    cases hold : m.list? l t with
    | some ys =>
      rw [g.enters.list hold] at hx
      rw [← h.list hold, Option.some.inj hx]
    | none =>
      have unowned {es : List (Token × Token)} (hes : ∀ e ∈ es, (m.list? l e.2).isSome) :
          enrolled es t = [] :=
        enrolled_of_forall_ne fun e he heq => by
          have := hes e he
          rw [heq, hold] at this
          cases this
      rw [g.enters.fresh hold hx, unowned fun e => h.owner, unowned fun e => g.enters.owner]
      rfl

end Enrolled

end Model

end CilTrim
