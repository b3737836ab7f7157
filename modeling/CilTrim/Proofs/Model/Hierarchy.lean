import CilTrim.Builder.Basic
import CilTrim.Proofs.Model.Bound
import CilTrim.Proofs.TypeRef.Substitution

/-!
# Bases with their arguments

The walk along the bases of a type puts the arguments of each type into the reference to its base.
A walk that starts at the base therefore lists the same types, and its arguments become those of the
first walk when the arguments of the base are put into them:

* `Model.Chain`: the types along the bases of a type, which end if nothing comes back;
* `Model.Lists`: the walk without a bound and without a look at what has been visited;
* `Model.Chain.lists`: the walk along a chain commutes with putting arguments in;
* `Model.Walks`: the walk as a loop, which ends;
* `Model.hierarchy_composes`: walks that start at a type and at its base.
-/

namespace CilTrim

namespace TypeRef

/-- A named type, with generic arguments or without. -/
inductive IsNominal : TypeRef → Prop where
  | named {r : TypeRef} : r.isNamed = true → IsNominal r
  | instantiated {e : TypeRef} {args : List TypeRef} : e.isNamed = true →
    IsNominal (.generic e args)

theorem isParameter_element_of_named {r : TypeRef} (h : r.isNamed = true) :
    r.element.isParameter = false := by
  cases r with
  | definition | external | primitive => rfl
  | _ => cases h

namespace IsNominal

variable {r : TypeRef}

/-- What a nominal reference is built around is no generic parameter. -/
theorem isParameter_element (h : r.IsNominal) : r.element.isParameter = false := by
  cases h with
  | named h => exact isParameter_element_of_named h
  | @instantiated e _ h => exact isParameter_element_of_named (r := e) h

/-- What a reference to a nominal type is instantiated with is replaced argument by argument. -/
theorem typeArguments_substitute (h : r.IsNominal) (args : List TypeRef) :
    (r.substitute args []).typeArguments = r.typeArguments.map (substitute args []) := by
  cases h with
  | named h =>
    cases r with
    | definition | external | primitive => rfl
    | _ => cases h
  | instantiated h => rw [substitute, substituteAll_eq_map]; rfl

end IsNominal

/-- What substitution reaches in an argument it reaches in the instantiated type. -/
theorem Exposed.of_typeArgument {r a p : TypeRef} (ha : a ∈ r.typeArguments) (h : a.Exposed p) :
    r.Exposed p := by
  cases r with
  | generic => exact .argument ha h
  | _ => cases ha

end TypeRef

namespace Model

variable {m : Model} {t b : Token} {base : TypeRef} {args : List TypeRef}

/-! ## Bases -/

/-- The reference to the base of a type. -/
def baseRef? (m : Model) (t : Token) : Option TypeRef :=
  (m.type? t).bind (·.base)

theorem baseWith?_eq (t : Token) (args : List TypeRef) :
    m.baseWith? t args = (m.baseRef? t).bind fun base =>
      match m.resolveType (base.substitute args []) with
      | .ok b => some (b, (base.substitute args []).typeArguments)
      | .error _ => none := by
  rw [baseRef?, Option.bind_assoc]
  rfl

/-- A nominal base is the one that its reference names, and its arguments are those of the reference
with the arguments of the type put in. -/
theorem baseWith?_of_nominal (hbase : m.baseRef? t = some base) (h : base.IsNominal)
    (args : List TypeRef) :
    m.baseWith? t args = match m.resolveType base with
      | .ok b => some (b, base.typeArguments.map (TypeRef.substitute args []))
      | .error _ => none := by
  rw [baseWith?_eq, hbase, Option.bind_some, h.typeArguments_substitute, ← resolveType_element,
    TypeRef.element_substitute _ _ base h.isParameter_element, resolveType_element]

/-! ## Chains -/

/-- The types from a type on, each the base of the one before, up to one without a base that
binds. -/
inductive Chain (m : Model) : Token → List Token → Prop where
  | last {t : Token} : (∀ base b, m.baseRef? t = some base → m.resolveType base ≠ .ok b) →
    Chain m t [t]
  | next {t b : Token} {base : TypeRef} {rest : List Token} : m.baseRef? t = some base →
    m.resolveType base = .ok b → Chain m b rest → Chain m t (t :: rest)

namespace Chain

variable {chain chain' : List Token}

/-- A type has one chain at most. -/
theorem unique (h : m.Chain t chain) (h' : m.Chain t chain') : chain = chain' := by
  induction h generalizing chain' with
  | last hlast =>
    cases h' with
    | last => rfl
    | next hbase hres _ => exact absurd hres (hlast _ _ hbase)
  | next hbase hres _ ih =>
    cases h' with
    | last hlast => exact absurd hres (hlast _ _ hbase)
    | next hbase' hres' hrest' =>
      obtain rfl := Option.some.inj (hbase.symm.trans hbase')
      obtain rfl := Except.ok.inj (hres.symm.trans hres')
      rw [ih hrest']

/-- The chain of a type on a chain is the end of that. -/
theorem suffix (h : m.Chain t chain) {u : Token} (hu : u ∈ chain) :
    ∃ further, m.Chain u further ∧ further <:+ chain := by
  induction h with
  | last hlast =>
    obtain rfl := List.mem_singleton.mp hu
    exact ⟨_, .last hlast, List.suffix_refl _⟩
  | next hbase hres hrest ih =>
    rcases List.mem_cons.mp hu with rfl | hu
    · exact ⟨_, .next hbase hres hrest, List.suffix_refl _⟩
    · obtain ⟨further, hchain, hsuffix⟩ := ih hu
      exact ⟨further, hchain, hsuffix.trans (List.suffix_cons _ _)⟩

/-- A chain that ends does not come back to a type. -/
theorem nodup (h : m.Chain t chain) : chain.Nodup := by
  induction h with
  | last => exact List.nodup_singleton _
  | @next t b base rest hbase hres hrest ih =>
    refine List.nodup_cons.mpr ⟨fun ht => ?_, ih⟩
    -- Otherwise the chain of the type would be a part of what comes behind the type.
    obtain ⟨further, hchain, hsuffix⟩ := hrest.suffix ht
    have hlength := hsuffix.length_le
    rw [hchain.unique (.next hbase hres hrest), List.length_cons] at hlength
    omega

end Chain

/-! ## Walks along chains -/

/-- What a walk along the bases of an instantiated type lists, up to a type without a base. -/
inductive Lists (m : Model) : Token → List TypeRef → List (Token × List TypeRef) → Prop where
  | last {t : Token} {args : List TypeRef} : m.baseWith? t args = none →
    Lists m t args [(t, args)]
  | next {t b : Token} {args baseArgs : List TypeRef} {rest : List (Token × List TypeRef)} :
    m.baseWith? t args = some (b, baseArgs) → Lists m b baseArgs rest →
    Lists m t args ((t, args) :: rest)

/-- Neither the bound nor the visited types play a role if the walk has few types and lists none
twice. -/
theorem Lists.hierarchyFrom_eq {listed : List (Token × List TypeRef)} (h : m.Lists t args listed)
    {limit : Nat} {visited : List Token} (hlimit : listed.length ≤ limit)
    (nodup : (listed.map (·.1)).Nodup) (fresh : ∀ e ∈ listed, e.1 ∉ visited) :
    m.hierarchyFrom limit visited t args = listed := by
  induction h generalizing limit visited with
  | last hlast =>
    obtain ⟨limit, rfl⟩ : ∃ k, limit = k + 1 := ⟨limit - 1, by simp at hlimit; omega⟩
    rw [hierarchyFrom, if_neg (fresh _ List.mem_cons_self), hlast]
  | @next t b args baseArgs rest hnext hrest ih =>
    obtain ⟨limit, rfl⟩ : ∃ k, limit = k + 1 := ⟨limit - 1, by simp at hlimit; omega⟩
    obtain ⟨hnotin, nodup⟩ := List.nodup_cons.mp nodup
    have fresh' : ∀ e ∈ rest, e.1 ∉ t :: visited := fun e he =>
      List.not_mem_cons_of_ne_of_not_mem (fun heq => hnotin (List.mem_map.mpr ⟨e, he, heq⟩))
        (fresh e (List.mem_cons_of_mem _ he))
    rw [hierarchyFrom, if_neg (fresh _ List.mem_cons_self), hnext]
    exact congrArg _ (ih (Nat.le_of_succ_le_succ hlimit) nodup fresh')

/-- The bases of the types on a chain are nominal, and what a base is instantiated with covers the
parameters in the reference to the base behind it. -/
structure Instantiated (m : Model) (chain : List Token) : Prop where
  nominal {t : Token} {base : TypeRef} : t ∈ chain → m.baseRef? t = some base → base.IsNominal
  covered {t b : Token} {base next : TypeRef} {i : Nat} : t ∈ chain → m.baseRef? t = some base →
    m.resolveType base = .ok b → m.baseRef? b = some next → next.Exposed (.typeParameter i) →
    i < base.typeArguments.length

theorem Instantiated.tail {chain : List Token} (h : m.Instantiated (t :: chain)) :
    m.Instantiated chain :=
  ⟨fun ht => h.nominal (List.mem_cons_of_mem _ ht), fun ht => h.covered (List.mem_cons_of_mem _ ht)⟩

/-- A list of types with arguments into which further arguments are put. -/
def substituteIn (args : List TypeRef) (listed : List (Token × List TypeRef)) :
    List (Token × List TypeRef) :=
  listed.map fun e => (e.1, e.2.map (TypeRef.substitute args []))

theorem map_fst_substituteIn (args : List TypeRef) (listed : List (Token × List TypeRef)) :
    (substituteIn args listed).map (·.1) = listed.map (·.1) := by
  rw [substituteIn, List.map_map]
  rfl

namespace Chain

variable {chain : List Token}

/-- A chain ends with a type that has no base with any arguments. -/
theorem baseWith?_last (hlast : ∀ base b, m.baseRef? t = some base → m.resolveType base ≠ .ok b)
    (nominal : ∀ base, m.baseRef? t = some base → base.IsNominal) (args : List TypeRef) :
    m.baseWith? t args = none := by
  cases hbase : m.baseRef? t with
  | none => rw [baseWith?_eq, hbase, Option.bind_none]
  | some base =>
    rw [baseWith?_of_nominal hbase (nominal base hbase)]
    cases hres : m.resolveType base with
    | ok b => exact absurd hres (hlast base b hbase)
    | error cause => rfl

/-- A walk along a chain lists the types of the chain, and putting further arguments in before the
walk is as putting them in after it. -/
theorem lists (h : m.Chain t chain) (instantiated : m.Instantiated chain) (outer : List TypeRef)
    (covered : ∀ base i, m.baseRef? t = some base → base.Exposed (.typeParameter i) →
      i < args.length) :
    ∃ listed, m.Lists t args listed ∧
      m.Lists t (args.map (TypeRef.substitute outer [])) (substituteIn outer listed) ∧
      listed.map (·.1) = chain := by
  induction h generalizing args with
  | last hlast =>
    have hnone := baseWith?_last hlast fun base => instantiated.nominal List.mem_cons_self
    exact ⟨_, .last (hnone args), .last (hnone _), rfl⟩
  | @next t b base rest hbase hres _ ih =>
    have nominal := instantiated.nominal List.mem_cons_self hbase
    have hnext : ∀ args, m.baseWith? t args =
        some (b, base.typeArguments.map (TypeRef.substitute args [])) := fun args => by
      rw [baseWith?_of_nominal hbase nominal, hres]
    have hcompose : (base.typeArguments.map (TypeRef.substitute args [])).map
          (TypeRef.substitute outer []) =
        base.typeArguments.map
          (TypeRef.substitute (args.map (TypeRef.substitute outer [])) []) := by
      rw [List.map_map]
      exact List.map_congr_left fun a ha => a.substitute_substitute
        (fun i hi => .inl (covered base i hbase (.of_typeArgument ha hi)))
        fun i _ => .inr (Nat.zero_le i)
    have hcovered : ∀ next i, m.baseRef? b = some next → next.Exposed (.typeParameter i) →
        i < (base.typeArguments.map (TypeRef.substitute args [])).length := fun next i hnext hi => by
      rw [List.length_map]
      exact instantiated.covered List.mem_cons_self hbase hres hnext hi
    obtain ⟨listed, hlisted, houter, rfl⟩ := ih instantiated.tail hcovered
    rw [hcompose] at houter
    exact ⟨_, .next (hnext args) hlisted, .next (hnext _) houter, rfl⟩

/-- Arguments for the first type of a chain show in the arguments of its bases. -/
theorem lists_first (h : m.Chain t chain) (instantiated : m.Instantiated chain)
    (args : List TypeRef) :
    ∃ listed, m.Lists t [] ((t, []) :: listed) ∧
      m.Lists t args ((t, args) :: substituteIn args listed) ∧
      t :: listed.map (·.1) = chain := by
  cases h with
  | last hlast =>
    have hnone := baseWith?_last hlast fun base => instantiated.nominal List.mem_cons_self
    exact ⟨[], .last (hnone []), .last (hnone args), rfl⟩
  | @next _ b base rest hbase hres hrest =>
    have nominal := instantiated.nominal List.mem_cons_self hbase
    have hplain : m.baseWith? t [] = some (b, base.typeArguments) := by
      rw [baseWith?_eq, hbase, Option.bind_some, TypeRef.substitute_nil, hres]
    have hnext : m.baseWith? t args =
        some (b, base.typeArguments.map (TypeRef.substitute args [])) := by
      rw [baseWith?_of_nominal hbase nominal, hres]
    obtain ⟨listed, hlisted, houter, rfl⟩ :=
      hrest.lists instantiated.tail args fun next i hnext hi =>
        instantiated.covered List.mem_cons_self hbase hres hnext hi
    exact ⟨listed, .next hplain hlisted, .next hnext houter, rfl⟩

/-- The walk from a type is the one from its base with the arguments of the base put in. -/
theorem hierarchy_eq (h : m.Chain t chain) (hlength : chain.length ≤ maxHierarchy)
    (instantiated : m.Instantiated chain) (hbase : m.baseRef? t = some base)
    (hres : m.resolveType base = .ok b) :
    m.hierarchy t = (t, []) :: (b, base.typeArguments) ::
      substituteIn base.typeArguments (m.hierarchy b).tail := by
  have nodup := h.nodup
  cases h with
  | last hlast => exact absurd hres (hlast base b hbase)
  | next hbase' hres' hrest =>
    obtain rfl := Option.some.inj (hbase.symm.trans hbase')
    obtain rfl := Except.ok.inj (hres.symm.trans hres')
    have hnext : m.baseWith? t [] = some (b, base.typeArguments) := by
      rw [baseWith?_eq, hbase, Option.bind_some, TypeRef.substitute_nil, hres]
    obtain ⟨listed, hlisted, hargs, rfl⟩ :=
      hrest.lists_first instantiated.tail base.typeArguments
    have hb : m.hierarchy b = (b, []) :: listed :=
      hlisted.hierarchyFrom_eq (by simpa using Nat.le_of_succ_le hlength)
        nodup.tail fun _ _ => List.not_mem_nil
    have ht : m.hierarchy t = (t, []) :: (b, base.typeArguments) ::
        substituteIn base.typeArguments listed :=
      (Lists.next hnext hargs).hierarchyFrom_eq (by simpa [substituteIn] using hlength)
        (by simpa [map_fst_substituteIn] using nodup) fun _ _ => List.not_mem_nil
    rw [ht, hb, List.tail_cons]

end Chain

/-! ## The loop -/

/-- The loop that lists types, from the types it has listed and the type that is next to all types
it lists. It ends behind the last base, at a type that is listed already and with as many types as a
chain may have. -/
inductive Walks (m : Model) : List (Token × List TypeRef) → Option (Token × List TypeRef) →
    List (Token × List TypeRef) → Prop where
  | ends {listed : List (Token × List TypeRef)} : Walks m listed none listed
  | returns {listed : List (Token × List TypeRef)} {t : Token} {args : List TypeRef} :
    t ∈ listed.map (·.1) → Walks m listed (some (t, args)) listed
  | full {listed : List (Token × List TypeRef)} {next : Token × List TypeRef} :
    maxHierarchy ≤ listed.length → Walks m listed (some next) listed
  | step {listed all : List (Token × List TypeRef)} {t : Token} {args : List TypeRef} :
    t ∉ listed.map (·.1) → listed.length < maxHierarchy →
    Walks m (listed ++ [(t, args)]) (m.baseWith? t args) all → Walks m listed (some (t, args)) all

namespace Walks

variable {listed all : List (Token × List TypeRef)} {next : Option (Token × List TypeRef)}

/-- The loop lists no type twice. -/
theorem nodup (h : m.Walks listed next all) (nodup : (listed.map (·.1)).Nodup) :
    (all.map (·.1)).Nodup := by
  induction h with
  | ends | returns | full => exact nodup
  | step fresh _ _ ih =>
    refine ih ?_
    rw [List.map_append]
    exact nodup.append (List.nodup_singleton _) (List.disjoint_singleton.mpr fresh)

theorem length_le (h : m.Walks listed next all) (hlength : listed.length ≤ maxHierarchy) :
    all.length ≤ maxHierarchy := by
  induction h with
  | ends | returns | full => exact hlength
  | step _ hfree _ ih =>
    refine ih ?_
    rw [List.length_append]
    exact hfree

end Walks

/-- The loop comes to an end, with what the walk adds to the listed types. -/
theorem walks_hierarchyFrom {limit : Nat} {visited : List Token}
    {listed : List (Token × List TypeRef)} (hlimit : listed.length + limit = maxHierarchy)
    (hvisited : ∀ x, x ∈ visited ↔ x ∈ listed.map (·.1)) (t : Token) (args : List TypeRef) :
    m.Walks listed (some (t, args)) (listed ++ m.hierarchyFrom limit visited t args) := by
  induction limit generalizing visited listed t args with
  | zero =>
    rw [hierarchyFrom, List.append_nil]
    exact .full hlimit.ge
  | succ limit ih =>
    unfold hierarchyFrom
    split
    · rename_i ht
      rw [List.append_nil]
      exact .returns ((hvisited t).mp ht)
    · rename_i ht
      refine .step (mt (hvisited t).mpr ht) (by omega) ?_
      cases hnext : m.baseWith? t args with
      | none => exact .ends
      | some base =>
        have hfree : (listed ++ [(t, args)]).length + limit = maxHierarchy := by
          rw [List.length_append, List.length_singleton]
          omega
        have hmem : ∀ x, x ∈ t :: visited ↔ x ∈ (listed ++ [(t, args)]).map (·.1) := fun x => by
          simp [hvisited, or_comm]
        have hrest := ih hfree hmem base.1 base.2
        rwa [List.append_assoc, List.singleton_append] at hrest

theorem walks_hierarchy (m : Model) (t : Token) : m.Walks [] (some (t, [])) (m.hierarchy t) := by
  have hwalk : m.Walks [] (some (t, [])) ([] ++ m.hierarchyFrom maxHierarchy [] t []) :=
    walks_hierarchyFrom (Nat.zero_add maxHierarchy) (fun _ => Iff.rfl) t []
  exact hwalk

/-- The walk from a type begins with the type. -/
theorem head?_hierarchy (t : Token) : (m.hierarchy t).head? = some (t, []) := by
  rw [hierarchy, maxHierarchy, hierarchyFrom, if_neg List.not_mem_nil]
  rfl

/-! ## Walks from a type and from its base -/

/-- Along a chain of bases the arguments compose: what the bases of a base are instantiated with is
what a walk from that base shows, with the arguments of the base put in. A walk along any bases
comes to an end, begins with its type, and lists no type twice and at most as many as a chain may
have. -/
theorem hierarchy_composes (m : Model) (t : Token) :
    (∀ {chain : List Token} {b : Token} {base : TypeRef}, m.Chain t chain → chain.length ≤ 256 →
      m.Instantiated chain → m.baseRef? t = some base → m.resolveType base = .ok b →
        m.hierarchy t = (t, []) :: (b, base.typeArguments) ::
          substituteIn base.typeArguments (m.hierarchy b).tail) ∧
      m.Walks [] (some (t, [])) (m.hierarchy t) ∧
      (m.hierarchy t).head? = some (t, []) ∧
      ((m.hierarchy t).map (·.1)).Nodup ∧
      (m.hierarchy t).length ≤ 256 :=
  ⟨Chain.hierarchy_eq, walks_hierarchy m t, head?_hierarchy t,
    (walks_hierarchy m t).nodup List.nodup_nil, (walks_hierarchy m t).length_le (Nat.zero_le _)⟩

end Model

namespace Tables

/-- Names by numbers: an index of strings, which is a table of lists of strings by numbers. -/
def model : Model :=
  let m := (Model.empty.addAssembly "Data").2
  let m := (m.addType { TypeDraft.ofClass ⟨0x20000001⟩ "Data" "Table" with
    generics := [⟨"K", 0, []⟩, ⟨"V", 0, []⟩] }).2
  let m := (m.addType { TypeDraft.ofClass ⟨0x20000001⟩ "Data" "Index" with
    generics := [⟨"T", 0, []⟩]
    base := some (.generic (.definition ⟨0x02000001⟩)
      [.primitive .i4, .array (.typeParameter 0) 1]) }).2
  (m.addType ((TypeDraft.ofClass ⟨0x20000001⟩ "Data" "Names").withBase
    (.generic (.external "Data" "Data.Index") [.primitive .string]))).2

/-- Names, indexes and tables. -/
def chain : List Token :=
  [⟨0x02000003⟩, ⟨0x02000002⟩, ⟨0x02000001⟩]

theorem baseRef?_names : model.baseRef? ⟨0x02000003⟩ =
    some (.generic (.external "Data" "Data.Index") [.primitive .string]) :=
  rfl

theorem baseRef?_index : model.baseRef? ⟨0x02000002⟩ =
    some (.generic (.definition ⟨0x02000001⟩)
      [.primitive .i4, .array (.typeParameter 0) 1]) :=
  rfl

theorem baseRef?_table : model.baseRef? ⟨0x02000001⟩ = none :=
  rfl

theorem resolveType_index : model.resolveType
    (.generic (.external "Data" "Data.Index") [.primitive .string]) = .ok ⟨0x02000002⟩ :=
  rfl

theorem chain_names : model.Chain ⟨0x02000003⟩ chain :=
  .next baseRef?_names resolveType_index <| .next baseRef?_index rfl <|
    .last fun _ _ hbase => nomatch baseRef?_table.symm.trans hbase

theorem instantiated_chain : model.Instantiated chain where
  nominal {t base} ht hbase := by
    simp only [chain, List.mem_cons, List.not_mem_nil, or_false] at ht
    rcases ht with rfl | rfl | rfl
    · cases baseRef?_names.symm.trans hbase
      exact .instantiated rfl
    · cases baseRef?_index.symm.trans hbase
      exact .instantiated rfl
    · cases baseRef?_table.symm.trans hbase
  covered {t b base next i} ht hbase hres hnext hi := by
    simp only [chain, List.mem_cons, List.not_mem_nil, or_false] at ht
    rcases ht with rfl | rfl | rfl
    · cases baseRef?_names.symm.trans hbase
      cases resolveType_index.symm.trans hres
      cases baseRef?_index.symm.trans hnext
      -- The only parameter in what an index is based on is that of the index.
      cases hi with
      | instantiated hi => cases hi
      | argument ha hi =>
        rcases List.mem_cons.mp ha with rfl | ha
        · cases hi
        · obtain rfl := List.mem_singleton.mp ha
          cases hi with
          | array hi =>
            cases hi
            decide
    · cases baseRef?_index.symm.trans hbase
      cases hres
      cases baseRef?_table.symm.trans hnext
    · cases baseRef?_table.symm.trans hbase

end Tables

namespace Model

/-- The table behind the names has lists of strings where that behind an index has lists of what the
index is of. -/
theorem hierarchy_composes_tables :
    Tables.model.hierarchy ⟨0x02000002⟩ =
        [(⟨0x02000002⟩, []),
          (⟨0x02000001⟩, [.primitive .i4, .array (.typeParameter 0) 1])] ∧
      Tables.model.hierarchy ⟨0x02000003⟩ =
        [(⟨0x02000003⟩, []), (⟨0x02000002⟩, [.primitive .string]),
          (⟨0x02000001⟩, [.primitive .i4, .array (.primitive .string) 1])] := by
  have hindex : Tables.model.hierarchy ⟨0x02000002⟩ =
      [(⟨0x02000002⟩, []),
        (⟨0x02000001⟩, [.primitive .i4, .array (.typeParameter 0) 1])] := by rfl
  have hnames := (hierarchy_composes Tables.model ⟨0x02000003⟩).1 Tables.chain_names (by decide)
    Tables.instantiated_chain Tables.baseRef?_names Tables.resolveType_index
  rw [hindex] at hnames
  exact ⟨hindex, hnames⟩

end Model

end CilTrim
