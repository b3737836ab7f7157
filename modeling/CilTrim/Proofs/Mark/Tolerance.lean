import CilTrim.Proofs.Mark.Outcome

/-!
# Metadata that cannot be read

The bytes of attributes and the type names in metadata are data that no compiler has checked. They
are read as far as possible, and what cannot be read is counted and passed over:

* `Marking.settle_append`: demands are met one list after the other;
* `Marking.settle_typeRef`: a reference without dangling parts is marked, and nothing is counted;
* `Setting.settle_typeName`: a name marks what it stands for, or it is counted as passed over;
* `Setting.settle_undecoded`: an attribute that cannot be decoded is met as its constructor is, and
  counted as passed over;
* `Setting.mark_tolerates`: no run fails because of either.
-/

namespace CilTrim

/-- A demand for a type or a method, which is marked now and expanded later. -/
def Demand.For (t : Token) : Demand → Prop
  | .type y _ | .method y _ => y = t
  | _ => False

theorem Demand.For.need {d : Demand} {t : Token} (h : d.For t) : d.need? = some (.kept t) := by
  cases d with
  | type | method =>
    cases h
    rfl
  | _ => cases h

namespace MarkState

variable {T T' : Token → Prop} {st st' st'' : MarkState} {t : Token} {reason : Reason}

/-- The definitions of a set have been marked, and nothing has been counted. -/
structure Marked (T : Token → Prop) (st st' : MarkState) : Prop where
  marks (y : Token) : st'.marks.isMarked y = true ↔ T y ∨ st.marks.isMarked y = true
  stats : st'.stats = st.stats

theorem marked_refl (st : MarkState) : st.Marked (fun _ => False) st :=
  ⟨fun _ => (or_iff_right not_false).symm, rfl⟩

theorem Marked.trans (h : st.Marked T st') (h' : st'.Marked T' st'') :
    st.Marked (fun y => T y ∨ T' y) st'' where
  marks y := by rw [h'.marks, h.marks, or_left_comm, or_assoc]
  stats := h'.stats.trans h.stats

theorem Marked.congr (h : st.Marked T st') (hT : ∀ y, T y ↔ T' y) : st.Marked T' st' :=
  ⟨fun y => (h.marks y).trans (or_congr_left (hT y)), h.stats⟩

theorem needType_marked : st.Marked (· = t) (st.needType t reason) := by
  rw [needType_eq]
  exact ⟨fun _ => Marks.isMarked_mark, rfl⟩

theorem needMethod_marked : st.Marked (· = t) (st.needMethod t reason) := by
  rw [needMethod_eq]
  exact ⟨fun _ => by rw [Marks.isMarked_mark, Marks.isMarked_ensureParsed], rfl⟩

end MarkState

namespace Marking

variable {s : Setting} {st st' : MarkState} {d : Demand} {ds es : List Demand}

/-! ## Lists of demands -/

theorem settle_append (ds es : List Demand) :
    settle s (ds ++ es) = (do settle s ds; settle s es) :=
  List.forM_append

/-- A demand that brings nothing along is met before the others. -/
theorem settle_cons (h : meet s d st = .ok [] st') :
    settle s (d :: ds) st = settle s ds st' := by
  have hstep : settle s (d :: ds) =
      (meet s d >>= settleWithin s (2 * Token.count + 1)) >>= fun _ => settle s ds := rfl
  have hnone : settleWithin s (2 * Token.count + 1) [] st' = .ok () st' := rfl
  rw [hstep]
  simp only [Bind.bind, EStateM.bind, h, hnone]

/-- A demand for a type or a method marks it, and nothing else. -/
theorem meet_for {t : Token} (h : d.For t) (st : MarkState) :
    ∃ st', meet s d st = .ok [] st' ∧ st.Marked (· = t) st' := by
  cases d with
  | type y reason =>
    cases h
    exact ⟨st.needType t reason, rfl, MarkState.needType_marked⟩
  | method y reason =>
    cases h
    exact ⟨st.needMethod t reason, rfl, MarkState.needMethod_marked⟩
  | _ => cases h

/-- Demands for types and methods, in whatever state they are met. -/
theorem settle_for (h : ∀ d ∈ ds, ∃ t, d.For t) (st : MarkState) :
    ∃ st', settle s ds st = .ok () st' ∧ st.Marked (fun y => Asks ds (.kept y)) st' := by
  induction ds generalizing st with
  | nil => exact ⟨st, rfl, st.marked_refl.congr fun y => (iff_false_intro asks_nil).symm⟩
  | cons d ds ih =>
    rw [List.forall_mem_cons] at h
    obtain ⟨⟨t, hd⟩, hds⟩ := h
    obtain ⟨st₁, hmeet, hmarked⟩ := meet_for hd st
    obtain ⟨st', hsettle, hrest⟩ := ih hds st₁
    refine ⟨st', (settle_cons hmeet).trans hsettle, (hmarked.trans hrest).congr fun y => ?_⟩
    rw [asks_cons, hd.need, Option.some.injEq, Need.kept.injEq, eq_comm]

/-! ## References -/

variable {reason : Reason}

theorem for_of_mem_methodsWhere {type : TypeDef} {test : MethodDef → Bool}
    (h : d ∈ s.methodsWhere type reason test) : ∃ t, d.For t := by
  obtain ⟨method, -, rfl⟩ := List.mem_map.mp h
  exact ⟨method.token, rfl⟩

theorem for_of_mem_constructors {params : List Token} {args : List TypeRef}
    (h : d ∈ s.constructors reason params args) : ∃ t, d.For t := by
  unfold Setting.constructors at h
  split at h
  · obtain ⟨⟨param, argument⟩, -, h⟩ := List.mem_flatMap.mp h
    simp only [Setting.constructorsFor] at h
    split at h
    · cases argument with
      | definition | external | generic =>
        dsimp only at h
        split at h
        · exact for_of_mem_methodsWhere h
        · cases h
      | _ => cases h
    · cases h
  · cases h

/-- The demands of a reference to a type are for types and methods, as far as it binds. -/
theorem for_of_mem_typeRef {r : TypeRef} (h : d ∈ s.typeRef reason r) :
    (∃ t, d.For t) ∨ ∃ cause, d = .unresolved cause := by
  obtain ⟨p, -, hd⟩ := (Setting.mem_typeRef r).mp h
  cases p with
  | generic e args => exact .inl (for_of_mem_constructors hd)
  | definition | external | primitive =>
    simp only [Setting.partDemands, Setting.namedType] at hd
    split at hd <;> cases List.mem_singleton.mp hd
    · exact .inl ⟨_, rfl⟩
    · exact .inr ⟨_, rfl⟩
  | _ => cases hd

/-- A reference without dangling parts is accepted in every state. -/
theorem settle_typeRef {r : TypeRef} (h : ¬ s.model.TypeDangles r) (st : MarkState) :
    ∃ st', settle s (s.typeRef reason r) st = .ok () st' ∧
      st.Marked (s.model.TypeNames r) st' := by
  have hbinds : ∀ d ∈ s.typeRef reason r, ∃ t, d.For t := by
    intro d hd
    refine (for_of_mem_typeRef hd).resolve_right ?_
    rintro ⟨cause, rfl⟩
    exact h (Setting.asks_typeRef.mp ⟨_, hd, rfl⟩)
  obtain ⟨st', hsettle, hmarked⟩ := settle_for hbinds st
  exact ⟨st', hsettle, hmarked.congr fun y => Setting.asks_typeRef⟩

end Marking

/-! ## Names -/

namespace Model

variable {m : Model}

theorem part_applyModifiers {modifiers : List TypeNameModifier} {r p : TypeRef} (h : r.Part p) :
    (modifiers.foldl applyModifier r).Part p := by
  induction modifiers generalizing r with
  | nil => exact h
  | cons modifier rest ih =>
    refine ih ?_
    cases modifier with
    | szArray | array => exact .array h
    | pointer => exact .pointer h
    | byRef => exact .byRef h

/-- What a name stands for is built around the definition that is found for it. -/
theorem exists_findNamed? {scopes : List Token} {name : TypeName} {r : TypeRef}
    (h : m.resolveTypeName? scopes name = some r) :
    ∃ t, m.findNamed? scopes name = some t ∧ r.Part (.definition t) := by
  obtain ⟨space, own, nested, arguments, modifiers, assembly⟩ := name
  unfold resolveTypeName? at h
  split at h
  · cases h
  · rename_i t hfind
    split at h
    · cases h
    · rename_i args hargs
      cases h
      refine ⟨t, hfind, part_applyModifiers ?_⟩
      split
      · exact .self _
      · exact .instantiated (.self _)

theorem typeNames_definition {r : TypeRef} {t : Token} (h : r.Part (.definition t))
    (ht : (m.type? t).isSome) : m.TypeNames r t :=
  .leaf h rfl (if_pos ht)

end Model

namespace Setting

variable {s : Setting} {marks : Marks} {st : MarkState} {reason : Reason} {returned : List Token}

/-- A name marks all that it stands for, the definition in front, or it is counted as passed over.
In both cases nothing else is counted. -/
theorem settle_typeName (formed : s.Formed) (scopes : List Token) (name : String)
    (st : MarkState) :
    ∃ st', Marking.settle s (s.typeName scopes reason name) st = .ok () st' ∧
      ((∃ parsed r t, TypeName.parse name = .ok parsed ∧
          s.model.resolveTypeName? scopes parsed = some r ∧
          s.model.findNamed? scopes parsed = some t ∧ s.model.TypeNames r t ∧
          st.Marked (s.model.TypeNames r) st') ∨
        (∀ parsed, TypeName.parse name = .ok parsed →
          s.model.resolveTypeName? scopes parsed = none) ∧
          st' = st.count fun c => { c with typeNamesSkipped := c.typeNamesSkipped + 1 }) := by
  unfold typeName
  cases hparse : TypeName.parse name with
  | error fault => exact ⟨_, rfl, .inr ⟨nofun, rfl⟩⟩
  | ok parsed =>
    dsimp only
    cases hresolve : s.model.resolveTypeName? scopes parsed with
    | none =>
      refine ⟨_, rfl, .inr ⟨fun parsed' h => ?_, rfl⟩⟩
      cases h
      exact hresolve
    | some r =>
      obtain ⟨t, hfind, hpart⟩ := Model.exists_findNamed? hresolve
      have ht := Model.type_of_findNamed? formed.wellFormed formed.fits hfind
      have hbinds : ¬ s.model.TypeDangles r :=
        Model.not_dangles_resolveTypeName? formed.wellFormed formed.fits parsed hresolve
      obtain ⟨st', hsettle, hmarked⟩ := Marking.settle_typeRef hbinds st
      exact ⟨st', hsettle, .inl ⟨parsed, r, t, rfl, hresolve, hfind,
        Model.typeNames_definition hpart ht, hmarked⟩⟩

/-! ## Attributes -/

/-- An attribute that cannot be decoded is met as its constructor is, and then counted. -/
theorem settle_undecoded {owner : Token} {a : Attribute} {ctor : Token} {fault : AttributeFault}
    {st st₁ : MarkState} (hbound : s.boundMethod? a.constructor = some ctor)
    (hctor : Marking.settle s (s.methodRef reason a.constructor) st = .ok () st₁)
    (hblob : s.model.decodeAttribute a = .error fault) :
    Marking.settle s (s.oneAttribute owner reason a) st =
      .ok () (st₁.count fun c => { c with attributesSkipped := c.attributesSkipped + 1 }) := by
  unfold oneAttribute
  rw [hbound, hblob, Marking.settle_append]
  simp only [Bind.bind, EStateM.bind, hctor]
  rfl

/-- However a run fails, it is for want of a method to start from, or because a reference that must
bind does not: one of a definition, or to the constructor of an attribute. -/
theorem mark_faults (formed : s.Formed) {e : MarkFault} (h : (s.mark marks).1 = .error e) :
    e = .configuration .noEntryMethods ∨
      ∃ cause, e = .unresolved cause ∧ (s.NamesMethods → s.Unbound marks fun _ => True) := by
  have adm : s.Admits marks fun _ => True := formed.admits
  have hrun := Marking.run_spec adm fun _ _ => trivial
  rcases mark_of_ends hrun with ⟨stats, st, hmark, -⟩ | ⟨e', he', hfault⟩
  · rw [hmark] at h
    cases h
  · rw [h] at he'
    cases he'
    exact hfault.symm.imp And.left id

/-- Bytes of attributes and names in metadata make no run fail, whatever they are. A run fails only
for other reasons; a reference that a name stands for is accepted in every state; a name marks what
it stands for or is counted, and does nothing else; and an attribute that cannot be decoded is met
as its constructor is and counted. -/
theorem mark_tolerates (built : Model.Built returned s.model) (fits : s.model.Fits) :
    (∀ marks e, (s.mark marks).1 = .error e →
      e = .configuration .noEntryMethods ∨
        ∃ cause, e = .unresolved cause ∧ (s.NamesMethods → s.Unbound marks fun _ => True)) ∧
    (∀ scopes parsed r reason st, s.model.resolveTypeName? scopes parsed = some r →
      ∃ st', Marking.settle s (s.typeRef reason r) st = .ok () st' ∧
        st.Marked (s.model.TypeNames r) st') ∧
    (∀ scopes name reason st, ∃ st',
      Marking.settle s (s.typeName scopes reason name) st = .ok () st' ∧
        ((∃ parsed r t, TypeName.parse name = .ok parsed ∧
            s.model.resolveTypeName? scopes parsed = some r ∧
            s.model.findNamed? scopes parsed = some t ∧ s.model.TypeNames r t ∧
            st.Marked (s.model.TypeNames r) st') ∨
          (∀ parsed, TypeName.parse name = .ok parsed →
            s.model.resolveTypeName? scopes parsed = none) ∧
            st' = st.count fun c => { c with typeNamesSkipped := c.typeNamesSkipped + 1 })) ∧
    ∀ owner reason a ctor fault st st₁, s.boundMethod? a.constructor = some ctor →
      Marking.settle s (s.methodRef reason a.constructor) st = .ok () st₁ →
      s.model.decodeAttribute a = .error fault →
      Marking.settle s (s.oneAttribute owner reason a) st =
        .ok () (st₁.count fun c => { c with attributesSkipped := c.attributesSkipped + 1 }) := by
  have formed := formed_of_built built fits
  refine ⟨fun marks e => mark_faults formed, fun scopes parsed r reason st hr => ?_,
    fun scopes name reason st => settle_typeName formed scopes name st,
    fun owner reason a ctor fault st st₁ => settle_undecoded⟩
  exact Marking.settle_typeRef
    (Model.not_dangles_resolveTypeName? formed.wellFormed formed.fits parsed hr) st

end Setting

namespace Damaged

/-- A method with a damaged attribute, on a type with a field whose marshaler has no proper name. -/
def model : Model :=
  let m := (Model.empty.addAssembly "App").2
  let m := (m.addType (.ofClass ⟨0x20000001⟩ "App" "Program")).2
  let m := (m.addType (.ofClass ⟨0x20000001⟩ "App" "TagAttribute")).2
  let m := (m.addMethod ((MethodDraft.ofConstructor ⟨0x02000002⟩).returns
    (.definition ⟨0x02000001⟩))).2
  let m := (m.addField ((FieldDraft.mk ⟨0x02000001⟩ "handle" (.definition ⟨0x02000001⟩) 0
    none []).withMarshal (.custom "[["))).2
  (m.addMethod { ((MethodDraft.ofName ⟨0x02000001⟩ "Main").returns
    (.definition ⟨0x02000001⟩)).withCode [.ret] with
      attributes := [⟨.definition ⟨0x06000001⟩, [0xff, 0xff]⟩] }).2

/-- The program with nothing configured. -/
def setting : Setting where
  model := model
  policy := .default
  overrides := .ofModel model
  options := .default
  special := .framework
  corlib := none

/-- The method and the field are kept. -/
def roots : Marks := (Marks.empty.mark ⟨0x06000002⟩ .root).mark ⟨0x04000001⟩ .root

theorem built : ∃ returned, Model.Built returned model := by
  refine ⟨_, .method _ (.field _ (.method _ (.type _ (.type _ (.assembly "App" .empty) ?_ ?_)
    ?_ ?_) ?_) ?_) ?_⟩
  · exact ⟨by decide, by decide⟩
  · exact nofun
  · exact ⟨by decide, by decide⟩
  · exact nofun
  · exact ⟨by decide, by decide⟩
  · exact ⟨by decide, by decide⟩
  · exact ⟨by decide, by decide⟩

theorem fits : model.Fits := by
  intro table
  cases table <;> decide

end Damaged

/-- The run on the damaged program ends well, with the attribute and the name passed over. In
whatever state the name is met, it is only counted. -/
theorem Setting.mark_tolerates_damaged :
    (Damaged.setting.mark Damaged.roots).1.toOption.map
        (fun stats => (stats.attributesSkipped, stats.typeNamesSkipped)) = some (1, 1) ∧
      ∀ st, Marking.settle Damaged.setting (Damaged.setting.typeName [] .root "[[") st =
        .ok () (st.count fun c => { c with typeNamesSkipped := c.typeNamesSkipped + 1 }) := by
  obtain ⟨returned, built⟩ : ∃ returned, Model.Built returned Damaged.setting.model :=
    Damaged.built
  refine ⟨by decide +kernel, fun st => ?_⟩
  have hparse : (TypeName.parse "[[").isOk = false := by decide +kernel
  obtain ⟨st', hsettle, ⟨parsed, r, t, hname, -⟩ | ⟨-, rfl⟩⟩ :=
    (Setting.mark_tolerates built Damaged.fits).2.2.1 [] "[[" .root st
  · rw [hname] at hparse
    cases hparse
  · exact hsettle

end CilTrim
