import CilTrim.Builder.CoreLibrary
import CilTrim.Proofs.Builder.Consistent

/-!
# Sessions with a builder

A session is a sequence of operations on a builder, in which owners and accessors are tokens that
earlier operations returned. The core library is added by steps of the same kind, so a session
builds a model:

* `Model.Makes`: steps that build, from tokens that were returned, and return tokens;
* `Model.makes_addCoreLibrary`: adding the core library is such a step;
* `Builder.Session`, `Builder.Session.model_consistent`: the model of a session is consistent.
-/

namespace CilTrim

namespace Model

/-! ## Steps that build -/

theorem Returned.mono {returned all : List Token} (h : ∀ t ∈ returned, t ∈ all) {table : Table}
    {t : Token} (ht : Returned returned table t) : Returned all table t :=
  ⟨h t ht.1, ht.2⟩

/-- The tokens, each of its table, were returned. -/
def AllReturned (returned : List Token) (known : List (Table × Token)) : Prop :=
  ∀ e ∈ known, Returned returned e.1 e.2

/-- One model is built from another: no token is taken back, and the ledger has only grown. -/
structure Continues (returned : List Token) (m : Model) (returned' : List Token) (m' : Model) :
    Prop where
  built : Built returned' m'
  returned : ∀ t ∈ returned, t ∈ returned'
  ledger : ∃ new, m'.ledger = m.ledger ++ new

namespace Continues

variable {returned returned' returned'' : List Token} {m m' m'' : Model}

theorem refl (built : Built returned m) : Continues returned m returned m :=
  ⟨built, fun _ => id, {}, (Ledger.append_nil _).symm⟩

theorem trans (h : Continues returned m returned' m') (h' : Continues returned' m' returned'' m'') :
    Continues returned m returned'' m'' := by
  obtain ⟨new, hnew⟩ := h.ledger
  obtain ⟨new', hnew'⟩ := h'.ledger
  exact ⟨h'.built, fun t ht => h'.returned t (h.returned t ht), new ++ new',
    by rw [hnew', hnew, Ledger.append_assoc]⟩

theorem allReturned (h : Continues returned m returned' m') {known : List (Table × Token)}
    (hk : AllReturned returned known) : AllReturned returned' known :=
  fun e he => (hk e he).mono h.returned

end Continues

/-- From a model that was built, with `known` among the returned tokens, the step builds a model,
and what is `post` of its result is returned as well. -/
def Makes {α : Type} (known : List (Table × Token)) (step : Build α)
    (post : α → List (Table × Token)) : Prop :=
  ∀ (returned : List Token) (m : Model), Built returned m → AllReturned returned known →
    ∃ returned', Continues returned m returned' (step m).2 ∧
      AllReturned returned' (post (step m).1)

namespace Makes

variable {α β : Type} {known : List (Table × Token)}

theorem pure {post : α → List (Table × Token)} {a : α} (h : post a ⊆ known) :
    Makes known (Pure.pure a) post :=
  fun returned _ built hk => ⟨returned, .refl built, fun e he => hk e (h he)⟩

theorem bind {step : Build α} {next : α → Build β} {mid : α → List (Table × Token)}
    {post : β → List (Table × Token)} (h : Makes known step mid)
    (h' : ∀ a, Makes (mid a ++ known) (next a) post) : Makes known (step >>= next) post := by
  intro returned m built hk
  obtain ⟨returned', hstep, hmid⟩ := h returned m built hk
  have hk' : AllReturned returned' (mid (step m).1 ++ known) := fun e he =>
    (List.mem_append.mp he).elim (hmid e) (hstep.allReturned hk e)
  obtain ⟨returned'', hnext, hpost⟩ := h' (step m).1 _ _ hstep.built hk'
  exact ⟨returned'', hstep.trans hnext, hpost⟩

/-- A step that returns the token of what it adds. -/
theorem of_built {step : Build Token} {table : Table}
    (hbuilt : ∀ returned m, Built returned m → AllReturned returned known →
      Built ((step m).1 :: returned) (step m).2)
    (hin : ∀ m, (step m).1.isIn table = true)
    (hledger : ∀ m, ∃ new, (step m).2.ledger = m.ledger ++ new) :
    Makes known step fun t => [(table, t)] := by
  intro returned m built hk
  refine ⟨(step m).1 :: returned,
    ⟨hbuilt returned m built hk, fun _ => List.mem_cons_of_mem _, hledger m⟩, fun e he => ?_⟩
  rw [List.mem_singleton.mp he]
  exact ⟨List.mem_cons_self, hin m⟩

theorem addAssembly (name : String) :
    Makes known (fun m => m.addAssembly name) fun t => [(.assembly, t)] :=
  of_built (fun _ _ built _ => built.assembly name) (fun _ => isIn_next .assembly _)
    fun m => ⟨_, ledger_addAssembly m name⟩

theorem addType (assembly : Token) (h : (.assembly, assembly) ∈ known) {d : TypeDraft}
    (ha : d.assembly = assembly) (ho : d.declaringType = none) :
    Makes known (fun m => m.addType d) fun t => [(.typeDef, t)] :=
  of_built (fun _ _ built hk => built.type d (ha ▸ hk _ h) (by simp [ho]))
    (fun _ => isIn_next .typeDef _) fun m => ⟨_, ledger_addType m d⟩

theorem addMethod (type : Token) (h : (.typeDef, type) ∈ known) {d : MethodDraft}
    (hd : d.declaringType = type) :
    Makes known (fun m => m.addMethod d) fun t => [(.methodDef, t)] :=
  of_built (fun _ _ built hk => built.method d (hd ▸ hk _ h)) (fun _ => isIn_next .methodDef _)
    fun m => ⟨_, ledger_addMethod m d⟩

theorem setCorlib (assembly : Token) :
    Makes known (modify (·.setCorlib assembly) : Build PUnit) fun _ => [] :=
  fun returned _ built _ =>
    ⟨returned, ⟨built.corlib assembly, fun _ => id, {}, (Ledger.append_nil _).symm⟩,
      fun _ he => nomatch he⟩

/-- A loop whose turns build. -/
theorem forIn {xs : List α} {body : α → Build Token} {mid : α → Token → List (Table × Token)}
    (h : ∀ x, Makes known (body x) (mid x)) :
    Makes known
      (ForIn.forIn xs PUnit.unit fun x _ => do
        discard (body x)
        Pure.pure (ForInStep.yield PUnit.unit))
      fun _ => [] := by
  induction xs with
  | nil => exact pure (List.nil_subset _)
  | cons x xs ih =>
    rw [List.forIn_cons]
    intro returned m built hk
    obtain ⟨returned', hturn, -⟩ := h x returned m built hk
    obtain ⟨returned'', hrest, hpost⟩ := ih _ _ hturn.built (hturn.allReturned hk)
    exact ⟨returned'', hturn.trans hrest, hpost⟩

end Makes

/-- The tables of the tokens of the core library. -/
def coreTables : List Table :=
  [.assembly, .typeDef, .methodDef, .methodDef, .methodDef, .methodDef, .methodDef, .typeDef,
    .typeDef, .typeDef, .typeDef, .typeDef, .methodDef, .typeDef, .typeDef, .typeDef, .methodDef,
    .typeDef, .typeDef]

theorem zip_coreTables (c : CoreLibrary) : (coreTables.zip c.tokens).map (·.2) = c.tokens :=
  rfl

/-- The core library is built, and its tokens are returned. -/
theorem makes_addCoreLibrary (known : List (Table × Token)) :
    Makes known addCoreLibrary fun c => coreTables.zip c.tokens := by
  unfold addCoreLibrary
  refine .bind (.addAssembly _) fun assembly => ?_
  refine .bind (.setCorlib _) fun _ => ?_
  refine .bind (.addType assembly (by simp) rfl rfl) fun objectType => ?_
  refine .bind (.addMethod objectType (by simp) rfl) fun _ => ?_
  refine .bind (.addMethod objectType (by simp) rfl) fun _ => ?_
  refine .bind (.addMethod objectType (by simp) rfl) fun _ => ?_
  refine .bind (.addMethod objectType (by simp) rfl) fun _ => ?_
  refine .bind (.addMethod objectType (by simp) rfl) fun _ => ?_
  refine .bind (.addType assembly (by simp) rfl rfl) fun _ => ?_
  refine .bind (.addType assembly (by simp) rfl rfl) fun _ => ?_
  refine .bind (.forIn fun _ => .addType assembly (by simp) rfl rfl) fun _ => ?_
  refine .bind (.addType assembly (by simp) rfl rfl) fun _ => ?_
  refine .bind (.addType assembly (by simp) rfl rfl) fun typeType => ?_
  refine .bind (.addType assembly (by simp) rfl rfl) fun attributeType => ?_
  refine .bind (.addMethod attributeType (by simp) rfl) fun _ => ?_
  refine .bind (.addType assembly (by simp) rfl rfl) fun _ => ?_
  refine .bind (.addType assembly (by simp) rfl rfl) fun _ => ?_
  refine .bind (.addType assembly (by simp) rfl rfl) fun exceptionType => ?_
  refine .bind (.addMethod exceptionType (by simp) rfl) fun _ => ?_
  refine .bind (.addType assembly (by simp) rfl rfl) fun _ => ?_
  refine .bind (.addType assembly (by simp) rfl rfl) fun _ => ?_
  refine .bind (.addMethod typeType (by simp) rfl) fun _ => ?_
  refine .pure ?_
  simp only [coreTables, CoreLibrary.tokens, List.zip_cons_cons, List.zip_nil_left,
    List.cons_subset, List.nil_subset, List.mem_append, List.mem_singleton, true_or, or_true,
    and_self]

/-- A model with the core library is built, with its tokens among those that are returned. -/
theorem Built.addCoreLibrary {returned : List Token} {m m' : Model} {library : CoreLibrary}
    (built : Built returned m) (h : Model.addCoreLibrary m = (library, m')) :
    ∃ returned', Continues returned m returned' m' ∧ ∀ t ∈ library.tokens, t ∈ returned' := by
  obtain ⟨returned', hcontinues, hnew⟩ :=
    makes_addCoreLibrary [] returned m built (fun _ he => nomatch he)
  rw [h] at hcontinues hnew
  refine ⟨returned', hcontinues, fun t ht => ?_⟩
  rw [← zip_coreTables library] at ht
  obtain ⟨e, he, rfl⟩ := List.mem_map.mp ht
  exact (hnew e he).1

end Model

/-! ## Sessions -/

namespace Builder

open Model (Returned Built)

/-- The builders after a sequence of operations, with the tokens returned on the way and, beside
those of the core library, with what each of them was returned for. Owners and accessors are
tokens of the right table that were returned before; references are free. An attribute that is
refused leaves the builder as it is. -/
inductive Session : List Token → List (Token × Definition) → Builder → Prop where
  | empty : Session [] [] .empty
  | assembly {returned : List Token} {made : List (Token × Definition)} {b : Builder}
    (name : String) : Session returned made b →
    Session ((b.onModel (·.addAssembly name)).1 :: returned)
      (((b.onModel (·.addAssembly name)).1, .assembly (b.model.newAssembly name)) :: made)
      (b.onModel (·.addAssembly name)).2
  | corlib {returned : List Token} {made : List (Token × Definition)} {b : Builder} :
    Session returned made b → Session (b.corlib.1.tokens ++ returned) made b.corlib.2
  | setCorlib {returned : List Token} {made : List (Token × Definition)} {b : Builder}
    (assembly : Token) : Session returned made b →
    Session returned made { b with model := b.model.setCorlib assembly }
  | type {returned : List Token} {made : List (Token × Definition)} {b : Builder}
    (d : TypeDraft) : Session returned made b → Returned returned .assembly d.assembly →
    (∀ outer, d.declaringType = some outer → Returned returned .typeDef outer) →
    Session ((b.onModel (·.addType d)).1 :: returned)
      (((b.onModel (·.addType d)).1, .type (b.model.newType d)) :: made)
      (b.onModel (·.addType d)).2
  | method {returned : List Token} {made : List (Token × Definition)} {b : Builder}
    (d : MethodDraft) : Session returned made b → Returned returned .typeDef d.declaringType →
    Session ((b.onModel (·.addMethod d)).1 :: returned)
      (((b.onModel (·.addMethod d)).1, .method (b.model.newMethod d)) :: made)
      (b.onModel (·.addMethod d)).2
  | field {returned : List Token} {made : List (Token × Definition)} {b : Builder}
    (d : FieldDraft) : Session returned made b → Returned returned .typeDef d.declaringType →
    Session ((b.onModel (·.addField d)).1 :: returned)
      (((b.onModel (·.addField d)).1, .field (b.model.newField d)) :: made)
      (b.onModel (·.addField d)).2
  | property {returned : List Token} {made : List (Token × Definition)} {b : Builder}
    (d : PropertyDraft) : Session returned made b → Returned returned .typeDef d.declaringType →
    (∀ t ∈ d.getter.toList ++ d.setter.toList ++ d.other, Returned returned .methodDef t) →
    Session ((b.onModel (·.addProperty d)).1 :: returned)
      (((b.onModel (·.addProperty d)).1, .property (b.model.newProperty d)) :: made)
      (b.onModel (·.addProperty d)).2
  | event {returned : List Token} {made : List (Token × Definition)} {b : Builder}
    (d : EventDraft) : Session returned made b → Returned returned .typeDef d.declaringType →
    (∀ t ∈ d.adder.toList ++ d.remover.toList ++ d.raiser.toList, Returned returned .methodDef t) →
    Session ((b.onModel (·.addEvent d)).1 :: returned)
      (((b.onModel (·.addEvent d)).1, .event (b.model.newEvent d)) :: made)
      (b.onModel (·.addEvent d)).2
  | attributed {returned : List Token} {made : List (Token × Definition)} {b : Builder} {m : Model}
    (owner : Token) (a : Attribute) : Session returned made b →
    b.model.addAttribute owner a = .ok m → Session returned made { b with model := m }

/-- The core library is added by the first call. -/
theorem corlib_of_none {b : Builder} (h : b.coreLibrary = none) {library : CoreLibrary} {m : Model}
    (hadd : Model.addCoreLibrary b.model = (library, m)) :
    b.corlib = (library, ⟨m, some library⟩) := by
  rw [corlib, h]
  simp only [hadd]

theorem corlib_of_some {b : Builder} {library : CoreLibrary} (h : b.coreLibrary = some library) :
    b.corlib = (library, b) := by
  rw [corlib, h]

namespace Session

variable {returned : List Token} {made : List (Token × Definition)} {b : Builder}

/-- The model of a session was built, and the tokens of the core library are among those that
were returned for it. -/
theorem built (h : Session returned made b) :
    ∃ all, Built all b.model ∧ (∀ t ∈ returned, t ∈ all) ∧
      ∀ library, b.coreLibrary = some library → ∀ t ∈ library.tokens, t ∈ all := by
  have added {all returned : List Token} {library : Option CoreLibrary} {t : Token}
      (hsub : ∀ t ∈ returned, t ∈ all)
      (hcore : ∀ c, library = some c → ∀ t ∈ c.tokens, t ∈ all) :
      (∀ x ∈ t :: returned, x ∈ t :: all) ∧
        ∀ c, library = some c → ∀ x ∈ c.tokens, x ∈ t :: all :=
    ⟨fun _ => List.mem_cons.mpr ∘ Or.imp_right (hsub _) ∘ List.mem_cons.mp,
      fun c hc x hx => List.mem_cons_of_mem _ (hcore c hc x hx)⟩
  induction h with
  | empty => exact ⟨[], .empty, nofun, nofun⟩
  | assembly name _ ih =>
    obtain ⟨all, hbuilt, hsub, hcore⟩ := ih
    exact ⟨_, hbuilt.assembly name, added hsub hcore⟩
  | @corlib returned _ b _ ih =>
    obtain ⟨all, hbuilt, hsub, hcore⟩ := ih
    cases hb : b.coreLibrary with
    | some library =>
      rw [corlib_of_some hb]
      exact ⟨all, hbuilt, fun t ht => (List.mem_append.mp ht).elim (hcore library hb t) (hsub t),
        hcore⟩
    | none =>
      cases hadd : Model.addCoreLibrary b.model with
      | mk library model =>
        obtain ⟨all', hcontinues, hlibrary⟩ := hbuilt.addCoreLibrary hadd
        rw [corlib_of_none hb hadd]
        refine ⟨all', hcontinues.built, fun t ht => ?_, fun c hc t ht => ?_⟩
        · exact (List.mem_append.mp ht).elim (hlibrary t) fun ht =>
            hcontinues.returned t (hsub t ht)
        · exact hlibrary t (Option.some.inj hc ▸ ht)
  | setCorlib assembly _ ih =>
    obtain ⟨all, hbuilt, hsub, hcore⟩ := ih
    exact ⟨all, hbuilt.corlib assembly, hsub, hcore⟩
  | type d _ ha ho ih =>
    obtain ⟨all, hbuilt, hsub, hcore⟩ := ih
    exact ⟨_, hbuilt.type d (ha.mono hsub) fun outer h => (ho outer h).mono hsub,
      added hsub hcore⟩
  | method d _ ho ih =>
    obtain ⟨all, hbuilt, hsub, hcore⟩ := ih
    exact ⟨_, hbuilt.method d (ho.mono hsub), added hsub hcore⟩
  | field d _ ho ih =>
    obtain ⟨all, hbuilt, hsub, hcore⟩ := ih
    exact ⟨_, hbuilt.field d (ho.mono hsub), added hsub hcore⟩
  | property d _ ho hacc ih =>
    obtain ⟨all, hbuilt, hsub, hcore⟩ := ih
    exact ⟨_, hbuilt.property d (ho.mono hsub) fun t ht => (hacc t ht).mono hsub,
      added hsub hcore⟩
  | event d _ ho hacc ih =>
    obtain ⟨all, hbuilt, hsub, hcore⟩ := ih
    exact ⟨_, hbuilt.event d (ho.mono hsub) fun t ht => (hacc t ht).mono hsub,
      added hsub hcore⟩
  | attributed owner a _ ha ih =>
    obtain ⟨all, hbuilt, hsub, hcore⟩ := ih
    exact ⟨all, hbuilt.attributed owner a ha, hsub, hcore⟩

/-- What a session has made is found by the token that was returned for it. -/
theorem definition?_of_made (h : Session returned made b) (fits : b.model.Fits) :
    ∀ e ∈ made, b.model.definition? e.1 = some e.2 := by
  have kept {m m' : Model} {new : Ledger} {made : List (Token × Definition)}
      (hledger : m'.ledger = m.ledger ++ new) (fits : m'.Fits)
      (ih : m.Fits → ∀ e ∈ made, m.definition? e.1 = some e.2) :
      ∀ e ∈ made, m'.definition? e.1 = some e.2 := fun e he =>
    Model.definition?_of_ledger hledger (ih (Model.fits_of_ledger hledger fits) e he)
  have added (table : Table) {m m' : Model} {new : Ledger} {d : Definition}
      {made : List (Token × Definition)} (hledger : m'.ledger = m.ledger ++ new)
      (hnew : new.rows table = [d]) (fits : m'.Fits)
      (ih : m.Fits → ∀ e ∈ made, m.definition? e.1 = some e.2) :
      ∀ e ∈ (Token.next table (m.size table), d) :: made, m'.definition? e.1 = some e.2 :=
    List.forall_mem_cons.mpr
      ⟨Model.definition?_next hledger fits hnew, kept hledger fits ih⟩
  induction h with
  | empty => exact fun _ h => nomatch h
  | @assembly _ _ b name _ ih =>
    exact added .assembly (b.model.ledger_addAssembly name) rfl fits ih
  | @corlib returned _ b h ih =>
    cases hb : b.coreLibrary with
    | some library =>
      rw [corlib_of_some hb] at fits ⊢
      exact ih fits
    | none =>
      cases hadd : Model.addCoreLibrary b.model with
      | mk library model =>
        obtain ⟨all, hbuilt, -⟩ := h.built
        obtain ⟨_, hcontinues, -⟩ := hbuilt.addCoreLibrary hadd
        obtain ⟨new, hnew⟩ := hcontinues.ledger
        rw [corlib_of_none hb hadd] at fits ⊢
        exact kept hnew fits ih
  | @setCorlib _ _ b assembly _ ih =>
    exact kept (Ledger.append_nil b.model.ledger).symm fits ih
  | @type _ _ b d _ _ _ ih =>
    exact added .typeDef (b.model.ledger_addType d) rfl fits ih
  | @method _ _ b d _ _ ih =>
    exact added .methodDef (b.model.ledger_addMethod d) rfl fits ih
  | @field _ _ b d _ _ ih =>
    exact added .field (b.model.ledger_addField d) rfl fits ih
  | @property _ _ b d _ _ _ ih =>
    exact added .property (b.model.ledger_addProperty d) rfl fits ih
  | @event _ _ b d _ _ _ ih =>
    exact added .event (b.model.ledger_addEvent d) rfl fits ih
  | attributed owner a _ ha ih =>
    exact kept ((Model.ledger_addAttribute ha).trans (Ledger.append_nil _).symm) fits ih

/-- After every operation of a session, as long as every table has fewer rows than tokens can tell
apart, definitions hold the tokens of their rows, stand once in the lists they belong to, and are
found by their tokens and names. A token finds what it was returned for. -/
theorem model_consistent (h : Session returned made b) (fits : b.model.Fits) :
    b.model.Consistent returned ∧ ∀ e ∈ made, b.model.definition? e.1 = some e.2 := by
  obtain ⟨all, hbuilt, hsub, -⟩ := h.built
  have hall := hbuilt.consistent fits
  exact ⟨{ hall with found := fun ht => hall.found (hsub _ ht) }, h.definition?_of_made fits⟩

end Session

/-- A box with a lid, a generic method that is the getter of a property, and a second box that
hides the first from lookup by name. -/
def boxes : Builder :=
  let b := (empty.onModel (·.addAssembly "Boxes")).2
  let b := (b.onModel (·.addType
    { TypeDraft.ofClass ⟨0x20000001⟩ "Boxes" "Box" with generics := [⟨"T", 0, []⟩] })).2
  let b := (b.onModel (·.addType
    ((TypeDraft.ofClass ⟨0x20000001⟩ "Boxes" "Lid").nestIn ⟨0x02000001⟩))).2
  let b := (b.onModel (·.addMethod
    { MethodDraft.ofName ⟨0x02000002⟩ "get_Weight" with generics := [⟨"U", 0, []⟩] })).2
  let b := (b.onModel (·.addProperty
    { declaringType := ⟨0x02000002⟩, name := "Weight", type := .primitive .i4,
      getter := some ⟨0x06000001⟩ })).2
  (b.onModel (·.addType (.ofClass ⟨0x20000001⟩ "Boxes" "Box"))).2

theorem boxes_session : ∃ returned made, Session returned made boxes := by
  refine ⟨_, _, .type _ (.property _ (.method _ (.type _ (.type _ (.assembly "Boxes" .empty) ?_ ?_)
    ?_ ?_) ?_) ?_ ?_) ?_ ?_⟩
  · exact ⟨by decide, by decide⟩
  · exact nofun
  · exact ⟨by decide, by decide⟩
  · intro outer h
    rw [← Option.some.inj h]
    exact ⟨by decide, by decide⟩
  · exact ⟨by decide, by decide⟩
  · exact ⟨by decide, by decide⟩
  · intro t ht
    rw [List.mem_singleton.mp ht]
    exact ⟨by decide, by decide⟩
  · exact ⟨by decide, by decide⟩
  · exact nofun

theorem boxes_fits : boxes.model.Fits := by
  intro table
  cases table <;> decide

theorem model_consistent_boxes : ∃ returned made, Session returned made boxes ∧
    boxes.model.Fits ∧ boxes.model.Consistent returned ∧
    ∀ e ∈ made, boxes.model.definition? e.1 = some e.2 :=
  let ⟨returned, made, h⟩ := boxes_session
  ⟨returned, made, h, boxes_fits, Session.model_consistent h boxes_fits⟩

example : boxes.model.fullName ⟨0x02000002⟩ = "Boxes.Box/Lid" := by decide

example : boxes.model.findType? ⟨0x20000001⟩ "Boxes.Box" = some ⟨0x02000003⟩ := by decide

end Builder

end CilTrim
