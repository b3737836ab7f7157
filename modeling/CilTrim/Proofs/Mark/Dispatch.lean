import CilTrim.Proofs.Mark.Expansion
import CilTrim.Proofs.Override.Dispatch

/-!
# Calls of virtual methods

Marking keeps what virtual calls end in. A marked class has its bases marked, and the table pairs
each method with those that take over from it. So whatever takes over on the way from a marked
method down to a marked class is marked too:

* `Setting.Closed.hierarchy`: closed sets have the bases of their types;
* `Setting.Closed.takesOver`: closed sets have what takes over from their methods;
* `Setting.mark_dispatch`: the targets of calls after a run.
-/

namespace CilTrim

/-! ## What references name -/

namespace Model

variable {m : Model} {r : TypeRef} {t : Token}

/-- What a reference binds to, it names. -/
theorem typeNames_of_resolveType (h : m.resolveType r = .ok t) : m.TypeNames r t := by
  have hnamed : r.element.isNamed = true := by
    unfold resolveType at h
    split at h <;> rename_i he
    · rw [he]; rfl
    · rw [he]; rfl
    · rw [he]; rfl
    · cases h
  exact .leaf r.part_element hnamed ((resolveType_element r).trans h)

end Model

/-! ## Closed sets -/

namespace Setting

variable {s : Setting} {marks : Marks} {S : Token → Prop} {returned : List Token}

/-- A closed set has the bases of its types. -/
theorem Closed.hierarchy (closed : s.Closed marks S) (names : s.model.NamesBases) {t : Token}
    (ht : S t) : ∀ e ∈ s.model.hierarchy t, S e.1 := by
  refine Model.hierarchyFrom_subset (fun ht hbase => ?_) ht
  obtain ⟨type, r, htype, hr, hres⟩ := Model.resolveType_of_baseWith? names hbase
  exact closed.type ht htype (.mention (.base hr) (Model.typeNames_of_resolveType hres))

/-- A closed set has what takes over from its virtual methods on its classes. -/
theorem Closed.takesOver (closed : s.Closed marks S) (reg : s.Regular) {t current : Token}
    {type : TypeDef} {method : MethodDef} (htype : s.model.type? t = some type) (ht : S t)
    (hclass : type.isInterface = false) (h : s.model.TakesOver type current method)
    (hcurrent : S current ∧ s.model.IsVirtual current) :
    S method.token ∧ s.model.IsVirtual method.token := by
  obtain ⟨hlisted, hmethod⟩ := Model.mem_methodsOf reg.wellFormed h.declared
  refine ⟨?_, method, hmethod, h.isVirtual⟩
  rcases h.mem_ofModel (Rows.mem_of_find? htype) hclass with he | hpair
  · exact he ▸ hcurrent.1
  · have hdeclared : s.model.declaringTypeOf? method.token = some t := by
      obtain ⟨d, hd, howner⟩ := reg.wellFormed.methods_listed.declared htype hlisted
      rw [Model.declaringTypeOf?_method hd, howner]
    refine closed.overrider hcurrent.1 hcurrent.2 ?_ hdeclared ht
    rw [OverrideTable.mem_overridesOf, reg.overrides_eq]
    exact hpair

/-- A closed set has the targets of calls of its virtual methods on its classes. -/
theorem Closed.dispatchesOn (closed : s.Closed marks S) (reg : s.Regular)
    (names : s.model.NamesBases) {derived base target : Token} (hderived : S derived)
    (classes : ∀ e ∈ s.model.hierarchy derived, ∀ type, s.model.type? e.1 = some type →
      type.isInterface = false)
    (hbase : S base) (hvirtual : s.model.IsVirtual base)
    (h : s.model.DispatchesOn derived base target) : S target ∧ s.model.IsVirtual target := by
  obtain ⟨below, declaring, args, above, hchain, -, hdispatches⟩ := h
  refine hdispatches.induct (P := fun t => S t ∧ s.model.IsVirtual t) (fun t ht => ?_)
    ⟨hbase, hvirtual⟩
  obtain ⟨e, he, rfl⟩ := List.mem_map.mp ht
  have hmem : e ∈ s.model.hierarchy derived := by
    rw [hchain]
    exact List.mem_append_left _ (List.mem_reverse.mp he)
  intro type current method htype htakes
  exact closed.takesOver reg htype (closed.hierarchy names hderived e hmem)
    (classes e hmem type htype) htakes

/-! ## Runs -/

/-- A call of a virtual method that is marked, on an object of a class that is marked, ends in a
method that is marked and processed. -/
theorem mark_dispatch (built : Model.Built returned s.model) (fits : s.model.Fits)
    (overrides : s.overrides = .ofModel s.model) (names : s.model.NamesBases)
    (fresh : ∀ t, marks.isProcessed t = false) {stats : MarkStats}
    (h : (s.mark marks).1 = .ok stats) {derived declaring base : Token} {args : List TypeRef}
    (hderived : (s.mark marks).2.isMarked derived = true)
    (classes : ∀ e ∈ s.model.hierarchy derived, ∀ type, s.model.type? e.1 = some type →
      type.isInterface = false)
    (inherited : (declaring, args) ∈ s.model.hierarchy derived)
    (declared : s.model.declaringTypeOf? base = some declaring)
    (hvirtual : s.model.IsVirtual base) (hbase : (s.mark marks).2.isMarked base = true) :
    (∃ target, s.model.DispatchesOn derived base target) ∧
      ∀ target, s.model.DispatchesOn derived base target →
        (s.mark marks).2.isMarked target = true ∧ (s.mark marks).2.isProcessed target = true := by
  have reg := regular_of_built built fits overrides
  have resumes : s.Resumes marks := resumes_of_fresh fresh
  refine ⟨Model.exists_dispatchesOn inherited declared, fun target htarget => ?_⟩
  obtain ⟨start, st, hran, hmarks⟩ := mark_ran reg resumes h
  rw [hmarks] at hderived hbase ⊢
  have closed : s.Closed marks (st.marks.isMarked · = true) :=
    (hran.still reg resumes).1.closed reg
  obtain ⟨hm, hv⟩ :=
    closed.dispatchesOn reg names hderived classes hbase hvirtual htarget
  exact ⟨hm, (hran.isProcessed (reg.admits Reached.closed) target).1 hv.isSome hm⟩

end Setting

/-! ## A program with overrides of all kinds -/

namespace Cursors

/-- A generic class with a virtual method, a class that overrides it for an instantiation, and a
class that hides the override and overrides it under another name. -/
def model : Model :=
  let m := (Model.empty.addAssembly "Cursors").2
  let m := (m.addType { TypeDraft.ofClass ⟨0x20000001⟩ "Cursors" "Cursor" with
    generics := [⟨"T", 0, []⟩] }).2
  let m := (m.addType ((TypeDraft.ofClass ⟨0x20000001⟩ "Cursors" "Lines").withBase
    (.generic (.definition ⟨0x02000001⟩) [.definition ⟨0x02000002⟩]))).2
  let m := (m.addType ((TypeDraft.ofClass ⟨0x20000001⟩ "Cursors" "Words").withBase
    (.definition ⟨0x02000002⟩))).2
  let m := (m.addMethod ((MethodDraft.ofName ⟨0x02000001⟩ "Next").asVirtual.inNewSlot.returns
    (.typeParameter 0))).2
  let m := (m.addMethod ((MethodDraft.ofName ⟨0x02000002⟩ "Next").asVirtual.returns
    (.definition ⟨0x02000002⟩))).2
  let m := (m.addMethod ((MethodDraft.ofName ⟨0x02000003⟩ "Next").asVirtual.inNewSlot.returns
    (.definition ⟨0x02000002⟩))).2
  let m := (m.addMethod { (MethodDraft.ofName ⟨0x02000003⟩ "Advance").asVirtual.inNewSlot.returns
    (.definition ⟨0x02000002⟩) with overrides := [.definition ⟨0x06000002⟩] }).2
  (m.addMethod (((MethodDraft.ofName ⟨0x02000003⟩ "Main").returns
    (.definition ⟨0x02000003⟩)).withCode [.callvirt (.definition ⟨0x06000001⟩), .ret])).2

/-- The program with nothing configured. -/
def setting : Setting where
  model := model
  policy := .default
  overrides := .ofModel model
  options := .default
  special := .empty
  corlib := none

/-- The method that calls is kept. -/
def roots : Marks := Marks.empty.mark ⟨0x06000005⟩ .root

theorem built : ∃ returned, Model.Built returned model := by
  refine ⟨_, .method _ (.method _ (.method _ (.method _ (.method _ (.type _ (.type _ (.type _
    (.assembly "Cursors" .empty) ?_ nofun) ?_ nofun) ?_ nofun) ?_) ?_) ?_) ?_) ?_⟩
  all_goals exact ⟨by decide, by decide⟩

theorem fits : model.Fits := by
  intro table
  cases table <;> decide

theorem namesBases : model.NamesBases := by
  unfold Model.NamesBases
  decide +kernel

theorem hierarchy_words : model.hierarchy ⟨0x02000003⟩ =
    [(⟨0x02000003⟩, []), (⟨0x02000002⟩, []), (⟨0x02000001⟩, [.definition ⟨0x02000002⟩])] := by
  rfl

/-- The override for the instantiation takes the slot of the generic method. -/
theorem takesOver_lines : ∃ type method, model.type? ⟨0x02000002⟩ = some type ∧
    model.TakesOver type ⟨0x06000001⟩ method ∧ method.token = ⟨0x06000002⟩ := by
  refine ⟨_, _, rfl, ⟨List.mem_cons_self, ?_, .inr ⟨?_, ?_⟩⟩, ?_⟩
  · decide +kernel
  · decide +kernel
  · exact Model.nearestVirtual?_eq_some_iff.mp (by decide +kernel)
  · decide +kernel

/-- The method in a slot of its own takes over by name. -/
theorem takesOver_words : ∃ type method, model.type? ⟨0x02000003⟩ = some type ∧
    model.TakesOver type ⟨0x06000002⟩ method ∧ method.token = ⟨0x06000004⟩ := by
  refine ⟨_, _, rfl, ⟨List.mem_cons_of_mem _ List.mem_cons_self, ?_,
    .inl ⟨_, List.mem_cons_self, ?_⟩⟩, ?_⟩
  · decide +kernel
  · rfl
  · decide +kernel

/-- A call of the generic method on the last class ends in the method that names the override. -/
theorem dispatchesOn_words : model.DispatchesOn ⟨0x02000003⟩ ⟨0x06000001⟩ ⟨0x06000004⟩ :=
  ⟨[(⟨0x02000003⟩, []), (⟨0x02000002⟩, [])], ⟨0x02000001⟩, _, [], hierarchy_words, by rfl,
    .visit (.replaces (.single takesOver_lines)) <|
      .visit (.replaces (.single takesOver_words)) (.done _)⟩

end Cursors

/-- The run on the program keeps what the call ends in. -/
theorem Setting.mark_dispatch_cursors :
    Cursors.model.DispatchesOn ⟨0x02000003⟩ ⟨0x06000001⟩ ⟨0x06000004⟩ ∧
      (Cursors.setting.mark Cursors.roots).2.isMarked ⟨0x06000004⟩ = true ∧
      (Cursors.setting.mark Cursors.roots).2.isProcessed ⟨0x06000004⟩ = true := by
  obtain ⟨returned, built⟩ := Cursors.built
  obtain ⟨stats, h⟩ := exists_ok_of_isOk (x := (Cursors.setting.mark Cursors.roots).1)
    (by decide +kernel)
  have fresh (t : Token) : Cursors.roots.isProcessed t = false := by
    rw [Cursors.roots, Marks.isProcessed_mark]
    rfl
  have classes : ∀ e ∈ Cursors.model.hierarchy ⟨0x02000003⟩, ∀ type,
      Cursors.model.type? e.1 = some type → type.isInterface = false := by
    decide +kernel
  have inherited : (⟨0x02000001⟩, [.definition ⟨0x02000002⟩]) ∈
      Cursors.model.hierarchy ⟨0x02000003⟩ := by
    rw [Cursors.hierarchy_words]
    exact List.mem_cons_of_mem _ (List.mem_cons_of_mem _ List.mem_cons_self)
  have declared : Cursors.model.declaringTypeOf? ⟨0x06000001⟩ = some ⟨0x02000001⟩ := by
    decide +kernel
  obtain ⟨-, htargets⟩ := mark_dispatch built Cursors.fits rfl Cursors.namesBases fresh h
    (by decide +kernel) classes inherited declared ⟨_, rfl, by decide +kernel⟩ (by decide +kernel)
  exact ⟨Cursors.dispatchesOn_words, htargets _ Cursors.dispatchesOn_words⟩

end CilTrim
