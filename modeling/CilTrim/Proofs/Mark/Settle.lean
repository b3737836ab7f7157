import CilTrim.Proofs.Mark.Spread
import CilTrim.Proofs.Mark.Termination

/-!
# Meeting demands

Meeting the demands of a list ends with all of them met, or fails because a reference does not
bind. The fields and assemblies that are opened on the way have all that they need:

* `MarkState.Met`, `Marks.Meets`: a demand that is met, and one that marks alone meet;
* `Marking.meet_spec`: one demand, and what it brings along;
* `Marking.settle_spec`: a list of demands, with all that they bring along.
-/

namespace CilTrim

/-! ## Demands that are met -/

namespace MarkState

variable {own : Token → Prop} {st st' : MarkState}

/-- What a demand asks for holds. -/
def Met (st : MarkState) : Demand → Prop
  | .node t _ | .type t _ => st.marks.isMarked t = true
  | .method t _ => st.marks.isMarked t = true ∧ st.marks.methodAction t ≠ .nothing
  | .field t _ => st.marks.isMarked t = true ∧ t ∈ st.expandedFields
  | .assembly t => t ∈ st.seenAssemblies
  | .overridable t => t ∈ st.virtuals
  | .finished t => st.marks.isProcessed t = true
  | .unresolved _ => False
  | _ => True

theorem Grows.met (h : st.Grows own st') {d : Demand} (hd : st.Met d) : st'.Met d := by
  cases d with
  | node | type => exact h.marked hd
  | method => exact ⟨h.marked hd.1, h.action hd.2⟩
  | field => exact ⟨h.marked hd.1, h.expanded hd.2⟩
  | assembly => exact h.seen hd
  | overridable => exact h.virtuals hd
  | finished => exact h.processed hd
  | unresolved => exact hd
  | _ => trivial

/-- Demands that are met ask only for what is marked, and do not fail. -/
theorem Met.marked {ds : List Demand} (h : ∀ d ∈ ds, st.Met d) {y : Token}
    (hy : Asks ds (.kept y)) : st.marks.isMarked y = true := by
  obtain ⟨d, hd, hn⟩ := hy
  have := h d hd
  cases d with
  | node | type =>
    cases hn
    exact this
  | method | field =>
    cases hn
    exact this.1
  | _ => cases hn

theorem Met.not_fails {ds : List Demand} (h : ∀ d ∈ ds, st.Met d) : ¬ Asks ds .failure := by
  rintro ⟨d, hd, hn⟩
  have := h d hd
  cases d with
  | unresolved => exact this
  | _ => cases hn

end MarkState

/-- Marks alone have what a demand asks for, when everything that is marked is expanded. -/
def Marks.Meets (marks : Marks) : Demand → Prop
  | .node t _ | .type t _ | .field t _ => marks.isMarked t = true
  | .method t _ => marks.isMarked t = true ∧ marks.methodAction t ≠ .nothing
  | .unresolved _ => False
  | _ => True

/-- What is met in a state is met by its marks alone. -/
theorem MarkState.Met.meets {st : MarkState} {d : Demand} (h : st.Met d) : st.marks.Meets d := by
  cases d with
  | node | type | method => exact h
  | field => exact h.1
  | unresolved => exact h
  | _ => trivial

/-- What marks meet, later ones meet. -/
theorem Marks.Meets.mono {marks marks' : Marks} {d : Demand} (h : marks.Meets d)
    (marked : ∀ {t}, marks.isMarked t = true → marks'.isMarked t = true)
    (action : ∀ {t}, marks.methodAction t ≠ .nothing → marks'.methodAction t ≠ .nothing) :
    marks'.Meets d := by
  cases d with
  | node | type | field => exact marked h
  | method => exact ⟨marked h.1, action h.2⟩
  | unresolved => exact h
  | _ => trivial

/-! ## Fields and assemblies that are opened -/

namespace Setting

variable {s : Setting} {marks : Marks} {S own : Token → Prop} {st st' st'' : MarkState}

/-- Changes after which the fields and assemblies that they opened have all that they need. -/
structure Settles (s : Setting) (S own : Token → Prop) (st st' : MarkState) : Prop where
  changes : s.Changes S own st st'
  field {t : Token} {f : FieldDef} : t ∉ st.expandedFields → t ∈ st'.expandedFields →
    s.model.field? t = some f → ∀ d ∈ s.fieldNeeds t f, st'.Met d
  assembly {t : Token} {a : AssemblyDef} : t ∉ st.seenAssemblies → t ∈ st'.seenAssemblies →
    s.model.assembly? t = some a → ∀ d ∈ s.assemblyNeeds t a, st'.Met d

namespace Settles

theorem refl (st : MarkState) : s.Settles S own st st :=
  ⟨.refl, fun h h' => absurd h' h, fun h h' => absurd h' h⟩

theorem trans (h₁ : s.Settles S own st st') (h₂ : s.Settles S own st' st'') :
    s.Settles S own st st'' where
  changes := h₁.changes.trans h₂.changes
  field {t f} h h' hf d hd := by
    by_cases ht : t ∈ st'.expandedFields
    · exact h₂.changes.grows.met (h₁.field h ht hf d hd)
    · exact h₂.field ht h' hf d hd
  assembly {t a} h h' ha d hd := by
    by_cases ht : t ∈ st'.seenAssemblies
    · exact h₂.changes.grows.met (h₁.assembly h ht ha d hd)
    · exact h₂.assembly ht h' ha d hd

end Settles

/-- The demands that opening a field or an assembly brings along, which are those of at most one of
them. -/
structure Brings (s : Setting) (S : Token → Prop) (st st' : MarkState) (rest : List Demand) :
    Prop where
  field {t : Token} {f : FieldDef} : t ∉ st.expandedFields → t ∈ st'.expandedFields →
    s.model.field? t = some f → rest = s.fieldNeeds t f
  assembly {t : Token} {a : AssemblyDef} : t ∉ st.seenAssemblies → t ∈ st'.seenAssemblies →
    s.model.assembly? t = some a → rest = s.assemblyNeeds t a
  source : rest = [] ∨ (∃ t f, S t ∧ s.model.field? t = some f ∧ rest = s.fieldNeeds t f) ∨
    ∃ t a, s.model.assembly? t = some a ∧ rest = s.assemblyNeeds t a

/-- Offers bring nothing along, and neither does any change that opens nothing. -/
theorem Brings.nothing (h : st'.expandedFields = st.expandedFields ∧
    st'.seenAssemblies = st.seenAssemblies) : s.Brings S st st' [] where
  field hn hm := absurd (h.1 ▸ hm) hn
  assembly hn hm := absurd (h.2 ▸ hm) hn
  source := .inl rfl

/-- Demands that may be met: they are of the right kind, and they keep definitions of `S` only. -/
structure Due (s : Setting) (marks : Marks) (S own : Token → Prop) (ds : List Demand) : Prop where
  apt : s.AllApt own ds
  kept {y : Token} : Asks ds (.kept y) → S y

theorem Due.head {d : Demand} {ds : List Demand} (h : s.Due marks S own (d :: ds)) :
    s.Apt own d ∧ ∀ {y}, d.need? = some (.kept y) → S y :=
  ⟨h.apt d List.mem_cons_self, fun hn => h.kept ⟨d, List.mem_cons_self, hn⟩⟩

theorem Due.tail {d : Demand} {ds : List Demand} (h : s.Due marks S own (d :: ds)) :
    s.Due marks S own ds :=
  ⟨fun x hx => h.apt x (List.mem_cons_of_mem _ hx),
    fun hy => h.kept (asks_cons.mpr (.inr hy))⟩

/-- When what a demand brings along is met, what it opened has all that it needs. -/
theorem Brings.settles {rest : List Demand} (h : s.Brings S st st' rest)
    (hc : s.Changes S own st st') (hs : s.Settles S own st' st'')
    (met : ∀ d ∈ rest, st''.Met d) : s.Settles S own st st'' where
  changes := hc.trans hs.changes
  field {t f} hn hx hf := by
    by_cases ht : t ∈ st'.expandedFields
    · exact h.field hn ht hf ▸ met
    · exact hs.field ht hx hf
  assembly {t a} hn hx ha := by
    by_cases ht : t ∈ st'.seenAssemblies
    · exact h.assembly hn ht ha ▸ met
    · exact hs.assembly ht hx ha

theorem Brings.due (adm : s.Admits marks S) {rest : List Demand}
    (h : s.Brings S st st' rest) : s.Due marks S own rest := by
  rcases h.source with rfl | ⟨t, f, hS, hf, rfl⟩ | ⟨t, a, ha, rfl⟩
  · exact ⟨allApt_nil, fun h => absurd h asks_nil⟩
  · refine ⟨apt_fieldNeeds adm.toFormed hf, fun h => ?_⟩
    exact adm.field hS hf ((keeps_fieldNeeds adm.wellFormed adm.fits).mp h)
  · refine ⟨apt_assemblyNeeds adm.toFormed, fun h => ?_⟩
    have ht := adm.wellFormed.assembly_numbered.token_of_find? ha
    obtain ⟨owner, a', hr, hk⟩ :=
      keeps_assemblyNeeds adm.wellFormed adm.fits ht (Rows.mem_of_find? ha) h
    exact adm.attributed hr hk

theorem Brings.unbound (formed : s.Formed) {rest : List Demand} (h : s.Brings S st st' rest)
    (hn : Asks rest .failure) : s.Unbound marks S := by
  rcases h.source with rfl | ⟨t, f, hS, hf, rfl⟩ | ⟨t, a, ha, rfl⟩
  · exact absurd hn asks_nil
  · exact .field hS hf ((fails_fieldNeeds formed.wellFormed formed.fits).mp hn)
  · have ht := formed.wellFormed.assembly_numbered.token_of_find? ha
    obtain ⟨owner, a', hr, hd⟩ :=
      fails_assemblyNeeds formed.wellFormed formed.fits ht (Rows.mem_of_find? ha) hn
    exact .attributed hr hd

end Setting

namespace Marking

variable {s : Setting} {marks : Marks} {S own : Token → Prop} {st : MarkState}

/-- Marking a field opens it, if it has not been opened before. -/
theorem meetField_spec {t : Token} {reason : Reason} (hS : S t) (hi : t.isIn .field = true) :
    Ends (meetField s t reason) st
      (fun rest st' => s.Changes S own st st' ∧ st'.Met (.field t reason) ∧
        s.Brings S st st' rest) fun _ => False := by
  have hc : s.Changes S own st (st.openField s.model t reason) := .single (.field hS hi)
  have hm : (st.markNode t reason).marks.isMarked t = true := MarkState.marked_markNode
  have he : (st.markNode t reason).expandedFields = st.expandedFields :=
    MarkState.unopened_markNode.1
  have hs : (st.markNode t reason).seenAssemblies = st.seenAssemblies :=
    MarkState.unopened_markNode.2
  simp only [meetField, ends_bind, ends_modify, ends_get]
  split <;> rename_i ht
  · rw [he] at ht
    rw [MarkState.openField_of_mem ht] at hc
    rw [ends_pure]
    exact ⟨hc, ⟨hm, he.symm ▸ ht⟩, .nothing ⟨he, hs⟩⟩
  · rw [he] at ht
    have hin : t ∈ st.expandedFields.insert t := mem_insert_token.mpr (.inl rfl)
    simp only [ends_bind, ends_set, he]
    cases hf : s.model.field? t with
    | none =>
      rw [MarkState.openField_of_none hf] at hc
      rw [ends_pure]
      refine ⟨hc, ⟨hm, hin⟩, ⟨fun hn hx hf' => ?_, fun hn hx => ?_, .inl rfl⟩⟩
      · cases (mem_insert_token.mp hx).resolve_right hn
        rw [hf] at hf'
        cases hf'
      · exact absurd (hs ▸ hx) hn
    | some f =>
      rw [MarkState.openField_of_some ht hf] at hc
      simp only [ends_bind, ends_modify, ends_pure]
      refine ⟨hc, ⟨hm, hin⟩, ⟨fun hn hx hf' => ?_, fun hn hx => ?_,
        .inr (.inl ⟨t, f, hS, hf, rfl⟩)⟩⟩
      · cases (mem_insert_token.mp hx).resolve_right hn
        cases hf.symm.trans hf'
        rfl
      · exact absurd (hs ▸ hx) hn

theorem meetAssembly_spec {t : Token} :
    Ends (meetAssembly s t) st
      (fun rest st' => s.Changes S own st st' ∧ t ∈ st'.seenAssemblies ∧ s.Brings S st st' rest)
      fun _ => False := by
  have hc : s.Change S own st { st with seenAssemblies := st.seenAssemblies.insert t } :=
    .assembly t
  simp only [meetAssembly, ends_bind, ends_get]
  split <;> rename_i ht
  · rw [ends_pure]
    exact ⟨.refl, ht, .nothing ⟨rfl, rfl⟩⟩
  · have hin : t ∈ st.seenAssemblies.insert t := mem_insert_token.mpr (.inl rfl)
    simp only [ends_bind, ends_set]
    cases ha : s.model.assembly? t with
    | none =>
      rw [ends_pure]
      refine ⟨.single hc, hin, ⟨fun hn hx => absurd hx hn, fun hn hx ha' => ?_, .inl rfl⟩⟩
      cases (mem_insert_token.mp hx).resolve_right hn
      rw [ha] at ha'
      cases ha'
    | some a =>
      rw [ends_pure]
      refine ⟨.single hc, hin, ⟨fun hn hx => absurd hx hn, fun hn hx ha' => ?_,
        .inr (.inr ⟨t, a, ha, rfl⟩)⟩⟩
      cases (mem_insert_token.mp hx).resolve_right hn
      cases ha.symm.trans ha'
      rfl

/-- A demand is met as the rules allow, unless it is for a reference that does not bind. -/
theorem meet_spec (adm : s.Admits marks S) (hw : s.Within marks S st)
    (hown : ∀ t, own t → st.marks.isMarked t = true) {d : Demand} (apt : s.Apt own d)
    (kept : ∀ {y}, d.need? = some (.kept y) → S y) :
    Ends (meet s d) st
      (fun rest st' => s.Changes S own st st' ∧ st'.Met d ∧ s.Brings S st st' rest)
      fun e => ∃ cause, e = .unresolved cause ∧ d.need? = some .failure := by
  cases d with
  | node t reason =>
    simp only [meet, ends_bind, ends_modify, ends_pure]
    exact ⟨.single (.node (kept rfl) apt), MarkState.marked_markNode,
      .nothing MarkState.unopened_markNode⟩
  | type t reason =>
    simp only [meet, ends_bind, ends_modify, ends_pure]
    exact ⟨.single (.type (kept rfl) apt), MarkState.marked_needType,
      .nothing MarkState.unopened_needType⟩
  | method t reason =>
    have ho : s.Offers S st (st.needMethod t reason) := .single (.method (kept rfl) apt)
    simp only [meet, ends_bind, ends_modify, ends_pure]
    exact ⟨ho.changes own, ⟨MarkState.marked_needMethod, MarkState.action_needMethod⟩,
      .nothing ho.unopened⟩
  | field t reason =>
    exact (meetField_spec (kept rfl) (Model.isIn_of_field? apt)).mono (fun _ _ => id)
      fun _ => False.elim
  | assembly t => exact meetAssembly_spec.mono (fun _ _ => id) fun _ => False.elim
  | overridable t =>
    obtain ⟨ho, hv⟩ := Setting.register_spec adm hw (hown t apt.1) apt.2
    simp only [meet, ends_bind, ends_modify, ends_pure]
    exact ⟨ho.changes own, hv, .nothing ho.unopened⟩
  | arrived t =>
    have ho := Setting.arrive_offers adm hw t
    simp only [meet, ends_bind, ends_modify, ends_pure]
    exact ⟨ho.changes own, trivial, .nothing ho.unopened⟩
  | finished t =>
    simp only [meet, ends_bind, ends_modify, ends_pure]
    refine ⟨.single (.finished apt (hown t apt)), ?_, .nothing ⟨rfl, rfl⟩⟩
    exact Marks.isProcessed_setProcessed.mpr (.inl rfl)
  | skippedAttribute =>
    simp only [meet, ends_bind, ends_modify, ends_pure]
    exact ⟨.single (.offer (.count fun _ => ⟨rfl, rfl, rfl, rfl⟩)), trivial, .nothing ⟨rfl, rfl⟩⟩
  | skippedName =>
    simp only [meet, ends_bind, ends_modify, ends_pure]
    exact ⟨.single (.offer (.count fun _ => ⟨rfl, rfl, rfl, rfl⟩)), trivial, .nothing ⟨rfl, rfl⟩⟩
  | unresolved cause =>
    simp only [meet, ends_throw]
    exact ⟨cause, rfl, rfl⟩

/-- How a step of marking fails: a reference does not bind, of the given demands or of a definition
of `S`. -/
def Fails (s : Setting) (marks : Marks) (S : Token → Prop) (ds : List Demand) (e : MarkFault) :
    Prop :=
  ∃ cause, e = .unresolved cause ∧ (Asks ds .failure ∨ s.Unbound marks S)

/-- Meeting a list of demands ends with all of them met, or a reference does not bind. -/
theorem settle_spec (adm : s.Admits marks S) {ds : List Demand} (hw : s.Within marks S st)
    (hown : ∀ t, own t → st.marks.isMarked t = true) (due : s.Due marks S own ds) :
    Ends (settle s ds) st
      (fun _ st' => s.Settles S own st st' ∧ ∀ d ∈ ds, st'.Met d) (Fails s marks S ds) := by
  have h := settling_settle (s := s) ds st
  unfold Ends
  generalize settle s ds st = r at h
  induction h with
  | done st => exact ⟨.refl st, nofun⟩
  | fault hx =>
    obtain ⟨cause, he, hn⟩ := (meet_spec adm hw hown due.head.1 due.head.2).error hx
    exact ⟨cause, he, .inl ⟨_, List.mem_cons_self, hn⟩⟩
  | inner hx _ ih =>
    obtain ⟨hc, -, hb⟩ := (meet_spec adm hw hown due.head.1 due.head.2).ok hx
    obtain ⟨cause, he, hfail | hu⟩ :=
      ih (hw.changes hc) (fun t ht => hc.grows.marked (hown t ht)) (hb.due adm)
    · exact ⟨cause, he, .inr (hb.unbound adm.toFormed hfail)⟩
    · exact ⟨cause, he, .inr hu⟩
  | @next d ds rest st st₁ st₂ r hx _ _ ihrest ihds =>
    obtain ⟨hc, hmet, hb⟩ := (meet_spec adm hw hown due.head.1 due.head.2).ok hx
    have hw₁ := hw.changes hc
    have hown₁ (t : Token) (ht : own t) := hc.grows.marked (hown t ht)
    obtain ⟨hrest, hall⟩ := ihrest hw₁ hown₁ (hb.due adm)
    have hsettles : s.Settles S own st st₂ := hb.settles hc hrest hall
    have hds := ihds (hw.changes hsettles.changes)
      (fun t ht => hsettles.changes.grows.marked (hown t ht)) due.tail
    cases r with
    | ok _ st' =>
      obtain ⟨h₃, hmet₃⟩ := hds
      refine ⟨hsettles.trans h₃, List.forall_mem_cons.mpr ⟨?_, hmet₃⟩⟩
      exact h₃.changes.grows.met (hrest.changes.grows.met hmet)
    | error e st' =>
      obtain ⟨cause, he, hfail | hu⟩ := hds
      · exact ⟨cause, he, .inl (asks_cons.mpr (.inr hfail))⟩
      · exact ⟨cause, he, .inr hu⟩

end Marking

end CilTrim
