import CilTrim.Proofs.Mark.Outcome

/-!
# What a run expands

Whatever is marked when a run starts, whatever methods are processed already, and whatever the
override table and the users' lists hold: a run ends, and it expands each marked definition of the
model once. What it has counted says so:

* `Setting.Ran.typesExpanded`, `Setting.Ran.fieldsExpanded`, `Setting.Ran.methodsProcessed`: the
  counts at the end;
* `Setting.mark_expands_once`: termination, and the counts that are returned.
-/

namespace CilTrim

namespace Setting

variable {s : Setting} {marks : Marks} {S : Token → Prop} {returned : List Token}
  {start st : MarkState}

/-- The invariant holds at the end of a run. -/
theorem Ran.tracked_end (h : s.Ran marks S start st) (adm : s.Admits marks S) :
    s.Tracked marks S st :=
  (h.steps.tracked adm h.tracked).1

theorem Ran.not_waiting (h : s.Ran marks S start st) {t : Token} :
    t ∉ st.types.toList ∧ t ∉ st.methods.toList := by
  rw [h.rests.types, h.rests.methods]
  exact ⟨List.not_mem_nil, List.not_mem_nil⟩

/-- Types have been counted when they left their queue, which is empty. -/
theorem Ran.typesExpanded (h : s.Ran marks S start st) (adm : s.Admits marks S) :
    st.stats.typesExpanded =
      s.model.types.toList.countP fun d => st.marks.isMarked d.token = true := by
  have htracked := h.tracked_end adm
  have hwaiting : st.waitingTypes s.model = 0 := by
    rw [MarkState.waitingTypes, h.rests.types]
    rfl
  have hcount : st.stats.typesExpanded = st.scheduledTypes s.model := by
    rw [← h.tallies.of_start.1, hwaiting, Nat.add_zero]
  rw [hcount]
  refine List.countP_congr fun d hd => ?_
  have htype := adm.wellFormed.type_of_mem adm.fits hd
  simp only [decide_eq_true_eq]
  exact ⟨htracked.within.scheduled,
    fun hm => (htracked.type hm htype).resolve_right h.not_waiting.2⟩

/-- Fields have been counted when they were opened. -/
theorem Ran.fieldsExpanded (h : s.Ran marks S start st) (adm : s.Admits marks S) :
    st.stats.fieldsExpanded =
      s.model.fields.toList.countP fun d => st.marks.isMarked d.token = true := by
  have htracked := h.tracked_end adm
  rw [h.tallies.of_start.2.1]
  refine List.countP_congr fun d hd => ?_
  have hfield : s.model.field? d.token = some d :=
    adm.wellFormed.field_numbered.find?_token (adm.fits .field) hd
  simp only [decide_eq_true_eq]
  exact ⟨htracked.within.expanded,
    fun hm => (htracked.field hm hfield).resolve_right h.not_waiting.2⟩

/-- Methods have been counted when they were processed, unless they were processed before. -/
theorem Ran.methodsProcessed (h : s.Ran marks S start st) :
    st.stats.methodsProcessed +
        s.model.methods.toList.countP (fun d => marks.isProcessed d.token = true) =
      s.model.methods.toList.countP fun d => st.marks.isProcessed d.token = true :=
  h.tallies.of_start.2.2

/-- Marked methods are processed at the end, and nothing but methods gets processed. -/
theorem Ran.isProcessed (h : s.Ran marks S start st) (adm : s.Admits marks S) (t : Token) :
    ((s.model.method? t).isSome → st.marks.isMarked t = true → st.marks.isProcessed t = true) ∧
      (st.marks.isProcessed t = true →
        marks.isProcessed t = true ∨ (s.model.method? t).isSome) := by
  have htracked := h.tracked_end adm
  refine ⟨fun hsome hm => ?_, fun hp => ?_⟩
  · obtain ⟨d, hd⟩ := Option.isSome_iff_exists.mp hsome
    exact (htracked.method hm hd).resolve_right h.not_waiting.2
  · refine (htracked.processed hp).imp_right ?_
    rintro ⟨d, -, hd, -⟩
    exact Option.isSome_iff_exists.mpr ⟨d, hd⟩

/-- A run ends, since no loop meets its bound. If it ends well, each definition of the model that is
marked has been expanded once: the types and fields that are counted are those that are marked, the
methods that are counted are those that have become processed, and all marked methods are. -/
theorem mark_expands_once (built : Model.Built returned s.model) (fits : s.model.Fits) :
    s.Terminates ∧ ∀ stats, (s.mark marks).1 = .ok stats →
      stats.typesExpanded =
        s.model.types.toList.countP (fun d => (s.mark marks).2.isMarked d.token) ∧
      stats.fieldsExpanded =
        s.model.fields.toList.countP (fun d => (s.mark marks).2.isMarked d.token) ∧
      stats.methodsProcessed + s.model.methods.toList.countP (marks.isProcessed ·.token) =
        s.model.methods.toList.countP (fun d => (s.mark marks).2.isProcessed d.token) ∧
      ∀ t, ((s.model.method? t).isSome → (s.mark marks).2.isMarked t = true →
          (s.mark marks).2.isProcessed t = true) ∧
        ((s.mark marks).2.isProcessed t = true →
          marks.isProcessed t = true ∨ (s.model.method? t).isSome) := by
  refine ⟨s.terminates, fun stats hok => ?_⟩
  have adm : s.Admits marks fun _ => True := (formed_of_built built fits).admits
  rcases mark_of_ends (Marking.run_spec adm fun _ _ => trivial) with
    ⟨stats', final, hx, start, st, hran, hmarks, hstats⟩ | ⟨e, hx, -⟩
  · rw [hx] at hok ⊢
    cases hok
    rw [hmarks, hstats]
    have htypes := hran.typesExpanded adm
    have hfields := hran.fieldsExpanded adm
    have hmethods := hran.methodsProcessed
    simp only [Bool.decide_eq_true] at htypes hfields hmethods
    exact ⟨htypes, hfields, hmethods, hran.isProcessed adm⟩
  · rw [hok] at hx
    cases hx

/-- The method that overrides was processed before, so only the two others are counted. -/
theorem mark_expands_once_shapes :
    ∃ stats, (Shapes.setting.mark (Shapes.roots.setProcessed ⟨0x06000002⟩)).1 = .ok stats ∧
      stats.typesExpanded = 2 ∧ stats.fieldsExpanded = 0 ∧ stats.methodsProcessed + 1 = 3 := by
  obtain ⟨returned, built⟩ := Shapes.built
  obtain ⟨stats, hok⟩ := exists_ok_of_isOk
    (x := (Shapes.setting.mark (Shapes.roots.setProcessed ⟨0x06000002⟩)).1) (by decide +kernel)
  obtain ⟨htypes, hfields, hmethods, -⟩ := (mark_expands_once built Shapes.fits).2 stats hok
  exact ⟨stats, hok, htypes.trans (by decide +kernel), hfields.trans (by decide +kernel),
    hmethods.trans (by decide +kernel)⟩

end Setting

end CilTrim
