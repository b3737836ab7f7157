import CilTrim.Proofs.Mark.Expansion

/-!
# Resuming

After a run, a session may ask for more and run again. The second run knows nothing of the queues of
the first, but what the first has left says enough: its methods are processed and have what they
need. So roots that are given in two runs keep the same as roots that are given in one:

* `Marks.ForcesAs`, `Setting.Reached.mono`: what is reached from roots that force the same bodies;
* `Setting.Ran.marks_iff`, `Setting.mark_ok_iff`: the marks and the outcome of a run that resumes;
* `Setting.Ran.resumes`: another run can resume from what a run has left;
* `Setting.mark_resumed`: two runs, and one from all roots.
-/

namespace CilTrim

/-- Marks that force the bodies of the same methods to be followed. -/
def Marks.ForcesAs (marks marks' : Marks) : Prop :=
  ∀ t, marks.methodAction t = .forceParse ↔ marks'.methodAction t = .forceParse

theorem Marks.ForcesAs.symm {marks marks' : Marks} (h : marks.ForcesAs marks') :
    marks'.ForcesAs marks :=
  fun t => (h t).symm

namespace Setting

variable {s : Setting} {marks marks' : Marks} {S : Token → Prop} {start st : MarkState}
  {t y : Token} {d : MethodDef}

/-! ## Rules -/

theorem Follows.forced (forces : marks.ForcesAs marks') (h : s.Follows marks t) :
    s.Follows marks' t :=
  h.imp_left (forces t).mp

theorem MethodMentions.forced (forces : marks.ForcesAs marks') {r : MemberRef}
    (h : s.MethodMentions marks t d r) : s.MethodMentions marks' t d r := by
  cases h with
  | parameter hp => exact .parameter hp
  | constraint hp hd hr => exact .constraint hp hd hr
  | explicitOverride hr => exact .explicitOverride hr
  | localVariable hf hb hr => exact .localVariable (hf.forced forces) hb hr
  | caught hf hb hh hr => exact .caught (hf.forced forces) hb hh hr
  | operand hf hb hi hr => exact .operand (hf.forced forces) hb hi hr

theorem MethodRequires.forced (forces : marks.ForcesAs marks') (h : s.MethodRequires marks t d y) :
    s.MethodRequires marks' t d y := by
  cases h with
  | owner => exact .owner
  | mention hm hn => exact .mention (hm.forced forces) hn
  | attributed ha hr => exact .attributed ha hr
  | special hs => exact .special hs
  | marshaler hp hr => exact .marshaler hp hr
  | genericParam hp hd => exact .genericParam hp hd
  | overridden ha => exact .overridden ha
  | property ho hp => exact .property ho hp
  | event ho he => exact .event ho he
  | accessor ho he hy => exact .accessor ho he hy

theorem MethodUnbound.forced (forces : marks.ForcesAs marks') (h : s.MethodUnbound marks t d) :
    s.MethodUnbound marks' t d := by
  cases h with
  | mention hm hd => exact .mention (hm.forced forces) hd
  | attributed ha hd => exact .attributed ha hd

theorem Closed.forced (forces : marks.ForcesAs marks') (h : s.Closed marks S) :
    s.Closed marks' S :=
  { h with method := fun ht hd hr => h.method ht hd (hr.forced forces.symm) }

/-- What is reached depends on the roots and on the bodies that are forced. -/
theorem Reached.mono (forces : marks.ForcesAs marks')
    (roots : ∀ t, marks.isMarked t = true → s.Reached marks' t) (h : s.Reached marks t) :
    s.Reached marks' t :=
  Reached.least (Reached.closed.forced forces.symm) roots h

theorem Unbound.forced {S' : Token → Prop} (forces : marks.ForcesAs marks')
    (hS : ∀ {t}, S t → S' t) (h : s.Unbound marks S) : s.Unbound marks' S' := by
  cases h with
  | type ht hd hu => exact .type (hS ht) hd hu
  | field ht hf hu => exact .field (hS ht) hf hu
  | method ht hd hu => exact .method (hS ht) hd (hu.forced forces)
  | attributed ha hu => exact .attributed ha hu

/-! ## Runs that resume -/

/-- What a run leaves marked is what is reached, and the methods of that are processed. -/
theorem Ran.marks_iff (h : s.Ran marks (s.Reached marks) start st) (reg : s.Regular)
    (resumes : s.Resumes marks) (t : Token) :
    (st.marks.isMarked t = true ↔ s.Reached marks t) ∧
      (st.marks.isProcessed t = true ↔ (s.model.method? t).isSome ∧ s.Reached marks t) := by
  obtain ⟨hstill, hsteady⟩ := h.still reg resumes
  have hmarked := hstill.marked_iff reg hsteady (t := t)
  obtain ⟨hdone, honly⟩ := h.isProcessed (reg.admits Reached.closed) t
  refine ⟨hmarked, fun hp => ⟨?_, hmarked.mp (Marks.isMarked_of_isProcessed hp)⟩,
    fun ⟨hsome, hr⟩ => hdone hsome (hmarked.mpr hr)⟩
  refine (honly hp).elim (fun hold => ?_) id
  obtain ⟨d, -, hd, -⟩ := resumes t hold
  exact Option.isSome_iff_exists.mpr ⟨d, hd⟩

/-- A run forces no body to be followed. -/
theorem Ran.forcesAs (h : s.Ran marks (s.Reached marks) start st) (reg : s.Regular)
    (resumes : s.Resumes marks) : st.marks.ForcesAs marks :=
  (h.still reg resumes).2.within.forced

/-- Another run can resume from the marks that a run leaves. -/
theorem Ran.resumes (h : s.Ran marks (s.Reached marks) start st) (reg : s.Regular)
    (resumes : s.Resumes marks) : s.Resumes st.marks := by
  obtain ⟨hstill, -⟩ := h.still reg resumes
  intro t hp
  obtain ⟨hsome, -⟩ := (h.marks_iff reg resumes t).2.mp hp
  obtain ⟨d, hd⟩ := Option.isSome_iff_exists.mp hsome
  obtain ⟨d, action, hd, hparses, hmet, haction⟩ :=
    hstill.method (Marks.isMarked_of_isProcessed hp) hd
  exact ⟨d, action, hd, ⟨hparses.1, hparses.2.trans (h.forcesAs reg resumes t).symm⟩,
    fun x hx => (hmet x hx).meets, haction⟩

/-- More roots do not keep a run from resuming. -/
theorem Resumes.markAll (h : s.Resumes marks) (nodes : List Token) :
    s.Resumes (marks.markAll nodes) := by
  intro t hp
  rw [Marks.isProcessed_markAll] at hp
  obtain ⟨d, action, hd, hparses, hmeets, haction⟩ := h t hp
  refine ⟨d, action, hd, ?_, fun x hx => (hmeets x hx).mono ?_ ?_, ?_⟩
  · rwa [Marks.Parses, Marks.methodAction_markAll]
  · exact fun hm => Marks.isMarked_markAll.mpr (.inr hm)
  · exact fun ha => by rwa [Marks.methodAction_markAll]
  · rwa [Marks.methodAction_markAll]

/-- A run, the first or one that resumes, ends well exactly if all references of what is reached
bind and there is a method to start from. -/
theorem mark_ok_iff (reg : s.Regular) (resumes : s.Resumes marks) (keeps : s.KeepsMethods) :
    (∃ stats, (s.mark marks).1 = .ok stats) ↔
      ¬ s.Unbound marks (s.Reached marks) ∧ s.ReachesMethod marks := by
  cases hx : (s.mark marks).1 with
  | ok stats =>
    obtain ⟨start, st, hran, -⟩ := mark_ran reg resumes hx
    obtain ⟨hstill, hsteady⟩ := hran.still reg resumes
    have hbound : ¬ s.Unbound marks (s.Reached marks) :=
      fun hu => hstill.not_unbound reg (hu.mono (hstill.marked_iff reg hsteady).mpr)
    simp [hbound, hran.reachesMethod reg resumes]
  | error e =>
    rcases mark_stops reg resumes hx with ⟨cause, rfl, hu⟩ | ⟨rfl, -, hnone⟩
    · simp [hu keeps]
    · simp [hnone]

/-! ## Two runs, and one -/

/-- What a run has left, with more roots, and all roots at once reach the same. -/
theorem Ran.reached_iff {first : List Token} (second : List Token)
    (h : s.Ran (marks.markAll first) (s.Reached (marks.markAll first)) start st)
    (reg : s.Regular) (resumes : s.Resumes (marks.markAll first)) :
    (st.marks.markAll second).ForcesAs (marks.markAll (first ++ second)) ∧
      ∀ t, s.Reached (st.marks.markAll second) t ↔
        s.Reached (marks.markAll (first ++ second)) t := by
  have forces : (st.marks.markAll second).ForcesAs (marks.markAll (first ++ second)) := by
    intro t
    simp only [Marks.methodAction_markAll]
    exact (h.forcesAs reg resumes t).trans (by rw [Marks.methodAction_markAll])
  refine ⟨forces, fun t => ⟨Reached.mono forces fun t ht => ?_,
    Reached.mono forces.symm fun t ht => .root ?_⟩⟩
  · rcases Marks.isMarked_markAll.mp ht with hs | hm
    · exact .root (Marks.isMarked_markAll.mpr (.inl (List.mem_append_right _ hs)))
    -- The first run has marked what its roots reach, and they are among all roots.
    · refine Reached.mono (fun t => ?_) (fun t ht => .root ?_) ((h.marks_iff reg resumes t).1.mp hm)
      · simp only [Marks.methodAction_markAll]
      · rw [Marks.isMarked_markAll] at ht ⊢
        exact ht.imp_left (List.mem_append_left _)
  · rw [Marks.isMarked_markAll, List.mem_append] at ht
    rw [Marks.isMarked_markAll]
    rcases ht with (hf | hs) | hm
    · exact .inr ((h.marks_iff reg resumes t).1.mpr (.root (Marks.isMarked_markAll.mpr (.inl hf))))
    · exact .inl hs
    · exact .inr ((h.marks_iff reg resumes t).1.mpr (.root (Marks.isMarked_markAll.mpr (.inr hm))))

/-- A run from some roots, and another from more roots and what the first one has left. -/
def markTwice (s : Setting) (marks : Marks) (first second : List Token) :
    Except MarkFault MarkStats × Marks :=
  s.mark ((s.mark (marks.markAll first)).2.markAll second)

/-- A second run with more roots comes to the same as one run from all roots: if both end well, the
same is marked and the same is processed. One of them ends well exactly if the other does, when what
users ask to keep as methods are methods. -/
theorem mark_resumed (built : Model.Built returned s.model) (fits : s.model.Fits)
    (overrides : s.overrides = .ofModel s.model) (fresh : ∀ t, marks.isProcessed t = false)
    (first second : List Token) {stats : MarkStats}
    (h : (s.mark (marks.markAll first)).1 = .ok stats) :
    (s.KeepsMethods →
      ((∃ stats, (s.markTwice marks first second).1 = .ok stats) ↔
        ∃ stats, (s.mark (marks.markAll (first ++ second))).1 = .ok stats)) ∧
    ∀ stats₁ stats₂, (s.markTwice marks first second).1 = .ok stats₁ →
      (s.mark (marks.markAll (first ++ second))).1 = .ok stats₂ → ∀ t,
      (s.markTwice marks first second).2.isMarked t =
          (s.mark (marks.markAll (first ++ second))).2.isMarked t ∧
        (s.markTwice marks first second).2.isProcessed t =
          (s.mark (marks.markAll (first ++ second))).2.isProcessed t := by
  have reg := regular_of_built built fits overrides
  have start {nodes : List Token} : s.Resumes (marks.markAll nodes) :=
    (resumes_of_fresh fresh).markAll nodes
  obtain ⟨_, st, hran, hmarks⟩ := mark_ran reg start h
  rw [markTwice, hmarks]
  have resumes : s.Resumes (st.marks.markAll second) := (hran.resumes reg start).markAll second
  obtain ⟨forces, hreached⟩ := hran.reached_iff second reg start
  constructor
  · intro keeps
    rw [mark_ok_iff reg resumes keeps, mark_ok_iff reg start keeps]
    refine and_congr (not_congr ⟨?_, ?_⟩) ?_
    · exact .forced forces (hreached _).mp
    · exact .forced forces.symm (hreached _).mpr
    · simp only [ReachesMethod, hreached]
  · intro stats₁ stats₂ h₁ h₂ t
    obtain ⟨_, st₁, hran₁, hmarks₁⟩ := mark_ran reg resumes h₁
    obtain ⟨_, st₂, hran₂, hmarks₂⟩ := mark_ran reg start h₂
    obtain ⟨hmarked₁, hprocessed₁⟩ := hran₁.marks_iff reg resumes t
    obtain ⟨hmarked₂, hprocessed₂⟩ := hran₂.marks_iff reg start t
    rw [hmarks₁, hmarks₂]
    constructor
    · rw [Bool.eq_iff_iff, hmarked₁, hmarked₂, hreached]
    · rw [Bool.eq_iff_iff, hprocessed₁, hprocessed₂, hreached]

/-- The first run keeps a method alone, and the second one its override, whose type it is given. -/
theorem mark_resumed_shapes :
    (Shapes.setting.mark (Marks.empty.markAll [⟨0x06000001⟩])).2.isMarked ⟨0x06000002⟩ = false ∧
      (Shapes.setting.markTwice .empty [⟨0x06000001⟩] [⟨0x02000002⟩]).2.isProcessed
        ⟨0x06000002⟩ = true := by
  obtain ⟨returned, built⟩ := Shapes.built
  let method : List Token := [⟨0x06000001⟩]
  let type : List Token := [⟨0x02000002⟩]
  obtain ⟨stats, hfirst⟩ := exists_ok_of_isOk
    (x := (Shapes.setting.mark (Marks.empty.markAll method)).1) (by decide +kernel)
  obtain ⟨stats₂, hall⟩ := exists_ok_of_isOk
    (x := (Shapes.setting.mark (Marks.empty.markAll (method ++ type))).1) (by decide +kernel)
  obtain ⟨hok, hsame⟩ := mark_resumed built Shapes.fits rfl (fun _ => rfl) method type hfirst
  obtain ⟨stats₁, htwice⟩ := (hok Shapes.keepsMethods).mpr ⟨stats₂, hall⟩
  exact ⟨by decide +kernel, (hsame _ _ htwice hall _).2.trans (by decide +kernel)⟩

end Setting

/-! ## A policy that keeps what is no method -/

namespace Plugins

/-- A class with a method, and a class without. -/
def model : Model :=
  let m := (Model.empty.addAssembly "Plugins").2
  let m := (m.addType (.ofClass ⟨0x20000001⟩ "Plugins" "Program")).2
  let m := (m.addType (.ofClass ⟨0x20000001⟩ "Plugins" "Plugin")).2
  (m.addMethod (((MethodDraft.ofName ⟨0x02000001⟩ "Main").returns
    (.definition ⟨0x02000001⟩)).withCode [.ret])).2

/-- The first class is to be kept with the second as if it were a method. -/
def setting : Setting where
  model := model
  policy := Policy.default.addMethod ⟨0x02000002⟩ ⟨0x02000001⟩
  overrides := .ofModel model
  options := .default
  special := .empty
  corlib := none

theorem built : ∃ returned, Model.Built returned model := by
  refine ⟨_, .method _ (.type _ (.type _ (.assembly "Plugins" .empty) ?_ ?_) ?_ ?_) ?_⟩
  · exact ⟨by decide, by decide⟩
  · exact nofun
  · exact ⟨by decide, by decide⟩
  · exact nofun
  · exact ⟨by decide, by decide⟩

theorem fits : model.Fits := by
  intro table
  cases table <;> decide

/-- When the first run has marked the class, the second one need not, and ends well. A run from both
roots asks for the class first, and finds no method. -/
theorem resumed_alone :
    (∃ returned, Model.Built returned setting.model) ∧ setting.model.Fits ∧
      setting.overrides = .ofModel setting.model ∧
      (∀ t, Marks.empty.isProcessed t = false) ∧
      (setting.mark (Marks.empty.markAll [⟨0x06000001⟩])).1.isOk = true ∧
      (setting.markTwice .empty [⟨0x06000001⟩] [⟨0x02000002⟩]).1.isOk = true ∧
      (setting.mark (Marks.empty.markAll ([⟨0x06000001⟩] ++ [⟨0x02000002⟩]))).1.isOk = false := by
  refine ⟨built, fits, rfl, fun _ => rfl, ?_, ?_, ?_⟩
  · decide +kernel
  · decide +kernel
  · decide +kernel

end Plugins

end CilTrim
