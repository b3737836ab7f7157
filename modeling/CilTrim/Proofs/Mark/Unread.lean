import CilTrim.Proofs.Mark.Bodies
import CilTrim.Proofs.Mark.Repeat

/-!
# Code that is not read

A run that ends well does not depend on the bodies that it does not follow: with any others in their
place it takes the same steps, and ends in the same state:

* `Setting.Unread`: methods that are not marked at the end, or whose bodies are not followed;
* `Marking.processMethod_withBodies`: the one step that reads a body;
* `Marking.drain_withBodies`, `Marking.round_withBodies`, `Marking.run_withBodies`: the loops and the
  run, with what is marked at the end carried back to each turn;
* `Context.mark_unread`: the run of a session.
-/

namespace CilTrim

namespace Setting

/-- Methods with other bodies are not marked at the end, or their bodies are not followed: they are
not forced, and their assemblies are not linked. -/
def Unread (s : Setting) (marks final : Marks) (bodies : Token → Option Body) : Prop :=
  ∀ t, (bodies t).isSome → final.isMarked t = true →
    marks.methodAction t ≠ .forceParse ∧
      ∃ assembly, s.model.assemblyOf? t = some assembly ∧ s.policy.assemblyAction assembly ≠ .link

/-- Everything that is marked in a state is marked at the end. -/
def Precedes (st : MarkState) (final : Marks) : Prop :=
  ∀ {t}, st.marks.isMarked t = true → final.isMarked t = true

variable {s : Setting} {marks final : Marks} {bodies : Token → Option Body} {t : Token}

/-- A body that is not read is not followed. -/
theorem Unread.followsBody (h : s.Unread marks final bodies) (hb : (bodies t).isSome)
    (ht : final.isMarked t = true) {action : MethodAction} (parses : marks.Parses t action) :
    s.followsBody t action = false := by
  obtain ⟨hforced, assembly, hassembly, hlink⟩ := h t hb ht
  have haction : action ≠ .forceParse := fun heq => hforced (parses.2.mp heq)
  simp [Setting.followsBody, haction, hassembly, hlink]

end Setting

namespace Marking

open Setting (Precedes)

variable {s : Setting} {marks final : Marks} {bodies : Token → Option Body} {st st' : MarkState}
  {t : Token} {rest : Fifo Token}

/-! ## Steps -/

/-- Two steps that go on alike from where the first part ends are the same. -/
theorem bind_congr_of_ok {α β : Type} {x : Marking α} {f g : α → Marking β}
    (h : ∀ a st', x st = .ok a st' → f a st' = g a st') : (x >>= f) st = (x >>= g) st := by
  simp only [bind, EStateM.bind]
  cases hx : x st with
  | ok a st' => exact h a st' hx
  | error => rfl

/-- Two steps whose first parts end alike are the same. -/
theorem bind_congr_of_eq {α β : Type} {x y : Marking α} {f : α → Marking β} (h : x st = y st) :
    (x >>= f) st = (y >>= f) st := by
  simp only [bind, EStateM.bind, h]

/-- Processing a method of the queue is the same with other bodies for methods that are not read. -/
theorem processMethod_withBodies (formed : s.Formed) (unread : s.Unread marks final bodies)
    (h : s.Tracked marks (fun _ => True) st) (hfinal : Precedes st final)
    (hq : t ∈ st.methods.toList) :
    processMethod (s.withBodies bodies) t { st with methods := rest } =
      processMethod s t { st with methods := rest } := by
  unfold processMethod
  refine bind_congr_of_ok fun _ _ hget => ?_
  cases hget
  by_cases hp : st.marks.isProcessed t = true
  · simp only [hp, if_true]
  · rw [Setting.withBodies_model, Model.method?_withBodies]
    cases hd : s.model.method? t with
    | none => simp only [Option.map_none]
    | some d =>
      have htoken : d.token = t := formed.wellFormed.method_numbered.token_of_find? hd
      have hneeds := s.methodNeeds_withBodies bodies t d (st.marks.methodAction t) fun hb => by
        rw [htoken] at hb ⊢
        exact unread.followsBody hb (hfinal (h.within.methods hq).marked) (h.within.parses hq)
      simp only [Option.map_some, settle_withBodies, hneeds]

@[simp] theorem expandNext_withBodies : expandNext (s.withBodies bodies) = expandNext s := by
  simp only [expandNext, expandType_withBodies]

/-- The next method was in the queue, which is all that is taken. -/
theorem nextMethod?_taken (hx : nextMethod? st = .ok (some t) st') :
    t ∈ st.methods.toList ∧ ∃ rest, st' = { st with methods := rest } := by
  have h : Ends nextMethod? st (fun next st' => ∀ t, next = some t →
      t ∈ st.methods.toList ∧ ∃ rest, st' = { st with methods := rest }) fun _ => True := by
    rw [ends_nextMethod?]
    cases hp : st.methods.pop? with
    | none => exact nofun
    | some next =>
      rintro _ ⟨⟩
      rw [Fifo.toList_of_pop?_eq_some hp]
      exact ⟨List.mem_cons_self, next.2, rfl⟩
  exact h.ok hx t rfl

/-- Taking the next element of a queue is the same with other bodies for methods that are not
read. -/
theorem turn_withBodies (formed : s.Formed) (unread : s.Unread marks final bodies)
    (h : s.Tracked marks (fun _ => True) st) (hfinal : Precedes st final) :
    turn (s.withBodies bodies) st = turn s st := by
  unfold turn
  rw [expandNext_withBodies]
  refine bind_congr_of_ok fun more st₁ hx => ?_
  cases more with
  | true => simp only [if_true]
  | false =>
    obtain ⟨rfl, -⟩ := ((expandNext_spec formed.admits h).ok hx).2 rfl
    simp only [Bool.false_eq_true, if_false]
    refine bind_congr_of_ok fun next st₂ hnext => ?_
    cases next with
    | none => simp only
    | some t =>
      obtain ⟨ht, rest, rfl⟩ := nextMethod?_taken hnext
      exact bind_congr_of_eq (processMethod_withBodies formed unread h hfinal ht)

/-! ## Loops -/

/-- What is marked at the end of a turn was marked where it began, or it is marked since. -/
theorem turn_precedes (formed : s.Formed) (h : s.Tracked marks (fun _ => True) st) {more : Bool}
    (hx : turn s st = .ok more st') :
    s.Tracked marks (fun _ => True) st' ∧ (Precedes st' final → Precedes st final) := by
  obtain ⟨hgoes, -⟩ := (turn_spec formed.admits h).ok hx
  obtain ⟨-, hproceeds⟩ := hgoes.steps.tracked formed.admits h
  exact ⟨hgoes.tracked, fun hfinal _ ht => hfinal (hproceeds.counts.marked ht)⟩

/-- Emptying both queues is the same, if no body is read that is different at the end. -/
theorem drain_withBodies (formed : s.Formed) (unread : s.Unread marks final bodies)
    (h : s.Tracked marks (fun _ => True) st) (hx : drain s st = .ok () st')
    (hfinal : Precedes st' final) : drain (s.withBodies bodies) st = .ok () st' := by
  have hloop : Repeats (turn (s.withBodies bodies)) st (drain s st) := by
    refine ((repeats_drain st).transfer (s.Tracked marks fun _ => True) (Precedes · final) h
      (fun h₁ hturn => turn_precedes formed h₁ hturn) (fun h₁ hneeded hturn => ?_) st' hx hfinal).1
    rw [turn_withBodies formed unread h₁ ((turn_precedes formed h₁ hturn).2 hneeded), hturn]
  rw [(repeats_drain st).unique hloop, hx]

/-- A round empties both queues, and loses no mark after that. -/
theorem round_drains (formed : s.Formed) (h : s.Tracked marks (fun _ => True) st) :
    Ends (round s) st (fun _ st' => s.Tracked marks (fun _ => True) st' ∧
        ∃ st₁, drain s (st.count fun c => { c with rounds := c.rounds + 1 }) = .ok () st₁ ∧
          (∀ {t}, st.marks.isMarked t = true → st₁.marks.isMarked t = true) ∧
          ∀ {t}, st₁.marks.isMarked t = true → st'.marks.isMarked t = true)
      fun _ => True := by
  have adm : s.Admits marks fun _ => True := formed.admits
  simp only [round, ends_bind, ends_modify, ends_get]
  refine (drain_spec adm (h.count _)).eq.mono ?_ fun _ _ => trivial
  rintro _ st₁ ⟨hx, hgoes, -⟩
  obtain ⟨-, hproceeds⟩ := hgoes.steps.tracked adm (h.count _)
  refine (sweep_spec adm hgoes.tracked.within).mono ?_ fun _ _ => trivial
  rintro _ st₂ ⟨hoffers, -⟩
  exact ends_pure.mpr
    ⟨hgoes.tracked.offers hoffers, st₁, hx, hproceeds.counts.marked, hoffers.marked⟩

/-- A round is the same, if no body is read that is different at the end. -/
theorem round_withBodies (formed : s.Formed) (unread : s.Unread marks final bodies)
    (h : s.Tracked marks (fun _ => True) st) {more : Bool} (hx : round s st = .ok more st')
    (hfinal : Precedes st' final) : round (s.withBodies bodies) st = .ok more st' := by
  obtain ⟨-, st₁, hdrain, -, hmarked⟩ := (round_drains formed h).ok hx
  have hsame := drain_withBodies formed unread (h.count _) hdrain fun ht => hfinal (hmarked ht)
  rw [← hx, round, round, sweep_withBodies]
  refine bind_congr_of_ok fun _ _ hcount => ?_
  cases hcount
  refine bind_congr_of_ok fun _ _ hget => ?_
  cases hget
  exact bind_congr_of_eq (hsame.trans hdrain.symm)

theorem round_precedes (formed : s.Formed) (h : s.Tracked marks (fun _ => True) st) {more : Bool}
    (hx : round s st = .ok more st') :
    s.Tracked marks (fun _ => True) st' ∧ (Precedes st' final → Precedes st final) := by
  obtain ⟨h', st₁, -, hbefore, hafter⟩ := (round_drains formed h).ok hx
  exact ⟨h', fun hfinal _ ht => hfinal (hafter (hbefore ht))⟩

theorem rounds_withBodies (formed : s.Formed) (unread : s.Unread marks final bodies)
    (h : s.Tracked marks (fun _ => True) st)
    (hx : roundsWithin s (Token.count + 2) st = .ok () st') (hfinal : Precedes st' final) :
    roundsWithin (s.withBodies bodies) (Token.count + 2) st = .ok () st' := by
  have hloop : Repeats (round (s.withBodies bodies)) st
      (roundsWithin s (Token.count + 2) st) := by
    refine ((repeats_rounds st).transfer (s.Tracked marks fun _ => True) (Precedes · final) h
      (fun h₁ hround => round_precedes formed h₁ hround) (fun h₁ hneeded hround => ?_)
      st' hx hfinal).1
    exact round_withBodies formed unread h₁ hround hneeded
  rw [(repeats_rounds st).unique hloop, hx]

/-! ## Runs -/

/-- A run that ends well is the same with other bodies for methods that it does not read. -/
theorem run_withBodies (formed : s.Formed) {stats : MarkStats}
    (hx : run s (.ofMarks marks) = .ok stats st) (unread : s.Unread marks st.marks bodies) :
    run (s.withBodies bodies) (.ofMarks marks) = .ok stats st := by
  have hrun : Ends (run s) (.ofMarks marks) (fun _ st => ∃ start st',
      seed s (.ofMarks marks) = .ok () start ∧ s.Tracked marks (fun _ => True) start ∧
        roundsWithin s (Token.count + 2) start = .ok () st' ∧ st'.marks = st.marks)
      fun _ => True := by
    have adm : s.Admits marks fun _ => True := formed.admits
    simp only [run, ends_bind, ends_modify, ends_get, ends_pure]
    refine (seed_spec adm fun _ _ => trivial).eq.mono ?_ fun _ _ => trivial
    rintro _ start ⟨hseed, -, h, -⟩
    refine (rounds_spec adm h).eq.mono ?_ fun _ _ => trivial
    rintro _ st' ⟨hrounds, -⟩
    exact ⟨start, st', hseed, h, hrounds, rfl⟩
  obtain ⟨start, st', hseed, h, hrounds, hmarks⟩ := hrun.ok hx
  have hsame := rounds_withBodies formed unread h hrounds fun ht => hmarks ▸ ht
  rw [← hx]
  unfold run
  rw [seed_withBodies]
  refine bind_congr_of_ok fun _ start' hseed' => ?_
  cases hseed.symm.trans hseed'
  exact bind_congr_of_eq (hsame.trans hrounds.symm)

end Marking

namespace Setting

variable {s : Setting} {marks : Marks} {bodies : Token → Option Body} {stats : MarkStats}

/-- A run that ends well forces no method. -/
theorem mark_forced (formed : s.Formed) (h : (s.mark marks).1 = .ok stats) (t : Token) :
    (s.mark marks).2.methodAction t = .forceParse ↔ marks.methodAction t = .forceParse := by
  have adm : s.Admits marks fun _ => True := formed.admits
  rcases mark_of_ends (Marking.run_spec adm fun _ _ => trivial) with
    ⟨_, final, hx, start, st, hran, hmarks, -⟩ | ⟨e, hx, -⟩
  · obtain ⟨htracked, -⟩ := hran.steps.tracked adm hran.tracked
    rw [hx, hmarks]
    exact htracked.within.forced t
  · rw [h] at hx
    cases hx

/-- Marking is the same with other bodies for methods that it does not read, if it ends well. -/
theorem mark_withBodies (formed : s.Formed) (h : (s.mark marks).1 = .ok stats)
    (unread : s.Unread marks (s.mark marks).2 bodies) :
    (s.withBodies bodies).mark marks = s.mark marks := by
  unfold mark at h unread ⊢
  cases hx : Marking.run s (.ofMarks marks) with
  | error e st => simp [hx] at h
  | ok _ st =>
    rw [hx] at unread
    rw [Marking.run_withBodies formed hx unread]

end Setting

/-! ## Sessions -/

namespace Context

variable {c : Context} {m : Model} {bodies : Token → Option Body} {returned : List Token}

theorem ensureOverrides_withBodies :
    c.ensureOverrides (m.withBodies bodies) = c.ensureOverrides m := by
  simp only [ensureOverrides, OverrideTable.ofModel_withBodies]

theorem setting_withBodies :
    c.setting (m.withBodies bodies) = (c.setting m).withBodies bodies := rfl

/-- A session does not look at code that it does not follow. If a run ends well, then it ends in the
same way, with the same annotations and counts, for a model with any other bodies for methods that
are not marked at the end, or that are not forced and not in a linked assembly. -/
theorem mark_unread (built : Model.Built returned m) (fits : m.Fits) {stats : MarkStats}
    (h : (c.mark m).1 = .ok stats)
    (unread : ∀ t, (bodies t).isSome → (c.mark m).2.annotations.marks.isMarked t = true →
      (c.mark m).2.annotations.marks.methodAction t ≠ .forceParse ∧
        ∃ assembly, m.assemblyOf? t = some assembly ∧
          c.annotations.policy.assemblyAction assembly ≠ .link) :
    c.mark (m.withBodies bodies) = c.mark m := by
  have formed : ((c.ensureOverrides m).setting m).Formed := Setting.formed_of_built built fits
  have hunread : ((c.ensureOverrides m).setting m).Unread (c.ensureOverrides m).annotations.marks
      (c.mark m).2.annotations.marks bodies := by
    intro t hb ht
    obtain ⟨hforced, hassembly⟩ := unread t hb ht
    refine ⟨fun heq => hforced ((Setting.mark_forced formed h t).mpr heq), ?_⟩
    rw [ensureOverrides_eq]
    exact hassembly
  have hsame := Setting.mark_withBodies formed h hunread
  rw [mark, mark, ensureOverrides_withBodies, setting_withBodies, hsame]

end Context

/-- A session that keeps the assembly of the program as it is. -/
def Shapes.archival : Context :=
  Shapes.session.onAnnotations fun a => a.onPolicy (·.setAssemblyAction ⟨0x20000001⟩ .copy)

/-- The method that calls, with a call of a method that is not there. -/
def Shapes.dangling (t : Token) : Option Body :=
  if t = ⟨0x06000003⟩ then some (.ofInstrs [.callvirt (.definition ⟨0x060000FF⟩), .ret]) else none

/-- The method is kept, and what it calls does not matter. -/
theorem Context.mark_unread_shapes :
    (Shapes.archival.mark Shapes.model).2.annotations.marks.isMarked ⟨0x06000003⟩ = true ∧
      Shapes.archival.mark (Shapes.model.withBodies Shapes.dangling) =
        Shapes.archival.mark Shapes.model := by
  obtain ⟨returned, built⟩ := Shapes.built
  obtain ⟨stats, h⟩ := exists_ok_of_isOk (x := (Shapes.archival.mark Shapes.model).1)
    (by decide +kernel)
  refine ⟨by decide +kernel, Context.mark_unread built Shapes.fits h fun t hb _ => ?_⟩
  have ht : t = ⟨0x06000003⟩ := by
    by_contra hne
    simp [Shapes.dangling, hne] at hb
  subst ht
  exact ⟨by decide +kernel, ⟨0x20000001⟩, by decide +kernel, by decide +kernel⟩

end CilTrim
