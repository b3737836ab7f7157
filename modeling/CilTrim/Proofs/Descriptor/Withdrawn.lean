import CilTrim.Proofs.Descriptor.Kept

/-!
# What descriptors take back

A descriptor adds roots to a session, but it also decides anew on types and methods that the session
has decided on already, and the new decision counts even where it keeps less. Nothing else is lost:

* `Setting.Reached.unless`: what is reached under another policy, if what only the first one keeps
  is reached;
* `Context.Withdraws`: what a session keeps only by a decision that a descriptor replaces;
* `Context.described_keeps_iff`: a run after a descriptor keeps all that one before it keeps exactly
  if it keeps what is withdrawn;
* `Launcher.unforced`: a method that a descriptor names is no longer forced to be followed.
-/

namespace CilTrim

/-! ## Two policies -/

namespace Setting

variable {s : Setting} {p : Policy} {marks marks' : Marks} {t : Token}

/-- What is reached is reached from more roots under another policy, if that is so of the members
that the policy keeps and of what bodies mention. -/
theorem Reached.unless (h : s.Reached marks t) (actions : s.policy.ActsAs s.model p)
    (kept : ∀ t, s.policy.methodsKept t ⊆ p.methodsKept t)
    (roots : ∀ t, marks.isMarked t = true → marks'.isMarked t = true)
    (preserved : ∀ {t y d}, s.Reached marks t →
      (s.choosing p s.options s.special).Reached marks' t → s.model.type? t = some d →
      s.Preserves t d y → (s.choosing p s.options s.special).Reached marks' y)
    (bodies : ∀ {t y d x}, s.Reached marks t →
      (s.choosing p s.options s.special).Reached marks' t → s.model.method? t = some d →
      s.Follows marks t → BodyMentions d x → s.model.Names x y →
      (s.choosing p s.options s.special).Reached marks' y) :
    (s.choosing p s.options s.special).Reached marks' t := by
  have options : s.options.AsksNoMore s.options := ⟨id, id, id⟩
  have special : s.special.AsksNoMore s.special := ⟨id, id, id⟩
  -- Whether a decision matters depends on what has been reached by it, so both are kept together.
  have closed : s.Closed marks fun t =>
      s.Reached marks t ∧ (s.choosing p s.options s.special).Reached marks' t :=
    { type := fun ht hd hr => by
        refine ⟨.type ht.1 hd hr, ?_⟩
        rcases hr.choosing actions (kept _) options special with hr | hp
        · exact .type ht.2 hd hr
        · exact preserved ht.1 ht.2 hd hp
      field := fun ht hf hr => ⟨.field ht.1 hf hr, .field ht.2 hf (hr.mono options)⟩
      method := fun ht hd hr => by
        refine ⟨.method ht.1 hd hr, ?_⟩
        rcases hr.choosing options special with hr | ⟨hf, x, hx, hn⟩
        · exact .method ht.2 hd hr
        · exact bodies ht.1 ht.2 hd hf hx hn
      attributed := fun ha hr => ⟨.attributed ha hr, .attributed ha.mono (hr.mono options)⟩
      overrider := fun hb hv ho hd ht =>
        ⟨.overrider hb.1 hv ho hd ht.1, .overrider hb.2 hv ho hd ht.2⟩ }
  exact (h.least closed fun t ht => ⟨.root ht, .root (roots t ht)⟩).2

end Setting

/-! ## Sessions -/

namespace Context

variable {m : Model} {c : Context} {d : Descriptor} {returned : List Token} {t y : Token}

/-- What a session keeps with a type or a method only by a decision that a descriptor replaces by
one that keeps less: a choice of members, or that a body is to be followed in an assembly that is
not linked. -/
inductive Withdraws (m : Model) (c : Context) (d : Descriptor) (t : Token) : Token → Prop where
  | field {y : Token} {type : TypeDef} : m.type? t = some type →
    (c.annotations.policy.preserve t).keepsFields = true →
    (d.inForce m t (c.annotations.policy.preserve t)).keepsFields = false →
    y ∈ type.fields → Withdraws m c d t y
  | method {type : TypeDef} {method : MethodDef} : m.type? t = some type →
    (c.annotations.policy.preserve t).keepsMethods = true →
    (d.inForce m t (c.annotations.policy.preserve t)).keepsMethods = false →
    method ∈ m.methodsOf type → Withdraws m c d t method.token
  | body {y assembly : Token} {method : MethodDef} {r : Token × TypeEntry} {x : MemberRef} :
    m.method? t = some method → c.annotations.marks.methodAction t = .forceParse →
    r ∈ d.requests m → r.2.Lists m r.1 t → m.assemblyOf? t = some assembly →
    c.annotations.policy.assemblyAction assembly ≠ .link →
    Setting.BodyMentions method x → m.Names x y → Withdraws m c d t y

/-- What marking depends on after a descriptor is the same but for the policy. -/
theorem setting_described (applied : (d.apply m c.annotations).1 = none) :
    ((c.described m d).ensureOverrides m).setting m =
      ((c.ensureOverrides m).setting m).choosing (c.described m d).annotations.policy
        ((c.ensureOverrides m).setting m).options ((c.ensureOverrides m).setting m).special := by
  simp only [ensureOverrides_eq, onAnnotations, described, setting, Setting.choosing, corlib?,
    Descriptor.overrides_apply applied]

/-- What is withdrawn is kept before the descriptor. -/
theorem Withdraws.reached (h : c.Withdraws m d t y)
    (ht : ((c.ensureOverrides m).setting m).Reached c.annotations.marks t) :
    ((c.ensureOverrides m).setting m).Reached c.annotations.marks y := by
  have hpolicy := policy_ensureOverrides (c := c) (m := m)
  cases h with
  | field hd hk _ hy => exact .type ht hd (.preservedField (hpolicy ▸ hk) hy)
  | method hd hk _ hm => exact .type ht hd (.preservedMethod (hpolicy ▸ hk) hm)
  | body hd hforced _ _ _ _ hx hn =>
    exact .method ht hd (.mention (hx.followed (.inl hforced)) hn)

/-- All that is reached in a session is reached after a descriptor, if what is withdrawn is. -/
theorem reached_described (noActions : ∀ entry ∈ d.assemblies, entry.action = none)
    (applied : (d.apply m c.annotations).1 = none)
    (kept : ∀ t y, ((c.ensureOverrides m).setting m).Reached c.annotations.marks t →
      c.Withdraws m d t y → (((c.described m d).ensureOverrides m).setting m).Reached
        (c.described m d).annotations.marks y)
    (h : ((c.ensureOverrides m).setting m).Reached c.annotations.marks t) :
    (((c.described m d).ensureOverrides m).setting m).Reached
      (c.described m d).annotations.marks t := by
  have hpolicy := policy_ensureOverrides (c := c) (m := m)
  rw [setting_described applied] at kept ⊢
  refine h.unless (fun _ => ?_) (fun t => ?_) (fun t ht => ?_) ?_ ?_
  · exact hpolicy ▸ (Descriptor.assemblyAction_apply noActions applied).symm
  · rw [hpolicy, described, Descriptor.methodsKept_apply applied]
    exact List.Subset.refl _
  · exact (Descriptor.isMarked_apply applied).mpr (.inl ht)
  · rintro t y type ht ht' hd (⟨hk, hy⟩ | ⟨hk, hm⟩)
    all_goals rw [hpolicy] at hk
    · cases hafter : (d.inForce m t (c.annotations.policy.preserve t)).keepsFields with
      | true =>
        refine .type ht' hd (.preservedField ?_ hy)
        rw [← hafter, ← Descriptor.preserve_apply applied]
        rfl
      | false => exact kept t _ ht (.field hd hk hafter hy)
    · cases hafter : (d.inForce m t (c.annotations.policy.preserve t)).keepsMethods with
      | true =>
        refine .type ht' hd (.preservedMethod ?_ hm)
        rw [← hafter, ← Descriptor.preserve_apply applied]
        rfl
      | false => exact kept t _ ht (.method hd hk hafter hm)
  · intro t y method x ht ht' hd hf hx hn
    by_cases hlink : ∀ assembly, m.assemblyOf? t = some assembly →
        c.annotations.policy.assemblyAction assembly = .link
    · refine .method ht' hd (.mention (hx.followed (.inr fun assembly ha => ?_)) hn)
      exact (Descriptor.assemblyAction_apply noActions applied).trans (hlink assembly ha)
    · have hforced : c.annotations.marks.methodAction t = .forceParse := by
        refine hf.resolve_right fun hall => hlink fun assembly ha => ?_
        rw [← hpolicy]
        exact hall assembly ha
      by_cases hlisted : ∃ r ∈ d.requests m, r.2.Lists m r.1 t
      · obtain ⟨r, hr, hlists⟩ := hlisted
        simp only [not_forall] at hlink
        obtain ⟨assembly, ha, haction⟩ := hlink
        exact kept t y ht (.body hd hforced hr hlists ha haction hx hn)
      · refine .method ht' hd (.mention (hx.followed (.inl ?_)) hn)
        rw [described, Descriptor.methodAction_apply applied, if_neg hlisted, hforced]

/-- A run after a descriptor without actions keeps all that a run before it keeps, exactly if it
keeps what the descriptor withdraws from what that run keeps. -/
theorem described_keeps_iff (built : Model.Built returned m) (fits : m.Fits)
    (overrides : (c.ensureOverrides m).annotations.overrides = .ofModel m)
    (fresh : ∀ t, c.annotations.marks.isProcessed t = false)
    (noActions : ∀ entry ∈ d.assemblies, entry.action = none)
    (applied : (d.apply m c.annotations).1 = none) {stats stats' : MarkStats}
    (h : (c.mark m).1 = .ok stats) (h' : ((c.described m d).mark m).1 = .ok stats') :
    (∀ t, (c.mark m).2.annotations.marks.isMarked t = true →
        ((c.described m d).mark m).2.annotations.marks.isMarked t = true) ↔
      ∀ t y, (c.mark m).2.annotations.marks.isMarked t = true → c.Withdraws m d t y →
        ((c.described m d).mark m).2.annotations.marks.isMarked y = true := by
  have hmarked := isMarked_mark built fits overrides fresh h
  have hmarked' := isMarked_mark built fits ((overrides_described applied).trans overrides)
    (fresh_described applied fresh) h'
  simp only [hmarked, hmarked']
  constructor
  · exact fun hall t y ht hw => hall y (hw.reached ht)
  · exact fun kept t ht => reached_described noActions applied kept ht

end Context

/-! ## A method that is forced to be followed -/

namespace Launcher

/-- A class with a method that calls another one. -/
def model : Model :=
  let m := (Model.empty.addAssembly "App").2
  let m := (m.addType (.ofClass ⟨0x20000001⟩ "App" "Program")).2
  let m := (m.addMethod (((MethodDraft.ofName ⟨0x02000001⟩ "Main").returns
    (.definition ⟨0x02000001⟩)).withCode [.call (.definition ⟨0x06000002⟩), .ret])).2
  (m.addMethod (((MethodDraft.ofName ⟨0x02000001⟩ "Helper").returns
    (.definition ⟨0x02000001⟩)).withCode [.ret])).2

theorem built : ∃ returned, Model.Built returned model := by
  refine ⟨_, .method _ (.method _ (.type _ (.assembly "App" .empty) ?_ ?_) ?_) ?_⟩
  · exact ⟨by decide, by decide⟩
  · exact nofun
  · exact ⟨by decide, by decide⟩
  · exact ⟨by decide, by decide⟩

theorem fits : model.Fits := by
  intro table
  cases table <;> decide

/-- A session in which the body of the first method is forced to be followed, under an action for
the assembly. -/
def session (action : LinkAction) : Context :=
  (Context.ofOptions .default).onAnnotations fun a =>
    { a with
      marks := (Marks.empty.mark ⟨0x06000001⟩ .root).setMethodAction ⟨0x06000001⟩ .forceParse
      policy := Policy.default.setAssemblyAction ⟨0x20000001⟩ action }

/-- A descriptor that names the first method. -/
def descriptor : Descriptor := ⟨[⟨"App", none, [⟨"App.Program", none, ["Main"], []⟩]⟩]⟩

theorem noActions : ∀ entry ∈ descriptor.assemblies, entry.action = none := by
  decide

theorem fresh (action : LinkAction) (t : Token) :
    (session action).annotations.marks.isProcessed t = false := by
  change (Marks.empty.mark ⟨0x06000001⟩ .root).isProcessed t = false
  rw [Marks.isProcessed_mark]
  rfl

/-- While the assembly is linked, the descriptor withdraws nothing. -/
theorem not_withdraws (t y : Token) : ¬ (session .link).Withdraws model descriptor t y := by
  intro h
  cases h with
  | field _ hk => simp [session, Context.onAnnotations, Policy.setAssemblyAction, Policy.preserve,
      Policy.default, TypePreserve.keepsFields] at hk
  | method _ hk => simp [session, Context.onAnnotations, Policy.setAssemblyAction, Policy.preserve,
      Policy.default, TypePreserve.keepsMethods] at hk
  | body _ _ _ _ _ haction =>
    apply haction
    unfold session Context.onAnnotations Policy.setAssemblyAction Policy.assemblyAction
    dsimp only
    rw [Marks.getElem?_insert]
    split <;> rfl

end Launcher

/-- While the assembly is linked, the method that is called is kept after the descriptor too. -/
theorem Context.described_keeps_iff_launcher :
    (((Launcher.session .link).described Launcher.model Launcher.descriptor).mark
      Launcher.model).2.annotations.marks.isMarked ⟨0x06000002⟩ = true := by
  obtain ⟨returned, built⟩ := Launcher.built
  obtain ⟨stats, h⟩ := exists_ok_of_isOk (x := ((Launcher.session .link).mark Launcher.model).1)
    (by decide +kernel)
  obtain ⟨stats', h'⟩ := exists_ok_of_isOk
    (x := (((Launcher.session .link).described Launcher.model Launcher.descriptor).mark
      Launcher.model).1) (by decide +kernel)
  refine (Context.described_keeps_iff built Launcher.fits rfl (Launcher.fresh .link)
    Launcher.noActions (by decide +kernel) h h').mpr ?_ ⟨0x06000002⟩ (by decide +kernel)
  exact fun t y _ hw => absurd hw (Launcher.not_withdraws t y)

/-- If the assembly is copied, the method that is called is kept as the body of the first one is
forced. The descriptor names that method, after which its body is not followed any more. -/
theorem Launcher.unforced :
    (∃ returned, Model.Built returned model) ∧ model.Fits ∧
      ((session .copy).ensureOverrides model).annotations.overrides = .ofModel model ∧
      (∀ t, (session .copy).annotations.marks.isProcessed t = false) ∧
      (∀ entry ∈ descriptor.assemblies, entry.action = none) ∧
      (descriptor.apply model (session .copy).annotations).1 = none ∧
      ((session .copy).mark model).1.isOk = true ∧
      (((session .copy).described model descriptor).mark model).1.isOk = true ∧
      ((session .copy).mark model).2.annotations.marks.isMarked ⟨0x06000002⟩ = true ∧
      (((session .copy).described model descriptor).mark model).2.annotations.marks.isMarked
        ⟨0x06000002⟩ = false := by
  refine ⟨built, fits, rfl, fresh .copy, noActions, ?_, ?_, ?_, ?_, ?_⟩
  all_goals decide +kernel

end CilTrim
