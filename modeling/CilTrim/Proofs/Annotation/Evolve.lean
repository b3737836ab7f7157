import CilTrim.Proofs.Annotation.Explain

/-!
# Marks over time

Marking a node, finishing a method and deciding on a body each lead from marks to later ones, and so
do many of them:

* `Status.rank`: how far marking has come, as a number;
* `Marks.Evolves`: how later marks may differ from earlier ones, with `Marks.Evolves.trans`;
* `Marks.evolves_mark`, `Marks.evolves_setProcessed`, `Marks.evolves_ensureParsed`: the changes;
* `Annotations.Evolves`: the same for annotations, of which only the marks may differ.
-/

namespace CilTrim

/-- How far marking has come, as a number. -/
def Status.rank : Status → Nat
  | .unmarked => 0
  | .marked => 1
  | .processed => 2

namespace Marks

/-- How later marks may differ from earlier ones: nodes get further, only methods are processed,
reasons stay and new marks have one, and a body that nothing was decided on may be parsed. -/
structure Evolves (before after : Marks) : Prop where
  status (t : Token) : (before.status t).rank ≤ (after.status t).rank
  processed {t : Token} : ¬ before.isProcessed t = true → after.isProcessed t = true →
    t.isIn .methodDef = true
  kept {t : Token} : before.isMarked t = true → after.reason? t = before.reason? t
  reasoned {t : Token} : ¬ before.isMarked t = true → after.isMarked t = true →
    ∃ reason, after.reason? t = some reason
  action (t : Token) : after.methodAction t = before.methodAction t ∨
    before.methodAction t = .nothing ∧ after.methodAction t = .parse

variable {m m' m'' : Marks} {t x : Token} {reason : Reason}

/-- A node gets further exactly if it stays marked and stays processed. -/
theorem rank_le_iff :
    (m.status t).rank ≤ (m'.status t).rank ↔
      (m.isMarked t = true → m'.isMarked t = true) ∧
        (m.isProcessed t = true → m'.isProcessed t = true) := by
  unfold isMarked isProcessed
  cases m.status t <;> cases m'.status t <;> decide

namespace Evolves

/-- A marked node stays marked. -/
theorem marked (h : m.Evolves m') (ht : m.isMarked t = true) : m'.isMarked t = true :=
  (rank_le_iff.mp (h.status t)).1 ht

theorem refl (m : Marks) : m.Evolves m where
  status _ := Nat.le_refl _
  processed hn h := absurd h hn
  kept _ := rfl
  reasoned hn h := absurd h hn
  action _ := .inl rfl

theorem trans (h : m.Evolves m') (h' : m'.Evolves m'') : m.Evolves m'' where
  status t := Nat.le_trans (h.status t) (h'.status t)
  processed {t} hn ht := by
    by_cases hm : m'.isProcessed t = true
    · exact h.processed hn hm
    · exact h'.processed hm ht
  kept ht := (h'.kept (h.marked ht)).trans (h.kept ht)
  reasoned {t} hn ht := by
    by_cases hm : m'.isMarked t = true
    · obtain ⟨reason, hr⟩ := h.reasoned hn hm
      exact ⟨reason, (h'.kept hm).trans hr⟩
    · exact h'.reasoned hm ht
  action t := by
    have first := h.action t
    have second := h'.action t
    rcases first with first | ⟨hn, hp⟩
    · rwa [first] at second
    · rw [hp] at second
      have hparse : m''.methodAction t = .parse := by simpa using second
      exact .inr ⟨hn, hparse⟩

end Evolves

/-! ## Changes -/

/-- A node that gets marked has the reason that is given, or an older one. -/
theorem evolves_mark : m.Evolves (m.mark x reason) where
  status t := by
    rw [rank_le_iff, isMarked_mark, isProcessed_mark]
    exact ⟨.inr, id⟩
  processed hn ht := by
    rw [isProcessed_mark] at ht
    exact absurd ht hn
  kept {t} ht := by
    have new : ¬ (t = x ∧ ¬ m.isMarked x = true) := fun ⟨ht', hx⟩ => hx (ht' ▸ ht)
    rw [reason?_mark, if_neg new, Option.or_none]
  reasoned {t} hn ht := by
    have htx : t = x := (isMarked_mark.mp ht).resolve_right hn
    subst htx
    rw [reason?_mark, if_pos ⟨rfl, hn⟩]
    cases m.reason? t with
    | none => exact ⟨reason, rfl⟩
    | some first => exact ⟨first, rfl⟩
  action t := .inl methodAction_mark

/-- A marked method may be processed. -/
theorem evolves_setProcessed (hx : m.isMarked x = true) (hmethod : x.isIn .methodDef = true) :
    m.Evolves (m.setProcessed x) where
  status t := by
    rw [rank_le_iff, isMarked_setProcessed, isProcessed_setProcessed]
    exact ⟨.inr, .inr⟩
  processed {t} hn ht := by
    have htx : t = x := (isProcessed_setProcessed.mp ht).resolve_right hn
    rw [htx]
    exact hmethod
  kept _ := reason?_setProcessed
  reasoned {t} hn ht := by
    rcases isMarked_setProcessed.mp ht with rfl | ht
    · exact absurd hx hn
    · exact absurd ht hn
  action _ := .inl methodAction_setProcessed

/-- A body that nothing was decided on may be parsed. -/
theorem evolves_ensureParsed : m.Evolves (m.ensureParsed x) where
  status t := by
    rw [rank_le_iff, isMarked_ensureParsed, isProcessed_ensureParsed]
    exact ⟨id, id⟩
  processed hn ht := by
    rw [isProcessed_ensureParsed] at ht
    exact absurd ht hn
  kept _ := reason?_ensureParsed
  reasoned hn ht := by
    rw [isMarked_ensureParsed] at ht
    exact absurd ht hn
  action t := by
    rw [methodAction_ensureParsed]
    split <;> rename_i h
    · obtain ⟨rfl, hn⟩ := h
      exact .inr ⟨hn, rfl⟩
    · exact .inl rfl

end Marks

/-- Of later annotations, only the marks may differ. What users have decided and which methods
override which stays. -/
structure Annotations.Evolves (before after : Annotations) : Prop where
  marks : before.marks.Evolves after.marks
  policy : after.policy = before.policy
  overrides : after.overrides = before.overrides

end CilTrim
