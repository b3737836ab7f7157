import CilTrim.Proofs.Annotation.Marks
import Mathlib.Data.List.Perm.Subperm

/-!
# Explanations

A node is explained by the node it was marked for, and that by another. The chain of a node shows
whether this leads back to a root:

* `Marks.reason?_mark` and the like: the first reason for a node stays;
* `Marks.Trail`: the reasons from a node back to a root;
* `Marks.LeadsBack`: the chain of a node is such a trail, with `Marks.leadsBack_iff`;
* `Marks.Traces`: the reasons from a node, back to a root or to where something is credited;
* `Marks.Rooted`: marks of roots only.
-/

namespace CilTrim

namespace Marks

variable {m m' : Marks} {t x p : Token} {reason : Reason}

/-! ## Reasons -/

theorem mem_reasons_iff : t ∈ m.reasons ↔ ∃ reason, m.reason? t = some reason := by
  rw [Std.ExtTreeMap.mem_iff_isSome_getElem?, Option.isSome_iff_exists]
  exact Iff.rfl

/-- The first reason for a node stays. -/
theorem reason?_mark : (m.mark x reason).reason? t =
    (m.reason? t).or (if t = x ∧ ¬ m.isMarked x = true then some reason else none) := by
  unfold mark
  split <;> rename_i h
  · simp [h]
  · have hinsert : (m.reasons.insertIfNew x reason)[t]? =
        if compare x t = .eq ∧ x ∉ m.reasons then some reason else m.reason? t :=
      Std.ExtTreeMap.getElem?_insertIfNew
    refine hinsert.trans ?_
    by_cases ht : t = x
    · subst ht
      by_cases hm : t ∈ m.reasons
      · obtain ⟨r, hr⟩ := mem_reasons_iff.mp hm
        rw [if_neg fun hc => hc.2 hm, hr, Option.some_or]
      · have hr : m.reason? t = none := Std.ExtTreeMap.getElem?_eq_none hm
        rw [if_pos ⟨Std.compare_eq_iff_eq.mpr rfl, hm⟩, hr, if_pos ⟨rfl, h⟩, Option.none_or]
    · rw [if_neg fun hc => ht (Std.compare_eq_iff_eq.mp hc.1).symm, if_neg fun hc => ht hc.1,
        Option.or_none]

@[simp] theorem reason?_setProcessed : (m.setProcessed x).reason? t = m.reason? t :=
  rfl

@[simp] theorem reason?_ensureParsed : (m.ensureParsed x).reason? t = m.reason? t := by
  unfold ensureParsed
  split <;> rfl

/-! ## Chains -/

/-- The reasons from a node back to a root, as the nodes on the way. -/
inductive Trail (m : Marks) : Token → List Token → Prop where
  | root {t : Token} : m.reason? t = some .root → Trail m t [t]
  | node {t p : Token} {path : List Token} : m.reason? t = some (.node p) → Trail m p path →
    Trail m t (t :: path)

namespace Trail

variable {path path' : List Token}

theorem unique (h : m.Trail t path) (h' : m.Trail t path') : path = path' := by
  induction h generalizing path' with
  | root hr =>
    cases h' with
    | root => rfl
    | node hr' => cases hr.symm.trans hr'
  | node hr _ ih =>
    cases h' with
    | root hr' => cases hr.symm.trans hr'
    | node hr' hrest =>
      cases hr.symm.trans hr'
      rw [ih hrest]

/-- From every node on the way, the rest of the way leads back. -/
theorem suffix (h : m.Trail t path) (hp : p ∈ path) :
    ∃ rest, m.Trail p rest ∧ rest.length ≤ path.length := by
  induction h with
  | root hr =>
    cases List.mem_singleton.mp hp
    exact ⟨_, .root hr, Nat.le_refl _⟩
  | node hr hrest ih =>
    rcases List.mem_cons.mp hp with rfl | hp
    · exact ⟨_, .node hr hrest, Nat.le_refl _⟩
    · obtain ⟨rest, htrail, hle⟩ := ih hp
      exact ⟨rest, htrail, Nat.le_succ_of_le hle⟩

/-- The way back to a root never comes to a node twice. -/
theorem nodup (h : m.Trail t path) : path.Nodup := by
  induction h with
  | root => exact List.pairwise_singleton ..
  | @node t p path hr hrest ih =>
    refine List.nodup_cons.mpr ⟨fun ht => ?_, ih⟩
    -- From a node met again, the rest of the way would be as long as the whole.
    obtain ⟨rest, htrail, hle⟩ := hrest.suffix ht
    have hlen := congrArg List.length (htrail.unique (.node hr hrest))
    rw [List.length_cons] at hlen
    omega

/-- Every node on the way has a reason. -/
theorem length_le (h : m.Trail t path) : path.length ≤ m.reasons.size := by
  have hmem : ∀ x ∈ path, x ∈ m.reasons.keys := by
    intro x hx
    obtain ⟨rest, htrail, -⟩ := h.suffix hx
    rw [Std.ExtTreeMap.mem_keys, mem_reasons_iff]
    cases htrail with
    | root hr | node hr => exact ⟨_, hr⟩
  calc path.length ≤ m.reasons.keys.length := (h.nodup.subperm hmem).length_le
    _ = m.reasons.size := Std.ExtTreeMap.length_keys

/-- A chain with enough steps is the whole way. -/
theorem chainFrom (h : m.Trail t path) {steps : Nat} {seen : List Token}
    (room : path.length ≤ steps + 1) (fresh : ∀ p ∈ path.tail, p ∉ seen) :
    m.chainFrom steps seen t = path := by
  have hnodup := h.nodup
  induction h generalizing steps seen with
  | root hr => cases steps <;> simp [Marks.chainFrom, hr]
  | @node t p path hr hrest ih =>
    have hp : ∃ rest, path = p :: rest := by cases hrest <;> exact ⟨_, rfl⟩
    obtain ⟨rest, rfl⟩ := hp
    cases steps with
    | zero => simp at room
    | succ steps =>
      have hfresh : p ∉ seen := fresh p List.mem_cons_self
      simp only [Marks.chainFrom, hr, if_neg hfresh]
      rw [ih (by simpa using room) (fun q hq => ?_) hnodup.of_cons]
      refine List.not_mem_cons_of_ne_of_not_mem ?_ (fresh q (List.mem_cons_of_mem _ hq))
      rintro rfl
      exact (List.nodup_cons.mp hnodup.of_cons).1 hq

/-- The chain of a node that leads back to a root is the whole way. -/
theorem reasonChain (h : m.Trail t path) : m.reasonChain t = path := by
  refine h.chainFrom (Nat.le_succ_of_le h.length_le) fun p hp hseen => ?_
  cases List.mem_singleton.mp hseen
  cases h with
  | root => cases hp
  | node hr hrest => exact (List.nodup_cons.mp (Trail.node hr hrest).nodup).1 hp

end Trail

/-- The chain of a node comes to no node twice and ends at a root. -/
structure LeadsBack (m : Marks) (t : Token) : Prop where
  trail : m.Trail t (m.reasonChain t)
  nodup : (m.reasonChain t).Nodup

namespace LeadsBack

theorem of_trail {path : List Token} (h : m.Trail t path) : m.LeadsBack t := by
  constructor <;> rw [h.reasonChain]
  · exact h
  · exact h.nodup

theorem root (h : m.reason? t = some .root) : m.LeadsBack t :=
  of_trail (.root h)

theorem node (h : m.reason? t = some (.node p)) (hp : m.LeadsBack p) : m.LeadsBack t :=
  of_trail (.node h hp.trail)

/-- What a node that leads back was marked for leads back. -/
theorem next (h : m.LeadsBack t) (hr : m.reason? t = some (.node p)) : m.LeadsBack p := by
  have htrail := h.trail
  generalize m.reasonChain t = path at htrail
  cases htrail with
  | root hr' => cases hr.symm.trans hr'
  | node hr' hrest =>
    cases hr.symm.trans hr'
    exact of_trail hrest

end LeadsBack

/-- A chain whose last node is a root shows that the first one leads back. -/
theorem leadsBack_of_chainFrom {steps : Nat} {seen : List Token} {last : Token}
    (hlast : (m.chainFrom steps seen t).getLast? = some last)
    (hroot : m.reason? last = some .root) : m.LeadsBack t := by
  induction steps generalizing t seen with
  | zero =>
    cases hlast
    exact .root hroot
  | succ steps ih =>
    have hstop (h : m.chainFrom (steps + 1) seen t = [t]) : m.LeadsBack t := by
      rw [h] at hlast
      cases hlast
      exact .root hroot
    cases hr : m.reason? t with
    | none => exact hstop (by simp [chainFrom, hr])
    | some r =>
      cases r with
      | root => exact .root hr
      | node p =>
        by_cases hp : p ∈ seen
        · exact hstop (by simp [chainFrom, hr, hp])
        · have hrest : (m.chainFrom steps (p :: seen) p).getLast? = some last := by
            rw [← hlast]
            simp only [chainFrom, hr, if_neg hp]
            cases steps <;> simp [chainFrom]
          exact .node hr (ih hrest)

/-- A node leads back exactly if the last node of its chain is a root. -/
theorem leadsBack_iff :
    m.LeadsBack t ↔ ∃ last, (m.reasonChain t).getLast? = some last ∧
      m.reason? last = some .root := by
  constructor
  · intro h
    have htrail := h.trail
    generalize m.reasonChain t = path at htrail
    induction htrail with
    | root hr => exact ⟨_, rfl, hr⟩
    | node hr hrest ih =>
      obtain ⟨last, hlast, hroot⟩ := ih (.of_trail hrest)
      exact ⟨last, by rw [List.getLast?_cons, hlast, Option.getD_some], hroot⟩
  · rintro ⟨last, hlast, hroot⟩
    exact leadsBack_of_chainFrom hlast hroot

/-! ## Credit -/

/-- The reasons from a node lead back to a root, or to where one node is the reason for another that
is credited to it. -/
inductive Traces (m : Marks) (credits : Token → Token → Prop) : Token → Prop where
  | root {t : Token} : m.reason? t = some .root → Traces m credits t
  | credit {t p : Token} : m.reason? t = some (.node p) → credits p t → Traces m credits t
  | node {t p : Token} : m.reason? t = some (.node p) → Traces m credits p → Traces m credits t

namespace Traces

variable {credits : Token → Token → Prop}

/-- What is traced stays so when only new reasons are added. -/
theorem mono (h : m.Traces credits t)
    (keep : ∀ {x r}, m.reason? x = some r → m'.reason? x = some r) : m'.Traces credits t := by
  induction h with
  | root hr => exact .root (keep hr)
  | credit hr hc => exact .credit (keep hr) hc
  | node hr _ ih => exact .node (keep hr) ih

/-- A traced node leads back if those do that something is credited to. -/
theorem leadsBack (h : m.Traces credits t)
    (credited : ∀ {x p}, m.reason? x = some (.node p) → credits p x → m.LeadsBack p) :
    m.LeadsBack t := by
  induction h with
  | root hr => exact .root hr
  | credit hr hc => exact .node hr (credited hr hc)
  | node hr _ ih => exact .node hr ih

end Traces

/-! ## Roots -/

/-- Every marked node is a root, and no other node has a reason. -/
structure Rooted (m : Marks) : Prop where
  marked {t : Token} : m.isMarked t = true → m.reason? t = some .root
  unmarked {t : Token} : ¬ m.isMarked t = true → m.reason? t = none

theorem Rooted.mark (h : m.Rooted) (x : Token) : (m.mark x .root).Rooted where
  marked {t} ht := by
    rw [reason?_mark]
    by_cases hold : m.isMarked t = true
    · rw [h.marked hold, Option.some_or]
    · obtain rfl := (isMarked_mark.mp ht).resolve_right hold
      rw [h.unmarked hold, if_pos ⟨rfl, hold⟩, Option.none_or]
  unmarked {t} ht := by
    rw [isMarked_mark, not_or] at ht
    rw [reason?_mark, h.unmarked ht.2, if_neg fun hc => ht.1 hc.1, Option.none_or]

/-- Nodes that are asked for are roots. -/
theorem Rooted.markAll (h : m.Rooted) (nodes : List Token) : (m.markAll nodes).Rooted := by
  induction nodes generalizing m with
  | nil => exact h
  | cons x rest ih => exact ih (h.mark x)

theorem rooted_empty : Marks.empty.Rooted :=
  ⟨nofun, fun _ => rfl⟩

end Marks

end CilTrim
