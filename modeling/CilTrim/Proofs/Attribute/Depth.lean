import CilTrim.Proofs.Attribute.Leaves
import CilTrim.Proofs.Run

/-!
# The decoder at a depth

The decoder as a recursion that counts how deep it is, with any test for arrays that are too long.
Nothing bounds it but the depth that it has reached: what it reads next is chosen by kinds that it
finds in the blob, and it is undefined where it would call itself more often than it may:

* `kindFrom`, `valueFrom`, `itemsFrom`: the recursion, with so many calls of one in another;
* `Settles`: it ends as a bounded program does;
* `settles_valueFrom`: it ends as the decoder does, with the same values;
* `valueAt_object_replicate`: objects in objects end at the last level;
* `valueAt_pays`: every value is paid for, and the test for long arrays refuses none.
-/

namespace CilTrim.Attribute

open Blob Decode

/-- Decoding that may be undefined. -/
abbrev Decoding := Run DecodeFault Reader

/-- A kind, at a depth. -/
def kindFrom (resolver : EnumResolver) (calls depth : Nat) : Decoding ArgKind :=
  match calls with
  | 0 => .undefined
  | calls + 1 =>
    if maxDepth < depth then .of (throw .deepKind)
    else do
      let tag ← .of (read Read.byte)
      match ArgKind.ofTag? tag with
      | some kind => pure kind
      | none =>
        if tag = 0x1d then pure (.array (← kindFrom resolver calls (depth + 1)))
        else if tag = 0x55 then
          match ← .of (read Read.serString) with
          | none => .of (throw .unnamedEnum)
          | some name => pure (.enum name (← .of (enumUnderlying resolver name)))
        else .of (throw (.badKind tag))

/-- So many values, one after the other. -/
def itemsFrom (value : Decoding Argument) : Nat → Decoding (List Argument)
  | 0 => pure []
  | length + 1 => do
    let first ← value
    pure (first :: (← itemsFrom value length))

/-- A value of a kind, at a depth, with a test for lengths and the bytes that are left. A value that
holds no others is read as it is. -/
def valueFrom (refuses : Nat → Nat → Bool) (resolver : EnumResolver) (calls depth : Nat)
    (kind : ArgKind) : Decoding Argument :=
  match calls with
  | 0 => .undefined
  | calls + 1 =>
    if maxDepth < depth then .of (throw .deepValue)
    else
      match kind with
      | .object => do
        let kind ← kindFrom resolver calls (depth + 1)
        valueFrom refuses resolver calls (depth + 1) kind
      | .enum name underlying => do
        pure (.enum name (← valueFrom refuses resolver calls (depth + 1) underlying))
      | .array element => do
        let length := (UInt32.ofNat (← .of (read (Read.word 4)))).toInt32.toInt
        if length = -1 then pure (.array [])
        else if length < 0 then .of (throw (.negativeLength length))
        else
          let remaining := (← .of get).remaining
          if refuses length.toNat remaining then .of (throw (.longArray length.toNat remaining))
          else
            pure (.array (← itemsFrom (valueFrom refuses resolver calls (depth + 1) element)
              length.toNat))
      | leaf => .of (valueAt resolver 1 leaf)

/-- The test of the decoder: there are more items than bytes. -/
def exceeds (length remaining : Nat) : Bool := remaining < length

/-- No test at all. -/
def untested (_length _remaining : Nat) : Bool := false

/-! ## Ending as a bounded program does -/

/-- A program that may be undefined ends as another one does: with the same result if there is one,
and with a fault if there is none. It is the same fault if `strict`. -/
def Settles {α : Type} (strict : Prop) (run : Decoding α) (bounded : Decode α) (r : Reader) :
    Prop :=
  match bounded r with
  | .ok a r' => run r = some (.ok a, r')
  | .error fault r' =>
    ∃ fault' stop, run r = some (.error fault', stop) ∧ (strict → fault' = fault ∧ stop = r')

section

variable {α β : Type} {strict : Prop} {run : Decoding α} {bounded : Decode α}
  {next : α → Decoding β} {next' : α → Decode β} {r r' : Reader}

theorem Settles.ok_iff (h : Settles strict run bounded r) {a : α} :
    run r = some (.ok a, r') ↔ bounded r = .ok a r' := by
  unfold Settles at h
  cases hb : bounded r with
  | ok b stop =>
    rw [hb] at h
    rw [h, Option.some_inj, Prod.mk.injEq, Except.ok.injEq, EStateM.Result.ok.injEq]
  | error fault stop =>
    rw [hb] at h
    obtain ⟨fault', stop', hrun, -⟩ := h
    rw [hrun]
    exact ⟨nofun, nofun⟩

theorem Settles.ends (h : Settles strict run bounded r) :
    ∃ result stop, run r = some (result, stop) := by
  unfold Settles at h
  split at h
  · exact ⟨_, _, h⟩
  · obtain ⟨fault', stop, hrun, -⟩ := h
    exact ⟨_, _, hrun⟩

theorem Settles.eq_of (h : Settles strict run bounded r) (hstrict : strict) :
    run r = Run.of bounded r := by
  unfold Settles at h
  unfold Run.of
  cases hb : bounded r with
  | ok a r' =>
    rw [hb] at h
    exact h
  | error fault r' =>
    rw [hb] at h
    obtain ⟨fault', stop, hrun, hsame⟩ := h
    obtain ⟨rfl, rfl⟩ := hsame hstrict
    exact hrun

/-- Where a bounded program has no result, there is a fault. -/
theorem Settles.fails (h : Settles strict run bounded r) (hnone : ∀ a r', bounded r ≠ .ok a r') :
    ∃ fault stop, run r = some (.error fault, stop) := by
  obtain ⟨result, stop, hrun⟩ := h.ends
  cases result with
  | ok a => exact absurd (h.ok_iff.mp hrun) (hnone a stop)
  | error fault => exact ⟨fault, stop, hrun⟩

theorem settles_of (step : Decode α) : Settles strict (.of step) step r := by
  unfold Settles Run.of
  cases step r with
  | ok a r' => rfl
  | error fault r' => exact ⟨fault, r', rfl, fun _ => ⟨rfl, rfl⟩⟩

theorem settles_pure (a : α) : Settles strict (pure a) (pure a) r :=
  rfl

/-- A program that goes on where another one ends. -/
theorem Settles.bind (h : Settles strict run bounded r)
    (h' : ∀ a r', Settles strict (next a) (next' a) r') :
    Settles strict (run >>= next) (bounded >>= next') r := by
  unfold Settles at h
  cases hb : bounded r with
  | ok a r' =>
    rw [hb] at h
    unfold Settles
    rw [bind_eq_of_ok hb, Run.bind_of_ok h]
    exact h' a r'
  | error fault r' =>
    rw [hb] at h
    obtain ⟨fault', stop, hrun, hsame⟩ := h
    unfold Settles
    rw [bind_eq_error hb]
    exact ⟨fault', stop, Run.bind_of_error hrun, hsame⟩

/-- A program that looks at where it is. -/
theorem settles_get {next : Reader → Decoding β} {next' : Reader → Decode β}
    (h : Settles strict (next r) (next' r) r) :
    Settles strict (.of get >>= next) (get >>= next') r := by
  have hget : (Run.of get : Decoding Reader) r = some (.ok r, r) := rfl
  unfold Settles
  rw [Run.bind_of_ok hget, get_bind_apply]
  exact h

end

/-! ## The recursion ends -/

variable {refuses : Nat → Nat → Bool} {resolver : EnumResolver} {strict : Prop} {r : Reader}

theorem settles_kindFrom {calls depth levels : Nat} (hcalls : levels < calls)
    (hlevels : maxDepth + 1 - depth = levels) :
    Settles strict (kindFrom resolver calls depth) (kindAt resolver levels) r := by
  induction levels generalizing calls depth r with
  | zero =>
    obtain ⟨calls, rfl⟩ := Nat.exists_eq_add_one_of_ne_zero (Nat.ne_zero_of_lt hcalls)
    rw [kindFrom, if_pos (by omega)]
    exact settles_of _
  | succ levels ih =>
    obtain ⟨calls, rfl⟩ := Nat.exists_eq_add_one_of_ne_zero (Nat.ne_zero_of_lt hcalls)
    rw [kindFrom, if_neg (by omega)]
    refine (settles_of _).bind fun tag r => ?_
    cases ArgKind.ofTag? tag with
    | some kind => exact settles_pure kind
    | none =>
      dsimp only
      split
      · exact (ih (by omega) (by omega)).bind fun element _ => settles_pure _
      · split
        · refine (settles_of _).bind fun name r => ?_
          cases name with
          | none => exact settles_of _
          | some name => exact (settles_of _).bind fun underlying _ => settles_pure _
        · exact settles_of _

theorem settles_itemsFrom {value : Decoding Argument} {value' : Decode Argument}
    (h : ∀ r, Settles strict value value' r) (length : Nat) :
    Settles strict (itemsFrom value length) (times value' length) r := by
  induction length generalizing r with
  | zero => exact settles_pure []
  | succ length ih =>
    exact (h r).bind fun first _ => ih.bind fun items _ => settles_pure (first :: items)

/-- An array that is refused could not have been read: so many items would need more bytes. -/
theorem settles_array {kind : ArgKind} {levels length : Nat} {run : Decoding (List Argument)}
    (hrefuses : ∀ length remaining, refuses length remaining = true → remaining < length)
    (h : Settles (refuses = exceeds) run (times (valueAt resolver levels kind) length) r) :
    Settles (refuses = exceeds)
      (if refuses length r.remaining then .of (throw (.longArray length r.remaining))
      else do pure (Argument.array (← run)))
      (if r.remaining < length then throw (.longArray length r.remaining)
      else do pure (Argument.array (← times (valueAt resolver levels kind) length))) r := by
  by_cases hlong : r.remaining < length
  · rw [if_pos hlong]
    by_cases hrefused : refuses length r.remaining = true
    · rw [if_pos hrefused]
      exact settles_of _
    · rw [if_neg hrefused]
      have hnone (items : List Argument) (r' : Reader) :
          times (valueAt resolver levels kind) length r ≠ .ok items r' :=
        fun hitems => Nat.not_le.mpr hlong (le_remaining_of_times hitems)
      obtain ⟨fault, stop, hrun⟩ := h.fails hnone
      refine ⟨fault, stop, Run.bind_of_error hrun, fun hsame => absurd ?_ hrefused⟩
      rw [hsame, exceeds]
      exact decide_eq_true hlong
  · rw [if_neg hlong, if_neg fun hrefused => hlong (hrefuses _ _ hrefused)]
    exact h.bind fun items _ => settles_pure (Argument.array items)

theorem settles_valueFrom
    (hrefuses : ∀ length remaining, refuses length remaining = true → remaining < length)
    {calls depth levels : Nat} (hcalls : levels < calls) (hlevels : maxDepth + 1 - depth = levels)
    (kind : ArgKind) :
    Settles (refuses = exceeds) (valueFrom refuses resolver calls depth kind)
      (valueAt resolver levels kind) r := by
  induction levels generalizing calls depth kind r with
  | zero =>
    obtain ⟨calls, rfl⟩ := Nat.exists_eq_add_one_of_ne_zero (Nat.ne_zero_of_lt hcalls)
    rw [valueFrom.eq_def]
    dsimp only
    rw [if_pos (by omega)]
    exact settles_of _
  | succ levels ih =>
    obtain ⟨calls, rfl⟩ := Nat.exists_eq_add_one_of_ne_zero (Nat.ne_zero_of_lt hcalls)
    have hdeeper : maxDepth + 1 - (depth + 1) = levels := by omega
    have inner (kind : ArgKind) (r : Reader) : Settles (refuses = exceeds)
        (valueFrom refuses resolver calls (depth + 1) kind) (valueAt resolver levels kind) r :=
      ih (Nat.lt_of_succ_lt_succ hcalls) hdeeper kind
    rw [valueFrom.eq_def]
    dsimp only
    rw [if_neg (by omega)]
    cases kind with
    | object =>
      exact (settles_kindFrom (Nat.lt_of_succ_lt_succ hcalls) hdeeper).bind fun kind r =>
        inner kind r
    | enum name underlying =>
      exact (inner underlying r).bind fun value _ => settles_pure (Argument.enum name value)
    | array element =>
      refine (settles_of _).bind fun n r => ?_
      dsimp only
      split
      · exact settles_pure _
      · split
        · exact settles_of _
        · exact settles_get (settles_array hrefuses (settles_itemsFrom (inner element) _))
    | _ => exact settles_of _

/-! ## Objects in objects -/

/-- An object in an object costs a tag and a level. -/
theorem valueAt_object_cons {position : Nat} {rest : List UInt8} (levels : Nat) :
    valueAt resolver (levels + 2) .object ⟨position, ArgKind.object.tag :: rest⟩ =
      valueAt resolver (levels + 1) .object ⟨position + 1, rest⟩ := by
  have hkind : kindAt resolver (levels + 1) ⟨position, ArgKind.object.tag :: rest⟩ =
      .ok .object ⟨position + 1, rest⟩ := rfl
  rw [valueAt, bind_eq_of_ok hkind]

/-- Tags of objects end at the last level, if not before. -/
theorem valueAt_object_replicate (levels : Nat)
    (h : List.replicate levels ArgKind.object.tag <+: r.rest) :
    valueAt resolver (levels + 1) .object r = .error .deepKind (r.skip levels) := by
  induction levels generalizing r with
  | zero => rfl
  | succ levels ih =>
    obtain ⟨position, rest⟩ := r
    obtain ⟨behind, rfl⟩ := h
    rw [List.replicate_succ, List.cons_append, valueAt_object_cons, ih (List.prefix_append _ _),
      Nat.add_comm levels 1, ← Reader.skip_skip]
    rfl

/-! ## Values and their bytes -/

/-- Reading a value ends, at every place of a blob, as soon as it may go one call deeper than values
nest. A value that is read takes a byte at least for each scalar, text, type and empty array in it,
it stays in the blob, and it nests no deeper than it may. So values in turn are no more than the
bytes that are left, and a test that refuses only longer arrays refuses none that can be read: with
any such test, the one of the decoder or none, the same values are read. Tags of objects in objects
end with a fault. -/
theorem valueAt_pays (resolver : EnumResolver) (depth : Nat) (kind : ArgKind) {blob : List UInt8}
    {r : Reader} (hr : r.IsIn blob) :
    (∀ v r', valueAt resolver (maxDepth + 1 - depth) kind r = .ok v r' →
      r'.IsIn blob ∧ r.position + v.leaves ≤ r'.position ∧ r.position < r'.position ∧
        v.height ≤ maxDepth + 1 - depth) ∧
    ∀ calls, maxDepth + 1 - depth < calls →
      (∀ refuses : Nat → Nat → Bool,
        (∀ length remaining, refuses length remaining = true → remaining < length) →
          (∃ result stop, valueFrom refuses resolver calls depth kind r = some (result, stop)) ∧
          (∀ v r', valueFrom refuses resolver calls depth kind r = some (.ok v, r') ↔
            valueAt resolver (maxDepth + 1 - depth) kind r = .ok v r') ∧
          ∀ length items r', itemsFrom (valueFrom refuses resolver calls depth kind) length r =
            some (.ok items, r') → length ≤ r.remaining) ∧
      valueFrom exceeds resolver calls depth kind r =
        Run.of (valueAt resolver (maxDepth + 1 - depth) kind) r ∧
      (depth ≤ maxDepth → List.replicate (maxDepth - depth) ArgKind.object.tag <+: r.rest →
        valueFrom exceeds resolver calls depth .object r =
          some (.error .deepKind, r.skip (maxDepth - depth))) := by
  refine ⟨fun v r' hv => ?_, fun calls hcalls => ⟨fun refuses hrefuses => ?_, ?_⟩⟩
  · obtain ⟨cost, hcost, rfl, hpaid⟩ := costs_valueAt _ kind r v r' hv
    have hleaves : r.position + v.leaves ≤ r.position + cost :=
      Nat.add_le_add_left hpaid.leaves r.position
    have honward : r.position < r.position + v.leaves := Nat.lt_add_of_pos_right v.leaves_pos
    exact ⟨hr.skip hcost, hleaves, Nat.lt_of_lt_of_le honward hleaves, hpaid.height⟩
  · have hsettles (r : Reader) : Settles (refuses = exceeds)
        (valueFrom refuses resolver calls depth kind)
        (valueAt resolver (maxDepth + 1 - depth) kind) r :=
      settles_valueFrom hrefuses hcalls rfl kind
    refine ⟨(hsettles r).ends, fun v r' => (hsettles r).ok_iff, fun length items r' h => ?_⟩
    exact le_remaining_of_times ((settles_itemsFrom hsettles length).ok_iff.mp h)
  · have hexceeds (length remaining : Nat) (h : exceeds length remaining = true) :
        remaining < length := of_decide_eq_true h
    have hguarded (kind : ArgKind) : valueFrom exceeds resolver calls depth kind r =
        Run.of (valueAt resolver (maxDepth + 1 - depth) kind) r :=
      (settles_valueFrom hexceeds hcalls rfl kind).eq_of rfl
    refine ⟨hguarded kind, fun hdepth htags => ?_⟩
    have hlevels : maxDepth + 1 - depth = maxDepth - depth + 1 := Nat.sub_add_comm hdepth
    rw [hguarded, Run.of, hlevels, valueAt_object_replicate _ htags]

namespace Boxed

/-- Two objects, a number and a truth value, behind their count. -/
def pair : List UInt8 := [2, 0, 0, 0, 0x08, 5, 0, 0, 0, 0x02, 1]

/-- Objects in objects and nothing else. -/
def tags : List UInt8 := List.replicate maxDepth ArgKind.object.tag

theorem isIn_start (blob : List UInt8) : (Reader.ofBytes blob).IsIn blob :=
  ⟨Nat.zero_le _, rfl⟩

end Boxed

/-- Eleven bytes are read as an array of two objects, also without a test, and tags alone end with a
fault. -/
theorem valueAt_pays_objects :
    (∃ v r', valueFrom untested (fun _ => none) 66 0 (.array .object) (.ofBytes Boxed.pair) =
        some (.ok v, r') ∧
      (Reader.ofBytes Boxed.pair).position + v.leaves ≤ r'.position ∧ v.height ≤ maxDepth + 1 ∧
        r'.IsIn Boxed.pair) ∧
    valueFrom exceeds (fun _ => none) 66 0 .object (.ofBytes Boxed.tags) =
      some (.error .deepKind, (Reader.ofBytes Boxed.tags).skip maxDepth) := by
  have hcalls : maxDepth + 1 - 0 < 66 := by decide
  have hread : valueAt (fun _ => none) (maxDepth + 1) (.array .object) (.ofBytes Boxed.pair) =
      .ok (.array [.i4 5, .bool true]) ⟨11, []⟩ := by rfl
  obtain ⟨hpaid, hany⟩ :=
    valueAt_pays (fun _ => none) 0 (.array .object) (Boxed.isIn_start Boxed.pair)
  obtain ⟨-, hsame, -⟩ := (hany 66 hcalls).1 untested fun _ _ h => absurd h Bool.false_ne_true
  obtain ⟨hin, hleaves, -, hheight⟩ := hpaid _ _ hread
  obtain ⟨-, hends⟩ := valueAt_pays (fun _ => none) 0 .object (Boxed.isIn_start Boxed.tags)
  obtain ⟨-, -, htags⟩ := hends 66 hcalls
  exact ⟨⟨_, _, (hsame _ _).mpr hread, hleaves, hheight, hin⟩,
    htags (Nat.zero_le _) (List.prefix_refl _)⟩

end CilTrim.Attribute
