import CilTrim.Body.Writer
import Mathlib.Data.List.Basic

/-!
# The layout of written bodies

A body that is written call by call is laid out by the sizes of its instructions: each stands behind
those before it, and a handler guards just what had been written when it was asked for. As long as
the code is shorter than offsets in handlers can tell apart:

* `emitted`, `codeSize`: the instructions among calls, and the bytes that they take;
* `placed`, `guards`: the instructions and the handlers that calls lead to;
* `BodyWriter.Wrote`: what a writer holds behind calls, with one step (`Wrote.perform`) and many
  (`Wrote.foldl`);
* `Body.ofCalls_aligned`: offsets add up, handlers end at instructions and hold each other.
-/

namespace CilTrim

/-- The instruction that a call writes. -/
def BodyCall.instr? : BodyCall → Option Instr
  | .emit instr => some instr
  | _ => none

/-- The kind of the handler that a call asks for. -/
def BodyCall.handlerKind? : BodyCall → Option HandlerKind
  | .handler kind => some kind
  | _ => none

theorem Instr.size_pos (instr : Instr) : 0 < instr.size.toNat := by
  unfold Instr.size
  split <;> decide

namespace Body

/-- The instructions that calls write. -/
def emitted (calls : List BodyCall) : List Instr :=
  calls.filterMap BodyCall.instr?

/-- The kinds of the handlers that calls ask for. -/
def handled (calls : List BodyCall) : List HandlerKind :=
  calls.filterMap BodyCall.handlerKind?

/-- The bytes that instructions take together. -/
def codeSize : List Instr → Nat
  | [] => 0
  | instr :: rest => instr.size.toNat + codeSize rest

/-- Instructions that stand one behind the other, from an offset on. -/
def placed (offset : Nat) : List Instr → List Instruction
  | [] => []
  | instr :: rest =>
    ⟨.ofNat offset, instr.mnemonic, instr.operand⟩ :: placed (offset + instr.size.toNat) rest

/-- The handlers that calls from an offset on ask for, each around all that is written before it. -/
def guards (offset : Nat) : List BodyCall → List Handler
  | [] => []
  | .emit instr :: rest => guards (offset + instr.size.toNat) rest
  | .handler kind :: rest =>
    ⟨kind, 0, .ofNat offset, .ofNat offset, .ofNat offset⟩ :: guards offset rest
  | .maxStack _ :: rest | .localVariable _ :: rest => guards offset rest

variable {calls before after : List BodyCall} {instrs : List Instr} {offset : Nat}

/-! ## Sizes -/

@[simp] theorem codeSize_nil : codeSize [] = 0 := rfl

@[simp] theorem codeSize_cons (instr : Instr) (instrs : List Instr) :
    codeSize (instr :: instrs) = instr.size.toNat + codeSize instrs := rfl

@[simp] theorem codeSize_append (first second : List Instr) :
    codeSize (first ++ second) = codeSize first + codeSize second := by
  induction first with
  | nil => exact (Nat.zero_add _).symm
  | cons instr rest ih => rw [List.cons_append, codeSize_cons, codeSize_cons, ih, Nat.add_assoc]

theorem emitted_append (before after : List BodyCall) :
    emitted (before ++ after) = emitted before ++ emitted after :=
  List.filterMap_append

/-- What is written before a call takes at most as many bytes as everything. -/
theorem codeSize_emitted_le (before after : List BodyCall) :
    codeSize (emitted before) ≤ codeSize (emitted (before ++ after)) := by
  rw [emitted_append, codeSize_append]
  exact Nat.le_add_right _ _

/-- Code from an offset on goes on behind its first instruction. -/
theorem add_codeSize_emit (offset : Nat) (instr : Instr) (calls : List BodyCall) :
    offset + codeSize (emitted (.emit instr :: calls)) =
      offset + instr.size.toNat + codeSize (emitted calls) := by
  rw [Nat.add_assoc]
  exact congrArg (offset + ·) (codeSize_cons instr (emitted calls))

/-- So many instructions take at most as many bytes as all of them. -/
theorem codeSize_take_le (instrs : List Instr) (i : Nat) :
    codeSize (instrs.take i) ≤ codeSize instrs := by
  conv_rhs => rw [← List.take_append_drop i instrs, codeSize_append]
  exact Nat.le_add_right _ _

/-- One instruction more takes its own bytes more. -/
theorem codeSize_take_succ {i : Nat} {instr : Instr} (h : instrs[i]? = some instr) :
    codeSize (instrs.take (i + 1)) = codeSize (instrs.take i) + instr.size.toNat := by
  rw [List.take_add_one, h, codeSize_append]
  simp

/-- Behind an instruction are more bytes than before it. -/
theorem codeSize_take_lt {i j : Nat} {instr : Instr} (h : instrs[i]? = some instr) (hlt : i < j) :
    codeSize (instrs.take i) < codeSize (instrs.take j) := by
  have hle := codeSize_take_le (instrs.take j) (i + 1)
  rw [List.take_take, Nat.min_eq_left hlt, codeSize_take_succ h] at hle
  exact Nat.lt_of_lt_of_le (Nat.lt_add_of_pos_right instr.size_pos) hle

/-! ## Placed instructions -/

theorem placed_append (offset : Nat) (first second : List Instr) :
    placed offset (first ++ second) =
      placed offset first ++ placed (offset + codeSize first) second := by
  induction first generalizing offset with
  | nil => rfl
  | cons instr rest ih =>
    simp only [List.cons_append, placed, ih, codeSize_cons, Nat.add_assoc]

/-- An instruction stands behind the bytes of those before it. -/
theorem getElem?_placed (offset : Nat) (instrs : List Instr) (i : Nat) :
    (placed offset instrs)[i]? = instrs[i]?.map fun instr =>
      ⟨.ofNat (offset + codeSize (instrs.take i)), instr.mnemonic, instr.operand⟩ := by
  induction instrs generalizing offset i with
  | nil => simp [placed]
  | cons instr rest ih =>
    cases i with
    | zero => rfl
    | succ i =>
      rw [placed, List.getElem?_cons_succ, List.getElem?_cons_succ, ih, List.take_succ_cons,
        codeSize_cons, Nat.add_assoc]

/-! ## Handlers -/

theorem guards_append (offset : Nat) (before after : List BodyCall) :
    guards offset (before ++ after) =
      guards offset before ++ guards (offset + codeSize (emitted before)) after := by
  induction before generalizing offset with
  | nil => rfl
  | cons call rest ih =>
    cases call with
    | emit instr =>
      rw [List.cons_append, guards, guards, ih, Nat.add_assoc]
      rfl
    | handler kind =>
      rw [List.cons_append, guards, guards, ih]
      rfl
    | maxStack | localVariable =>
      rw [List.cons_append, guards, guards, ih]
      rfl

/-- There is one handler for each call that asks for one. -/
theorem map_kind_guards (offset : Nat) (calls : List BodyCall) :
    (guards offset calls).map (·.kind) = handled calls := by
  induction calls generalizing offset with
  | nil => rfl
  | cons call rest ih =>
    cases call with
    | emit instr => exact ih _
    | handler kind => exact congrArg (kind :: ·) (ih _)
    | maxStack | localVariable => exact ih _

/-- Behind the call for a handler, and those before it, is the handler. -/
theorem getElem?_guards (before : List BodyCall) (kind : HandlerKind) (after : List BodyCall) :
    (guards 0 (before ++ .handler kind :: after))[(handled before).length]? =
      some ⟨kind, 0, .ofNat (codeSize (emitted before)), .ofNat (codeSize (emitted before)),
        .ofNat (codeSize (emitted before))⟩ := by
  rw [guards_append, Nat.zero_add, ← map_kind_guards 0 before, List.length_map,
    List.getElem?_append_right (Nat.le_refl _), Nat.sub_self]
  rfl

/-- Handlers that are asked for later start at the start and end no earlier. -/
theorem guards_from {h : Handler} (hmem : h ∈ guards offset calls)
    (hsize : offset + codeSize (emitted calls) < UInt32.size) :
    h.tryStart = 0 ∧ offset ≤ h.tryEnd.toNat := by
  induction calls generalizing offset with
  | nil => cases hmem
  | cons call rest ih =>
    cases call with
    | emit instr =>
      rw [add_codeSize_emit] at hsize
      obtain ⟨hstart, hend⟩ := ih hmem hsize
      exact ⟨hstart, Nat.le_trans (Nat.le_add_right _ _) hend⟩
    | handler kind =>
      obtain rfl | hmem := List.mem_cons.mp hmem
      · have hoffset : offset < UInt32.size := Nat.lt_of_le_of_lt (Nat.le_add_right _ _) hsize
        exact ⟨rfl, Nat.le_of_eq (UInt32.toNat_ofNat_of_lt' hoffset).symm⟩
      · exact ih hmem hsize
    | maxStack | localVariable => exact ih hmem hsize

/-- Each handler holds those before it. -/
theorem pairwise_guards (hsize : offset + codeSize (emitted calls) < UInt32.size) :
    (guards offset calls).Pairwise fun earlier later =>
      later.tryStart ≤ earlier.tryStart ∧ earlier.tryEnd ≤ later.tryEnd := by
  induction calls generalizing offset with
  | nil => exact List.Pairwise.nil
  | cons call rest ih =>
    cases call with
    | emit instr =>
      rw [add_codeSize_emit] at hsize
      exact ih hsize
    | handler kind =>
      refine List.Pairwise.cons (fun later hlater => ?_) (ih hsize)
      have hoffset : offset < UInt32.size := Nat.lt_of_le_of_lt (Nat.le_add_right _ _) hsize
      obtain ⟨hstart, hend⟩ := guards_from hlater hsize
      refine ⟨Nat.le_of_eq (congrArg UInt32.toNat hstart), UInt32.le_iff_toNat_le.mpr ?_⟩
      rwa [UInt32.toNat_ofNat_of_lt' hoffset]
    | maxStack | localVariable => exact ih hsize

end Body

/-! ## Writing -/

namespace BodyWriter

open Body

variable {w : BodyWriter} {before calls : List BodyCall}

/-- What a writer holds behind calls. Offsets wrap around, but handlers do not: they are what they
should be as long as offsets fit. -/
structure Wrote (w : BodyWriter) (calls : List BodyCall) : Prop where
  offset : w.offset = .ofNat (codeSize (emitted calls))
  instructions : w.body.instructions = placed 0 (emitted calls)
  handlers : codeSize (emitted calls) < UInt32.size → w.body.handlers = guards 0 calls

theorem wrote_start : start.Wrote [] :=
  ⟨rfl, rfl, fun _ => rfl⟩

/-- An offset that fits is the bound of a handler as it is. -/
theorem bound_eq {size : Nat} (hoffset : w.offset = .ofNat size) (hsize : size < UInt32.size) :
    w.bound = .ofNat size := by
  have htoNat : (UInt64.ofNat size).toNat = size :=
    UInt64.toNat_ofNat_of_lt (Nat.lt_trans hsize (by decide))
  have hlt : w.offset < 0x100000000 := by
    rw [UInt64.lt_iff_toNat_lt, hoffset, htoNat]
    exact hsize
  rw [bound, if_pos hlt, hoffset]
  exact UInt32.toNat_inj.mp (by simp)

/-- What one more call adds. -/
theorem Wrote.perform (h : w.Wrote calls) (call : BodyCall) :
    (w.perform call).Wrote (calls ++ [call]) := by
  have hbefore (hsize : codeSize (emitted (calls ++ [call])) < UInt32.size) :
      codeSize (emitted calls) < UInt32.size :=
    Nat.lt_of_le_of_lt (codeSize_emitted_le calls [call]) hsize
  have hguards (hsize : codeSize (emitted (calls ++ [call])) < UInt32.size) :
      guards 0 (calls ++ [call]) =
        w.body.handlers ++ guards (codeSize (emitted calls)) [call] := by
    rw [guards_append, Nat.zero_add, h.handlers (hbefore hsize)]
  have hemitted (hcall : call.instr? = none) : emitted (calls ++ [call]) = emitted calls := by
    simp [emitted, hcall]
  cases call with
  | emit instr =>
    have hemitted : emitted (calls ++ [.emit instr]) = emitted calls ++ [instr] :=
      emitted_append calls [.emit instr]
    refine ⟨?_, ?_, fun hsize => ?_⟩
    · show w.offset + instr.size = _
      rw [hemitted, codeSize_append, h.offset, codeSize_cons, codeSize_nil, Nat.add_zero,
        UInt64.ofNat_add, UInt64.ofNat_toNat]
    · show w.body.instructions ++ [_] = _
      rw [hemitted, placed_append, h.instructions, h.offset, Nat.zero_add]
      rfl
    · rw [hguards hsize]
      exact (List.append_nil _).symm
  | handler kind =>
    refine ⟨hemitted rfl ▸ h.offset, hemitted rfl ▸ h.instructions, fun hsize => ?_⟩
    rw [hguards hsize]
    show w.body.handlers ++ [⟨kind, 0, w.bound, w.bound, w.bound⟩] = _
    rw [bound_eq h.offset (hbefore hsize)]
    rfl
  | maxStack | localVariable =>
    refine ⟨hemitted rfl ▸ h.offset, hemitted rfl ▸ h.instructions, fun hsize => ?_⟩
    rw [hguards hsize]
    exact (List.append_nil _).symm

/-- What many calls have added. -/
theorem Wrote.foldl (h : w.Wrote before) (calls : List BodyCall) :
    (calls.foldl BodyWriter.perform w).Wrote (before ++ calls) := by
  induction calls generalizing w before with
  | nil => rwa [List.append_nil]
  | cons call rest ih =>
    rw [List.append_cons, List.foldl_cons]
    exact ih (h.perform call)

end BodyWriter

/-! ## Written bodies -/

namespace Body

variable {calls before after : List BodyCall}

theorem wrote_ofCalls (calls : List BodyCall) :
    (calls.foldl BodyWriter.perform .start).Wrote calls :=
  BodyWriter.wrote_start.foldl calls

/-- The instructions of a body are those that were written, in order, each behind the bytes of
those before it. -/
theorem getElem?_instructions (calls : List BodyCall) (i : Nat) :
    (ofCalls calls).instructions[i]? = (emitted calls)[i]?.map fun instr =>
      ⟨.ofNat (codeSize ((emitted calls).take i)), instr.mnemonic, instr.operand⟩ := by
  rw [ofCalls, (wrote_ofCalls calls).instructions, getElem?_placed]
  simp only [Nat.zero_add]

/-- While the code is short, an instruction has the bytes before it as its offset. -/
theorem offset_instructions (hsize : codeSize (emitted calls) < UInt32.size) {i : Nat}
    {instruction : Instruction} (h : (ofCalls calls).instructions[i]? = some instruction) :
    instruction.offset.toNat = codeSize ((emitted calls).take i) := by
  rw [getElem?_instructions, Option.map_eq_some_iff] at h
  obtain ⟨instr, -, rfl⟩ := h
  have hle := codeSize_take_le (emitted calls) i
  exact UInt64.toNat_ofNat_of_lt' (Nat.lt_trans (Nat.lt_of_le_of_lt hle hsize) (by decide))

/-- Offsets of instructions only grow. -/
theorem pairwise_instructions (hsize : codeSize (emitted calls) < UInt32.size) :
    (ofCalls calls).instructions.Pairwise fun here later => here.offset < later.offset := by
  rw [List.pairwise_iff_getElem]
  intro i j hi hj hlt
  have hplaced := getElem?_instructions calls i
  rw [List.getElem?_eq_getElem hi, eq_comm, Option.map_eq_some_iff] at hplaced
  obtain ⟨instr, hinstr, -⟩ := hplaced
  rw [UInt64.lt_iff_toNat_lt, offset_instructions hsize (List.getElem?_eq_getElem hi),
    offset_instructions hsize (List.getElem?_eq_getElem hj)]
  exact codeSize_take_lt hinstr hlt

/-- The bytes in front of a call are the offset of the instruction that comes next, or all bytes if
none comes. -/
theorem codeSize_before (hsize : codeSize (emitted (before ++ after)) < UInt32.size) :
    codeSize (emitted before) =
      ((ofCalls (before ++ after)).instructions[(emitted before).length]?).elim
        (codeSize (emitted (before ++ after))) (·.offset.toNat) := by
  cases hnext : (ofCalls (before ++ after)).instructions[(emitted before).length]? with
  | some next =>
    rw [Option.elim_some, offset_instructions hsize hnext, emitted_append, List.take_left]
  | none =>
    rw [getElem?_instructions, Option.map_eq_none_iff, List.getElem?_eq_none_iff, emitted_append,
      List.length_append] at hnext
    have hafter : emitted after = [] := List.length_eq_zero_iff.mp (by omega)
    rw [Option.elim_none, emitted_append, hafter, List.append_nil]

/-- Just the instructions that were written before a call stand before the bytes in front of it. -/
theorem offset_lt_codeSize_iff (hsize : codeSize (emitted (before ++ after)) < UInt32.size)
    {i : Nat} {instruction : Instruction}
    (h : (ofCalls (before ++ after)).instructions[i]? = some instruction) :
    instruction.offset.toNat < codeSize (emitted before) ↔ i < (emitted before).length := by
  have hoffset := offset_instructions hsize h
  have hbefore : codeSize (emitted before) =
      codeSize ((emitted (before ++ after)).take (emitted before).length) := by
    rw [emitted_append, List.take_left]
  rw [getElem?_instructions, Option.map_eq_some_iff] at h
  obtain ⟨instr, hinstr, -⟩ := h
  rw [hoffset, hbefore]
  refine ⟨fun hlt => ?_, codeSize_take_lt hinstr⟩
  by_contra hle
  have hmono := codeSize_take_le ((emitted (before ++ after)).take i) (emitted before).length
  rw [List.take_take, Nat.min_eq_left (Nat.not_lt.mp hle)] at hmono
  exact Nat.not_lt.mpr hmono hlt

/-- While the code of a body takes less than `2 ^ 32` bytes, its parts line up. The instructions are
those that were written, from offset 0 on, each behind the bytes of the one before it, so that
offsets only grow. A handler was asked for by each call for one. It guards the range from 0 to the
offset of the instruction that was written next, or to the end of the code if none was, which is
where its own range begins. So it guards the instructions that were written before, and it guards
all that the handlers before it guard. -/
theorem ofCalls_aligned (calls : List BodyCall)
    (hsize : codeSize (emitted calls) < UInt32.size) :
    ((ofCalls calls).instructions.map (fun i => (i.mnemonic, i.operand)) =
        (emitted calls).map (fun i => (i.mnemonic, i.operand)) ∧
      (∀ first, (ofCalls calls).instructions[0]? = some first → first.offset = 0) ∧
      (∀ i instr here next, (emitted calls)[i]? = some instr →
        (ofCalls calls).instructions[i]? = some here →
        (ofCalls calls).instructions[i + 1]? = some next →
          next.offset.toNat = here.offset.toNat + instr.size.toNat) ∧
      (ofCalls calls).instructions.Pairwise fun here later => here.offset < later.offset) ∧
    (ofCalls calls).handlers.map (·.kind) = handled calls ∧
    (∀ before kind after, calls = before ++ .handler kind :: after → ∃ stop : UInt32,
      (ofCalls calls).handlers[(handled before).length]? = some ⟨kind, 0, stop, stop, stop⟩ ∧
      stop.toNat = ((ofCalls calls).instructions[(emitted before).length]?).elim
        (codeSize (emitted calls)) (·.offset.toNat) ∧
      ∀ i instruction, (ofCalls calls).instructions[i]? = some instruction →
        (instruction.offset.toNat < stop.toNat ↔ i < (emitted before).length)) ∧
    (ofCalls calls).handlers.Pairwise fun earlier later =>
      later.tryStart ≤ earlier.tryStart ∧ earlier.tryEnd ≤ later.tryEnd := by
  have hhandlers : (ofCalls calls).handlers = guards 0 calls := (wrote_ofCalls calls).handlers hsize
  refine ⟨⟨?_, fun first hfirst => ?_, fun i instr here next hinstr hhere hnext => ?_,
    pairwise_instructions hsize⟩, ?_, fun before kind after hcalls => ?_, ?_⟩
  · refine List.ext_getElem?_iff.mpr fun i => ?_
    rw [List.getElem?_map, List.getElem?_map, getElem?_instructions, Option.map_map]
    rfl
  · exact UInt64.toNat_inj.mp (offset_instructions hsize hfirst)
  · rw [offset_instructions hsize hnext, offset_instructions hsize hhere, codeSize_take_succ hinstr]
  · rw [hhandlers, map_kind_guards]
  · subst hcalls
    have hstop : (UInt32.ofNat (codeSize (emitted before))).toNat = codeSize (emitted before) :=
      UInt32.toNat_ofNat_of_lt' (Nat.lt_of_le_of_lt (codeSize_emitted_le before _) hsize)
    refine ⟨.ofNat (codeSize (emitted before)), ?_, ?_, fun i instruction hi => ?_⟩
    · rw [hhandlers, getElem?_guards]
    · rw [hstop]
      exact codeSize_before hsize
    · rw [hstop]
      exact offset_lt_codeSize_iff hsize hi
  · rw [hhandlers]
    exact pairwise_guards (by rwa [Nat.zero_add])

namespace Guarded

/-- The type of exceptions. -/
def exception : TypeRef := .external "mscorlib" "System.Exception"

/-- A call of a method, guarded by a handler whose code is guarded again. -/
def sequence : List BodyCall :=
  [.emit (.call (.definition ⟨0x06000001⟩)), .handler (.catch exception), .emit .pop, .emit .ret,
    .handler .finally]

end Guarded

/-- The first handler ends where the instruction behind it stands, the second where the code
ends. -/
theorem ofCalls_aligned_guarded :
    codeSize (emitted Guarded.sequence) < UInt32.size ∧
    (∃ stop : UInt32, (ofCalls Guarded.sequence).handlers[0]? =
      some ⟨.catch Guarded.exception, 0, stop, stop, stop⟩ ∧ stop.toNat = 5) ∧
    ∃ stop : UInt32, (ofCalls Guarded.sequence).handlers[1]? =
      some ⟨.finally, 0, stop, stop, stop⟩ ∧ stop.toNat = 7 := by
  have hsize : codeSize (emitted Guarded.sequence) < UInt32.size := by decide
  obtain ⟨-, -, hguards, -⟩ := ofCalls_aligned Guarded.sequence hsize
  obtain ⟨inner, hinner, hinnerStop⟩ := hguards [_] (.catch Guarded.exception) _ rfl
  obtain ⟨outer, houter, houterStop⟩ := hguards [_, _, _, _] .finally [] rfl
  exact ⟨hsize, ⟨inner, hinner, hinnerStop.1.trans rfl⟩, outer, houter, houterStop.1.trans rfl⟩

end Body

end CilTrim
