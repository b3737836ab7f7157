import CilTrim.Proofs.Blob.Cursor

/-!
# Calls on a reader

A reader is called any number of times, and goes on where the last call left it, also behind a call
that has failed after it had read something:

* `Call`: to look at the next byte, or to read an item;
* `Reader.performAll`, `Cursor.performAll`: calls one after another;
* `Whole`: a read that takes all of its bytes or none;
* `Reader.performAll_stays`, `Cursor.performAll_follows`: what holds of one call holds of many;
* `calls_stay_in_blob`: no call leaves the blob, and none depends on what is behind.
-/

namespace CilTrim.Blob

/-- A call on a reader: to look at the next byte, or to read an item. -/
inductive Call where
  | peek
  | item (shape : Shape)
deriving Repr, DecidableEq

namespace Call

/-- What a call reads. A byte that was looked at is given as an item. -/
def read : Call → Read Item
  | .peek => do pure (.u8 (← Read.peek))
  | .item shape => shape.read

/-- What a call reads with a cursor. -/
def readWith : Call → Cursor.Read Item
  | .peek => do pure (.u8 (← Cursor.peek))
  | .item shape => Cursor.item shape

/-- What comes of a call on bytes that nothing stands in front of. -/
def alone (call : Call) (bytes : List UInt8) : Except Fault Item × Reader :=
  (Reader.ofBytes bytes).perform call.read

/-- A call for one byte, for raw bytes or for a word, and not for parts that are read in turn. -/
def isPlain : Call → Bool
  | .item .compressed | .item .text => false
  | _ => true

end Call

/-- What comes of calls one after another, and the reader that is left behind. -/
def Reader.performAll (r : Reader) : List Call → List (Except Fault Item) × Reader
  | [] => ([], r)
  | call :: calls =>
    let (outcome, next) := r.perform call.read
    let (outcomes, last) := next.performAll calls
    (outcome :: outcomes, last)

namespace Cursor

/-- How many bytes are left. -/
def remaining (c : Cursor) : Nat := c.blob.length - c.position.toNat

/-- The position is before the end. -/
def hasMore (c : Cursor) : Bool := c.position.toNat < c.blob.length

/-- What comes of calls one after another, and the cursor that is left behind. -/
def performAll (c : Cursor) : List Call → Option (List (Except Fault Item) × Cursor)
  | [] => some ([], c)
  | call :: calls => do
    let (outcome, next) ← call.readWith c
    let (outcomes, last) ← next.performAll calls
    some (outcome :: outcomes, last)

end Cursor

variable {α β : Type} {m : Read α} {r : Reader} {c : Cursor}

/-! ## One call -/

theorem Call.tracks (call : Call) (r : Reader) : Tracks call.read call.readWith r := by
  cases call with
  | peek => exact (tracks_peek r).bind fun _ r _ => tracks_pure _ r
  | item shape => exact tracks_item shape r

/-- A read that fails has taken nothing. -/
def Whole (m : Read α) : Prop :=
  ∀ r : Reader, (r.perform m).1.isOk = false → (r.perform m).2 = r

theorem whole_peek : Whole Read.peek := by
  intro r hfault
  rw [Reader.perform_peek] at hfault ⊢
  split at hfault
  · cases hfault
  · rfl

theorem whole_bytes (n : Nat) : Whole (Read.bytes n) := by
  intro r hfault
  rw [Reader.perform_bytes, Reader.taking] at hfault ⊢
  split at hfault
  next => cases hfault
  next hn => rw [if_neg hn]

/-- A read whose result is only converted. -/
theorem Whole.map (h : Whole m) (g : α → β) : Whole (do pure (g (← m))) := by
  intro r hfault
  have hwhole := h r
  cases hm : r.perform m with
  | mk outcome r' =>
    rw [hm] at hwhole
    cases outcome with
    | ok a =>
      rw [Reader.perform_bind_of_ok hm] at hfault
      cases hfault
    | error fault =>
      rw [Reader.perform_bind_of_error hm]
      exact hwhole rfl

theorem whole_word (width : Nat) : Whole (Read.word width) :=
  (whole_bytes width).map Read.ofLittleEndian

theorem Call.whole {call : Call} (h : call.isPlain = true) : Whole call.read := by
  cases call with
  | peek => exact whole_peek.map _
  | item shape =>
    cases shape with
    | compressed | text => cases h
    | raw length => exact (whole_bytes length).map _
    | _ => exact (whole_word _).map _

/-- The same bytes ahead give the same, wherever they stand. -/
theorem Call.perform_eq_moved (call : Call) (r : Reader) :
    r.perform call.read = moved r.position (call.alone r.rest) :=
  (call.tracks (.ofBytes r.rest)).ahead r.position

theorem Reader.IsIn.perform {blob : List UInt8} (h : r.IsIn blob) (call : Call) :
    r.position ≤ (r.perform call.read).2.position ∧ (r.perform call.read).2.IsIn blob := by
  obtain ⟨n, hn, hnext⟩ := (call.tracks r).stays
  rw [hnext]
  exact ⟨Nat.le_add_right _ _, h.skip hn⟩

theorem Reader.IsIn.position_add_remaining {blob : List UInt8} (h : r.IsIn blob) :
    r.position + r.remaining = blob.length := by
  rw [Reader.remaining, h.rest, List.length_drop]
  exact Nat.add_sub_cancel' h.position

theorem Cursor.hasMore_reader (c : Cursor) : c.reader.hasMore = c.hasMore := by
  rw [Bool.eq_iff_iff, Reader.hasMore_iff, c.remaining_reader, hasMore, decide_eq_true_iff]
  exact Nat.sub_pos_iff_lt

/-! ## Calls in turn -/

theorem Reader.performAll_stays (calls : List Call) (r : Reader) :
    ∃ n, n ≤ r.remaining ∧ (r.performAll calls).2 = r.skip n := by
  induction calls generalizing r with
  | nil => exact ⟨0, Nat.zero_le _, rfl⟩
  | cons call calls ih =>
    obtain ⟨n, hn, hnext⟩ := (call.tracks r).stays
    obtain ⟨k, hk, hlast⟩ := ih (r.skip n)
    rw [Reader.remaining_skip] at hk
    refine ⟨n + k, by omega, ?_⟩
    rw [← Reader.skip_skip, ← hlast, ← hnext]
    rfl

/-- A reader that is left behind by calls is in the blob. -/
theorem Reader.isIn_performAll (blob : List UInt8) (calls : List Call) :
    ((Reader.ofBytes blob).performAll calls).2.IsIn blob := by
  obtain ⟨n, hn, hlast⟩ := (Reader.ofBytes blob).performAll_stays calls
  have hstart : (Reader.ofBytes blob).IsIn blob := ⟨Nat.zero_le _, rfl⟩
  rw [hlast]
  exact hstart.skip hn

/-- A cursor goes along with a reader. -/
theorem Cursor.performAll_follows (calls : List Call) (hc : c.Inside) :
    ∃ c', c.performAll calls = some ((c.reader.performAll calls).1, c') ∧ c'.blob = c.blob ∧
      c'.reader = (c.reader.performAll calls).2 ∧ c'.Inside := by
  induction calls generalizing c with
  | nil => exact ⟨c, rfl, rfl, rfl, hc⟩
  | cons call calls ih =>
    obtain ⟨c₁, hcall, hblob, hreader⟩ := (call.tracks c.reader).follows c hc rfl
    obtain ⟨n, hn, hnext⟩ := (call.tracks c.reader).stays
    obtain ⟨c₂, hcalls, hblob₂, hreader₂, hinside⟩ :=
      ih (hc.of_skip hblob hn (hreader.trans hnext))
    rw [hreader] at hcalls hreader₂
    refine ⟨c₂, ?_, hblob₂.trans hblob, hreader₂, hinside⟩
    rw [Cursor.performAll, hcall]
    show (Cursor.performAll c₁ calls >>= _) = _
    rw [hcalls]
    rfl

/-- After any calls on a reader at the start of a blob, of which some may have failed, one more call
moves on and stays in the blob. A call for a single piece that fails does not move. What comes of a
call is what comes of it on the bytes ahead alone, with the places in faults moved by the bytes
behind. A cursor that keeps the whole blob and a machine word does the same, where an end that is no
word counts as one behind the end, and none of its slices is out of range. -/
theorem calls_stay_in_blob (blob : List UInt8) (before : List Call) (call : Call) :
    ∃ outcomes r outcome r',
      (Reader.ofBytes blob).performAll before = (outcomes, r) ∧
      r.perform call.read = (outcome, r') ∧
      r.position ≤ r'.position ∧
      (∀ s ∈ [r, r'], s.position ≤ blob.length ∧ s.rest = blob.drop s.position ∧
        s.position + s.remaining = blob.length ∧ (s.hasMore = true ↔ 0 < s.remaining)) ∧
      (call.isPlain = true → outcome.isOk = false → r' = r) ∧
      (∀ other : Reader, other.rest = r.rest →
        other.perform call.read = moved other.position (call.alone r.rest)) ∧
      (∀ other : Cursor, other.Inside → other.blob.drop other.position.toNat = r.rest → ∃ other',
        call.readWith other = some ((moved other.position.toNat (call.alone r.rest)).1, other') ∧
          other'.blob = other.blob ∧
          other'.reader = (moved other.position.toNat (call.alone r.rest)).2) ∧
      ∀ fits : blob.length < UInt64.size, ∃ c c',
        (Cursor.start blob fits).performAll before = some (outcomes, c) ∧
        call.readWith c = some (outcome, c') ∧
        c.blob = blob ∧ c'.blob = blob ∧ c.reader = r ∧ c'.reader = r' ∧
        c'.remaining = r'.remaining ∧ c'.hasMore = r'.hasMore := by
  have hr : ((Reader.ofBytes blob).performAll before).2.IsIn blob :=
    Reader.isIn_performAll blob before
  obtain ⟨hforward, hr'⟩ := hr.perform call
  have hplace (s : Reader) (hs : s.IsIn blob) : s.position ≤ blob.length ∧
      s.rest = blob.drop s.position ∧ s.position + s.remaining = blob.length ∧
      (s.hasMore = true ↔ 0 < s.remaining) :=
    ⟨hs.position, hs.rest, hs.position_add_remaining, Reader.hasMore_iff⟩
  refine ⟨_, _, _, _, rfl, rfl, hforward,
    List.forall_mem_cons.mpr ⟨hplace _ hr, List.forall_mem_singleton.mpr (hplace _ hr')⟩,
    fun hplain hfault => ?_, fun other hrest => ?_, fun other hother hrest => ?_, fun fits => ?_⟩
  · exact Call.whole hplain _ hfault
  · rw [← hrest]
    exact call.perform_eq_moved other
  · obtain ⟨other', hcall, hblob, hreader⟩ := (call.tracks other.reader).follows other hother rfl
    rw [call.perform_eq_moved other.reader] at hcall hreader
    rw [← hrest]
    exact ⟨other', hcall, hblob, hreader⟩
  · have hstart : (Cursor.start blob fits).Inside := Nat.zero_le _
    obtain ⟨c, hbefore, hblob, hreader, hc⟩ := Cursor.performAll_follows before hstart
    obtain ⟨c', hcall, hblob', hreader'⟩ := (call.tracks c.reader).follows c hc rfl
    rw [hreader] at hcall hreader'
    refine ⟨c, c', hbefore, hcall, hblob, hblob'.trans hblob, hreader, hreader', ?_, ?_⟩
    · exact (Cursor.remaining_reader c').symm.trans (congrArg Reader.remaining hreader')
    · exact c'.hasMore_reader.symm.trans (congrArg Reader.hasMore hreader')

namespace Short

/-- A text of four bytes, of which two are there. -/
def blob : List UInt8 := [4, 0x61, 0x62]

theorem fits : blob.length < UInt64.size := by decide

end Short

/-- The text fails behind its length, and the most bytes that can be asked for from there on, whose
end is no word, fail without a move. -/
theorem calls_stay_in_blob_short : ∃ c c' : Cursor,
    (Cursor.start Short.blob Short.fits).performAll [.item .text] =
      some ([.error (.tooShort 4 1 3)], c) ∧
    (Call.item (.raw 0xffffffffffffffff)).readWith c =
      some (.error (.tooShort 0xffffffffffffffff 1 3), c') ∧
    c.reader = ⟨1, [0x61, 0x62]⟩ ∧ c'.reader = c.reader := by
  have hbefore : (Reader.ofBytes Short.blob).performAll [.item .text] =
      ([.error (.tooShort 4 1 3)], ⟨1, [0x61, 0x62]⟩) := by rfl
  have hcall : Reader.perform ⟨1, [0x61, 0x62]⟩ (Call.item (.raw 0xffffffffffffffff)).read =
      (.error (.tooShort 0xffffffffffffffff 1 3), ⟨1, [0x61, 0x62]⟩) := by rfl
  obtain ⟨outcomes, r, outcome, r', hrun, hlast, -, -, hwhole, -, -, hcursor⟩ :=
    calls_stay_in_blob Short.blob [.item .text] (.item (.raw 0xffffffffffffffff))
  rw [hbefore] at hrun
  cases hrun
  rw [hcall] at hlast
  cases hlast
  obtain ⟨c, c', hc, hc', -, -, hreader, hreader', -⟩ := hcursor Short.fits
  exact ⟨c, c', hc, hc', hreader, (hreader'.trans (hwhole rfl rfl)).trans hreader.symm⟩

end CilTrim.Blob
