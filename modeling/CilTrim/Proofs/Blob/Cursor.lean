import CilTrim.Blob.Writer
import CilTrim.Proofs.Blob.Costs
import CilTrim.Proofs.Run

/-!
# Reading with a cursor

A cursor keeps a whole blob and a position in it, which is a machine word. It reads slices of the
blob, whose ends are sums of words, and it is undefined where a slice is out of range or where a
position wraps around:

* `Reader.perform`: the outcome of a read and the reader that is left behind, also by a fault;
* `Fault.moved`, `Reader.moved`: the same some bytes further on;
* `Reader.taking`: the outcome of taking so many bytes, all or none;
* `Cursor`, `Cursor.reader`: cursors, and the readers that they stand for;
* `Cursor.peek`, `Cursor.bytes`, …, `Cursor.item`: reads with a cursor;
* `Tracks`: a read stays in the blob and looks only at the bytes ahead, and a cursor does the same;
* `tracks_bytes`, `tracks_compressed`, `tracks_serString`, `tracks_item`: all reads of a blob.
-/

namespace CilTrim.Blob

variable {α β : Type}

/-! ## Outcomes -/

/-- What comes of a read: a value or a fault, and the reader that is left behind. -/
def Reader.perform (r : Reader) (m : Read α) : Except Fault α × Reader :=
  match m r with
  | .ok a r' => (.ok a, r')
  | .error fault r' => (.error fault, r')

/-- A fault, as it is told where everything stands `n` bytes further on. -/
def Fault.moved (n : Nat) : Fault → Fault
  | .endOfBlob position => .endOfBlob (n + position)
  | .tooShort wanted position size => .tooShort wanted (n + position) (n + size)
  | .badText start cause => .badText (n + start) cause
  | .badCompressed first => .badCompressed first
  | .tooLarge value => .tooLarge value
  | .longText size => .longText size

/-- A reader with `n` more bytes in front of it. -/
def Reader.moved (n : Nat) (r : Reader) : Reader :=
  ⟨n + r.position, r.rest⟩

/-- What comes of a read where everything stands `n` bytes further on. -/
def moved (n : Nat) (result : Except Fault α × Reader) : Except Fault α × Reader :=
  (result.1.mapError (Fault.moved n), result.2.moved n)

/-- What comes of taking `n` bytes, of which `g` tells what they are from where they begin. -/
def Reader.taking (r : Reader) (n : Nat) (g : Nat → List UInt8 → Except Fault α) :
    Except Fault α × Reader :=
  if n ≤ r.remaining then (g r.position (r.rest.take n), r.skip n)
  else (.error (.tooShort n r.position r.size), r)

namespace Reader

variable {r r' : Reader} {m : Read α} {f : α → Read β}

theorem perform_eq_ok_iff {a : α} : r.perform m = (.ok a, r') ↔ m r = .ok a r' := by
  unfold perform
  cases m r <;> simp

theorem perform_eq_error_iff {fault : Fault} :
    r.perform m = (.error fault, r') ↔ m r = .error fault r' := by
  unfold perform
  cases m r <;> simp

theorem perform_bind_of_ok {a : α} (h : r.perform m = (.ok a, r')) :
    r.perform (m >>= f) = r'.perform (f a) := by
  rw [perform, bind_eq_of_ok (perform_eq_ok_iff.mp h), perform]

theorem perform_bind_of_error {fault : Fault} (h : r.perform m = (.error fault, r')) :
    r.perform (m >>= f) = (.error fault, r') :=
  perform_eq_error_iff.mpr (bind_eq_error (perform_eq_error_iff.mp h))

theorem moved_skip (k n : Nat) (r : Reader) : (r.moved k).skip n = (r.skip n).moved k := by
  rw [skip, moved, skip, moved, Nat.add_assoc]

theorem size_moved (k : Nat) (r : Reader) : (r.moved k).size = k + r.size := by
  rw [size, moved, size, Nat.add_assoc]

theorem perform_bytes (r : Reader) (n : Nat) :
    r.perform (Read.bytes n) = r.taking n fun _ bytes => .ok bytes := by
  have htake : (r.rest.take n).length = n ↔ n ≤ r.remaining := by
    rw [List.length_take, Reader.remaining]
    omega
  unfold perform taking
  by_cases hn : n ≤ r.remaining
  · rw [Read.bytes, get_bind_apply, if_pos (htake.mpr hn), if_pos hn]
    rfl
  · rw [Read.bytes, get_bind_apply, if_neg (mt htake.mp hn), if_neg hn]
    rfl

variable {n : Nat} {g : Nat → List UInt8 → Except Fault α}

theorem taking_stays (r : Reader) : ∃ k, k ≤ r.remaining ∧ (r.taking n g).2 = r.skip k := by
  unfold taking
  split
  next hn => exact ⟨n, hn, rfl⟩
  next => exact ⟨0, Nat.zero_le _, rfl⟩

/-- Taking bytes looks only ahead if what they are is told by place. -/
theorem taking_moved {k : Nat}
    (hg : ∀ start bytes, g (k + start) bytes = (g start bytes).mapError (Fault.moved k))
    (r : Reader) : (r.moved k).taking n g = Blob.moved k (r.taking n g) := by
  unfold taking
  show (if n ≤ r.remaining then _ else _) = _
  split
  · show (g (k + r.position) _, (r.moved k).skip n) = _
    rw [hg, moved_skip]
    rfl
  · show (Except.error (Fault.tooShort n (k + r.position) _), _) = _
    rw [size_moved]
    rfl

end Reader

/-! ## Cursors -/

/-- A blob whose size is a machine word, and a position. -/
structure Cursor where
  blob : List UInt8
  fits : blob.length < UInt64.size
  position : UInt64

namespace Cursor

/-- Reads with a cursor, undefined where a slice is out of range or a position wraps around. -/
abbrev Read := Run Fault Cursor

/-- A cursor at the start of a blob. -/
def start (blob : List UInt8) (fits : blob.length < UInt64.size) : Cursor :=
  ⟨blob, fits, 0⟩

/-- A position that is at most the end. -/
def Inside (c : Cursor) : Prop :=
  c.position.toNat ≤ c.blob.length

/-- The reader at the position of a cursor. -/
def reader (c : Cursor) : Reader :=
  ⟨c.position.toNat, c.blob.drop c.position.toNat⟩

/-- The word that is `n` more, unless it wraps around. -/
def checkedAdd (position : UInt64) (n : Nat) : Option UInt64 :=
  if position.toNat + n < UInt64.size then some (position + .ofNat n) else none

/-- The bytes from one position to another, if they are in order and not behind the end. -/
def slice? (blob : List UInt8) (first last : UInt64) : Option (List UInt8) :=
  if first ≤ last ∧ last.toNat ≤ blob.length then some (blob.extract first.toNat last.toNat)
  else none

/-- The next byte, which is not consumed. -/
def peek : Cursor.Read UInt8 := fun c =>
  match c.blob[c.position.toNat]? with
  | some b => some (.ok b, c)
  | none => some (.error (.endOfBlob c.position.toNat), c)

/-- Passes a byte. -/
def pass : Cursor.Read PUnit := fun c =>
  (checkedAdd c.position 1).map fun position => (.ok ⟨⟩, { c with position })

/-- The next `n` bytes, if the position behind them is a word and not behind the end. -/
def bytes (n : Nat) : Cursor.Read (List UInt8) := fun c =>
  match (checkedAdd c.position n).filter (·.toNat ≤ c.blob.length) with
  | some position =>
    (slice? c.blob c.position position).map fun taken => (.ok taken, { c with position })
  | none => some (.error (.tooShort n c.position.toNat c.blob.length), c)

/-- An unsigned word of `width` bytes, least significant byte first. -/
def word (width : Nat) : Cursor.Read Nat := do
  pure (Read.ofLittleEndian (← bytes width))

/-- A byte. -/
def byte : Cursor.Read UInt8 := do
  pure (UInt8.ofNat (← word 1))

/-- An unsigned integer in one, two or four bytes, as the high bits of the first byte say. -/
def compressed : Cursor.Read Nat := do
  let first ← byte
  if first < 0x80 then pure first.toNat
  else if first < 0xc0 then
    let second ← byte
    pure ((first.toNat - 0x80) * 0x100 + second.toNat)
  else if first < 0xe0 then
    let second ← byte
    let third ← byte
    let fourth ← byte
    pure ((first.toNat - 0xc0) * 0x1000000 + second.toNat * 0x10000 + third.toNat * 0x100 +
      fourth.toNat)
  else throw (.badCompressed first)

/-- The position. -/
def place : Cursor.Read Nat := fun c =>
  some (.ok c.position.toNat, c)

/-- A text of so many bytes. -/
def text (length : Nat) : Cursor.Read (Option String) := do
  let start ← place
  match Text.Utf8.decode (← bytes length) with
  | .ok s => pure (some s)
  | .error cause => throw (.badText start cause)

/-- A text behind its length in bytes, or no text, which the byte `0xff` stands for. -/
def serString : Cursor.Read (Option String) := do
  if (← peek) = 0xff then
    pass
    pure none
  else
    let length ← compressed
    text length

/-- An item of a kind. -/
def item : Shape → Cursor.Read Item
  | .u8 => do pure (.u8 (UInt8.ofNat (← word 1)))
  | .i8 => do pure (.i8 (UInt8.ofNat (← word 1)).toInt8)
  | .u16 => do pure (.u16 (UInt16.ofNat (← word 2)))
  | .i16 => do pure (.i16 (UInt16.ofNat (← word 2)).toInt16)
  | .u32 => do pure (.u32 (UInt32.ofNat (← word 4)))
  | .i32 => do pure (.i32 (UInt32.ofNat (← word 4)).toInt32)
  | .u64 => do pure (.u64 (UInt64.ofNat (← word 8)))
  | .i64 => do pure (.i64 (UInt64.ofNat (← word 8)).toInt64)
  | .f32 => do pure (.f32 (UInt32.ofNat (← word 4)))
  | .f64 => do pure (.f64 (UInt64.ofNat (← word 8)))
  | .compressed => do pure (.compressed (UInt32.ofNat (← compressed)))
  | .text => do pure (.text (← serString))
  | .raw length => do pure (.raw (← bytes length))

end Cursor

/-! ## Tracking -/

/-- Whatever comes of a read at a place, the reader that is left behind is some bytes ahead, and
these are there. The read looks only at the bytes ahead: with more bytes in front, the same comes of
it, only further on. A cursor at the place, which is not behind the end, can do the same. -/
structure Tracks (m : Read α) (run : Cursor.Read α) (r : Reader) : Prop where
  stays : ∃ n, n ≤ r.remaining ∧ (r.perform m).2 = r.skip n
  ahead (n : Nat) : (r.moved n).perform m = moved n (r.perform m)
  follows (c : Cursor) : c.Inside → c.reader = r → ∃ c',
    run c = some ((r.perform m).1, c') ∧ c'.blob = c.blob ∧ c'.reader = (r.perform m).2

variable {m : Read α} {run : Cursor.Read α} {f : α → Read β} {next : α → Cursor.Read β}
  {r : Reader} {c : Cursor} {n : Nat}

namespace Cursor

theorem remaining_reader (c : Cursor) : c.reader.remaining = c.blob.length - c.position.toNat :=
  List.length_drop

theorem Inside.size_reader (h : c.Inside) : c.reader.size = c.blob.length := by
  show c.position.toNat + c.reader.remaining = _
  rw [remaining_reader]
  exact Nat.add_sub_cancel' h

/-- A cursor at a reader ahead is not behind the end. -/
theorem Inside.of_skip {c' : Cursor} (h : c.Inside) (hblob : c'.blob = c.blob)
    (hn : n ≤ c.reader.remaining) (hreader : c'.reader = c.reader.skip n) : c'.Inside := by
  have hposition : c'.position.toNat = c.position.toNat + n := congrArg Reader.position hreader
  rw [remaining_reader] at hn
  unfold Inside at *
  rw [hposition, hblob]
  omega

/-- A position that is not behind the end is a word. -/
theorem checkedAdd_inside (hc : c.Inside) (hn : n ≤ c.reader.remaining) :
    ∃ position, checkedAdd c.position n = some position ∧
      position.toNat = c.position.toNat + n ∧ position.toNat ≤ c.blob.length := by
  have hfits := c.fits
  rw [remaining_reader] at hn
  unfold Inside at hc
  have hword : c.position.toNat + n < UInt64.size := by omega
  have hposition : (c.position + .ofNat n).toNat = c.position.toNat + n := by
    rw [UInt64.toNat_add, UInt64.toNat_ofNat_of_lt' (by omega)]
    exact Nat.mod_eq_of_lt hword
  refine ⟨c.position + .ofNat n, ?_, hposition, by omega⟩
  rw [checkedAdd, if_pos hword]

/-- A position behind the end is found out, whether it is a word or not. -/
theorem checkedAdd_outside (hc : c.Inside) (hn : ¬ n ≤ c.reader.remaining) :
    (checkedAdd c.position n).filter (·.toNat ≤ c.blob.length) = none := by
  rw [remaining_reader] at hn
  unfold Inside at hc
  unfold checkedAdd
  split
  next hword =>
    rw [Option.filter_some, if_neg]
    rw [decide_eq_true_iff, UInt64.toNat_add, UInt64.toNat_ofNat_of_lt' (by omega),
      Nat.mod_eq_of_lt hword]
    omega
  next => rfl

/-- The reader of a cursor that has gone on. -/
theorem reader_skip {position : UInt64} (hposition : position.toNat = c.position.toNat + n) :
    Cursor.reader { c with position } = c.reader.skip n := by
  show Reader.mk position.toNat (c.blob.drop position.toNat) = _
  rw [hposition, reader, Reader.skip, List.drop_drop]

theorem pass_inside (hc : c.Inside) (hn : 1 ≤ c.reader.remaining) :
    ∃ c', pass c = some (.ok ⟨⟩, c') ∧ c'.blob = c.blob ∧ c'.reader = c.reader.skip 1 := by
  obtain ⟨position, hadd, hposition, -⟩ := checkedAdd_inside hc hn
  refine ⟨{ c with position }, ?_, rfl, reader_skip hposition⟩
  rw [pass, hadd]
  rfl

theorem bytes_inside (hc : c.Inside) (hn : n ≤ c.reader.remaining) :
    ∃ c', bytes n c = some (.ok (c.reader.rest.take n), c') ∧ c'.blob = c.blob ∧
      c'.reader = c.reader.skip n := by
  obtain ⟨position, hadd, hposition, hlast⟩ := checkedAdd_inside hc hn
  have hslice : slice? c.blob c.position position = some (c.reader.rest.take n) := by
    have hfirst : c.position ≤ position := UInt64.le_iff_toNat_le.mpr (by omega)
    rw [slice?, if_pos ⟨hfirst, hlast⟩, List.extract_eq_take_drop, hposition,
      Nat.add_sub_cancel_left]
    rfl
  refine ⟨{ c with position }, ?_, rfl, reader_skip hposition⟩
  rw [bytes, hadd, Option.filter_some, if_pos (decide_eq_true hlast)]
  show (slice? _ _ _).map _ = _
  rw [hslice]
  rfl

theorem bytes_outside (hc : c.Inside) (hn : ¬ n ≤ c.reader.remaining) :
    bytes n c = some (.error (.tooShort n c.reader.position c.reader.size), c) := by
  rw [bytes, checkedAdd_outside hc hn, hc.size_reader]
  rfl

theorem peek_eq (c : Cursor) :
    peek c =
      match c.reader.rest with
      | b :: _ => some (.ok b, c)
      | [] => some (.error (.endOfBlob c.reader.position), c) := by
  have hhead : c.blob[c.position.toNat]? = c.reader.rest.head? := List.head?_drop.symm
  rw [peek, hhead]
  cases c.reader.rest <;> rfl

end Cursor

/-! ## Composed reads -/

theorem tracks_pure (a : α) (r : Reader) : Tracks (pure a) (pure a) r where
  stays := ⟨0, Nat.zero_le _, rfl⟩
  ahead _ := rfl
  follows c _ hr := ⟨c, rfl, rfl, hr⟩

/-- A fault that names no place. -/
theorem tracks_throw {fault : Fault} (h : ∀ n, fault.moved n = fault) (r : Reader) :
    Tracks (throw fault : Read α) (throw fault) r where
  stays := ⟨0, Nat.zero_le _, rfl⟩
  ahead n := by
    show (Except.error fault, r.moved n) = (Except.error (fault.moved n), r.moved n)
    rw [h]
  follows c _ hr := ⟨c, rfl, rfl, hr⟩

/-- What is read next starts where the first read ended. -/
theorem Tracks.bind (h : Tracks m run r)
    (h' : ∀ a r', r.perform m = (.ok a, r') → Tracks (f a) (next a) r') :
    Tracks (m >>= f) (run >>= next) r := by
  obtain ⟨n, hn, hr⟩ := h.stays
  cases hm : r.perform m with
  | mk outcome r₁ =>
    rw [hm] at hr
    subst hr
    cases outcome with
    | error fault =>
      have hperform : r.perform (m >>= f) = (.error fault, r.skip n) :=
        Reader.perform_bind_of_error hm
      refine ⟨⟨n, hn, by rw [hperform]⟩, fun k => ?_, fun c hc hreader => ?_⟩
      · rw [hperform]
        exact Reader.perform_bind_of_error ((h.ahead k).trans (congrArg (moved k) hm))
      · obtain ⟨c', hrun, hblob, hreader'⟩ := h.follows c hc hreader
        rw [hm] at hrun hreader'
        rw [hperform]
        exact ⟨c', Run.bind_of_error hrun, hblob, hreader'⟩
    | ok a =>
      have hnext := h' a (r.skip n) hm
      have hperform : r.perform (m >>= f) = (r.skip n).perform (f a) :=
        Reader.perform_bind_of_ok hm
      refine ⟨?_, fun k => ?_, fun c hc hreader => ?_⟩
      · obtain ⟨j, hj, hr'⟩ := hnext.stays
        rw [Reader.remaining_skip] at hj
        rw [hperform]
        exact ⟨n + j, by omega, hr'.trans (Reader.skip_skip r n j)⟩
      · rw [hperform, ← hnext.ahead k]
        exact Reader.perform_bind_of_ok ((h.ahead k).trans (congrArg (moved k) hm))
      · obtain ⟨c₁, hrun, hblob, hreader₁⟩ := h.follows c hc hreader
        subst hreader
        rw [hm] at hrun hreader₁
        obtain ⟨c₂, hrun₂, hblob₂, hreader₂⟩ :=
          hnext.follows c₁ (hc.of_skip hblob hn hreader₁) hreader₁
        rw [hperform, Run.bind_of_ok hrun]
        exact ⟨c₂, hrun₂, hblob₂.trans hblob, hreader₂⟩

/-! ## Bytes and words -/

theorem Reader.perform_peek (r : Reader) :
    r.perform Read.peek =
      match r.rest with
      | b :: _ => (.ok b, r)
      | [] => (.error (.endOfBlob r.position), r) := by
  obtain ⟨position, rest⟩ := r
  cases rest <;> rfl

theorem tracks_peek (r : Reader) : Tracks Read.peek Cursor.peek r where
  stays := by
    refine ⟨0, Nat.zero_le _, ?_⟩
    rw [Reader.perform_peek]
    split <;> rfl
  ahead n := by
    rw [Reader.perform_peek, Reader.perform_peek]
    show (match r.rest with | b :: _ => _ | [] => _) = _
    split <;> rfl
  follows c _ hr := by
    subst hr
    rw [Reader.perform_peek, Cursor.peek_eq]
    split
    · exact ⟨c, rfl, rfl, rfl⟩
    · exact ⟨c, rfl, rfl, rfl⟩

theorem tracks_bytes (n : Nat) (r : Reader) : Tracks (Read.bytes n) (Cursor.bytes n) r where
  stays := by
    rw [Reader.perform_bytes]
    exact r.taking_stays
  ahead k := by
    rw [Reader.perform_bytes, Reader.perform_bytes]
    exact r.taking_moved fun _ _ => rfl
  follows c hc hr := by
    subst hr
    rw [Reader.perform_bytes, Reader.taking]
    split
    next hn => exact Cursor.bytes_inside hc hn
    next hn => exact ⟨c, Cursor.bytes_outside hc hn, rfl, rfl⟩

theorem tracks_word (width : Nat) (r : Reader) :
    Tracks (Read.word width) (Cursor.word width) r :=
  (tracks_bytes width r).bind fun _ r' _ => tracks_pure _ r'

theorem tracks_byte (r : Reader) : Tracks Read.byte Cursor.byte r :=
  (tracks_word 1 r).bind fun _ r' _ => tracks_pure _ r'

/-- A byte that is there is passed. -/
theorem tracks_pass (hr : 1 ≤ r.remaining) : Tracks (modify (·.skip 1)) Cursor.pass r where
  stays := ⟨1, hr, rfl⟩
  ahead k := congrArg (Except.ok PUnit.unit, ·) (Reader.moved_skip k 1 r)
  follows c hc hreader := by
    subst hreader
    exact Cursor.pass_inside hc hr

/-! ## Numbers and texts -/

theorem tracks_compressed (r : Reader) : Tracks Read.compressed Cursor.compressed r := by
  refine (tracks_byte r).bind fun first r _ => ?_
  split
  · exact tracks_pure _ r
  · split
    · exact (tracks_byte r).bind fun second r _ => tracks_pure _ r
    · split
      · exact (tracks_byte r).bind fun second r _ => (tracks_byte r).bind fun third r _ =>
          (tracks_byte r).bind fun fourth r _ => tracks_pure _ r
      · exact tracks_throw (fun _ => rfl) r

/-- A text of so many bytes. -/
def Read.text (length : Nat) : Read (Option String) := do
  let start := (← get).position
  match Text.Utf8.decode (← Read.bytes length) with
  | .ok s => pure (some s)
  | .error cause => throw (.badText start cause)

/-- What bytes that begin at `start` are as a text. -/
def textAt (start : Nat) (bytes : List UInt8) : Except Fault (Option String) :=
  match Text.Utf8.decode bytes with
  | .ok s => .ok (some s)
  | .error cause => .error (.badText start cause)

theorem textAt_moved (k start : Nat) (bytes : List UInt8) :
    textAt (k + start) bytes = (textAt start bytes).mapError (Fault.moved k) := by
  unfold textAt
  cases Text.Utf8.decode bytes <;> rfl

theorem Reader.perform_text (r : Reader) (length : Nat) :
    r.perform (Read.text length) = r.taking length textAt := by
  have hbytes := r.perform_bytes length
  have hget : r.perform (Read.text length) = r.perform (Read.bytes length >>= fun bytes =>
      match Text.Utf8.decode bytes with
      | .ok s => pure (some s)
      | .error cause => throw (.badText r.position cause)) := rfl
  unfold taking at hbytes ⊢
  split
  next hlength =>
    rw [if_pos hlength] at hbytes
    rw [hget, perform_bind_of_ok hbytes, textAt]
    cases Text.Utf8.decode (r.rest.take length) <;> rfl
  next hlength =>
    rw [if_neg hlength] at hbytes
    rw [hget, perform_bind_of_error hbytes]

theorem tracks_text (length : Nat) (r : Reader) :
    Tracks (Read.text length) (Cursor.text length) r where
  stays := by
    rw [Reader.perform_text]
    exact r.taking_stays
  ahead k := by
    rw [Reader.perform_text, Reader.perform_text]
    exact r.taking_moved (textAt_moved k)
  follows c hc hr := by
    subst hr
    rw [Reader.perform_text, Reader.taking]
    have hplace : Cursor.place c = some (.ok c.reader.position, c) := rfl
    split
    next hlength =>
      obtain ⟨c', hbytes, hblob, hreader⟩ := Cursor.bytes_inside hc hlength
      refine ⟨c', ?_, hblob, hreader⟩
      rw [Cursor.text, Run.bind_of_ok hplace, Run.bind_of_ok hbytes, textAt]
      cases Text.Utf8.decode (c.reader.rest.take length) <;> rfl
    next hlength =>
      refine ⟨c, ?_, rfl, rfl⟩
      rw [Cursor.text, Run.bind_of_ok hplace, Run.bind_of_error (Cursor.bytes_outside hc hlength)]

theorem tracks_serString (r : Reader) : Tracks Read.serString Cursor.serString r := by
  refine (tracks_peek r).bind fun first r' hpeek => ?_
  split
  · obtain ⟨rfl, hr⟩ := peek_eq_ok (Reader.perform_eq_ok_iff.mp hpeek)
    exact (tracks_pass hr).bind fun _ r _ => tracks_pure none r
  · exact (tracks_compressed r').bind fun length r _ => tracks_text length r

theorem tracks_item (shape : Shape) (r : Reader) : Tracks shape.read (Cursor.item shape) r := by
  cases shape with
  | compressed => exact (tracks_compressed r).bind fun _ r _ => tracks_pure _ r
  | text => exact (tracks_serString r).bind fun _ r _ => tracks_pure _ r
  | raw length => exact (tracks_bytes length r).bind fun _ r _ => tracks_pure _ r
  | _ => exact (tracks_word _ r).bind fun _ r _ => tracks_pure _ r

end CilTrim.Blob
