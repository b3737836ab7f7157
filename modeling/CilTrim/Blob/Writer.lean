import CilTrim.Blob.Reader

/-!
# Writing blobs

The bytes that stand for a value, and a buffer to which they are added:

* `littleEndian`, `compressedBytes?`, `serStringBytes?`: the bytes of words, compressed integers and
  texts;
* `Item`: one value of any kind that a blob can hold, with `Item.encode`;
* `Shape`: the kind of a value, with `Shape.read`, which reads what `Item.encode` writes;
* `Write`: writes, which add bytes to a buffer one step after another and stop at the first fault;
* `append`: adds an item to a buffer.
-/

namespace CilTrim.Blob

/-- The lowest `width` bytes of a number, least significant first. -/
def littleEndian : Nat → Nat → List UInt8
  | 0, _ => []
  | width + 1, n => UInt8.ofNat (n % 256) :: littleEndian width (n / 256)

/-- The least number that has no compressed form. -/
def compressedLimit : Nat := 0x20000000

/-- The compressed form of a number. -/
def compressedBytes? (n : Nat) : Except Fault (List UInt8) :=
  if n < 0x80 then .ok [UInt8.ofNat n]
  else if n < 0x4000 then .ok [UInt8.ofNat (0x80 + n / 0x100), UInt8.ofNat (n % 0x100)]
  else if n < compressedLimit then
    .ok [UInt8.ofNat (0xc0 + n / 0x1000000), UInt8.ofNat (n / 0x10000 % 0x100),
      UInt8.ofNat (n / 0x100 % 0x100), UInt8.ofNat (n % 0x100)]
  else .error (.tooLarge n)

/-- A text behind its length, or the mark for no text. -/
def serStringBytes? : Option String → Except Fault (List UInt8)
  | none => .ok [0xff]
  | some s =>
    let bytes := Text.Utf8.encode s
    if bytes.length < UInt32.size then do
      let length ← compressedBytes? bytes.length
      pure (length ++ bytes)
    else .error (.longText bytes.length)

/-- One value in a blob. Floating-point numbers are held by their bits. -/
inductive Item where
  | u8 (value : UInt8)
  | i8 (value : Int8)
  | u16 (value : UInt16)
  | i16 (value : Int16)
  | u32 (value : UInt32)
  | i32 (value : Int32)
  | u64 (value : UInt64)
  | i64 (value : Int64)
  | f32 (bits : UInt32)
  | f64 (bits : UInt64)
  | compressed (value : UInt32)
  | text (value : Option String)
  | raw (value : List UInt8)
deriving Repr, DecidableEq

/-- The bytes of an item. -/
def Item.encode : Item → Except Fault (List UInt8)
  | .u8 v => .ok (littleEndian 1 v.toNat)
  | .i8 v => .ok (littleEndian 1 v.toUInt8.toNat)
  | .u16 v => .ok (littleEndian 2 v.toNat)
  | .i16 v => .ok (littleEndian 2 v.toUInt16.toNat)
  | .u32 v => .ok (littleEndian 4 v.toNat)
  | .i32 v => .ok (littleEndian 4 v.toUInt32.toNat)
  | .u64 v => .ok (littleEndian 8 v.toNat)
  | .i64 v => .ok (littleEndian 8 v.toUInt64.toNat)
  | .f32 bits => .ok (littleEndian 4 bits.toNat)
  | .f64 bits => .ok (littleEndian 8 bits.toNat)
  | .compressed v => compressedBytes? v.toNat
  | .text s => serStringBytes? s
  | .raw bytes => .ok bytes

/-- The kind of an item, which says how it is read. -/
inductive Shape where
  | u8
  | i8
  | u16
  | i16
  | u32
  | i32
  | u64
  | i64
  | f32
  | f64
  | compressed
  | text
  | raw (length : Nat)
deriving Repr, DecidableEq

/-- The kind of an item. -/
def Item.shape : Item → Shape
  | .u8 _ => .u8
  | .i8 _ => .i8
  | .u16 _ => .u16
  | .i16 _ => .i16
  | .u32 _ => .u32
  | .i32 _ => .i32
  | .u64 _ => .u64
  | .i64 _ => .i64
  | .f32 _ => .f32
  | .f64 _ => .f64
  | .compressed _ => .compressed
  | .text _ => .text
  | .raw bytes => .raw bytes.length

/-- Reads an item of a kind. -/
def Shape.read : Shape → Read Item
  | .u8 => do pure (.u8 (UInt8.ofNat (← Read.word 1)))
  | .i8 => do pure (.i8 (UInt8.ofNat (← Read.word 1)).toInt8)
  | .u16 => do pure (.u16 (UInt16.ofNat (← Read.word 2)))
  | .i16 => do pure (.i16 (UInt16.ofNat (← Read.word 2)).toInt16)
  | .u32 => do pure (.u32 (UInt32.ofNat (← Read.word 4)))
  | .i32 => do pure (.i32 (UInt32.ofNat (← Read.word 4)).toInt32)
  | .u64 => do pure (.u64 (UInt64.ofNat (← Read.word 8)))
  | .i64 => do pure (.i64 (UInt64.ofNat (← Read.word 8)).toInt64)
  | .f32 => do pure (.f32 (UInt32.ofNat (← Read.word 4)))
  | .f64 => do pure (.f64 (UInt64.ofNat (← Read.word 8)))
  | .compressed => do pure (.compressed (UInt32.ofNat (← Read.compressed)))
  | .text => do pure (.text (← Read.serString))
  | .raw length => do pure (.raw (← Read.bytes length))

/-- Writes: a fault or nothing, and the buffer that is left behind. -/
abbrev Write := EStateM Fault (List UInt8)

namespace Write

/-- Adds bytes. -/
def bytes (added : List UInt8) : Write PUnit := modify (· ++ added)

/-- Adds a byte. -/
def byte (b : UInt8) : Write PUnit := bytes [b]

/-- Adds an unsigned word of `width` bytes, least significant byte first. -/
def word (width n : Nat) : Write PUnit := bytes (littleEndian width n)

/-- Adds an unsigned integer in one, two or four bytes. -/
def compressed (n : Nat) : Write PUnit :=
  if n < 0x80 then byte (UInt8.ofNat n)
  else if n < 0x4000 then do
    byte (UInt8.ofNat (0x80 + n / 0x100))
    byte (UInt8.ofNat (n % 0x100))
  else if n < compressedLimit then do
    byte (UInt8.ofNat (0xc0 + n / 0x1000000))
    byte (UInt8.ofNat (n / 0x10000 % 0x100))
    byte (UInt8.ofNat (n / 0x100 % 0x100))
    byte (UInt8.ofNat (n % 0x100))
  else throw (.tooLarge n)

/-- Adds a text behind its length, or the mark for no text. -/
def serString : Option String → Write PUnit
  | none => byte 0xff
  | some s => do
    let text := Text.Utf8.encode s
    if UInt32.size ≤ text.length then throw (.longText text.length)
    compressed text.length
    bytes text

end Write

/-- Adds an item. -/
def Item.write : Item → Write PUnit
  | .u8 v => Write.word 1 v.toNat
  | .i8 v => Write.word 1 v.toUInt8.toNat
  | .u16 v => Write.word 2 v.toNat
  | .i16 v => Write.word 2 v.toUInt16.toNat
  | .u32 v => Write.word 4 v.toNat
  | .i32 v => Write.word 4 v.toUInt32.toNat
  | .u64 v => Write.word 8 v.toNat
  | .i64 v => Write.word 8 v.toUInt64.toNat
  | .f32 bits => Write.word 4 bits.toNat
  | .f64 bits => Write.word 8 bits.toNat
  | .compressed v => Write.compressed v.toNat
  | .text s => Write.serString s
  | .raw added => Write.bytes added

/-- A buffer behind the write of an item, and the fault if the write failed. -/
def append (buffer : List UInt8) (item : Item) : List UInt8 × Option Fault :=
  match item.write buffer with
  | .ok _ buffer => (buffer, none)
  | .error fault buffer => (buffer, some fault)

/-- A word takes as many bytes as it is wide. -/
@[simp] theorem length_littleEndian (width n : Nat) : (littleEndian width n).length = width := by
  induction width generalizing n with
  | zero => rfl
  | succ width ih => simp [littleEndian, ih]

/-- Reading little-endian bytes gives the number back, as far as the bytes reach. -/
theorem ofLittleEndian_littleEndian (width n : Nat) :
    Read.ofLittleEndian (littleEndian width n) = n % Nat.pow 256 width := by
  induction width generalizing n with
  | zero => simp [littleEndian, Read.ofLittleEndian, Nat.mod_one]
  | succ width ih =>
    simp only [littleEndian, Read.ofLittleEndian, ih]
    have h : (UInt8.ofNat (n % 256)).toNat = n % 256 := by
      simp [UInt8.toNat_ofNat']
    rw [h, Nat.pow_eq, Nat.pow_eq, Nat.pow_succ', Nat.mod_mul]

end CilTrim.Blob
