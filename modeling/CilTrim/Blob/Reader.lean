import CilTrim.Text.Utf8

/-!
# Reading blobs

A reader walks over the bytes of a blob. A read returns a value or a fault, and in both cases the
reader it leaves behind: a value made of several pieces that fails keeps the pieces it has read.

* `Fault`: why a read failed;
* `Reader`: a position and the bytes from there on;
* `Read`: reads, which chain and stop at the first fault;
* `bytes`, `word`, `compressed`, `serString`: raw bytes, little-endian words, compressed unsigned
  integers, and length-prefixed texts.
-/

namespace CilTrim.Blob

/-- Why a read or a write failed. -/
inductive Fault where
  /-- A byte was looked at behind the end. -/
  | endOfBlob (position : Nat)
  /-- More bytes were asked for than are left. -/
  | tooShort (wanted position size : Nat)
  /-- No compressed integer begins with this byte. -/
  | badCompressed (first : UInt8)
  /-- The bytes of the text that starts at `start` are none. -/
  | badText (start : Nat) (cause : Text.Utf8.Fault)
  /-- A number has no compressed form. -/
  | tooLarge (value : Nat)
  /-- A text is too long for its length to be written. -/
  | longText (size : Nat)
deriving Repr, DecidableEq

/-- The wording of a fault. -/
def Fault.message : Fault → String
  | .endOfBlob position => "Unexpected end of blob at offset " ++ toString position
  | .tooShort wanted position size =>
    "Reading " ++ toString wanted ++ " bytes at offset " ++ toString position ++
      " exceeds blob length " ++ toString size
  | .badCompressed first => "Invalid compressed uint - " ++ toString first.toNat
  | .badText start cause =>
    "Invalid UTF-8 string at offset " ++ toString start ++ ": " ++ cause.message
  | .tooLarge value => "Value " ++ toString value ++ " too large to compress"
  | .longText size => "String of " ++ toString size ++ " bytes"

/-- A position in a blob, and the bytes from there to its end. -/
structure Reader where
  position : Nat
  rest : List UInt8
deriving Repr, DecidableEq

namespace Reader

/-- A reader at the start of a blob. -/
def ofBytes (data : List UInt8) : Reader := ⟨0, data⟩

/-- The number of bytes that are left. -/
def remaining (r : Reader) : Nat := r.rest.length

/-- The number of bytes of the whole blob. -/
def size (r : Reader) : Nat := r.position + r.rest.length

/-- Some bytes are left. -/
def hasMore (r : Reader) : Bool := !r.rest.isEmpty

/-- The reader behind the next `n` bytes. -/
def skip (r : Reader) (n : Nat) : Reader := ⟨r.position + n, r.rest.drop n⟩

end Reader

/-- Reads of a blob: a value or a fault, and the reader that is left behind. -/
abbrev Read := EStateM Fault Reader

namespace Read

/-- The next byte, which is not consumed. -/
def peek : Read UInt8 := do
  let r ← get
  match r.rest with
  | b :: _ => pure b
  | [] => throw (.endOfBlob r.position)

/-- The next `n` bytes, if so many are left. -/
def bytes (n : Nat) : Read (List UInt8) := do
  let r ← get
  let taken := r.rest.take n
  if taken.length = n then
    set (r.skip n)
    pure taken
  else throw (.tooShort n r.position r.size)

/-- The number that bytes stand for, least significant byte first. -/
def ofLittleEndian : List UInt8 → Nat
  | [] => 0
  | b :: rest => b.toNat + 256 * ofLittleEndian rest

/-- An unsigned word of `width` bytes, least significant byte first. -/
def word (width : Nat) : Read Nat := do
  pure (ofLittleEndian (← bytes width))

/-- A byte. -/
def byte : Read UInt8 := do
  pure (UInt8.ofNat (← word 1))

/-- An unsigned integer in one, two or four bytes, as the high bits of the first byte say. -/
def compressed : Read Nat := do
  let first ← byte
  if first < 0x80 then pure first.toNat
  else if first < 0xc0 then
    let second ← byte
    pure ((first.toNat - 0x80) * 0x100 + second.toNat)
  else if first < 0xe0 then
    let second ← byte
    let third ← byte
    let fourth ← byte
    pure ((first.toNat - 0xc0) * 0x1000000 + second.toNat * 0x10000 + third.toNat * 0x100 +
      fourth.toNat)
  else throw (.badCompressed first)

/-- A text behind its length in bytes, or no text, which the byte `0xff` stands for. -/
def serString : Read (Option String) := do
  if (← peek) = 0xff then
    modify (·.skip 1)
    pure none
  else
    let length ← compressed
    let start := (← get).position
    match Text.Utf8.decode (← bytes length) with
    | .ok s => pure (some s)
    | .error cause => throw (.badText start cause)

end Read

end CilTrim.Blob
