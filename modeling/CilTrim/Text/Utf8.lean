/-!
# Texts from bytes

Reading a text from its UTF-8 bytes, and saying where and how bytes fail to be one. A fault names
the longest start of a well-formed sequence that the bytes break off, or the end of the bytes
inside a sequence:

* `encode`, `decode`: a text as bytes and back;
* `firstFault`: the first place at which bytes are no text.
-/

namespace CilTrim.Text.Utf8

/-- Why bytes are not a text. -/
inductive Fault where
  /-- `length` bytes from `index` on can begin a character, and the next byte cannot go on. -/
  | invalid (length index : Nat)
  /-- The bytes end inside the character that begins at `index`. -/
  | incomplete (index : Nat)
deriving Repr, DecidableEq

/-- The wording of a fault. -/
def Fault.message : Fault → String
  | .invalid length index =>
    "invalid utf-8 sequence of " ++ toString length ++ " bytes from index " ++ toString index
  | .incomplete index => "incomplete utf-8 byte sequence from index " ++ toString index

/-- A byte inside a character, after its first. -/
def isContinuation (b : UInt8) : Bool :=
  0x80 ≤ b && b ≤ 0xbf

/-- The tests on the bytes that follow a first byte, or `none` if no character begins with it. -/
def followers? (b : UInt8) : Option (List (UInt8 → Bool)) :=
  if b ≤ 0x7f then some []
  else if 0xc2 ≤ b && b ≤ 0xdf then some [isContinuation]
  else if b = 0xe0 then some [fun c => 0xa0 ≤ c && c ≤ 0xbf, isContinuation]
  else if b = 0xed then some [fun c => 0x80 ≤ c && c ≤ 0x9f, isContinuation]
  else if 0xe1 ≤ b && b ≤ 0xef then some [isContinuation, isContinuation]
  else if b = 0xf0 then some [fun c => 0x90 ≤ c && c ≤ 0xbf, isContinuation, isContinuation]
  else if 0xf1 ≤ b && b ≤ 0xf3 then some [isContinuation, isContinuation, isContinuation]
  else if b = 0xf4 then some [fun c => 0x80 ≤ c && c ≤ 0x8f, isContinuation, isContinuation]
  else none

/-- Scans bytes that are at `index`, inside a character that began at `start` and of which the
tests in `expected` are still to be met. -/
def scan (start index : Nat) (expected : List (UInt8 → Bool)) : List UInt8 → Option Fault
  | [] => if expected.isEmpty then none else some (.incomplete start)
  | b :: rest =>
    match expected with
    | test :: tests =>
      if test b then scan start (index + 1) tests rest else some (.invalid (index - start) start)
    | [] =>
      match followers? b with
      | some tests => scan index (index + 1) tests rest
      | none => some (.invalid 1 index)

/-- The first place at which bytes are no text. -/
def firstFault (bytes : List UInt8) : Option Fault :=
  scan 0 0 [] bytes

/-- The bytes of a text. -/
def encode (s : String) : List UInt8 :=
  s.toUTF8.data.toList

/-- The text that bytes stand for. -/
def decode (bytes : List UInt8) : Except Fault String :=
  match String.fromUTF8? ⟨bytes.toArray⟩ with
  | some s => .ok s
  | none => .error ((firstFault bytes).getD (.incomplete 0))

/-- A text is what its bytes stand for. -/
@[simp] theorem decode_encode (s : String) : decode (encode s) = .ok s := by
  simp [decode, encode, String.fromUTF8?, s.isValidUTF8]
  rfl

end CilTrim.Text.Utf8
