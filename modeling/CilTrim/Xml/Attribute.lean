import CilTrim.Xml.Event

/-!
# Attributes of XML tags

Attributes are looked at in order, and only as far as the wanted one. On the way each must have a
key that is new and a value in quotes; the value of the wanted one must also be free of unknown
references:

* `Xml.unescape`: a value with its references replaced;
* `Xml.Tag.attribute?`: the value of an attribute.
-/

namespace CilTrim.Xml

/-! ## References -/

/-- The value of a digit in a base up to sixteen. -/
def digitValue? (base : Nat) (c : Char) : Option Nat :=
  let value? :=
    if '0' ≤ c && c ≤ '9' then some (c.toNat - '0'.toNat)
    else if 'a' ≤ c && c ≤ 'f' then some (c.toNat - 'a'.toNat + 10)
    else if 'A' ≤ c && c ≤ 'F' then some (c.toNat - 'A'.toNat + 10)
    else none
  value?.filter (· < base)

/-- The number that digits stand for, continuing from `value`. -/
def digitsValue? (base value : Nat) : List Char → Option Nat
  | [] => some value
  | c :: rest =>
    (digitValue? base c).bind fun digit => digitsValue? base (value * base + digit) rest

/-- The character with a code point that is given by digits. There is none with code point zero. -/
def charOfDigits? (base : Nat) (digits : List Char) : Option Char :=
  if digits.isEmpty then none
  else
    (digitsValue? base 0 digits).bind fun code =>
      if code ≠ 0 ∧ code.isValidChar then some (Char.ofNat code) else none

/-- What a reference stands for, given the text between its ampersand and its semicolon. -/
def reference? (text : List Char) : Option Char :=
  match text with
  | '#' :: 'x' :: digits => charOfDigits? 16 digits
  | '#' :: digits => charOfDigits? 10 digits
  | _ =>
    match String.ofList text with
    | "lt" => some '<'
    | "gt" => some '>'
    | "amp" => some '&'
    | "apos" => some '\x27'
    | "quot" => some '\x22'
    | _ => none

/-- A text with its references replaced. Inside a reference, `inside` holds its characters so far,
in reverse. -/
def unescapeFrom (inside : Option (List Char)) : List Char → Except Fault (List Char)
  | [] => if inside.isNone then .ok [] else .error .reference
  | c :: rest =>
    match inside with
    | none =>
      if c = '&' then unescapeFrom (some []) rest
      else (unescapeFrom none rest).map (c :: ·)
    | some before =>
      if c = ';' then
        match reference? before.reverse with
        | some named => (unescapeFrom none rest).map (named :: ·)
        | none => .error .reference
      else if c = '&' then .error .reference
      else unescapeFrom (some (c :: before)) rest

/-- A text with its references replaced. -/
def unescape (text : List Char) : Except Fault (List Char) :=
  unescapeFrom none text

/-! ## Attributes -/

/-- A key, and what follows its equals sign. The text begins with the first character of the
key. -/
def cutKey (text : List Char) : Except Fault (List Char × List Char) :=
  let isEnd := fun c => c == '=' || isSpace c
  let key := text.take 1 ++ (text.drop 1).takeWhile (!isEnd ·)
  match ((text.drop 1).dropWhile (!isEnd ·)).dropWhile isSpace with
  | '=' :: rest => .ok (key, rest)
  | _ => .error .missingValue

/-- A value in quotes, and what follows it. -/
def cutValue (text : List Char) : Except Fault (List Char × List Char) :=
  match text.dropWhile isSpace with
  | [] => .error .missingValue
  | mark :: rest =>
    if mark = '\x22' ∨ mark = '\x27' then
      match rest.dropWhile (· != mark) with
      | _ :: tail => .ok (rest.takeWhile (· != mark), tail)
      | [] => .error .unclosedValue
    else .error .unquotedValue

/-- The raw value of the first attribute with a key, past attributes with the keys in `seen`. Every
step passes a quote, so `fuel` need only exceed the length of the text. -/
def findValue (key : List Char) : Nat → List (List Char) → List Char →
    Except Fault (Option (List Char))
  | 0, _, _ => .ok none
  | fuel + 1, seen, text =>
    match text.dropWhile isSpace with
    | [] => .ok none
    | text => do
      let (found, rest) ← cutKey text
      if found ∈ seen then throw .duplicateKey
      let (value, rest) ← cutValue rest
      if found = key then pure (some value) else findValue key fuel (found :: seen) rest

/-- The value of an attribute of a tag. -/
def Tag.attribute? (tag : Tag) (key : String) : Except Fault (Option String) := do
  match ← findValue key.toList (tag.rest.length + 1) [] tag.rest with
  | none => pure none
  | some value => pure (some (String.ofList (← unescape value)))

end CilTrim.Xml
