import CilTrim.Decimal.Shortest

/-!
# Floating-point numbers and their text

Binary floating-point numbers are kept as the bits that the metadata holds, so that every pattern,
also of a number that is none, survives. Their text has the fewest digits that read back:

* `Layout`: the widths of a format, and `single`, `double`;
* `Layout.classify`: what a bit pattern stands for;
* `Style`: when an exponent is written and whether a fraction is always shown;
* `plain`, `literal`: the styles of listings and of shown values;
* `Layout.render`: the text of a bit pattern.
-/

namespace CilTrim.Decimal

/-- The widths of a binary interchange format. -/
structure Layout where
  /-- Bits of the stored fraction. -/
  fractionBits : Nat
  /-- Bits of the exponent. -/
  exponentBits : Nat
deriving Repr, DecidableEq

/-- Single precision, in 32 bits. -/
def single : Layout := ⟨23, 8⟩

/-- Double precision, in 64 bits. -/
def double : Layout := ⟨52, 11⟩

/-- What a bit pattern stands for. -/
inductive Class where
  | nan
  | infinite (negative : Bool)
  | zero (negative : Bool)
  /-- A number other than zero, with the interval of the reals that round to it. -/
  | finite (negative : Bool) (window : Window)
deriving Repr, DecidableEq

namespace Layout

/-- The least exponent of two of a last place. -/
def leastExponent (l : Layout) : Int :=
  2 - (Nat.pow 2 (l.exponentBits - 1) : Int) - l.fractionBits

/-- The interval of the reals that round to `mantissa * 2^exponent`. At a power of two the numbers
below lie twice as close, which `narrow` says. -/
def window (mantissa : Nat) (exponent : Int) (narrow : Bool) : Window :=
  let up := Nat.pow 2 exponent.toNat
  let down := Nat.pow 2 (-exponent).toNat
  { value := 4 * mantissa * up, below := (if narrow then 1 else 2) * up, above := 2 * up,
    scale := 4 * down, closed := mantissa % 2 == 0 }

/-- What a bit pattern stands for. -/
def classify (l : Layout) (bits : Nat) : Class :=
  let one := Nat.pow 2 l.fractionBits
  let fields := Nat.pow 2 l.exponentBits
  let fraction := bits % one
  let field := bits / one % fields
  let negative := bits / one / fields % 2 == 1
  if field = fields - 1 then
    if fraction = 0 then .infinite negative else .nan
  else if field = 0 then
    if fraction = 0 then .zero negative
    else .finite negative (window fraction l.leastExponent false)
  else
    .finite negative (window (one + fraction) (l.leastExponent + field - 1) (fraction == 0))

end Layout

/-- How decimals are laid out. -/
structure Style where
  /-- The positions of the decimal point at which an exponent is written. -/
  scientific : Int → Bool
  /-- A whole number shows a zero after the point. -/
  keepsFraction : Bool

/-- Never an exponent, and whole numbers without a point. -/
def plain : Style := ⟨fun _ => false, false⟩

/-- An exponent below `0.0001` and from `10^16` on, and always a digit after the point. -/
def literal : Style := ⟨fun point => point ≤ -4 || 17 ≤ point, true⟩

namespace Style

/-- Digits with the point at its place, filled with zeros. -/
def positional (s : Style) (digits : List Char) (point : Int) : List Char :=
  if point ≤ 0 then "0.".toList ++ List.replicate (-point).toNat '0' ++ digits
  else
    let whole := point.toNat
    if whole < digits.length then digits.take whole ++ '.' :: digits.drop whole
    else
      digits ++ List.replicate (whole - digits.length) '0' ++
        (if s.keepsFraction then ".0".toList else [])

/-- Digits with one in front of the point, and the power of ten. -/
def withExponent (digits : List Char) (point : Int) : List Char :=
  let tail := digits.drop 1
  digits.take 1 ++ (if tail.isEmpty then [] else '.' :: tail) ++
    'e' :: (toString (point - 1)).toList

/-- The text of a positive decimal. -/
def digits (s : Style) (d : Digits) : List Char :=
  if s.scientific d.point then withExponent d.toChars d.point else s.positional d.toChars d.point

/-- The text of a number. -/
def render (s : Style) : Class → String
  | .nan => "NaN"
  | .infinite negative => sign negative ++ "inf"
  | .zero negative => sign negative ++ (if s.keepsFraction then "0.0" else "0")
  | .finite negative window => sign negative ++ String.ofList (s.digits window.shortest)
where
  /-- The sign in front of a number. -/
  sign (negative : Bool) : String := if negative then "-" else ""

end Style

/-- The text of a bit pattern. -/
def Layout.render (l : Layout) (s : Style) (bits : Nat) : String :=
  s.render (l.classify bits)

end CilTrim.Decimal
