/-!
# Shortest decimals

The fewest decimal digits that lie inside an interval around a positive rational number, and of the
decimals with so few digits the one nearest to the number. An exact tie goes to the larger one:

* `Window`: a number with the interval around it, over one denominator;
* `Window.nearest?`: the best decimal with a given number of digits, if one lies in the interval;
* `Window.shortest`: the first that is found, for one digit, two digits, and so on.
-/

namespace CilTrim.Decimal

/-- A positive decimal `0.d₁d₂… × 10^point`, given by its digits as one number. -/
structure Digits where
  /-- The digits, read as a natural number. -/
  coefficient : Nat
  /-- Where the decimal point stands, counted from in front of the first digit. -/
  point : Int
deriving Repr, DecidableEq

/-- The number `value / scale` and the interval from `(value - below) / scale` to
`(value + above) / scale`, with or without its ends. -/
structure Window where
  value : Nat
  below : Nat
  above : Nat
  scale : Nat
  closed : Bool
deriving Repr, DecidableEq

/-- The number of decimal digits of a natural number. -/
def digitCount (n : Nat) : Nat :=
  (Nat.toDigits 10 n).length

namespace Window

/-- The exponent `k` with `10^(k-1) ≤ value / scale < 10^k`. -/
def magnitude (w : Window) : Int :=
  let shift := digitCount w.scale
  (digitCount (w.value * Nat.pow 10 shift / w.scale) : Int) - shift

/-- The window in units of `10^unit`. -/
def inUnits (w : Window) (unit : Int) : Window :=
  let up := Nat.pow 10 (-unit).toNat
  let down := Nat.pow 10 unit.toNat
  { w with
    value := w.value * up, below := w.below * up, above := w.above * up, scale := w.scale * down }

/-- A natural number in the interval. -/
def holds (w : Window) (n : Nat) : Bool :=
  let here := n * w.scale
  if w.closed then w.value ≤ here + w.below && here ≤ w.value + w.above
  else w.value < here + w.below && here < w.value + w.above

/-- The natural number in the interval that is nearest to the number, of its two neighbours. -/
def nearestNat? (w : Window) : Option Nat :=
  let lower := w.value / w.scale
  match w.holds lower, w.holds (lower + 1) with
  | true, true => some (if 2 * (w.value % w.scale) < w.scale then lower else lower + 1)
  | true, false => some lower
  | false, true => some (lower + 1)
  | false, false => none

/-- The nearest decimal with at most `count` digits in the interval. -/
def nearest? (w : Window) (count : Nat) : Option Digits :=
  let unit := w.magnitude - count
  (w.inUnits unit).nearestNat?.map fun n => ⟨n, unit + digitCount n⟩

/-- The nearest of the shortest decimals in the interval, with `count` digits or more and trying
`tries` lengths. -/
def shortestFrom (w : Window) (count : Nat) : Nat → Digits
  | 0 => ⟨0, 0⟩
  | tries + 1 =>
    match w.nearest? count with
    | some digits => digits
    | none => w.shortestFrom (count + 1) tries

/-- The nearest of the shortest decimals in the interval. Seventeen digits tell any two numbers of
double precision apart. -/
def shortest (w : Window) : Digits :=
  w.shortestFrom 1 17

end Window

/-- The digits of a decimal, without zeros at the end. -/
def Digits.toChars (d : Digits) : List Char :=
  ((Nat.toDigits 10 d.coefficient).reverse.dropWhile (· == '0')).reverse

end CilTrim.Decimal
