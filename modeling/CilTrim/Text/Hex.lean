/-!
# Hexadecimal text

Numbers in base sixteen, padded with zeros on the left to a least width:

* `hex`: lower case digits;
* `hexUpper`: upper case digits.
-/

namespace CilTrim.Text

/-- The digits of a number in base sixteen, lower case, most significant first. -/
def hexDigits (n : Nat) : List Char :=
  Nat.toDigits 16 n

/-- A list of digits with zeros in front, up to a least width. -/
def padZeros (width : Nat) (digits : List Char) : List Char :=
  List.replicate (width - digits.length) '0' ++ digits

/-- A number in lower case hexadecimal with at least `width` digits. -/
def hex (width n : Nat) : String :=
  String.ofList (padZeros width (hexDigits n))

/-- A number in upper case hexadecimal with at least `width` digits. -/
def hexUpper (width n : Nat) : String :=
  String.ofList ((padZeros width (hexDigits n)).map Char.toUpper)

end CilTrim.Text
