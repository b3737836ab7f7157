import CilTrim.Text.Hex
import CilTrim.Text.Hidden

/-!
# Quoted text

How a text or a character is shown between quotes: the quote itself and the backslash are escaped,
the common controls have one-letter escapes, and every other hidden character is written by its
code point:

* `quoted`: a text between double quotes;
* `quotedChar`: a character between single quotes.
-/

namespace CilTrim.Text

/-- A character by its code point, as in `\u{7f}`. -/
def codePointEscape (c : Char) : List Char :=
  "\x5cu\x7b".toList ++ hexDigits c.toNat ++ ['\x7d']

/-- A character inside quotes of the kind `quote`. -/
def escapeChar (quote c : Char) : List Char :=
  if c = quote ∨ c = '\x5c' then ['\x5c', c]
  else if c = '\n' then ['\x5c', 'n']
  else if c = '\r' then ['\x5c', 'r']
  else if c = '\t' then ['\x5c', 't']
  else if c = '\x00' then ['\x5c', '0']
  else if isHidden c then codePointEscape c
  else [c]

/-- The mark around a quoted text. -/
def doubleQuote : Char := '\x22'

/-- The mark around a quoted character. -/
def singleQuote : Char := '\x27'

/-- A text between double quotes. -/
def quoted (s : String) : String :=
  String.ofList (doubleQuote :: s.toList.flatMap (escapeChar doubleQuote) ++ [doubleQuote])

/-- A character between single quotes. -/
def quotedChar (c : Char) : String :=
  String.ofList (singleQuote :: escapeChar singleQuote c ++ [singleQuote])

end CilTrim.Text
