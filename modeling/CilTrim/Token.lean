import CilTrim.Text.Hex
import Std.Data.ExtTreeMap
import Std.Data.ExtTreeSet

/-!
# Tokens

A token names one definition of the metadata: its high byte is a table, its other three bytes are a
row counted from one. Any 32-bit word is a token; most name nothing:

* `Table`: the tables of definitions, with their numbers;
* `Token`: the word, its parts, and `Token.ofParts`, which puts parts together;
* `Token.index?`: the position in a table that a token names;
* `Token.display`, `Token.describe`: its texts;
* `TokenMap`, `TokenSet`: finite maps and sets, in token order.
-/

namespace CilTrim

/-- The tables that hold definitions. -/
inductive Table where
  | module
  | typeDef
  | field
  | methodDef
  | event
  | property
  | assembly
  | genericParam
deriving Repr, DecidableEq

namespace Table

/-- The number of a table in the high byte of a token. -/
def number : Table → UInt8
  | .module => 0x00
  | .typeDef => 0x02
  | .field => 0x04
  | .methodDef => 0x06
  | .event => 0x14
  | .property => 0x17
  | .assembly => 0x20
  | .genericParam => 0x2a

/-- All tables, by their numbers. -/
def all : List Table :=
  [.module, .typeDef, .field, .methodDef, .event, .property, .assembly, .genericParam]

/-- The table with a number. -/
def ofNumber? (n : UInt8) : Option Table :=
  all.find? fun table => table.number == n

/-- The number of a table leads back to it. -/
@[simp] theorem ofNumber?_number (table : Table) : ofNumber? table.number = some table := by
  cases table <;> rfl

/-- No two tables have the same number. -/
theorem number_injective {a b : Table} (h : a.number = b.number) : a = b :=
  Option.some.inj (by rw [← ofNumber?_number a, ← ofNumber?_number b, h])

end Table

/-- A word that may name a definition. -/
structure Token where
  value : UInt32
deriving Repr, DecidableEq, Inhabited

namespace Token

/-- The word that names nothing. -/
def null : Token := ⟨0⟩

/-- The token is the one that names nothing. -/
def isNull (t : Token) : Bool :=
  t == null

/-- The number of distinct tokens, which bounds every loop that uses each token once. -/
def count : Nat := UInt32.size

/-- The number in the table byte. -/
def tableNumber (t : Token) : UInt8 :=
  (t.value >>> 24).toUInt8

/-- The row, counted from one. -/
def row (t : Token) : UInt32 :=
  t.value &&& 0x00ffffff

/-- The token of a row in a table. Rows are taken modulo 2^24. -/
def ofParts (table : Table) (row : UInt32) : Token :=
  ⟨(table.number.toUInt32 <<< 24) ||| (row &&& 0x00ffffff)⟩

/-- The table of a token, if its number is one of a table. -/
def table? (t : Token) : Option Table :=
  Table.ofNumber? t.tableNumber

/-- A token of the given table. -/
def isIn (t : Token) (table : Table) : Bool :=
  t.tableNumber == table.number

/-- The position in the given table that a token names, counted from zero. -/
def index? (t : Token) (table : Table) : Option Nat :=
  if t.isIn table && t.row != 0 then some (t.row.toNat - 1) else none

/-- The token of the next definition of a table that holds `size` definitions. -/
def next (table : Table) (size : Nat) : Token :=
  ofParts table (if size + 1 < UInt32.size then UInt32.ofNat (size + 1) else 0x00ffffff)

/-- The table of the definition that a token can name: a known table and a row. -/
def node? (t : Token) : Option Table :=
  if t.row = 0 then none else t.table?

/-- A token as eight hexadecimal digits. -/
def display (t : Token) : String :=
  "0x" ++ Text.hex 8 t.value.toNat

/-- A token with its parts. -/
def describe (t : Token) : String :=
  "Token(" ++ t.display ++ ", table: 0x" ++ Text.hex 2 t.tableNumber.toNat ++ ", row: " ++
    toString t.row.toNat ++ ")"

/-- Tokens are ordered as words, so by table and then by row. -/
instance : Ord Token where
  compare := compareOn value

instance : Std.TransOrd Token :=
  inferInstanceAs (Std.TransCmp (compareOn value))

instance : Std.LawfulEqOrd Token where
  eq_of_compare {a b} h := by
    have : a.value = b.value := Std.LawfulEqOrd.eq_of_compare h
    cases a; cases b; simp_all

end Token

/-- A finite map from tokens. Two maps with the same entries are equal. -/
abbrev TokenMap (α : Type) := Std.ExtTreeMap Token α

/-- A finite set of tokens. Two sets with the same members are equal. -/
abbrev TokenSet := Std.ExtTreeSet Token

end CilTrim
