import CilTrim.Decimal.Binary
import CilTrim.Member
import CilTrim.Text.Quoted

/-!
# Method bodies

Disassembled code: instructions with their operands, local variables and protected regions. Only
the references among the operands, the types of locals and the caught types bear on what a method
needs:

* `Operand.display?`: the text of an operand in a listing;
* `Handler.catchType?`: the type that a handler catches.
-/

namespace CilTrim

/-- The operand of an instruction. -/
inductive Operand where
  | none
  | immediate (value : Int64)
  /-- A floating-point constant, by its bits. -/
  | float (bits : UInt64)
  | text (value : String)
  /-- The address of a branch target. -/
  | target (address : UInt64)
  | localVariable (index : UInt16)
  | argument (index : UInt16)
  | switch (offsets : List Int32)
  | type (reference : TypeRef)
  | method (reference : MethodRef)
  | field (reference : FieldRef)
  | token (reference : MemberRef)
deriving Repr, BEq

/-- The text of an operand in a listing. -/
def Operand.display? : Operand → Option String
  | .none => Option.none
  | .immediate value => some (toString value.toInt)
  | .float bits => some (Decimal.double.render Decimal.plain bits.toNat)
  | .text value => some (Text.quoted value)
  | .target address => some ("0x" ++ Text.hexUpper 8 address.toNat)
  | .localVariable index => some ("V_" ++ toString index.toNat)
  | .argument index => some ("A_" ++ toString index.toNat)
  | .switch offsets => some ("switch(" ++ toString offsets.length ++ ")")
  | .type reference => some reference.display
  | .method reference => some reference.display
  | .field reference => some reference.display
  | .token reference => some reference.display

/-- An instruction at its place in the code. -/
structure Instruction where
  offset : UInt64
  mnemonic : String
  operand : Operand
deriving Repr, BEq

/-- What a protected region does when it is left by an exception. -/
inductive HandlerKind where
  | catch (type : TypeRef)
  | finally
deriving Repr, BEq

/-- A protected region of the code and its handler, as half-open ranges of offsets. -/
structure Handler where
  kind : HandlerKind
  tryStart : UInt32
  tryEnd : UInt32
  handlerStart : UInt32
  handlerEnd : UInt32
deriving Repr, BEq

/-- The type that a handler catches. -/
def Handler.catchType? (h : Handler) : Option TypeRef :=
  match h.kind with
  | .catch type => some type
  | .finally => none

/-- The code of a method. -/
structure Body where
  maxStack : Nat
  initLocals : Bool
  locals : List TypeRef
  handlers : List Handler
  instructions : List Instruction
deriving Repr, BEq

/-- A body without instructions. -/
def Body.isEmpty (b : Body) : Bool :=
  b.instructions.isEmpty

end CilTrim
