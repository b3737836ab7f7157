import CilTrim.Body.Basic

/-!
# Writing method bodies

Bodies are written one call at a time: an instruction stands behind the bytes of those before it,
and a handler guards everything written so far:

* `Instr`: the instructions that can be written, with `Instr.mnemonic`, `Instr.operand` and
  `Instr.size`;
* `BodyCall`: an instruction, a local variable, a handler or the stack depth;
* `BodyWriter.perform`, `Body.ofCalls`: the effect of a call, and of a list of calls.
-/

namespace CilTrim

/-- The instructions that can be written. -/
inductive Instr where
  | nop
  | ret
  | pop
  | ldarg0
  | ldnull
  | ldcI4 (value : Int32)
  | ldstr (value : String)
  | ldloc (index : UInt16)
  | stloc (index : UInt16)
  | call (method : MethodRef)
  | callvirt (method : MethodRef)
  | newobj (constructor : MethodRef)
  | ldftn (method : MethodRef)
  | ldfld (field : FieldRef)
  | stfld (field : FieldRef)
  | ldsfld (field : FieldRef)
  | stsfld (field : FieldRef)
  | ldtoken (member : MemberRef)
  | newarr (element : TypeRef)
  | castclass (target : TypeRef)
  | isinst (target : TypeRef)
  | box (valueType : TypeRef)
  | initobj (valueType : TypeRef)
deriving Repr, BEq

namespace Instr

/-- The name of an instruction in a listing. -/
def mnemonic : Instr → String
  | .nop => "nop"
  | .ret => "ret"
  | .pop => "pop"
  | .ldarg0 => "ldarg.0"
  | .ldnull => "ldnull"
  | .ldcI4 _ => "ldc.i4"
  | .ldstr _ => "ldstr"
  | .ldloc _ => "ldloc.s"
  | .stloc _ => "stloc.s"
  | .call _ => "call"
  | .callvirt _ => "callvirt"
  | .newobj _ => "newobj"
  | .ldftn _ => "ldftn"
  | .ldfld _ => "ldfld"
  | .stfld _ => "stfld"
  | .ldsfld _ => "ldsfld"
  | .stsfld _ => "stsfld"
  | .ldtoken _ => "ldtoken"
  | .newarr _ => "newarr"
  | .castclass _ => "castclass"
  | .isinst _ => "isinst"
  | .box _ => "box"
  | .initobj _ => "initobj"

/-- The operand of an instruction. -/
def operand : Instr → Operand
  | .nop | .ret | .pop | .ldarg0 | .ldnull => .none
  | .ldcI4 value => .immediate value.toInt64
  | .ldstr value => .text value
  | .ldloc index | .stloc index => .localVariable index
  | .call method | .callvirt method | .newobj method | .ldftn method => .method method
  | .ldfld field | .stfld field | .ldsfld field | .stsfld field => .field field
  | .ldtoken member => .token member
  | .newarr type | .castclass type | .isinst type | .box type | .initobj type => .type type

/-- The bytes that an instruction takes. -/
def size : Instr → UInt64
  | .nop | .ret | .pop | .ldarg0 | .ldnull => 1
  | .ldloc _ | .stloc _ => 2
  | .ldftn _ | .initobj _ => 6
  | _ => 5

end Instr

/-- A call on the writer of a body. -/
inductive BodyCall where
  | emit (instr : Instr)
  | maxStack (depth : Nat)
  | localVariable (type : TypeRef)
  /-- A handler around everything written so far. -/
  | handler (kind : HandlerKind)
deriving Repr, BEq

/-- A body that is being written, and the offset of its next instruction. -/
structure BodyWriter where
  body : Body
  offset : UInt64

namespace BodyWriter

/-- Nothing written yet, with room for eight values on the stack. -/
def start : BodyWriter where
  body := { maxStack := 8, initLocals := true, locals := [], handlers := [], instructions := [] }
  offset := 0

/-- The offset as a bound of a handler, at most the largest that a handler can hold. -/
def bound (w : BodyWriter) : UInt32 :=
  if w.offset < 0x100000000 then w.offset.toUInt32 else 0xffffffff

/-- The effect of a call. -/
def perform (w : BodyWriter) : BodyCall → BodyWriter
  | .emit instr =>
    { body :=
        { w.body with
          instructions := w.body.instructions ++ [⟨w.offset, instr.mnemonic, instr.operand⟩] }
      offset := w.offset + instr.size }
  | .maxStack depth => { w with body := { w.body with maxStack := depth } }
  | .localVariable type => { w with body := { w.body with locals := w.body.locals ++ [type] } }
  | .handler kind =>
    { w with
      body :=
        { w.body with handlers := w.body.handlers ++ [⟨kind, 0, w.bound, w.bound, w.bound⟩] } }

end BodyWriter

/-- The body that a list of calls writes. -/
def Body.ofCalls (calls : List BodyCall) : Body :=
  (calls.foldl BodyWriter.perform BodyWriter.start).body

/-- The body of the given instructions, without locals and handlers. -/
def Body.ofInstrs (instrs : List Instr) : Body :=
  Body.ofCalls (instrs.map .emit)

end CilTrim
