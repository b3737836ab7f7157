import CilTrim.Builder.CoreLibrary

/-!
# Options of marking

What marking follows beyond plain references, and which attributes name members of the type they
stand on:

* `MarkOptions`, `MarkOptions.minimal`;
* `MemberKinds`, `SpecialAttributes`: the registry of attributes whose first argument names a
  member.
-/

namespace CilTrim

/-- What marking follows. -/
structure MarkOptions where
  /-- Static constructors are kept with their types. -/
  staticConstructors : Bool
  /-- Overrides of methods in assemblies that are not linked are kept with their types. -/
  unlinkedOverrides : Bool
  /-- Types that attributes name are kept. -/
  typeArguments : Bool
  /-- The name of the core library. -/
  corlibName : String
deriving Repr, DecidableEq

namespace MarkOptions

/-- Everything is followed. -/
def default : MarkOptions := ⟨true, true, true, CilTrim.corlibName⟩

/-- Only plain references are followed. -/
def minimal : MarkOptions := ⟨false, false, false, CilTrim.corlibName⟩

end MarkOptions

/-- Kinds of members that a name may stand for, one bit each. Bits that stand for no kind are kept
as they were given. -/
structure MemberKinds where
  bits : UInt8
deriving Repr, DecidableEq

namespace MemberKinds

/-- Every method with the name. -/
def methods : MemberKinds := ⟨0x01⟩

/-- The field with the name. -/
def fields : MemberKinds := ⟨0x02⟩

/-- The accessors of the property with the name. -/
def properties : MemberKinds := ⟨0x04⟩

/-- The kinds of either set. -/
def union (a b : MemberKinds) : MemberKinds :=
  ⟨a.bits ||| b.bits⟩

/-- All kinds of `b` are among those of `a`. -/
def includes (a b : MemberKinds) : Bool :=
  a.bits &&& b.bits == b.bits

end MemberKinds

/-- Attributes by their full names, with the kinds of members that their first argument names. -/
structure SpecialAttributes where
  entries : List (String × MemberKinds)
deriving Repr, DecidableEq

namespace SpecialAttributes

/-- No attribute is special. -/
def empty : SpecialAttributes := ⟨[]⟩

/-- The kinds of members that an attribute names. -/
def get? (r : SpecialAttributes) (name : String) : Option MemberKinds :=
  r.entries.lookup name

/-- Adds or replaces an attribute. -/
def register (r : SpecialAttributes) (name : String) (kinds : MemberKinds) :
    SpecialAttributes :=
  ⟨(name, kinds) :: r.entries.filter (·.1 != name)⟩

/-- The attributes of the framework that name members. -/
def framework : SpecialAttributes :=
  (empty.register "System.Xml.Serialization.XmlSchemaProviderAttribute"
    .methods).register "System.Web.Services.Protocols.SoapHeaderAttribute"
    (MemberKinds.fields.union .properties)

/-- The number of attributes. -/
def size (r : SpecialAttributes) : Nat := r.entries.length

/-- There are no attributes. -/
def isEmpty (r : SpecialAttributes) : Bool := r.entries.isEmpty

end SpecialAttributes

end CilTrim
