import CilTrim.Annotation.Store
import CilTrim.Model.Basic

/-!
# Descriptors

What must be kept, as users write it down: types of assemblies with some of their members. Applying
a descriptor makes roots of what it names:

* `Descriptor`, `AssemblyEntry`, `TypeEntry`;
* `TypeEntry.effectivePreserve`: the members that an entry keeps;
* `Descriptor.apply`: the annotations after a descriptor, which keep what was applied before an
  assembly that the model does not have.
-/

namespace CilTrim

/-- An entry for a type, or for all types of an assembly. -/
structure TypeEntry where
  fullName : String
  preserve : Option TypePreserve
  methods : List String
  fields : List String
deriving Repr, DecidableEq

/-- The members that an entry keeps: all of them if it says nothing about members. -/
def TypeEntry.effectivePreserve (e : TypeEntry) : TypePreserve :=
  match e.preserve with
  | some preserve => preserve
  | none => if e.methods.isEmpty && e.fields.isEmpty then .all else .nothing

/-- An entry for an assembly. -/
structure AssemblyEntry where
  fullName : String
  action : Option LinkAction
  types : List TypeEntry
deriving Repr, DecidableEq

/-- An assembly with one more type. -/
def AssemblyEntry.addType (a : AssemblyEntry) (type : TypeEntry) : AssemblyEntry :=
  { a with types := a.types ++ [type] }

/-- What must be kept. -/
structure Descriptor where
  assemblies : List AssemblyEntry
deriving Repr, DecidableEq

namespace Descriptor

/-- The name that stands for all types of an assembly. -/
def allTypes : String := "*"

/-- Makes roots of the methods of a type with a name, whose bodies are followed. -/
def rootMethods (m : Model) (type : TypeDef) (marks : Marks) (name : String) : Marks :=
  (type.methods.filter fun t => (m.method? t).any (·.name == name)).foldl
    (fun marks t => (marks.mark t .root).setMethodAction t .parse) marks

/-- Makes a root of the field of a type with a name, if it has one. -/
def rootField (m : Model) (type : Token) (marks : Marks) (name : String) : Marks :=
  match m.findField? type name with
  | some field => marks.mark field .root
  | none => marks

/-- Makes a root of a type, with the members that an entry keeps. -/
def applyType (m : Model) (entry : TypeEntry) (a : Annotations) (type : Token) : Annotations :=
  let a := a.onMarks (·.mark type .root)
  let a :=
    if entry.effectivePreserve = .nothing then a
    else a.onPolicy (·.setPreserve type entry.effectivePreserve)
  match m.type? type with
  | none => a
  | some definition =>
    let a := a.onMarks fun marks => entry.methods.foldl (rootMethods m definition) marks
    a.onMarks fun marks => entry.fields.foldl (rootField m type) marks

/-- A name with nested types behind slashes. -/
def slashed (name : String) : String :=
  String.ofList (name.toList.map fun c => if c = '+' then '/' else c)

/-- The types of an assembly that an entry selects. -/
def selected (m : Model) (assembly : Token) (entry : TypeEntry) : List Token :=
  if entry.fullName = allTypes then
    (m.types.toList.filter (·.assembly == assembly)).map (·.token)
  else (m.findType? assembly (slashed entry.fullName)).toList

/-- Applies an entry for a type of an assembly. -/
def applyEntry (m : Model) (assembly : Token) (a : Annotations) (entry : TypeEntry) : Annotations :=
  (selected m assembly entry).foldl (applyType m entry) a

/-- Applies the entry for an assembly. -/
def applyAssembly (m : Model) (assembly : Token) (entry : AssemblyEntry) (a : Annotations) :
    Annotations :=
  let a :=
    match entry.action with
    | some action => a.onPolicy (·.setAssemblyAction assembly action)
    | none => a
  entry.types.foldl (applyEntry m assembly) a

/-- Applies entries in order, up to an assembly that the model does not have, which is named. -/
def applyAll (m : Model) : List AssemblyEntry → Annotations → Option String × Annotations
  | [], a => (none, a)
  | entry :: rest, a =>
    match m.findAssembly? entry.fullName with
    | none => (some entry.fullName, a)
    | some assembly => applyAll m rest (applyAssembly m assembly.token entry a)

/-- Applies a descriptor. -/
def apply (d : Descriptor) (m : Model) (a : Annotations) : Option String × Annotations :=
  applyAll m d.assemblies a

end Descriptor

end CilTrim
