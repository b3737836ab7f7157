import CilTrim.Text.Blank

/-!
# Type names

Types as attributes and marshalling descriptors name them in text: a name in its namespace, the
names of nested types, generic arguments, modifiers and an assembly:

* `TypeName.fullName`: the name under which a model knows the type;
* `TypeName.display`: the text of a name;
* `TypeName.assemblyName?`: the simple name of the assembly.
-/

namespace CilTrim

/-- What is built around a named type. -/
inductive TypeNameModifier where
  /-- A one-dimensional array that starts at zero. -/
  | szArray
  | array (rank : UInt32)
  | pointer
  | byRef
deriving Repr, DecidableEq

/-- The text of a modifier. -/
def TypeNameModifier.display : TypeNameModifier → String
  | .szArray => "[]"
  | .array rank => "[" ++ String.ofList (List.replicate (rank.toNat - 1) ',') ++ "]"
  | .pointer => "*"
  | .byRef => "&"

/-- A type, by name. -/
structure TypeName where
  /-- The namespace of the outermost type, empty if it has none. -/
  space : String
  /-- The name of the outermost type. -/
  name : String
  /-- The names of the nested types that lead to the type, outside in. -/
  nested : List String
  arguments : List TypeName
  modifiers : List TypeNameModifier
  /-- The assembly and what qualifies it, as written. -/
  assembly : Option String
deriving Repr, BEq, Inhabited

namespace TypeName

/-- The name with its namespace, and nested names behind slashes. -/
def fullName (n : TypeName) : String :=
  let outermost := if n.space.isEmpty then n.name else n.space ++ "." ++ n.name
  n.nested.foldl (fun text name => text ++ "/" ++ name) outermost

/-- The simple name of the assembly: what is written before the first comma. -/
def assemblyName? (n : TypeName) : Option String :=
  n.assembly.bind fun assembly =>
    match Text.trim (assembly.toList.takeWhile (· != ',')) with
    | [] => none
    | simple => some (String.ofList simple)

mutual

/-- The text of a name, without its assembly. -/
def display : TypeName → String
  | ⟨space, name, nested, arguments, modifiers, assembly⟩ =>
    fullName ⟨space, name, nested, arguments, modifiers, assembly⟩ ++
      (match displayAll arguments with
        | [] => ""
        | texts => "<" ++ ",".intercalate texts ++ ">") ++
      String.join (modifiers.map TypeNameModifier.display)

/-- The texts of the names of a list. -/
def displayAll : List TypeName → List String
  | [] => []
  | n :: rest => n.display :: displayAll rest

end

end TypeName

end CilTrim
