import CilTrim.TypeName.Parser

/-!
# The format of type names

What the texts of a type name are, apart from how they are read. A generic argument may stand in
brackets of its own or without them, so that a name has more than one text:

* `escape`, `identifierText`, `modifierText`, `assemblyText`: the parts of a text;
* `Renders`: the texts of a name, with those of its generic arguments;
* `render`: the text with all generic arguments in brackets;
* `Proper`: the names that the format can tell apart from others.
-/

namespace CilTrim.TypeName

/-- A character, behind a backslash if it would be taken for something else. -/
def escape (special : Bool) (c : Char) : List Char :=
  if special then ['\x5c', c] else [c]

/-- A character that has to be escaped everywhere in a name. -/
def isSpecial (c : Char) : Bool :=
  c == '+' || c == ',' || c == '[' || c == ']' || c == '*' || c == '&' || c == '\x5c'

/-- A character that has to be escaped in the name of an assembly. -/
def isAssemblySpecial (c : Char) : Bool :=
  c == ']' || c == '\x5c'

/-- The text of one name. A blank at its start is escaped, as it would be passed over. -/
def identifierText : List Char → List Char
  | [] => []
  | first :: rest =>
    escape (isSpecial first || Text.isBlank first) first ++
      rest.flatMap fun c => escape (isSpecial c) c

/-- The text of a modifier. -/
def modifierText : TypeNameModifier → List Char
  | .szArray => ['[', ']']
  | .array rank =>
    if rank = 1 then ['[', '*', ']'] else '[' :: (List.replicate (rank.toNat - 1) ',' ++ [']'])
  | .pointer => ['*']
  | .byRef => ['&']

/-- The text of an assembly, if there is one. -/
def assemblyText : Option String → List Char
  | none => []
  | some assembly => ',' :: assembly.toList.flatMap fun c => escape (isAssemblySpecial c) c

/-- The name of the outermost type behind its namespace. -/
def qualifiedName (n : TypeName) : String :=
  if n.space.isEmpty then n.name else n.space ++ "." ++ n.name

/-- The texts of nested names, each behind a plus. -/
def nestedText (names : List String) : List Char :=
  names.flatMap fun name => '+' :: identifierText name.toList

/-- The text of a name in front of its generic arguments. -/
def headText (n : TypeName) : List Char :=
  identifierText n.qualifiedName.toList ++ nestedText n.nested

/-- The text of a name behind its generic arguments. -/
def tailText (n : TypeName) : List Char :=
  n.modifiers.flatMap modifierText ++ assemblyText n.assembly

mutual

/-- The texts of a name. -/
inductive Renders : TypeName → List Char → Prop
  | plain {n : TypeName} (h : n.arguments = []) : Renders n (headText n ++ tailText n)
  | generic {n : TypeName} {list : List Char} (h : RendersArguments n.arguments list) :
    Renders n (headText n ++ '[' :: (list ++ tailText n))

/-- The texts of a list of generic arguments, up to the bracket that closes it. -/
inductive RendersArguments : List TypeName → List Char → Prop
  | last {n : TypeName} {text : List Char} (h : RendersArgument n text) :
    RendersArguments [n] (text ++ [']'])
  | next {n : TypeName} {text list : List Char} {rest : List TypeName} (h : RendersArgument n text)
    (hrest : RendersArguments rest list) : RendersArguments (n :: rest) (text ++ ',' :: list)

/-- The texts of a generic argument. Only one without an assembly may stand without brackets. -/
inductive RendersArgument : TypeName → List Char → Prop
  | bare {n : TypeName} {text : List Char} (h : Renders n text) (none : n.assembly = none) :
    RendersArgument n text
  | bracketed {n : TypeName} {text : List Char} (h : Renders n text) :
    RendersArgument n ('[' :: (text ++ [']']))

end

mutual

/-- The text of a name with all generic arguments in brackets of their own. -/
def render : TypeName → List Char
  | ⟨space, name, nested, arguments, modifiers, assembly⟩ =>
    headText ⟨space, name, nested, arguments, modifiers, assembly⟩ ++
      (if arguments.isEmpty then [] else '[' :: renderArguments arguments) ++
      tailText ⟨space, name, nested, arguments, modifiers, assembly⟩

/-- The text of a list of generic arguments, up to the bracket that closes it. -/
def renderArguments : List TypeName → List Char
  | [] => []
  | [n] => '[' :: (n.render ++ [']']) ++ [']']
  | n :: rest => '[' :: (n.render ++ [']']) ++ ',' :: renderArguments rest

end

mutual

/-- Every name has a text. -/
theorem renders_render : ∀ n : TypeName, Renders n n.render
  | ⟨space, name, nested, [], modifiers, assembly⟩ => by
    rw [render, List.isEmpty_nil, if_pos rfl, List.append_nil]
    exact .plain rfl
  | ⟨space, name, nested, first :: rest, modifiers, assembly⟩ => by
    have harguments : RendersArguments (first :: rest) (renderArguments (first :: rest)) :=
      rendersArguments_renderArguments (first :: rest) (List.cons_ne_nil first rest)
    rw [render, List.isEmpty_cons, if_neg Bool.false_ne_true, List.append_assoc, List.cons_append]
    exact .generic harguments

theorem rendersArguments_renderArguments :
    ∀ ns : List TypeName, ns ≠ [] → RendersArguments ns (renderArguments ns)
  | [], h => absurd rfl h
  | [n], _ => by
    rw [renderArguments]
    exact .last (.bracketed (renders_render n))
  | n :: next :: rest, _ => by
    have hrest : RendersArguments (next :: rest) (renderArguments (next :: rest)) :=
      rendersArguments_renderArguments (next :: rest) (List.cons_ne_nil next rest)
    rw [renderArguments]
    · exact .next (.bracketed (renders_render n)) hrest
    · exact nofun

end

/-- A text that can be a name: it is not empty, and no blank at its end would be lost. -/
structure IsIdentifier (text : List Char) : Prop where
  nonempty : text ≠ []
  last : ∀ c ∈ text.getLast?, Text.isBlank c = false

/-- The test that no end of a text is a blank. -/
def endsPlain (c : Option Char) : Bool :=
  c.all fun c => !Text.isBlank c

theorem endsPlain_iff {c : Option Char} :
    endsPlain c = true ↔ ∀ x ∈ c, Text.isBlank x = false := by
  simp [endsPlain, Option.all_eq_true]

instance (text : List Char) : Decidable (IsIdentifier text) :=
  decidable_of_iff (text ≠ [] ∧ endsPlain text.getLast? = true)
    ⟨fun h => ⟨h.1, endsPlain_iff.mp h.2⟩, fun h => ⟨h.nonempty, endsPlain_iff.mpr h.last⟩⟩

/-- A text that can be an assembly: it is not empty, and no blank around it would be lost. -/
structure IsAssembly (text : List Char) : Prop where
  nonempty : text ≠ []
  first : ∀ c ∈ text.head?, Text.isBlank c = false
  last : ∀ c ∈ text.getLast?, Text.isBlank c = false

instance (text : List Char) : Decidable (IsAssembly text) :=
  decidable_of_iff (text ≠ [] ∧ endsPlain text.head? = true ∧ endsPlain text.getLast? = true)
    ⟨fun h => ⟨h.1, endsPlain_iff.mp h.2.1, endsPlain_iff.mp h.2.2⟩,
      fun h => ⟨h.nonempty, endsPlain_iff.mpr h.first, endsPlain_iff.mpr h.last⟩⟩

/-- A modifier whose rank, if it has one, is counted from one. -/
def IsModifier : TypeNameModifier → Prop
  | .array rank => 1 ≤ rank
  | _ => True

instance : DecidablePred IsModifier
  | .array rank => inferInstanceAs (Decidable (1 ≤ rank))
  | .szArray | .pointer | .byRef => isTrue trivial

/-- A name whose parts can be told from a text: the name of the outermost type has no point, which
would be taken for the end of its namespace. -/
inductive Proper : TypeName → Prop
  | intro {n : TypeName} (qualified : IsIdentifier n.qualifiedName.toList)
    (point : '.' ∉ n.name.toList) (nested : ∀ name ∈ n.nested, IsIdentifier name.toList)
    (modifiers : ∀ modifier ∈ n.modifiers, IsModifier modifier)
    (assembly : ∀ text ∈ n.assembly, IsAssembly text.toList)
    (arguments : ∀ argument ∈ n.arguments, Proper argument) : Proper n

end CilTrim.TypeName
