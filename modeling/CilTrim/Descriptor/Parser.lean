import CilTrim.Descriptor.Basic
import CilTrim.Xml.Event

/-!
# Reading descriptors

A descriptor is written in XML: `linker` holds `assembly` elements, these hold `type` elements, and
these hold empty `method` and `field` elements. Names are required and not empty, and the words for
actions and members may be in any case. The tags of a text and their attributes are told by a
tokenizer:

* `Descriptor.Fault`: why a text is no descriptor, or why one cannot be applied;
* `Descriptor.Progress`: what has been read so far, and `Descriptor.Progress.step`: one tag more;
* `Descriptor.parse`: the descriptor that a text is.
-/

namespace CilTrim.Descriptor

/-- Why a text is no descriptor, or why one cannot be applied. -/
inductive Fault where
  | xml (cause : Xml.Fault)
  /-- An element stands where it may not. -/
  | misplaced (element : String)
  | missing (element key : String)
  | invalid (key value : String)
  | unterminated
  /-- The model does not have an assembly. -/
  | notLoaded (assembly : String)
deriving Repr, DecidableEq

/-- The wording of a fault. The wording of faults of XML is not fixed. -/
def Fault.message : Fault → String
  | .xml _ => "Invalid descriptor - malformed XML"
  | .misplaced element => "Invalid descriptor - unexpected element <" ++ element ++ ">"
  | .missing element key =>
    "Invalid descriptor - <" ++ element ++ "> requires a '" ++ key ++ "' attribute"
  | .invalid key value => "Invalid descriptor - invalid " ++ key ++ " '" ++ value ++ "'"
  | .unterminated => "Invalid descriptor - unterminated <linker> element"
  | .notLoaded assembly => "Invalid descriptor - assembly '" ++ assembly ++ "' is not loaded"

/-! ## Attributes -/

section Attributes

variable [Xml.Tokenizer]

/-- The value of an attribute, which may be missing. -/
def attribute? (tag : Xml.Tag) (key : String) : Except Fault (Option String) :=
  (Xml.Tokenizer.value? tag key).mapError .xml

/-- The value of an attribute that must be there and not be empty. -/
def required (tag : Xml.Tag) (key : String) : Except Fault String := do
  match ← attribute? tag key with
  | some value => if value.isEmpty then throw (.missing tag.name key) else pure value
  | none => throw (.missing tag.name key)

/-- What the value of an attribute stands for, if it is there. -/
def optionalWord {α : Type} (ofWord? : String → Option α) (tag : Xml.Tag) (key : String) :
    Except Fault (Option α) := do
  match ← attribute? tag key with
  | none => pure none
  | some value =>
    match ofWord? value.toLower with
    | some meaning => pure (some meaning)
    | none => throw (.invalid key value)

/-- The entry that a tag for an assembly opens. -/
def assemblyEntry (tag : Xml.Tag) : Except Fault AssemblyEntry := do
  let fullName ← required tag "fullname"
  let action ← optionalWord LinkAction.ofWord? tag "action"
  pure { fullName, action, types := [] }

/-- The entry that a tag for a type opens. -/
def typeEntry (tag : Xml.Tag) : Except Fault TypeEntry := do
  let fullName ← required tag "fullname"
  let preserve ← optionalWord TypePreserve.ofWord? tag "preserve"
  pure { fullName, preserve, methods := [], fields := [] }

end Attributes

/-! ## Elements -/

/-- What has been read so far. -/
structure Progress where
  /-- A `linker` element is open. -/
  inLinker : Bool
  /-- The assembly whose element is open. -/
  assembly : Option AssemblyEntry
  /-- The type whose element is open. -/
  type : Option TypeEntry
  /-- The assemblies that are complete. -/
  assemblies : List AssemblyEntry
deriving Repr, DecidableEq

namespace Progress

/-- Nothing has been read. -/
def start : Progress := ⟨false, none, none, []⟩

/-- A tag that opens an element. -/
def opened [Xml.Tokenizer] (p : Progress) (tag : Xml.Tag) : Except Fault Progress :=
  match tag.name, p.assembly, p.type with
  | "linker", _, _ => pure { p with inLinker := true }
  | "assembly", none, _ =>
    if p.inLinker then do pure { p with assembly := some (← assemblyEntry tag) }
    else throw (.misplaced tag.name)
  | "type", some _, none => do pure { p with type := some (← typeEntry tag) }
  | _, _, _ => throw (.misplaced tag.name)

/-- A tag for an element without content. -/
def empty [Xml.Tokenizer] (p : Progress) (tag : Xml.Tag) : Except Fault Progress :=
  match tag.name, p.assembly, p.type with
  | "linker", _, _ => pure p
  | "assembly", none, _ =>
    if p.inLinker then do pure { p with assemblies := p.assemblies ++ [← assemblyEntry tag] }
    else throw (.misplaced tag.name)
  | "type", some assembly, none => do
    pure { p with assembly := some (assembly.addType (← typeEntry tag)) }
  | "method", _, some type => do
    pure { p with type := some { type with methods := type.methods ++ [← required tag "name"] } }
  | "field", _, some type => do
    pure { p with type := some { type with fields := type.fields ++ [← required tag "name"] } }
  | _, _, _ => throw (.misplaced tag.name)

/-- A tag that closes an element. -/
def closed (p : Progress) (name : String) : Progress :=
  match name, p.assembly, p.type with
  | "type", some assembly, some type =>
    { p with assembly := some (assembly.addType type), type := none }
  | "type", none, _ => { p with type := none }
  | "assembly", some assembly, _ =>
    { p with assemblies := p.assemblies ++ [assembly], assembly := none }
  | "linker", _, _ => { p with inLinker := false }
  | _, _, _ => p

/-- One tag more. -/
def step [Xml.Tokenizer] (p : Progress) : Xml.Event → Except Fault Progress
  | .opened tag => p.opened tag
  | .empty tag => p.empty tag
  | .closed name => pure (p.closed name)

/-- The descriptor, at the end of the text. -/
def finish (p : Progress) : Except Fault Descriptor :=
  if p.inLinker || p.assembly.isSome then throw .unterminated else pure ⟨p.assemblies⟩

end Progress

/-- The descriptor that the tags of a text write. -/
def ofDocument [Xml.Tokenizer] (d : Xml.Document) : Except Fault Descriptor := do
  let last ← d.events.foldlM Progress.step Progress.start
  if d.complete then last.finish else throw (.xml .markup)

/-- The descriptor that a text is. -/
def parse [Xml.Tokenizer] (text : String) : Except Fault Descriptor :=
  ofDocument (Xml.Tokenizer.document text)

end CilTrim.Descriptor
