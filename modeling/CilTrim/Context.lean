import CilTrim.Descriptor.Parser
import CilTrim.Mark.Run
import CilTrim.Override.Search
import CilTrim.Xml.Scanner

/-!
# Link sessions

A session links one model: roots are chosen, a descriptor is applied, and what they need is marked.
The model never changes; all results are in the annotations:

* `Context`: annotations, options and the registry of special attributes;
* `Context.applyDescriptor`: reads a descriptor, with `Xml.scanner` unless another tokenizer is
  given, and makes roots of what it names;
* `Context.mark`: finds the overrides, unless some are known, and marks.
-/

namespace CilTrim

/-- The state of a session. -/
structure Context where
  annotations : Annotations
  options : MarkOptions
  special : SpecialAttributes

namespace Context

/-- A session in which nothing is known yet. -/
def ofOptions (options : MarkOptions) : Context where
  annotations := .empty
  options := options
  special := .framework

/-- A change of the annotations. -/
def onAnnotations (c : Context) (change : Annotations → Annotations) : Context :=
  { c with annotations := change c.annotations }

/-- The core library: the assembly that the options name, or the one that the model names. -/
def corlib? (c : Context) (m : Model) : Option Token :=
  ((m.findAssembly? c.options.corlibName).map (·.token)).or m.corlib

/-- Reads a descriptor and applies it. A descriptor that cannot be read changes nothing; one that
names an assembly without a definition is applied up to there. -/
def applyDescriptor [Xml.Tokenizer] (c : Context) (m : Model) (text : String) :
    Except Descriptor.Fault Unit × Context :=
  match Descriptor.parse text with
  | .error fault => (.error fault, c)
  | .ok descriptor =>
    match descriptor.apply m c.annotations with
    | (none, annotations) => (.ok (), { c with annotations })
    | (some name, annotations) => (.error (.notLoaded name), { c with annotations })

/-- The session with the override table of the model, if it has none. -/
def ensureOverrides (c : Context) (m : Model) : Context :=
  if c.annotations.overrides.isEmpty then
    c.onAnnotations fun a => { a with overrides := .ofModel m }
  else c

/-- What marking in this session depends on. -/
def setting (c : Context) (m : Model) : Setting where
  model := m
  policy := c.annotations.policy
  overrides := c.annotations.overrides
  options := c.options
  special := c.special
  corlib := c.corlib? m

/-- Marks everything that the roots need. What was marked before a fault stays marked. -/
def mark (c : Context) (m : Model) : Except MarkFault MarkStats × Context :=
  let c := c.ensureOverrides m
  let (result, marks) := (c.setting m).mark c.annotations.marks
  (result, c.onAnnotations fun a => { a with marks })

end Context

end CilTrim
