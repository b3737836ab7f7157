/-!
# XML tags

A document is the sequence of its tags. Which tags a text has, and what their attributes hold, is
told by a tokenizer, and whatever reads documents can be run with any of them:

* `Xml.Tag`, `Xml.Event`: a tag, and what it does;
* `Xml.Document`: the tags of a text, up to a fault if there is one;
* `Xml.Fault`: what is wrong with a text or with an attribute;
* `Xml.Tokenizer`: the tags of texts, and the attributes of tags.
-/

namespace CilTrim.Xml

/-- A blank between the parts of a tag. -/
def isSpace (c : Char) : Bool :=
  c == ' ' || c == '\t' || c == '\n' || c == '\r'

/-- A tag: its name, and what is written behind the name. -/
structure Tag where
  name : String
  rest : List Char
deriving Repr, DecidableEq

/-- What a tag does. -/
inductive Event where
  | opened (tag : Tag)
  /-- An element without content. -/
  | empty (tag : Tag)
  | closed (name : String)
deriving Repr, DecidableEq

/-- The tags of a text. -/
structure Document where
  events : List Event
  /-- The text is read to its end; otherwise a fault follows the tags. -/
  complete : Bool
deriving Repr, DecidableEq

/-- What is wrong with a text or with an attribute. -/
inductive Fault where
  /-- The text of the document breaks off, or an end tag closes nothing. -/
  | markup
  | missingValue
  | unquotedValue
  | unclosedValue
  | duplicateKey
  | reference
deriving Repr, DecidableEq

/-- The tags of texts, and the attributes of tags. -/
class Tokenizer where
  /-- The tags of a text. -/
  document : String → Document
  /-- The value of an attribute of a tag, if the tag has the attribute. -/
  value? : Tag → String → Except Fault (Option String)

end CilTrim.Xml
