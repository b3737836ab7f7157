import CilTrim.Xml.Attribute

/-!
# A scanner for XML

A tokenizer that goes through a text once. Text between tags, comments, character data, processing
instructions and document type declarations are passed over; tags need not be well nested at the
end of the text, but every end tag must close the innermost open one:

* `Xml.cutTag`, `Xml.markup?`: the next piece of markup;
* `Xml.scan`: the tags of a text, up to a fault if there is one;
* `Xml.scanner`: the tokenizer.
-/

namespace CilTrim.Xml

/-- The tag with the given text between its brackets. -/
def Tag.ofText (text : List Char) : Tag :=
  ⟨String.ofList (text.takeWhile (!isSpace ·)), text.dropWhile (!isSpace ·)⟩

/-- A piece of markup. -/
inductive Markup where
  | opened (tag : Tag)
  | empty (tag : Tag)
  | closed (name : String)
  | ignored
deriving Repr, DecidableEq

/-- A text up to the first closing bracket outside quotes, and what follows the bracket. Inside
quotes, `quote` is the mark that ends them. -/
def cutTag (quote : Option Char) : List Char → Option (List Char × List Char)
  | [] => none
  | c :: rest =>
    match quote with
    | some mark =>
      (cutTag (if c = mark then none else some mark) rest).map fun (text, tail) => (c :: text, tail)
    | none =>
      if c = '>' then some ([], rest)
      else
        (cutTag (if c = '\x22' || c = '\x27' then some c else none) rest).map
          fun (text, tail) => (c :: text, tail)

/-- A text up to the first closing bracket that `ends` accepts, told the characters before it in
reverse, and what follows the bracket. -/
def cutWhere (ends : List Char → Bool) (before : List Char) :
    List Char → Option (List Char × List Char)
  | [] => none
  | c :: rest =>
    if c = '>' && ends before then some (before.reverse, rest) else cutWhere ends (c :: before) rest

/-- A text up to the closing bracket that balances, and what follows the bracket. -/
def cutBalanced (depth : Nat) (before : List Char) : List Char → Option (List Char × List Char)
  | [] => none
  | c :: rest =>
    if c = '<' then cutBalanced (depth + 1) (c :: before) rest
    else if c = '>' then
      match depth with
      | 0 => some (before.reverse, rest)
      | depth + 1 => cutBalanced depth (c :: before) rest
    else cutBalanced depth (c :: before) rest

/-- A comment ends in two dashes that are not those it begins with. -/
def endsComment (before : List Char) : Bool :=
  4 < before.length && before.take 2 == ['-', '-']

/-- Character data ends in two brackets. -/
def endsData (before : List Char) : Bool :=
  before.take 2 == [']', ']']

/-- A processing instruction ends in a question mark. -/
def endsInstruction (before : List Char) : Bool :=
  before.take 1 == ['?']

/-- The text has the given beginning. -/
def beginsWith (text : List Char) (start : String) : Bool :=
  start.toList.isPrefixOf text

/-- A document type declaration: its keyword in any case, and something behind it. -/
def isDoctype (text : List Char) : Bool :=
  (text.take 8).map Char.toLower == "!doctype".toList && (text.drop 8).any (!isSpace ·)

/-- What a declaration that opens with an exclamation mark is: `cut` and then `valid` on it. -/
def declaration? (cut : Option (List Char × List Char)) (valid : List Char → Bool) :
    Option (Markup × List Char) :=
  match cut with
  | some (text, rest) => if valid text then some (.ignored, rest) else none
  | none => none

/-- The text without the blanks at its end, unless it is all blank. -/
def closingName (text : List Char) : List Char :=
  match text.reverse.dropWhile isSpace with
  | [] => text
  | trimmed => trimmed.reverse

/-- A tag that opens an element, which a slash at its end makes empty. -/
def openingMarkup (text : List Char) : Markup :=
  match text.reverse with
  | '/' :: before => .empty (Tag.ofText before.reverse)
  | _ => .opened (Tag.ofText text)

/-- The markup behind an opening bracket, and what follows it. -/
def markup? (text : List Char) : Option (Markup × List Char) :=
  match text with
  | [] => none
  | '!' :: '[' :: _ =>
    declaration? (cutWhere endsData [] text) (beginsWith · "![CDATA[")
  | '!' :: '-' :: _ => declaration? (cutWhere endsComment [] text) (beginsWith · "!--")
  | '!' :: 'D' :: _ | '!' :: 'd' :: _ => declaration? (cutBalanced 0 [] text) isDoctype
  | '!' :: _ => none
  | '?' :: _ => declaration? (cutWhere endsInstruction [] text) (1 < ·.length)
  | '/' :: rest =>
    (cutTag none rest).map fun (text, tail) =>
      (.closed (String.ofList (closingName text)), tail)
  | _ => (cutTag none text).map fun (text, tail) => (openingMarkup text, tail)

/-- A document with one more tag in front. -/
def Document.cons (event : Event) (d : Document) : Document :=
  { d with events := event :: d.events }

/-- The tags of a text inside the open elements, innermost first. Every step passes a bracket, so
`fuel` need only exceed the length of the text. -/
def scanFrom : Nat → List String → List Char → Document
  | 0, _, _ => ⟨[], true⟩
  | fuel + 1, stack, text =>
    match text.dropWhile (· != '<') with
    | [] => ⟨[], true⟩
    | _ :: text =>
      match markup? text with
      | none => ⟨[], false⟩
      | some (.ignored, rest) => scanFrom fuel stack rest
      | some (.opened tag, rest) =>
        (scanFrom fuel (tag.name :: stack) rest).cons (.opened tag)
      | some (.empty tag, rest) => (scanFrom fuel stack rest).cons (.empty tag)
      | some (.closed name, rest) =>
        match stack with
        | innermost :: outer =>
          if name = innermost then (scanFrom fuel outer rest).cons (.closed name)
          else ⟨[], false⟩
        | [] => ⟨[], false⟩

/-- The tags of a text. -/
def scan (text : String) : Document :=
  scanFrom (text.length + 1) [] text.toList

/-- Texts are scanned, and attributes are looked at in order. -/
instance scanner : Tokenizer where
  document := scan
  value? := Tag.attribute?

end CilTrim.Xml
