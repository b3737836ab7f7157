import CilTrim.Proofs.Xml.Outline

/-!
# Elements as texts

* `Xml.escape`: a value with references for the characters of markup;
* `Xml.SpellsAttributes`: the texts of attributes, with blanks between them, in either kind of
  quotes, and `Xml.Tag.Holds`: a tag with attributes;
* `Xml.Forest.Spells`: the texts of elements, with blanks between the tags;
* `Xml.Tokenizer.Faithful`: a tokenizer gives such texts their tags, and these their attributes;
* `Xml.Forest.written`: the text without blanks between the tags.
-/

namespace CilTrim.Xml

/-! ## Attributes -/

/-- A character, as a reference if it is one of markup. -/
def escapeChar (c : Char) : List Char :=
  if c = '&' then "&amp;".toList
  else if c = '<' then "&lt;".toList
  else if c = '>' then "&gt;".toList
  else if c = '\x22' then "&quot;".toList
  else if c = '\x27' then "&apos;".toList
  else [c]

/-- A value with references for the characters of markup. -/
def escape (value : List Char) : List Char :=
  value.flatMap escapeChar

/-- A character of the names of elements and of keys, which are plain words. -/
def isNameChar (c : Char) : Bool :=
  c.isAlphanum

/-- A name of an element, or a key. -/
def IsName (name : List Char) : Prop :=
  name ≠ [] ∧ ∀ c ∈ name, isNameChar c = true

instance {name : List Char} : Decidable (IsName name) :=
  @instDecidableAnd _ _ _ (List.decidableBAll _ name)

/-- A text of blanks. -/
def IsBlank (text : List Char) : Prop :=
  ∀ c ∈ text, isSpace c = true

instance {text : List Char} : Decidable (IsBlank text) :=
  List.decidableBAll _ text

/-- The texts of attributes, each behind blanks and with its value in either kind of quotes. Blanks
may follow. -/
inductive SpellsAttributes : List (String × String) → List Char → Prop where
  | nil {blanks : List Char} : IsBlank blanks → SpellsAttributes [] blanks
  | cons {key value : String} {attributes : List (String × String)} {mark : Char}
    {blanks text : List Char} : IsBlank blanks → blanks ≠ [] → IsName key.toList →
    mark = '\x22' ∨ mark = '\x27' → SpellsAttributes attributes text →
    SpellsAttributes ((key, value) :: attributes)
      (blanks ++ (key.toList ++ '=' :: (mark :: (escape value.toList ++ [mark]) ++ text)))

/-- A tag holds attributes. -/
structure Tag.Holds (tag : Tag) (attributes : List (String × String)) : Prop where
  name : IsName tag.name.toList
  distinct : (attributes.map (·.1)).Nodup
  spelled : SpellsAttributes attributes tag.rest

/-! ## Elements -/

/-- The text of a tag between its brackets. -/
def Tag.written (tag : Tag) : List Char :=
  tag.name.toList ++ tag.rest

namespace Forest

/-- The texts of elements, whose tags hold attributes, with blanks between the tags. -/
inductive Spells : Forest → List Char → Prop where
  | nil {layout : List Char} : IsBlank layout → Spells .nil layout
  | empty {tag : Tag} {rest : Forest} {attributes : List (String × String)}
    {layout text : List Char} : IsBlank layout → tag.Holds attributes → Spells rest text →
    Spells (.empty tag rest) (layout ++ '<' :: (tag.written ++ '/' :: '>' :: text))
  | node {tag : Tag} {inside rest : Forest} {attributes : List (String × String)}
    {layout content text : List Char} : IsBlank layout → tag.Holds attributes →
    Spells inside content → Spells rest text →
    Spells (.node tag inside rest) (layout ++ '<' :: (tag.written ++
      '>' :: (content ++ '<' :: '/' :: (tag.name.toList ++ '>' :: text))))

end Forest

/-- A tokenizer gives a text of elements the tags of these, and a tag its attributes. -/
structure Tokenizer.Faithful (x : Tokenizer) : Prop where
  document {f : Forest} {text : String} : f.Spells text.toList → x.document text = ⟨f.events, true⟩
  value? {tag : Tag} {attributes : List (String × String)} : tag.Holds attributes →
    ∀ key, x.value? tag key = .ok (attributes.lookup key)

/-! ## Writing -/

/-- Attributes, each behind a blank and with its value in double quotes. -/
def writeAttributes (attributes : List (String × String)) : List Char :=
  attributes.flatMap fun (key, value) =>
    ' ' :: (key.toList ++ '=' :: '\x22' :: (escape value.toList ++ ['\x22']))

/-- A tag with attributes. -/
def Tag.ofAttributes (name : String) (attributes : List (String × String)) : Tag :=
  ⟨name, writeAttributes attributes⟩

variable {attributes : List (String × String)}

theorem spells_writeAttributes (keys : ∀ a ∈ attributes, IsName a.1.toList) :
    SpellsAttributes attributes (writeAttributes attributes) := by
  induction attributes with
  | nil => exact .nil (by simp [IsBlank, writeAttributes])
  | cons a attributes ih =>
    have hspells := @SpellsAttributes.cons a.1 a.2 attributes '\x22' [' '] _ (by decide) (by decide)
      (keys a List.mem_cons_self) (.inl rfl) (ih fun b hb => keys b (List.mem_cons_of_mem _ hb))
    simpa [writeAttributes] using hspells

theorem Tag.holds_ofAttributes {name : String} (hname : IsName name.toList)
    (keys : ∀ a ∈ attributes, IsName a.1.toList) (distinct : (attributes.map (·.1)).Nodup) :
    (Tag.ofAttributes name attributes).Holds attributes :=
  ⟨hname, distinct, spells_writeAttributes keys⟩

/-- The text of elements without blanks between the tags. -/
def Forest.written : Forest → List Char
  | nil => []
  | empty tag rest => '<' :: (tag.written ++ '/' :: '>' :: rest.written)
  | node tag inside rest =>
    '<' :: (tag.written ++ '>' :: (inside.written ++
      '<' :: '/' :: (tag.name.toList ++ '>' :: rest.written)))

theorem Forest.spells_written {f : Forest}
    (h : f.All fun tag inside => (∃ attributes, tag.Holds attributes) ∧
      inside.Spells inside.written) : f.Spells f.written := by
  have hblank : IsBlank [] := by simp [IsBlank]
  induction f with
  | nil => exact .nil hblank
  | empty tag rest ih =>
    obtain ⟨⟨⟨attributes, htag⟩, -⟩, hrest⟩ := h
    exact .empty hblank htag (ih hrest)
  | node tag inside rest _ ih =>
    obtain ⟨⟨⟨attributes, htag⟩, hinside⟩, hrest⟩ := h
    exact .node hblank htag hinside (ih hrest)

end CilTrim.Xml
