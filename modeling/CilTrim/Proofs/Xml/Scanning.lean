import CilTrim.Proofs.Xml.Attributes

/-!
# Scanning elements

The scanner is a tokenizer to rely on:

* `Xml.scan_nested`: every end tag of a text closes the innermost open element;
* `Xml.Tag.Holds.attribute?_eq`: the attributes of a tag have their values;
* `Xml.scan_of_spells`: the tags of a text of elements are those of the elements;
* `Xml.scanner_faithful`: so the scanner is faithful.
-/

namespace CilTrim.Xml

variable {tag : Tag} {attributes : List (String × String)} {text rest layout : List Char}
  {fuel : Nat} {stack : List String}

/-! ## Nesting -/

theorem scanFrom_nested (fuel : Nat) (stack : List String) (text : List Char) :
    Nested stack (scanFrom fuel stack text).events := by
  fun_induction scanFrom fuel stack text with
  | case1 | case2 | case3 | case8 | case9 => exact .nil
  | case4 _ _ _ _ _ _ _ _ ih => exact ih
  | case5 _ _ _ _ _ _ _ _ _ ih => exact .opened ih
  | case6 _ _ _ _ _ _ _ _ _ ih => exact .empty ih
  | case7 _ _ _ _ _ _ innermost outer _ ih => exact .closed ih

/-- Every end tag of a text closes the innermost open element. -/
theorem scan_nested (text : String) : Nested [] (scan text).events :=
  scanFrom_nested _ _ _

/-! ## Tags -/

/-- The attributes of a tag have their values. -/
theorem Tag.Holds.attribute?_eq (h : tag.Holds attributes) (key : String) :
    tag.attribute? key = .ok (attributes.lookup key) := by
  unfold Tag.attribute?
  rw [findValue_spells h.spelled (Nat.lt_succ_self _) h.distinct (by simp)]
  cases attributes.lookup key with
  | none => rfl
  | some value =>
    simp only [Option.map_some, bind, Except.bind, unescape_escape, String.ofList_toList]
    rfl

theorem Tag.Holds.passes (h : tag.Holds attributes) : Passes tag.written :=
  (passes_of_plain h.name.isPlain).append h.spelled.passes

/-- What follows a name is a blank. -/
theorem SpellsAttributes.head (h : SpellsAttributes attributes text) :
    ∀ c ∈ text.head?, isSpace c = true := by
  intro c hc
  cases h with
  | nil hblanks => exact hblanks c (List.mem_of_mem_head? hc)
  | @cons _ _ _ _ blanks _ hblanks hne _ _ _ =>
    obtain ⟨b, bs, hcons⟩ := List.exists_cons_of_ne_nil hne
    rw [hcons, List.cons_append, List.head?_cons, Option.mem_some_iff] at hc
    exact hblanks c (hc ▸ hcons ▸ List.mem_cons_self)

/-- Attributes do not end in a slash. -/
theorem SpellsAttributes.last (h : SpellsAttributes attributes text) :
    ∀ c ∈ text.getLast?, c ≠ '/' := by
  induction h with
  | nil hblanks =>
    intro c hc heq
    have hspace := hblanks c (List.mem_of_mem_getLast? hc)
    rw [heq] at hspace
    cases hspace
  | @cons _ _ _ mark _ text _ _ _ hmark _ ih =>
    intro c hc
    cases text with
    | nil =>
      have hmarked : mark = c := by simpa [List.getLast?_append, List.getLast?_cons] using hc
      rw [← hmarked]
      rcases hmark with rfl | rfl
      all_goals decide
    | cons x text =>
      refine ih c ?_
      simpa [List.getLast?_append, List.getLast?_cons] using hc

theorem Tag.Holds.last (h : tag.Holds attributes) : ∀ c ∈ tag.written.getLast?, c ≠ '/' := by
  intro c hc
  unfold Tag.written at hc
  rw [List.getLast?_append] at hc
  cases hrest : tag.rest.getLast? with
  | none =>
    rw [hrest, Option.none_or] at hc
    exact ne_of_isNameChar (h.name.2 c (List.mem_of_mem_getLast? hc)) (by decide)
  | some last =>
    rw [hrest, Option.some_or, Option.mem_some_iff] at hc
    exact h.spelled.last c (hc ▸ hrest)

theorem Tag.Holds.ofText_written (h : tag.Holds attributes) : Tag.ofText tag.written = tag := by
  have hname : ∀ c ∈ tag.name.toList, (!isSpace c) = true := by
    intro c hc
    rw [isSpace_of_isNameChar (h.name.2 c hc)]
    rfl
  have hhead := h.spelled.head
  obtain ⟨name, rest⟩ := tag
  unfold Tag.ofText Tag.written
  rw [List.takeWhile_append_of_pos hname, List.dropWhile_append_of_pos hname]
  cases rest with
  | nil => simp
  | cons c rest =>
    have hc : isSpace c = true := hhead c rfl
    simp [hc]

theorem Tag.Holds.openingMarkup_written (h : tag.Holds attributes) :
    openingMarkup tag.written = .opened tag := by
  have hlast := h.last
  unfold openingMarkup
  split
  case h_1 before hreverse =>
    rw [List.getLast?_eq_head?_reverse, hreverse] at hlast
    exact absurd rfl (hlast '/' rfl)
  case h_2 => rw [h.ofText_written]

theorem Tag.Holds.openingMarkup_slash (h : tag.Holds attributes) :
    openingMarkup (tag.written ++ ['/']) = .empty tag := by
  simp [openingMarkup, h.ofText_written]

/-! ## Markup -/

theorem cutTag_of_passes {chars : List Char} (h : Passes chars) :
    cutTag none (chars ++ '>' :: rest) = some (chars, rest) := by
  rw [h]
  simp [cutTag]

/-- A text that begins as a name does is the text of a tag. -/
theorem markup?_opening {c : Char} {chars : List Char} (h : isNameChar c = true)
    (passes : Passes (c :: chars)) :
    markup? (c :: (chars ++ '>' :: rest)) = some (openingMarkup (c :: chars), rest) := by
  have hslash : c ≠ '/' := ne_of_isNameChar h (by decide)
  have hbang : c ≠ '!' := ne_of_isNameChar h (by decide)
  have hquestion : c ≠ '?' := ne_of_isNameChar h (by decide)
  have hcut : cutTag none (c :: (chars ++ '>' :: rest)) = some (c :: chars, rest) :=
    cutTag_of_passes passes
  simp [markup?, hslash, hbang, hquestion, hcut]

theorem Tag.Holds.markup?_opened (h : tag.Holds attributes) :
    markup? (tag.written ++ '>' :: rest) = some (.opened tag, rest) := by
  obtain ⟨c, name, hname⟩ := List.exists_cons_of_ne_nil h.name.1
  have hwritten : tag.written = c :: (name ++ tag.rest) := by
    rw [Tag.written, hname, List.cons_append]
  have hpasses := h.passes
  have hmarkup := h.openingMarkup_written
  have hc : isNameChar c = true := h.name.2 c (hname ▸ List.mem_cons_self)
  rw [hwritten] at hpasses hmarkup ⊢
  rw [List.cons_append, markup?_opening hc hpasses, hmarkup]

theorem Tag.Holds.markup?_empty (h : tag.Holds attributes) :
    markup? (tag.written ++ '/' :: '>' :: rest) = some (.empty tag, rest) := by
  obtain ⟨c, name, hname⟩ := List.exists_cons_of_ne_nil h.name.1
  have hslash : Passes ['/'] := passes_of_plain (by decide)
  have hwritten : tag.written ++ ['/'] = c :: (name ++ tag.rest ++ ['/']) := by
    rw [Tag.written, hname, List.cons_append, List.cons_append]
  have hpasses := h.passes.append hslash
  have hmarkup := h.openingMarkup_slash
  have hc : isNameChar c = true := h.name.2 c (hname ▸ List.mem_cons_self)
  have hends : tag.written ++ '/' :: '>' :: rest = tag.written ++ ['/'] ++ '>' :: rest := by simp
  rw [hends]
  rw [hwritten] at hpasses hmarkup ⊢
  rw [List.cons_append, markup?_opening hc hpasses, hmarkup]

theorem closingName_eq {name : List Char} (h : ∀ c ∈ name, isSpace c = false) :
    closingName name = name := by
  have hsame : name.reverse.dropWhile isSpace = name.reverse := by
    refine @dropWhile_blank [] name.reverse (by simp [IsBlank]) fun c hc => ?_
    exact h c (List.mem_reverse.mp (List.mem_of_mem_head? hc))
  unfold closingName
  rw [hsame]
  split
  · rfl
  · rw [List.reverse_reverse]

theorem markup?_closed {name : List Char} (h : IsName name) :
    markup? ('/' :: (name ++ '>' :: rest)) = some (.closed (String.ofList name), rest) := by
  have hpasses : Passes name := passes_of_plain h.isPlain
  have hname : closingName name = name :=
    closingName_eq fun c hc => isSpace_of_isNameChar (h.2 c hc)
  simp [markup?, cutTag_of_passes hpasses, hname]

/-! ## Scanning -/

/-- Tags in front of a document. -/
def Document.prepend (events : List Event) (d : Document) : Document :=
  { d with events := events ++ d.events }

theorem scanFrom_layout (h : IsBlank layout) :
    scanFrom fuel stack (layout ++ rest) = scanFrom fuel stack rest := by
  have hpass : ∀ c ∈ layout, (c != '<') = true := by
    intro c hc
    have hspace := h c hc
    rw [bne_iff_ne]
    intro heq
    rw [heq] at hspace
    cases hspace
  cases fuel with
  | zero => rfl
  | succ fuel => rw [scanFrom, scanFrom, List.dropWhile_append_of_pos hpass]

theorem scanFrom_opened (h : tag.Holds attributes) :
    scanFrom (fuel + 1) stack ('<' :: (tag.written ++ '>' :: rest)) =
      (scanFrom fuel (tag.name :: stack) rest).cons (.opened tag) := by
  simp [scanFrom, h.markup?_opened]

theorem scanFrom_empty (h : tag.Holds attributes) :
    scanFrom (fuel + 1) stack ('<' :: (tag.written ++ '/' :: '>' :: rest)) =
      (scanFrom fuel stack rest).cons (.empty tag) := by
  simp [scanFrom, h.markup?_empty]

theorem scanFrom_closed {name : String} (h : IsName name.toList) :
    scanFrom (fuel + 1) (name :: stack) ('<' :: '/' :: (name.toList ++ '>' :: rest)) =
      (scanFrom fuel stack rest).cons (.closed name) := by
  simp [scanFrom, markup?_closed h]

/-! ## Elements -/

namespace Forest

/-- The tags of a text of elements are scanned, whatever follows. -/
theorem Spells.scanFrom_eq {f : Forest} {text : List Char} (h : f.Spells text) {fuel : Nat}
    {stack : List String} {rest : List Char} (hfuel : (text ++ rest).length < fuel) :
    ∃ fuel', rest.length < fuel' ∧
      scanFrom fuel stack (text ++ rest) = (scanFrom fuel' stack rest).prepend f.events := by
  induction h generalizing fuel stack rest with
  | nil hlayout =>
    refine ⟨fuel, ?_, ?_⟩
    · simp only [List.length_append] at hfuel
      omega
    · rw [scanFrom_layout hlayout]
      rfl
  | @empty tag others _ layout text hlayout htag _ ih =>
    simp only [List.length_append, List.length_cons] at hfuel
    obtain ⟨fuel, rfl⟩ : ∃ n, fuel = n + 1 := ⟨fuel - 1, by omega⟩
    obtain ⟨fuel', hfuel', hscan⟩ := @ih fuel stack rest (by simp only [List.length_append]; omega)
    refine ⟨fuel', hfuel', ?_⟩
    rw [List.append_assoc, scanFrom_layout hlayout]
    simp only [List.cons_append, List.append_assoc]
    rw [scanFrom_empty htag, hscan]
    rfl
  | @node tag inside others _ layout content text hlayout htag _ _ ihcontent ihtext =>
    simp only [List.length_append, List.length_cons] at hfuel
    obtain ⟨fuel, rfl⟩ : ∃ n, fuel = n + 1 := ⟨fuel - 1, by omega⟩
    -- The end tag, with what stands behind it.
    generalize hending : '<' :: '/' :: (tag.name.toList ++ '>' :: (text ++ rest)) = ending
    have hlength : ending.length = tag.name.toList.length + text.length + rest.length + 3 := by
      rw [← hending]
      simp only [List.length_append, List.length_cons]
      omega
    obtain ⟨fuel₁, hfuel₁, hcontent⟩ := @ihcontent fuel (tag.name :: stack) ending
      (by simp only [List.length_append]; omega)
    obtain ⟨fuel₂, rfl⟩ : ∃ n, fuel₁ = n + 1 := ⟨fuel₁ - 1, by omega⟩
    obtain ⟨fuel', hfuel', htext⟩ := @ihtext fuel₂ stack rest
      (by simp only [List.length_append]; omega)
    refine ⟨fuel', hfuel', ?_⟩
    rw [List.append_assoc, scanFrom_layout hlayout]
    simp only [List.cons_append, List.append_assoc]
    rw [scanFrom_opened htag, hending, hcontent, ← hending, scanFrom_closed htag.name, htext]
    simp [Document.prepend, Document.cons, Forest.events]

end Forest

/-- The tags of a text of elements are those of the elements. -/
theorem scan_of_spells {f : Forest} {text : String} (h : f.Spells text.toList) :
    scan text = ⟨f.events, true⟩ := by
  have hfuel : (text.toList ++ []).length < text.length + 1 := by
    rw [List.append_nil, String.length_toList]
    exact Nat.lt_succ_self _
  obtain ⟨fuel, hrest, hscan⟩ := @Forest.Spells.scanFrom_eq f _ h _ [] [] hfuel
  rw [List.append_nil] at hscan
  obtain ⟨fuel, rfl⟩ : ∃ n, fuel = n + 1 := ⟨fuel - 1, by rw [List.length_nil] at hrest; omega⟩
  rw [scan, hscan]
  simp [scanFrom, Document.prepend]

theorem scanner_faithful : scanner.Faithful :=
  ⟨scan_of_spells, Tag.Holds.attribute?_eq⟩

end CilTrim.Xml
