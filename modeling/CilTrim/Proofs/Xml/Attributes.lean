import CilTrim.Proofs.Xml.Spelling
import CilTrim.Xml.Scanner
import Mathlib.Tactic.SplitIfs

/-!
# Scanning attributes

* `Xml.unescape_escape`: replacing the references of an escaped value gives the value again;
* `Xml.SpellsAttributes.passes`: a text of attributes ends no tag;
* `Xml.findValue_spells`: each value is found by its key.
-/

namespace CilTrim.Xml

/-! ## References -/

/-- A character that is a mark for quotes, or that ends a tag. -/
def isDelimiter (c : Char) : Bool :=
  c == '>' || c == '\x22' || c == '\x27'

/-- A text without delimiters. -/
def IsPlain (text : List Char) : Prop :=
  ∀ c ∈ text, isDelimiter c = false

instance {text : List Char} : Decidable (IsPlain text) :=
  List.decidableBAll _ text

theorem unescapeFrom_escapeChar (c : Char) (rest : List Char) :
    unescapeFrom none (escapeChar c ++ rest) = (unescapeFrom none rest).map (c :: ·) := by
  unfold escapeChar
  split_ifs with h₁ h₂ h₃ h₄ h₅
  case neg => simp [unescapeFrom, h₁]
  all_goals
    subst c
    rfl

/-- Replacing the references of an escaped value gives the value again. -/
theorem unescape_escape (value : List Char) : unescape (escape value) = .ok value := by
  unfold unescape escape
  induction value with
  | nil => rfl
  | cons c value ih =>
    rw [List.flatMap_cons, unescapeFrom_escapeChar, ih]
    rfl

theorem isPlain_escapeChar (c : Char) : IsPlain (escapeChar c) := by
  unfold escapeChar
  split_ifs with h₁ h₂ h₃ h₄ h₅
  case neg =>
    intro x hx
    rw [List.mem_singleton.mp hx]
    simp [isDelimiter, h₃, h₄, h₅]
  all_goals decide

/-- An escaped value has no marks for quotes and ends no tag. -/
theorem isPlain_escape {value : List Char} : IsPlain (escape value) := by
  intro x hx
  obtain ⟨c, -, hc⟩ := List.mem_flatMap.mp hx
  exact isPlain_escapeChar c x hc

/-! ## Names -/

variable {name key blanks text rest value : List Char} {c mark : Char}

/-- A character of a name is not one that no name has. -/
theorem ne_of_isNameChar {other : Char} (h : isNameChar c = true)
    (hother : isNameChar other = false) : c ≠ other := by
  rintro rfl
  rw [h] at hother
  cases hother

theorem isSpace_of_isNameChar (h : isNameChar c = true) : isSpace c = false := by
  have hne (other : Char) (hother : isNameChar other = false) : (c == other) = false :=
    beq_false_of_ne (ne_of_isNameChar h hother)
  rw [isSpace, hne ' ' (by decide), hne '\t' (by decide), hne '\n' (by decide),
    hne '\r' (by decide)]
  rfl

theorem isDelimiter_of_isNameChar (h : isNameChar c = true) : isDelimiter c = false := by
  have hne (other : Char) (hother : isNameChar other = false) : (c == other) = false :=
    beq_false_of_ne (ne_of_isNameChar h hother)
  rw [isDelimiter, hne '>' (by decide), hne '\x22' (by decide), hne '\x27' (by decide)]
  rfl

theorem isDelimiter_of_isSpace (h : isSpace c = true) : isDelimiter c = false := by
  simp only [isSpace, Bool.or_eq_true, beq_iff_eq] at h
  rcases h with ((h | h) | h) | h
  all_goals
    subst h
    decide

theorem IsName.isPlain (h : IsName name) : IsPlain name :=
  fun c hc => isDelimiter_of_isNameChar (h.2 c hc)

theorem IsBlank.isPlain (h : IsBlank blanks) : IsPlain blanks :=
  fun c hc => isDelimiter_of_isSpace (h c hc)

theorem dropWhile_blank (h : IsBlank blanks) (hrest : ∀ c ∈ rest.head?, isSpace c = false) :
    (blanks ++ rest).dropWhile isSpace = rest := by
  rw [List.dropWhile_append_of_pos h]
  cases rest with
  | nil => rfl
  | cons c rest =>
    rw [List.dropWhile_cons_of_neg]
    simpa using hrest

/-! ## Tags -/

/-- A text without delimiters outside quotes, as part of a tag. -/
def Passes (text : List Char) : Prop :=
  ∀ rest, cutTag none (text ++ rest) =
    (cutTag none rest).map fun (found, tail) => (text ++ found, tail)

theorem Passes.append (h : Passes text) (hrest : Passes rest) : Passes (text ++ rest) := by
  intro tail
  rw [List.append_assoc, h, hrest, Option.map_map]
  simp only [Function.comp_def, List.append_assoc]

theorem cutTag_plain (h : isDelimiter c = false) :
    cutTag none (c :: rest) = (cutTag none rest).map fun (found, tail) => (c :: found, tail) := by
  simp only [isDelimiter, Bool.or_eq_false_iff, beq_eq_false_iff_ne] at h
  simp [cutTag, h]

theorem cutTag_mark (h : mark = '\x22' ∨ mark = '\x27') : cutTag none (mark :: rest) =
    (cutTag (some mark) rest).map fun (found, tail) => (mark :: found, tail) := by
  rcases h with rfl | rfl
  all_goals rfl

theorem passes_of_plain (h : IsPlain text) : Passes text := by
  induction text with
  | nil =>
    intro rest
    simp
  | cons c text ih =>
    intro rest
    have htext : Passes text := ih fun c hc => h c (List.mem_cons_of_mem _ hc)
    rw [List.cons_append, cutTag_plain (h c List.mem_cons_self), htext, Option.map_map]
    rfl

/-- Inside quotes, a text without their mark is passed, with the mark. -/
theorem cutTag_quoted (h : mark ∉ value) : cutTag (some mark) (value ++ mark :: rest) =
    (cutTag none rest).map fun (found, tail) => (value ++ mark :: found, tail) := by
  induction value with
  | nil => simp [cutTag]
  | cons c value ih =>
    have hc : c ≠ mark := fun heq => h (heq ▸ List.mem_cons_self)
    have hvalue : mark ∉ value := fun hmem => h (List.mem_cons_of_mem _ hmem)
    rw [List.cons_append, cutTag]
    dsimp only
    rw [if_neg hc, ih hvalue, Option.map_map]
    rfl

theorem passes_quoted (hmark : mark = '\x22' ∨ mark = '\x27') (h : mark ∉ value) :
    Passes (mark :: (value ++ [mark])) := by
  intro rest
  rw [List.cons_append, cutTag_mark hmark, List.append_assoc, List.singleton_append,
    cutTag_quoted h, Option.map_map]
  simp [Function.comp_def]

/-! ## Attributes -/

theorem not_mem_escape (hmark : mark = '\x22' ∨ mark = '\x27') : mark ∉ escape value := by
  intro h
  have hdelimiter := isPlain_escape mark h
  rcases hmark with rfl | rfl
  all_goals cases hdelimiter

theorem SpellsAttributes.passes {attributes : List (String × String)}
    (h : SpellsAttributes attributes text) : Passes text := by
  induction h with
  | nil hblanks => exact passes_of_plain hblanks.isPlain
  | @cons key value _ mark blanks text hblanks _ hkey hmark _ ih =>
    have hbefore : Passes blanks := passes_of_plain hblanks.isPlain
    have hname : Passes key.toList := passes_of_plain hkey.isPlain
    have hequals : Passes ['='] := passes_of_plain (by decide)
    have hvalue := passes_quoted hmark (@not_mem_escape value.toList _ hmark)
    exact hbefore.append (hname.append (hequals.append (hvalue.append ih)))

theorem cutKey_spells (h : IsName key) : cutKey (key ++ '=' :: rest) = .ok (key, rest) := by
  obtain ⟨hne, hchars⟩ := h
  cases key with
  | nil => exact absurd rfl hne
  | cons c key =>
    have hkey : ∀ x ∈ key, (!x == '=' && !isSpace x) = true := by
      intro x hx
      have hchar := hchars x (List.mem_cons_of_mem _ hx)
      have hne : x ≠ '=' := ne_of_isNameChar hchar (by decide)
      simp [hne, isSpace_of_isNameChar hchar]
    have hequals : isSpace '=' = false := by decide
    unfold cutKey
    simp [List.takeWhile_append_of_pos hkey, List.dropWhile_append_of_pos hkey, hequals]

theorem cutValue_spells (hmark : mark = '\x22' ∨ mark = '\x27') (h : mark ∉ value) :
    cutValue (mark :: (value ++ [mark]) ++ rest) = .ok (value, rest) := by
  have hspace : isSpace mark = false := by
    rcases hmark with rfl | rfl
    all_goals decide
  have hvalue : ∀ x ∈ value, (x != mark) = true := by
    intro x hx
    simp only [bne_iff_ne]
    exact fun heq => h (heq ▸ hx)
  unfold cutValue
  simp [hspace, hmark, List.takeWhile_append_of_pos hvalue, List.dropWhile_append_of_pos hvalue]

theorem findValue_step {wanted : List Char} {seen : List (List Char)} {fuel : Nat}
    (hblanks : IsBlank blanks) (hkey : IsName key) (hseen : key ∉ seen)
    (hmark : mark = '\x22' ∨ mark = '\x27') (hvalue : mark ∉ value) :
    findValue wanted (fuel + 1) seen
        (blanks ++ (key ++ '=' :: (mark :: (value ++ [mark]) ++ rest))) =
      if key = wanted then .ok (some value) else findValue wanted fuel (key :: seen) rest := by
  generalize hquoted : mark :: (value ++ [mark]) ++ rest = quoted
  have hcutKey : cutKey (key ++ '=' :: quoted) = .ok (key, quoted) := cutKey_spells hkey
  have hcutValue : cutValue quoted = .ok (value, rest) := by
    rw [← hquoted]
    exact cutValue_spells hmark hvalue
  obtain ⟨c, cs, hcons⟩ := List.exists_cons_of_ne_nil hkey.1
  have hdrop : (blanks ++ (key ++ '=' :: quoted)).dropWhile isSpace = key ++ '=' :: quoted := by
    refine dropWhile_blank hblanks fun x hx => ?_
    rw [hcons, List.cons_append, List.head?_cons, Option.mem_some_iff] at hx
    exact isSpace_of_isNameChar (hkey.2 x (hx ▸ hcons ▸ List.mem_cons_self))
  have hne : key ++ '=' :: quoted ≠ [] := by simp
  rw [findValue, hdrop]
  split
  case h_1 hnil => exact absurd hnil hne
  case h_2 =>
    simp only [hcutKey, hcutValue, bind, Except.bind, if_neg hseen]
    rfl

/-- Each value is found by its key, if no key stands twice. -/
theorem findValue_spells {attributes : List (String × String)}
    (h : SpellsAttributes attributes text) {wanted : String} {seen : List (List Char)} {fuel : Nat}
    (hfuel : text.length < fuel) (distinct : (attributes.map (·.1)).Nodup)
    (hseen : ∀ a ∈ attributes, a.1.toList ∉ seen) :
    findValue wanted.toList fuel seen text =
      .ok ((attributes.lookup wanted).map fun value => escape value.toList) := by
  -- The keys of the attributes that are passed are added to `seen`, and no other one is among them.
  induction h generalizing seen fuel with
  | @nil blanks hblanks =>
    cases fuel with
    | zero => omega
    | succ fuel =>
      have hnone : blanks.dropWhile isSpace = [] := by
        have hdrop := @dropWhile_blank blanks [] hblanks (by simp)
        rwa [List.append_nil] at hdrop
      simp [findValue, hnone]
  | @cons key value attributes mark blanks text hblanks _ hkey hmark _ ih =>
    cases fuel with
    | zero => omega
    | succ fuel =>
      rw [findValue_step hblanks hkey (hseen _ List.mem_cons_self) hmark (not_mem_escape hmark)]
      rw [List.map_cons, List.nodup_cons] at distinct
      by_cases heq : key = wanted
      · subst heq
        simp
      · have hne : key.toList ≠ wanted.toList := fun h => heq (String.toList_inj.mp h)
        have hbeq : (wanted == key) = false := by simpa using Ne.symm heq
        rw [if_neg hne, List.lookup_cons, hbeq]
        refine ih ?_ distinct.2 fun a ha => ?_
        · simp only [List.length_append, List.length_cons] at hfuel
          omega
        · rw [List.mem_cons, not_or]
          refine ⟨fun hsame => ?_, hseen a (List.mem_cons_of_mem _ ha)⟩
          exact distinct.1 (List.mem_map.mpr ⟨a, ha, String.toList_inj.mp hsame⟩)

end CilTrim.Xml
