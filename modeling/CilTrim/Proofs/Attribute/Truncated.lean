import CilTrim.Proofs.Attribute.Decoded
import CilTrim.Proofs.Blob.Truncation

/-!
# Attribute values that were cut short

The decoder is lenient about what is missing at the end of a blob: the count of the named arguments
may be left out, fewer of them may follow than announced, and a value without parameters needs no
bytes at all. None of this changes a value that is there. What is left of a blob decodes to the same
arguments of the constructor, with the first of the named arguments, or it does not decode:

* `agrees_kindAt`, `agrees_valueAt`: a kind or a value is read as it was, or not at all;
* `shortens_namedArguments`: only last named arguments are missing;
* `decode_of_cut`: the same for whole attribute values.
-/

namespace CilTrim.Attribute

open Blob Decode

variable {resolver : EnumResolver}

theorem agrees_read {α : Type} {m : Read α} (h : Agrees m m) : Agrees (read m) (read m) := by
  intro r₀ r a r' hcut ha
  unfold Decode.read
  rcases h _ _ _ _ hcut (eq_ok_of_read ha) with ⟨fault, r₀', hfault⟩ | ⟨r₀', hb, hcut'⟩
  · rw [hfault]
    exact .inl ⟨_, _, rfl⟩
  · rw [hb]
    exact .inr ⟨r₀', rfl, hcut'⟩

theorem agrees_times {α : Type} {step : Decode α} (h : Agrees step step) (n : Nat) :
    Agrees (times step n) (times step n) := by
  induction n with
  | zero => exact agrees_pure []
  | succ n ih => exact h.bind fun a => ih.bind fun as => agrees_pure (a :: as)

/-! ## Kinds and values -/

theorem agrees_enumUnderlying (name : String) :
    Agrees (enumUnderlying resolver name) (enumUnderlying resolver name) := by
  unfold enumUnderlying
  split
  · exact agrees_throw _ _
  · split
    · exact agrees_pure _
    · exact agrees_throw _ _

/-- The kind in front of a boxed value or of a named argument. -/
theorem agrees_kindAt (levels : Nat) : Agrees (kindAt resolver levels) (kindAt resolver levels) := by
  induction levels with
  | zero => exact agrees_throw _ _
  | succ levels ih =>
    refine (agrees_read agrees_byte).bind fun tag => ?_
    split
    · exact agrees_pure _
    · split
      · exact ih.bind fun element => agrees_pure _
      · split
        · refine (agrees_read agrees_serString).bind fun name => ?_
          split
          · exact agrees_throw _ _
          · exact (agrees_enumUnderlying _).bind fun underlying => agrees_pure _
        · exact agrees_throw _ _

theorem agrees_word_map (width : Nat) (f : Nat → Argument) :
    Agrees (do pure (f (← read (Read.word width)))) (do pure (f (← read (Read.word width)))) :=
  (agrees_read (agrees_word width)).bind fun n => agrees_pure (f n)

theorem agrees_text_map (f : Option String → Argument) :
    Agrees (do pure (f (← read Read.serString))) (do pure (f (← read Read.serString))) :=
  (agrees_read agrees_serString).bind fun s => agrees_pure (f s)

/-- The one test on what is left refuses an array whose elements cannot be there. It can only refuse
more of them on less. -/
theorem agrees_valueAt (levels : Nat) (k : ArgKind) :
    Agrees (valueAt resolver levels k) (valueAt resolver levels k) := by
  induction levels generalizing k with
  | zero => exact agrees_throw _ _
  | succ levels ih =>
    cases k with
    | string | type => exact agrees_text_map _
    | object => exact (agrees_kindAt levels).bind fun kind => ih kind
    | enum name underlying => exact (ih underlying).bind fun v => agrees_pure (Argument.enum name v)
    | array element =>
      refine (agrees_read (agrees_word 4)).bind fun n => ?_
      dsimp only
      split
      · exact agrees_pure _
      · split
        · exact agrees_throw _ _
        · refine Agrees.get_bind fun {r₀ r} hcut => ?_
          by_cases hshort : r₀.remaining < (UInt32.ofNat n).toInt32.toInt.toNat
          · rw [if_pos hshort]
            exact agrees_throw _ _
          · have hlong := Nat.not_lt.mpr (Nat.le_trans (Nat.not_lt.mp hshort) hcut.remaining_le)
            rw [if_neg hshort, if_neg hlong]
            exact (agrees_times (ih element) _).bind fun items => agrees_pure (Argument.array items)
    | _ => exact agrees_word_map _ _

theorem agrees_fixedArguments (params : List ArgKind) :
    Agrees (fixedArguments resolver params) (fixedArguments resolver params) := by
  induction params with
  | nil => exact agrees_pure []
  | cons kind kinds ih =>
    refine (agrees_valueAt (maxDepth + 1) kind).bind fun argument => ?_
    exact ih.bind fun arguments => agrees_pure (argument :: arguments)

/-! ## Named arguments -/

/-- A named argument is read if there are bytes left, and then as far as it is there. -/
theorem exists_namedArgument?_eq (resolver : EnumResolver) : ∃ rest : Decode (Option NamedArgument),
    namedArgument? resolver = (do if !(← get).hasMore then pure none else rest) ∧
      Agrees rest rest := by
  refine ⟨_, rfl, (agrees_read agrees_byte).bind fun member => ?_⟩
  split
  · exact agrees_pure none
  · dsimp only
    split
    · exact agrees_throw _ _
    · refine (agrees_kindAt _).bind fun kind => (agrees_read agrees_serString).bind fun name => ?_
      split
      · exact agrees_throw _ _
      · exact (agrees_valueAt _ kind).bind fun value => agrees_pure _

/-- What a named argument is on less: none at all where nothing is left. -/
theorem namedArgument?_of_cut {r₀ r r' : Reader} {argument? : Option NamedArgument}
    (hcut : r₀.CutOf r) (h : namedArgument? resolver r = .ok argument? r') :
    namedArgument? resolver r₀ = .ok none r₀ ∨
      (∃ fault r₀', namedArgument? resolver r₀ = .error fault r₀') ∨
        ∃ r₀', namedArgument? resolver r₀ = .ok argument? r₀' ∧ r₀'.CutOf r' := by
  obtain ⟨rest, heq, hagrees⟩ := exists_namedArgument?_eq resolver
  have hstep (reader : Reader) : namedArgument? resolver reader =
      if !reader.hasMore then .ok none reader else rest reader := by
    rw [heq, get_bind_apply]
    split <;> rfl
  rw [hstep] at h ⊢
  cases hmore : r₀.hasMore with
  | false => exact .inl rfl
  | true =>
    rw [hcut.hasMore hmore] at h
    exact .inr (hagrees _ _ _ _ hcut h)

/-- Named arguments are read until none is left, so that fewer of them are read from less. -/
theorem shortens_namedArguments (n : Nat) :
    Shortens (· <+: ·) (namedArguments resolver n) (namedArguments resolver n) := by
  induction n with
  | zero => exact shortens_pure (List.prefix_refl [])
  | succ n ih =>
    intro r₀ r arguments r' hcut h
    obtain ⟨argument?, r₁, hargument, h⟩ := exists_of_bind_eq_ok h
    unfold namedArguments
    rcases namedArgument?_of_cut hcut hargument with
      hnone | ⟨fault, r₀', hfault⟩ | ⟨r₀', hsame, hcut₁⟩
    · exact .inr ⟨[], r₀, bind_eq_of_ok hnone, List.nil_prefix⟩
    · exact .inl ⟨fault, r₀', bind_eq_error hfault⟩
    · rw [bind_eq_of_ok hsame]
      cases argument? with
      | none => exact shortens_pure (List.prefix_refl []) _ _ _ _ hcut₁ h
      | some argument =>
        exact ih.map (List.prefix_cons_inj argument).mpr _ _ _ _ hcut₁ h

/-! ## Attributes -/

/-- A value with the same arguments of the constructor and the first of the named arguments. -/
structure AttributeValue.CutOf (shorter value : AttributeValue) : Prop where
  fixed : shorter.fixed = value.fixed
  named : shorter.named <+: value.named

/-- Nothing at all is the value without arguments. -/
theorem cutOf_of_isEmpty {params : List ArgKind} {value : AttributeValue} {r r' : Reader}
    (hempty : params.isEmpty = true) (h : attributeValue resolver params r = .ok value r') :
    AttributeValue.CutOf { fixed := [], named := [] } value := by
  have hlength := (yields_attributeValue params r value r' h).length
  rw [List.isEmpty_iff.mp hempty, List.length_nil, List.length_eq_zero_iff] at hlength
  exact ⟨hlength.symm, List.nil_prefix⟩

/-- Behind the arguments of the constructor, named ones may be missing, and how many there are. -/
theorem exists_attributeValue_eq (resolver : EnumResolver) (params : List ArgKind) :
    ∃ rest : Decode AttributeValue, attributeValue resolver params = (do
      if !(← get).hasMore then
        if params.isEmpty then return { fixed := [], named := [] }
        throw (.empty params.length)
      rest) ∧
      Shortens AttributeValue.CutOf rest rest := by
  refine ⟨_, rfl, (agrees_read (agrees_word 2)).bind_shortens fun prolog => ?_⟩
  split
  · exact shortens_of_throw _ _
  · refine (agrees_fixedArguments params).bind_shortens fun fixed => ?_
    refine Shortens.get_bind fun {r₀ r} hcut => ?_
    by_cases hfew : r₀.remaining < 2
    · rw [if_pos hfew]
      refine shortens_pure_of_yields ?_
      split
      · exact yields_pure ⟨rfl, List.nil_prefix⟩
      · refine (yields_any _).bind fun count _ => (yields_any _).bind fun named _ => ?_
        exact yields_pure ⟨rfl, List.nil_prefix⟩
    · have hmore := Nat.not_lt.mpr (Nat.le_trans (Nat.not_lt.mp hfew) hcut.remaining_le)
      rw [if_neg hfew, if_neg hmore]
      refine (agrees_read (agrees_word 2)).bind_shortens fun count => ?_
      exact (shortens_namedArguments count).map fun hnamed => ⟨rfl, hnamed⟩

theorem shortens_attributeValue (params : List ArgKind) :
    Shortens AttributeValue.CutOf (attributeValue resolver params)
      (attributeValue resolver params) := by
  obtain ⟨rest, heq, hrest⟩ := exists_attributeValue_eq resolver params
  intro r₀ r value r' hcut h
  cases hmore : r₀.hasMore with
  | false =>
    cases hempty : params.isEmpty with
    | false =>
      refine .inl ⟨.empty params.length, r₀, ?_⟩
      rw [heq, get_bind_apply, hmore, hempty]
      rfl
    | true =>
      refine .inr ⟨{ fixed := [], named := [] }, r₀, ?_, cutOf_of_isEmpty hempty h⟩
      rw [heq, get_bind_apply, hmore, hempty]
      rfl
  | true =>
    have hstep {reader : Reader} (hreader : reader.hasMore = true) :
        attributeValue resolver params reader = rest reader := by
      rw [heq, get_bind_apply, hreader]
      rfl
    rw [hstep (hcut.hasMore hmore)] at h
    rw [hstep hmore]
    exact hrest _ _ _ _ hcut h

/-- What is left of a blob decodes to what the blob decodes to, less some last named arguments, or
it does not decode. -/
theorem decode_of_cut {params : List ArgKind} {blob cut : List UInt8} {value : AttributeValue}
    (h : decode blob params resolver = .ok value) (hcut : cut <+: blob) :
    (∃ fault, decode cut params resolver = .error fault) ∨
      ∃ shorter, decode cut params resolver = .ok shorter ∧
        shorter.fixed = value.fixed ∧ shorter.named <+: value.named := by
  have hread : ∃ r', attributeValue resolver params (.ofBytes blob) = .ok value r' := by
    unfold decode at h
    split at h <;> rename_i hread
    · cases h
      exact ⟨_, hread⟩
    · cases h
  obtain ⟨r', hread⟩ := hread
  unfold decode
  rcases shortens_attributeValue params (.ofBytes cut) (.ofBytes blob) _ _ ⟨rfl, hcut⟩ hread with
    ⟨fault, r₀', hfault⟩ | ⟨shorter, r₀', hshorter, hpost⟩
  · rw [hfault]
    exact .inl ⟨fault, rfl⟩
  · rw [hshorter]
    exact .inr ⟨shorter, rfl, hpost.fixed, hpost.named⟩

namespace Cut

/-- An argument for a field, and one for a property behind it. -/
def value : AttributeValue :=
  ⟨[], [⟨true, "A", .i4, .i4 1⟩, ⟨false, "B", .boolean, .bool true⟩]⟩

/-- A blob that they are read from. -/
def blob : List UInt8 := [1, 0, 2, 0, 0x53, 0x08, 1, 0x41, 1, 0, 0, 0, 0x54, 0x02, 1, 0x42, 1]

/-- No enumeration is known. -/
def unknown : EnumResolver := fun _ => none

end Cut

/-- The blob ends behind the argument for the field. -/
theorem decode_of_cut_field :
    ∃ shorter, decode (Cut.blob.take 12) [] Cut.unknown = .ok shorter ∧
      shorter.fixed = Cut.value.fixed ∧ shorter.named <+: Cut.value.named := by
  have hdecode : decode Cut.blob [] Cut.unknown = .ok Cut.value := by rfl
  refine (decode_of_cut hdecode (List.take_prefix 12 Cut.blob)).resolve_left ?_
  rintro ⟨fault, hfault⟩
  cases hfault

end CilTrim.Attribute
