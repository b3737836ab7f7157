import CilTrim.Model.AttributeData
import CilTrim.Proofs.Builder.Session
import CilTrim.Proofs.TypeName.Parsing
import Mathlib.Data.List.TakeWhile

/-!
# Types through their reflection names

The name of a type goes through several hands: the model joins the names around a type with slashes,
the reflection name has plus signs for them, the parser cuts the text at these and the outermost
name at its last point, and lookup joins the parts again. For names in which nothing has to be
escaped the way leads back to the type:

* `TypeName.IsPlain`: names that stand in a text as they are;
* `TypeName.ofPath`: the type name of an outermost type and the types nested in it;
* `TypeName.parse_headText`: the text of such a type name;
* `Model.Around`, `Model.fullName_eq_fullName_ofPath`: the type name of a type;
* `Model.resolveTypeName?_reflectionName`: from a type to its reflection name and back.
-/

namespace CilTrim

namespace TypeName

/-! ## Plain names -/

/-- A name that stands in a text as it is. It has no blank at an end that would be passed over, and
no character that would be taken for something else or for the slash between names. -/
structure IsPlain (name : String) : Prop where
  nonempty : name.toList ≠ []
  first : ∀ c ∈ name.toList.head?, Text.isBlank c = false
  last : ∀ c ∈ name.toList.getLast?, Text.isBlank c = false
  special : ∀ c ∈ name.toList, isSpecial c = false
  slash : '/' ∉ name.toList

/-- A name with a point at its start and no other one. The point would be lost, as there is no
namespace in front of it. -/
def LosesPoint (name : String) : Prop :=
  name.toList.head? = some '.' ∧ '.' ∉ name.toList.tail

instance (name : String) : Decidable (IsPlain name) :=
  decidable_of_iff
    (name.toList ≠ [] ∧ endsPlain name.toList.head? = true ∧ endsPlain name.toList.getLast? = true ∧
      name.toList.any isSpecial = false ∧ '/' ∉ name.toList)
    ⟨fun ⟨h, hfirst, hlast, hspecial, hslash⟩ =>
      ⟨h, endsPlain_iff.mp hfirst, endsPlain_iff.mp hlast, by simpa using hspecial, hslash⟩,
      fun h => ⟨h.nonempty, endsPlain_iff.mpr h.first, endsPlain_iff.mpr h.last,
        by simpa using h.special, h.slash⟩⟩

instance (name : String) : Decidable (LosesPoint name) :=
  inferInstanceAs (Decidable (_ ∧ _))

theorem IsPlain.isIdentifier {name : String} (h : IsPlain name) : IsIdentifier name.toList :=
  ⟨h.nonempty, h.last⟩

/-- Nothing is escaped in a plain name. -/
theorem IsPlain.identifierText_eq {name : String} (h : IsPlain name) :
    identifierText name.toList = name.toList := by
  have hfirst := h.first
  have hspecial := h.special
  cases hname : name.toList with
  | nil => rfl
  | cons c rest =>
    rw [hname] at hfirst hspecial
    obtain ⟨hc, hrest⟩ := List.forall_mem_cons.mp hspecial
    have hmap : rest.flatMap (fun c => escape (isSpecial c) c) = rest.flatMap fun c => [c] :=
      List.flatMap_congr fun c hc => by rw [hrest c hc]; rfl
    rw [identifierText, hc, hfirst c rfl, hmap, List.flatMap_singleton']
    rfl

/-! ## Cutting at the last point -/

/-- A name is cut at its last point, if it has one. -/
theorem splitQualified_cases (qualified : String) :
    '.' ∉ qualified.toList ∧ splitQualified qualified = ("", qualified) ∨
      ∃ space name, qualified = space ++ "." ++ name ∧ '.' ∉ name.toList ∧
        splitQualified qualified = (space, name) := by
  have hsplit := List.takeWhile_append_dropWhile (p := (· != '.')) (l := qualified.toList.reverse)
  have hname : '.' ∉ qualified.toList.reverse.takeWhile (· != '.') := fun hmem =>
    absurd (List.mem_takeWhile_imp hmem) (by decide)
  unfold splitQualified
  dsimp only
  cases hspace : qualified.toList.reverse.dropWhile (· != '.') with
  | nil =>
    rw [hspace, List.append_nil] at hsplit
    rw [hsplit] at hname
    exact .inl ⟨fun hmem => hname (List.mem_reverse.mpr hmem), rfl⟩
  | cons c space =>
    -- What is behind the part without points starts with a point.
    have hc : c = '.' := by
      have hhead := List.head?_dropWhile_not (· != '.') qualified.toList.reverse
      simpa [hspace] using hhead
    rw [hspace, hc] at hsplit
    generalize qualified.toList.reverse.takeWhile (· != '.') = name at hsplit hname ⊢
    refine .inr ⟨_, _, ?_, fun hmem => ?_, rfl⟩
    · rw [← String.toList_inj, ← List.reverse_inj, ← hsplit]
      simp
    · rw [String.toList_ofList] at hmem
      exact hname (List.mem_reverse.mp hmem)

/-! ## Names of types -/

/-- The type name of an outermost type, or of the innermost one of types nested in it. -/
def ofPath (qualified : String) (nested : List String) : TypeName where
  space := (splitQualified qualified).1
  name := (splitQualified qualified).2
  nested := nested
  arguments := []
  modifiers := []
  assembly := none

variable {qualified : String} {nested : List String}

theorem point_ofPath : '.' ∉ (ofPath qualified nested).name.toList := by
  obtain ⟨hpoint, h⟩ | ⟨space, name, _, hpoint, h⟩ := splitQualified_cases qualified
  · rwa [ofPath, h]
  · rwa [ofPath, h]

/-- What has been cut at a point is joined again. -/
theorem qualifiedName_ofPath (h : ¬ LosesPoint qualified) :
    (ofPath qualified nested).qualifiedName = qualified := by
  obtain ⟨-, hsplit⟩ | ⟨space, name, hjoin, hpoint, hsplit⟩ := splitQualified_cases qualified
  · rw [qualifiedName, ofPath, hsplit]
    rfl
  · have hspace : space.isEmpty = false := by
      refine Bool.eq_false_iff.mpr fun hempty => h ?_
      rw [LosesPoint, hjoin, String.isEmpty_iff.mp hempty]
      simpa using hpoint
    rw [qualifiedName, ofPath, hsplit, hspace, if_neg Bool.false_ne_true]
    exact hjoin.symm

theorem fullName_ofPath (h : ¬ LosesPoint qualified) :
    (ofPath qualified []).fullName = qualified :=
  qualifiedName_ofPath h

theorem fullName_ofPath_append (name : String) :
    (ofPath qualified (nested ++ [name])).fullName =
      (ofPath qualified nested).fullName ++ "/" ++ name :=
  List.foldl_append

theorem toList_fullName (n : TypeName) :
    n.fullName.toList =
      n.qualifiedName.toList ++ n.nested.flatMap fun name => '/' :: name.toList := by
  have hfold (text : String) (names : List String) :
      (names.foldl (fun text name => text ++ "/" ++ name) text).toList =
        text.toList ++ names.flatMap fun name => '/' :: name.toList := by
    induction names generalizing text with
    | nil => simp
    | cons name names ih => simp [ih, String.toList_append]
  exact hfold _ _

/-- A plain name is the same with plus signs for slashes. -/
theorem IsPlain.map_plus {name : String} (h : IsPlain name) :
    name.toList.map (fun c => if c = '/' then '+' else c) = name.toList := by
  refine (List.map_congr_left fun c hc => if_neg ?_).trans (List.map_id _)
  rintro rfl
  exact h.slash hc

/-- The text of a type name is its full name with plus signs for slashes. -/
theorem headText_ofPath (hqualified : IsPlain qualified) (hpoint : ¬ LosesPoint qualified)
    (hnested : ∀ name ∈ nested, IsPlain name) :
    headText (ofPath qualified nested) =
      (ofPath qualified nested).fullName.toList.map fun c => if c = '/' then '+' else c := by
  rw [toList_fullName, headText, qualifiedName_ofPath hpoint, List.map_append,
    hqualified.map_plus, hqualified.identifierText_eq, nestedText, List.map_flatMap]
  refine congrArg _ (List.flatMap_congr fun name hname => ?_)
  rw [List.map_cons, if_pos rfl, (hnested name hname).map_plus,
    (hnested name hname).identifierText_eq]

/-- The text of a type name is parsed to it. -/
theorem parse_headText (hqualified : IsPlain qualified) (hpoint : ¬ LosesPoint qualified)
    (hnested : ∀ name ∈ nested, IsPlain name) :
    parse (String.ofList (headText (ofPath qualified nested))) = .ok (ofPath qualified nested) := by
  have hproper : (ofPath qualified nested).Proper :=
    .intro (by rw [qualifiedName_ofPath hpoint]; exact hqualified.isIdentifier) point_ofPath
      (fun name hname => (hnested name hname).isIdentifier) nofun nofun nofun
  have hrenders : Renders (ofPath qualified nested) (headText (ofPath qualified nested)) := by
    have h := Renders.plain (n := ofPath qualified nested) rfl
    have htail : tailText (ofPath qualified nested) = [] := rfl
    rwa [htail, List.append_nil] at h
  obtain ⟨offset, hwhole⟩ := reads_wholeName hrenders hproper 0
  rw [parse, String.toList_ofList, hwhole]

end TypeName

namespace Model

variable {m : Model} {t : Token} {d : TypeDef}

/-! ## Names of definitions -/

/-- A type and the types around it. -/
inductive Around (m : Model) : Token → Token → Prop where
  | self (t : Token) : Around m t t
  | outer {t outer u : Token} {d : TypeDef} : m.type? t = some d → d.declaringType = some outer →
    Around m outer u → Around m t u

/-- What a type adds to the names of the types in it: its name, with its namespace if no type is
around it. -/
def pathName (d : TypeDef) : String :=
  match d.declaringType with
  | none => d.ownName
  | some _ => d.name

/-- The names of a type and of the types around it are plain, and the outermost one does not lose a
point. -/
structure PlainNames (m : Model) (t : Token) : Prop where
  plain {u : Token} {d : TypeDef} : m.Around t u → m.type? u = some d →
    TypeName.IsPlain (pathName d)
  point {u : Token} {d : TypeDef} : m.Around t u → m.type? u = some d → d.declaringType = none →
    ¬ TypeName.LosesPoint d.ownName

theorem PlainNames.outer {outer : Token} (h : m.PlainNames t) (hd : m.type? t = some d)
    (ho : d.declaringType = some outer) : m.PlainNames outer :=
  ⟨fun hu => h.plain (.outer hd ho hu), fun hu => h.point (.outer hd ho hu)⟩

/-- The full name of a type is that of a type name with plain parts. -/
theorem fullName_eq_fullName_ofPath (sound : m.ledger.Sound) (fits : m.Fits)
    (hd : m.type? t = some d) (names : m.PlainNames t) :
    ∃ qualified nested, TypeName.IsPlain qualified ∧ ¬ TypeName.LosesPoint qualified ∧
      (∀ name ∈ nested, TypeName.IsPlain name) ∧
      m.fullName t = (TypeName.ofPath qualified nested).fullName := by
  -- A type stands in a later row than the type around it, so the types around it come to an end.
  induction t using (enclosing_wellFounded sound fits).induction generalizing d with
  | _ t ih =>
    have hmem := Rows.mem_of_find? hd
    have htoken : d.token = t := (numbered_types sound).token_of_find? hd
    have hname := fullName_eq sound fits hmem
    have hplain := names.plain (.self t) hd
    rw [htoken] at hname
    rw [pathName] at hplain
    cases ho : d.declaringType with
    | none =>
      rw [ho] at hname hplain
      have hpoint := names.point (.self t) hd ho
      exact ⟨d.ownName, [], hplain, hpoint, nofun,
        hname.trans (TypeName.fullName_ofPath hpoint).symm⟩
    | some outer =>
      rw [ho] at hname hplain
      obtain ⟨e, he⟩ := Option.isSome_iff_exists.mp (enclosing_lt sound fits hmem ho).1
      obtain ⟨qualified, nested, hqualified, hpoint, hnested, houter⟩ :=
        ih outer ⟨d, hd, ho⟩ he (names.outer hd ho)
      refine ⟨qualified, nested ++ [d.name], hqualified, hpoint, fun name hmem => ?_, ?_⟩
      · exact (List.mem_append.mp hmem).elim (hnested name) fun hmem =>
          List.mem_singleton.mp hmem ▸ hplain
      · rw [TypeName.fullName_ofPath_append, ← houter]
        exact hname

/-! ## From a type to its name and back -/

/-- A type name without arguments stands for the type that the first of the given assemblies has
under its full name. -/
theorem resolveTypeName?_ofPath {qualified : String} {nested : List String} {assembly : Token}
    (h : m.findType? assembly (TypeName.ofPath qualified nested).fullName = some t)
    (scopes : List Token) :
    m.resolveTypeName? (assembly :: scopes) (TypeName.ofPath qualified nested) =
      some (.definition t) := by
  have hnone : (TypeName.ofPath qualified nested).assemblyName? = none := rfl
  have hfound : m.findNamed? (assembly :: scopes) (TypeName.ofPath qualified nested) = some t := by
    simp only [findNamed?, hnone, List.findSome?_cons, h]
  rw [TypeName.ofPath] at hfound ⊢
  rw [resolveTypeName?, hfound]
  rfl

/-- The reflection name of a type of a built model is parsed to a type name. If lookup finds the
type under its full name in its assembly, then that type name stands for the type wherever its
assembly is the first one to be looked at. -/
theorem resolveTypeName?_reflectionName {returned : List Token} (built : Built returned m)
    (fits : m.Fits) (hd : m.type? t = some d)
    (found : m.findType? d.assembly (m.fullName t) = some t) (names : m.PlainNames t) :
    ∃ n, TypeName.parse (m.reflectionName t) = .ok n ∧
      ∀ scopes, m.resolveTypeName? (d.assembly :: scopes) n = some (.definition t) := by
  obtain ⟨qualified, nested, hqualified, hpoint, hnested, hname⟩ :=
    fullName_eq_fullName_ofPath (built.sound fits).1 fits hd names
  refine ⟨TypeName.ofPath qualified nested, ?_, resolveTypeName?_ofPath (hname ▸ found)⟩
  rw [reflectionName, hname, ← TypeName.headText_ofPath hqualified hpoint hnested]
  exact TypeName.parse_headText hqualified hpoint hnested

/-- The names around the lid of the boxes are plain. -/
theorem plainNames_boxes : Builder.boxes.model.PlainNames ⟨0x02000002⟩ := by
  obtain ⟨lid, hlid, hin, hlidName⟩ : ∃ d, Builder.boxes.model.type? ⟨0x02000002⟩ = some d ∧
      d.declaringType = some ⟨0x02000001⟩ ∧ pathName d = "Lid" := ⟨_, rfl, rfl, rfl⟩
  obtain ⟨box, hbox, hout, hboxName, hown⟩ : ∃ d, Builder.boxes.model.type? ⟨0x02000001⟩ = some d ∧
      d.declaringType = none ∧ pathName d = "Boxes.Box" ∧ d.ownName = "Boxes.Box" :=
    ⟨_, rfl, rfl, rfl, rfl⟩
  have around {u : Token} {d : TypeDef} (hu : Builder.boxes.model.Around ⟨0x02000002⟩ u)
      (hd : Builder.boxes.model.type? u = some d) : d = lid ∨ d = box := by
    cases hu with
    | self => exact .inl (Option.some.inj (hd.symm.trans hlid))
    | outer h ho hu =>
      obtain rfl := Option.some.inj (h.symm.trans hlid)
      obtain rfl := Option.some.inj (ho.symm.trans hin)
      cases hu with
      | self => exact .inr (Option.some.inj (hd.symm.trans hbox))
      | outer h ho _ =>
        obtain rfl := Option.some.inj (h.symm.trans hbox)
        cases hout.symm.trans ho
  constructor
  · intro u d hu hd
    obtain rfl | rfl := around hu hd
    · rw [hlidName]
      decide
    · rw [hboxName]
      decide
  · intro u d hu hd ho
    obtain rfl | rfl := around hu hd
    · cases hin.symm.trans ho
    · rw [hown]
      decide

/-- A type that is nested in a hidden one is not hidden itself. -/
theorem resolveTypeName?_reflectionName_boxes :
    Builder.boxes.model.reflectionName ⟨0x02000002⟩ = "Boxes.Box+Lid" ∧
      ∃ n, TypeName.parse (Builder.boxes.model.reflectionName ⟨0x02000002⟩) = .ok n ∧
        ∀ scopes, Builder.boxes.model.resolveTypeName? (⟨0x20000001⟩ :: scopes) n =
          some (.definition ⟨0x02000002⟩) := by
  obtain ⟨returned, made, session⟩ := Builder.boxes_session
  obtain ⟨all, built, -⟩ := session.built
  obtain ⟨lid, hlid, hassembly⟩ : ∃ d, Builder.boxes.model.type? ⟨0x02000002⟩ = some d ∧
      d.assembly = ⟨0x20000001⟩ := ⟨_, rfl, rfl⟩
  have found : Builder.boxes.model.findType? lid.assembly
      (Builder.boxes.model.fullName ⟨0x02000002⟩) = some ⟨0x02000002⟩ := by
    rw [hassembly]
    decide
  have hname : Builder.boxes.model.reflectionName ⟨0x02000002⟩ = "Boxes.Box+Lid" := by decide
  have hback := resolveTypeName?_reflectionName built Builder.boxes_fits hlid found plainNames_boxes
  rw [hassembly] at hback
  exact ⟨hname, hback⟩

end Model

end CilTrim
