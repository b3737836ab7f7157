import CilTrim.Mark.Fifo
import CilTrim.Mark.Rules

/-!
# The state of marking

Marks, the nodes that wait to be expanded, and what has been done once and is not done again:

* `MarkStats`: what a run has counted;
* `MarkState`, with `markNode`, `needType`, `needMethod`;
* `offer`: marks an override if its type is marked, or lets it wait for the type;
* `spread`: offers the overrides of methods, and those of the overrides that get marked.
-/

namespace CilTrim

/-- What a run has counted. -/
structure MarkStats where
  rounds : Nat
  methodsProcessed : Nat
  typesExpanded : Nat
  fieldsExpanded : Nat
  overridesPropagated : Nat
  attributesSkipped : Nat
  typeNamesSkipped : Nat
  /-- Marked nodes at the end, those marked before included. -/
  marked : Nat
deriving Repr, DecidableEq

namespace MarkStats

/-- Nothing counted yet. -/
def zero : MarkStats := ⟨0, 0, 0, 0, 0, 0, 0, 0⟩

/-- The counts in words. -/
def display (s : MarkStats) : String :=
  toString s.marked ++ " marked in " ++ toString s.rounds ++ " rounds (" ++
    toString s.methodsProcessed ++ " methods, " ++ toString s.typesExpanded ++ " types, " ++
    toString s.fieldsExpanded ++ " fields, " ++ toString s.overridesPropagated ++ " overrides, " ++
    toString s.attributesSkipped ++ " attributes skipped, " ++ toString s.typeNamesSkipped ++
    " type names skipped)"

end MarkStats

/-- An override that waits for its type to be marked. -/
structure Parked where
  type : Token
  base : Token
  overrider : Token
deriving Repr, DecidableEq

/-- The state of marking. -/
structure MarkState where
  marks : Marks
  /-- Types whose needs are still to be marked. -/
  types : Fifo Token
  /-- Methods whose needs are still to be marked. -/
  methods : Fifo Token
  /-- Types that have ever entered their queue. -/
  scheduled : TokenSet
  /-- Fields whose needs are marked, or are being marked. -/
  expandedFields : TokenSet
  /-- Assemblies whose attributes are marked, or are being marked. -/
  seenAssemblies : TokenSet
  /-- Virtual methods whose overrides are kept, in the order in which they were found. -/
  virtuals : List Token
  /-- Overrides that wait for their types, the oldest first. -/
  parked : List Parked
  /-- The number of nodes that this run has marked. -/
  newMarks : Nat
  stats : MarkStats

namespace MarkState

/-- The state at the start of a run. -/
def ofMarks (marks : Marks) : MarkState where
  marks := marks
  types := .empty
  methods := .empty
  scheduled := ∅
  expandedFields := ∅
  seenAssemblies := ∅
  virtuals := []
  parked := []
  newMarks := 0
  stats := .zero

/-- A change of the counts. -/
def count (s : MarkState) (change : MarkStats → MarkStats) : MarkState :=
  { s with stats := change s.stats }

/-- Marks a node. -/
def markNode (s : MarkState) (node : Token) (reason : Reason) : MarkState :=
  if s.marks.isMarked node then s
  else { s with marks := s.marks.mark node reason, newMarks := s.newMarks + 1 }

/-- Puts a type into its queue, once. -/
def schedule (s : MarkState) (type : Token) : MarkState :=
  if type ∈ s.scheduled then s
  else { s with scheduled := s.scheduled.insert type, types := s.types.push type }

/-- Marks a type and has it expanded. -/
def needType (s : MarkState) (type : Token) (reason : Reason) : MarkState :=
  (s.markNode type reason).schedule type

/-- Marks a method and has it expanded if it was not marked before. -/
def needMethod (s : MarkState) (method : Token) (reason : Reason) : MarkState :=
  let parsed := { s with marks := s.marks.ensureParsed method }
  if s.marks.isMarked method then parsed
  else { parsed.markNode method reason with methods := s.methods.push method }

/-- Lets an override wait for its type, unless it waits already. -/
def park (s : MarkState) (entry : Parked) : MarkState :=
  if s.parked.any fun other => other.base == entry.base && other.overrider == entry.overrider then s
  else { s with parked := s.parked ++ [entry] }

/-! ## Overrides -/

/-- Marks an override of a method if its type is marked, and lets it wait otherwise. The result says
whether it got marked. -/
def offer (m : Model) (s : MarkState) (base overrider : Token) : Bool × MarkState :=
  match m.declaringTypeOf? overrider with
  | none => (false, s)
  | some type =>
    if !s.marks.isMarked type then (false, s.park ⟨type, base, overrider⟩)
    else if s.marks.isMarked overrider then (false, s)
    else
      let counted := s.count fun c => { c with overridesPropagated := c.overridesPropagated + 1 }
      (true, counted.needMethod overrider (.node base))

/-- Offers overrides of a method in order. The result has those that got marked, the last in
front. -/
def offerAll (m : Model) (base : Token) :
    List Token → List Token × MarkState → List Token × MarkState
  | [], result => result
  | overrider :: rest, (marked, s) =>
    let (fresh, s) := s.offer m base overrider
    offerAll m base rest (if fresh then overrider :: marked else marked, s)

/-- Offers the overrides of the methods on a stack, and those of the overrides that get marked,
which enter the stack. Every step but those of the first methods uses up a token, so `fuel` need
only exceed the number of tokens. -/
def spreadFrom (m : Model) (t : OverrideTable) : Nat → List Token → MarkState → MarkState
  | 0, _, s => s
  | _, [], s => s
  | fuel + 1, base :: stack, s =>
    let (marked, s) := offerAll m base (t.overridesOf base) ([], s)
    spreadFrom m t fuel (marked ++ stack) s

/-- Offers the overrides of a method, and those of the overrides that get marked. -/
def spread (m : Model) (t : OverrideTable) (method : Token) (s : MarkState) : MarkState :=
  spreadFrom m t (Token.count + 1) [method] s

/-- Registers a virtual method, once, and offers its overrides. -/
def register (m : Model) (t : OverrideTable) (method : Token) (s : MarkState) : MarkState :=
  if method ∈ s.virtuals then s
  else spread m t method { s with virtuals := s.virtuals ++ [method] }

/-- Offers overrides that waited, and the overrides of those that get marked. -/
def release (m : Model) (t : OverrideTable) : List Parked → MarkState → MarkState
  | [], s => s
  | entry :: rest, s =>
    let (fresh, s) := s.offer m entry.base entry.overrider
    release m t rest (if fresh then spread m t entry.overrider s else s)

/-- Offers the overrides that waited for a type. -/
def arrive (m : Model) (t : OverrideTable) (type : Token) (s : MarkState) : MarkState :=
  let waiting := s.parked.filter (·.type == type)
  release m t waiting { s with parked := s.parked.filter (·.type != type) }

end MarkState

end CilTrim
