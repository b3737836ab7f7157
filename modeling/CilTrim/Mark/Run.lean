import CilTrim.Mark.State

/-!
# Marking

Everything that the marked nodes need is marked, until nothing changes. Types are expanded before
methods, each in the order in which they were found; the needs of fields and assemblies are marked
at once:

* `MarkFault`: why marking stopped;
* `Marking.meet`, `Marking.settle`: meets a demand, and a list of demands with all that they bring
  along;
* `Marking.fill`, `Marking.seed`: the start;
* `Marking.drain`, `Marking.roundsWithin`, `Marking.run`: a round, and the whole run;
* `Setting.mark`: the counts or the fault, and in both cases the marks that were made.
-/

namespace CilTrim

/-- Why marking stopped. -/
inductive MarkFault where
  | unresolved (cause : Unresolved)
  | configuration (cause : ConfigurationFault)
deriving Repr

/-- The wording of a fault. -/
def MarkFault.message : MarkFault → String
  | .unresolved cause => cause.message
  | .configuration cause => cause.message

/-- Steps of marking, which keep what they have marked when they fail. -/
abbrev Marking := EStateM MarkFault MarkState

namespace Marking

/-! ## Demands -/

/-- Marks a field. The result has what the field needs, the first time. -/
def meetField (s : Setting) (token : Token) (reason : Reason) : Marking (List Demand) := do
  modify (·.markNode token reason)
  let state ← get
  if token ∈ state.expandedFields then return []
  set { state with expandedFields := state.expandedFields.insert token }
  match s.model.field? token with
  | none => pure []
  | some field =>
    modify (·.count fun c => { c with fieldsExpanded := c.fieldsExpanded + 1 })
    pure (s.fieldNeeds token field)

/-- What the attributes of an assembly need, the first time. -/
def meetAssembly (s : Setting) (token : Token) : Marking (List Demand) := do
  let state ← get
  if token ∈ state.seenAssemblies then return []
  set { state with seenAssemblies := state.seenAssemblies.insert token }
  match s.model.assembly? token with
  | none => pure []
  | some assembly => pure (s.assemblyNeeds token assembly)

/-- Meets a demand. The result has the demands that must be met at once because of it. -/
def meet (s : Setting) (demand : Demand) : Marking (List Demand) :=
  match demand with
  | .node token reason => do modify (·.markNode token reason); pure []
  | .type token reason => do modify (·.needType token reason); pure []
  | .method token reason => do modify (·.needMethod token reason); pure []
  | .field token reason => meetField s token reason
  | .assembly token => meetAssembly s token
  | .overridable method => do modify (MarkState.register s.model s.overrides method); pure []
  | .arrived type => do modify (MarkState.arrive s.model s.overrides type); pure []
  | .finished method => do
    modify fun state => { state with marks := state.marks.setProcessed method }
    pure []
  | .skippedAttribute => do
    modify (·.count fun c => { c with attributesSkipped := c.attributesSkipped + 1 })
    pure []
  | .skippedName => do
    modify (·.count fun c => { c with typeNamesSkipped := c.typeNamesSkipped + 1 })
    pure []
  | .unresolved cause => throw (.unresolved cause)

/-- Meets demands in order, each with all that it brings along before the next. A level of demands
that are brought along uses up a field or an assembly, so `levels` need only exceed their number. -/
def settleWithin (s : Setting) : Nat → List Demand → Marking Unit
  | 0, _ => pure ()
  | levels + 1, demands => demands.forM fun demand => do settleWithin s levels (← meet s demand)

/-- Meets demands in order, each with all that it brings along before the next. -/
def settle (s : Setting) (demands : List Demand) : Marking Unit :=
  settleWithin s (2 * Token.count + 2) demands

/-! ## Queues -/

/-- Marks what a type needs. -/
def expandType (s : Setting) (token : Token) : Marking Unit :=
  match s.model.type? token with
  | none => pure ()
  | some type => do
    modify (·.count fun c => { c with typesExpanded := c.typesExpanded + 1 })
    settle s (s.typeNeeds token type)

/-- Marks what a method needs, once. -/
def processMethod (s : Setting) (token : Token) : Marking Unit := do
  let state ← get
  if state.marks.isProcessed token then return
  match s.model.method? token with
  | none => throw (.unresolved (.methodDefinition token))
  | some method =>
    modify (·.count fun c => { c with methodsProcessed := c.methodsProcessed + 1 })
    settle s (s.methodNeeds token method (state.marks.methodAction token))

/-- The next type of its queue. -/
def nextType? : Marking (Option Token) := do
  match (← get).types.pop? with
  | none => pure none
  | some (type, types) =>
    modify ({ · with types })
    pure (some type)

/-- The next method of its queue. -/
def nextMethod? : Marking (Option Token) := do
  match (← get).methods.pop? with
  | none => pure none
  | some (method, methods) =>
    modify ({ · with methods })
    pure (some method)

/-- Expands types until their queue is empty. -/
def drainTypes (s : Setting) : Nat → Marking Unit
  | 0 => pure ()
  | fuel + 1 => do
    match ← nextType? with
    | some type =>
      expandType s type
      drainTypes s fuel
    | none => pure ()

/-- Expands types, and methods when no type waits, until both queues are empty. -/
def drainQueues (s : Setting) : Nat → Marking Unit
  | 0 => pure ()
  | fuel + 1 => do
    match ← nextType? with
    | some type =>
      expandType s type
      drainQueues s fuel
    | none =>
      match ← nextMethod? with
      | some method =>
        processMethod s method
        drainQueues s fuel
      | none => pure ()

/-- More than the nodes that ever leave a queue: those that wait now, and every token once as a type
and once as a method. -/
def queueBound : Marking Nat := do
  let state ← get
  pure (state.types.toList.length + state.methods.toList.length + 2 * Token.count + 1)

/-- Empties both queues. -/
def drain (s : Setting) : Marking Unit := do
  drainQueues s (← queueBound)

/-! ## The run -/

/-- Looks at a method when a run starts: its overrides are kept if an earlier run has processed it,
and it is processed if it is marked. -/
def seedMethod (s : Setting) (token : Token) : Marking Unit := do
  if (← get).marks.isProcessed token && (s.model.method? token).any (·.isVirtual) then
    modify (MarkState.register s.model s.overrides token)
  if (← get).marks.isMarked token then
    modify fun state =>
      { state with marks := state.marks.ensureParsed token, methods := state.methods.push token }

/-- Looks at a type and its members when a run starts. -/
def seedType (s : Setting) (type : TypeDef) : Marking Unit := do
  if (← get).marks.isMarked type.token then modify (·.schedule type.token)
  type.fields.forM fun field => do
    if (← get).marks.isMarked field then settle s [.field field .root]
  type.methods.forM (seedMethod s)

/-- Fills the queues from what is marked already. -/
def fill (s : Setting) : Marking Unit := do
  s.model.assemblies.toList.forM fun assembly => settle s [.assembly assembly.token]
  s.model.types.toList.forM (seedType s)

/-- Fills the queues and expands the types in them. There must be a method to start from. -/
def seed (s : Setting) : Marking Unit := do
  fill s
  drainTypes s (← queueBound)
  if (← get).methods.isEmpty then throw (.configuration .noEntryMethods)

/-- Looks again at the overrides of all virtual methods. -/
def sweep (s : Setting) : Marking Unit :=
  modify fun state =>
    state.virtuals.foldl (fun state method => state.spread s.model s.overrides method) state

/-- Rounds, until one marks nothing and leaves nothing to do. Every round but the last uses up a
token. -/
def roundsWithin (s : Setting) : Nat → Marking Unit
  | 0 => pure ()
  | fuel + 1 => do
    modify (·.count fun c => { c with rounds := c.rounds + 1 })
    let before := (← get).newMarks
    drain s
    sweep s
    let state ← get
    if state.newMarks = before && state.methods.isEmpty && state.types.isEmpty then pure ()
    else roundsWithin s fuel

/-- A whole run. -/
def run (s : Setting) : Marking MarkStats := do
  seed s
  roundsWithin s (Token.count + 2)
  modify fun state => state.count fun c => { c with marked := state.marks.markedCount }
  pure (← get).stats

end Marking

/-- Marks everything that the marked nodes need. -/
def Setting.mark (s : Setting) (marks : Marks) : Except MarkFault MarkStats × Marks :=
  match Marking.run s (.ofMarks marks) with
  | .ok stats state => (.ok stats, state.marks)
  | .error fault state => (.error fault, state.marks)

end CilTrim
