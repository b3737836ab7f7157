import CilTrim.Annotation.Policy
import CilTrim.Override.Table

/-!
# Annotations

What is known about the nodes of a model while it is linked: which are marked and why, what users
have decided, and which methods override which:

* `Marks`: the state of each node, the first reason for it, and the action for each method;
* `Marks.mark`, `Marks.setProcessed`, `Marks.reasonChain`;
* `Annotations`: marks, policy and override table.
-/

namespace CilTrim

/-- How far marking has come with a node. -/
inductive Status where
  | unmarked
  | marked
  /-- Everything that the node needs is marked. -/
  | processed
deriving Repr, DecidableEq, Inhabited

/-- Why a node is marked. -/
inductive Reason where
  /-- It was asked for. -/
  | root
  /-- Another node needs it. -/
  | node (token : Token)
deriving Repr, DecidableEq

/-- The marks of nodes. -/
structure Marks where
  statuses : TokenMap Status
  reasons : TokenMap Reason
  methodActions : TokenMap MethodAction

namespace Marks

/-- Nothing is marked. -/
def empty : Marks := ⟨∅, ∅, ∅⟩

/-- How far marking has come with a node. -/
def status (m : Marks) (node : Token) : Status :=
  m.statuses[node]?.getD .unmarked

/-- A node that is marked, or processed. -/
def isMarked (m : Marks) (node : Token) : Bool :=
  m.status node != .unmarked

/-- A node with which marking is done. -/
def isProcessed (m : Marks) (node : Token) : Bool :=
  m.status node == .processed

/-- The first reason for which a node was marked. -/
def reason? (m : Marks) (node : Token) : Option Reason :=
  m.reasons[node]?

/-- The marks with a node marked for a reason, if it is not marked yet. -/
def mark (m : Marks) (node : Token) (reason : Reason) : Marks :=
  if m.isMarked node then m
  else
    { m with
      statuses := m.statuses.insert node .marked
      reasons := m.reasons.insertIfNew node reason }

/-- The marks with a node processed. -/
def setProcessed (m : Marks) (node : Token) : Marks :=
  { m with statuses := m.statuses.insert node .processed }

/-- The action for a method. -/
def methodAction (m : Marks) (method : Token) : MethodAction :=
  m.methodActions[method]?.getD .nothing

/-- The marks with an action for a method. -/
def setMethodAction (m : Marks) (method : Token) (action : MethodAction) : Marks :=
  { m with methodActions := m.methodActions.insert method action }

/-- The marks with an action for a method that has none. -/
def ensureParsed (m : Marks) (method : Token) : Marks :=
  if m.methodAction method = .nothing then m.setMethodAction method .parse else m

/-- The marked nodes with their states, in token order. -/
def markedNodes (m : Marks) : List (Token × Status) :=
  m.statuses.toList.filter (·.2 != .unmarked)

/-- The number of marked nodes. -/
def markedCount (m : Marks) : Nat :=
  m.markedNodes.length

/-- A node, the node it was marked for, and so on, past at most `steps` nodes and up to one of the
nodes in `seen`. -/
def chainFrom (m : Marks) : Nat → List Token → Token → List Token
  | 0, _, node => [node]
  | steps + 1, seen, node =>
    node ::
      match m.reason? node with
      | some (.node parent) =>
        if parent ∈ seen then [] else m.chainFrom steps (parent :: seen) parent
      | _ => []

/-- A node, the node it was marked for, and so on. -/
def reasonChain (m : Marks) (node : Token) : List Token :=
  m.chainFrom m.reasons.size [node] node

end Marks

/-- What is known about the nodes of a model. -/
structure Annotations where
  marks : Marks
  policy : Policy
  overrides : OverrideTable

namespace Annotations

/-- Nothing is known. -/
def empty : Annotations := ⟨.empty, .default, .empty⟩

/-- A change of the marks. -/
def onMarks (a : Annotations) (change : Marks → Marks) : Annotations :=
  { a with marks := change a.marks }

/-- A change of the policy. -/
def onPolicy (a : Annotations) (change : Policy → Policy) : Annotations :=
  { a with policy := change a.policy }

end Annotations

end CilTrim
