import CilTrim.Token

/-!
# Policies

What is to be done with assemblies, methods and types, as users decide it:

* `LinkAction`, `MethodAction`, `TypePreserve`, with the words that stand for them;
* `Policy`: the decisions, by token.
-/

namespace CilTrim

/-- What is done with an assembly. -/
inductive LinkAction where
  /-- Only what is needed is kept, and code is followed. -/
  | link
  /-- The assembly is kept as it is. -/
  | copy
  /-- The assembly is not looked at. -/
  | skip
deriving Repr, DecidableEq, Inhabited

namespace LinkAction

/-- The word for an action. -/
def word : LinkAction → String
  | .link => "link"
  | .copy => "copy"
  | .skip => "skip"

/-- The action that a word stands for. -/
def ofWord? (word : String) : Option LinkAction :=
  [link, copy, skip].find? fun action => action.word == word

end LinkAction

/-- What is done with the body of a method. -/
inductive MethodAction where
  | nothing
  /-- The body is followed if the assembly is linked. -/
  | parse
  /-- The body is always followed. -/
  | forceParse
deriving Repr, DecidableEq, Inhabited

namespace MethodAction

/-- The word for an action. -/
def word : MethodAction → String
  | .nothing => "nothing"
  | .parse => "parse"
  | .forceParse => "forceparse"

/-- The action that a word stands for. -/
def ofWord? (word : String) : Option MethodAction :=
  [nothing, parse, forceParse].find? fun action => action.word == word

end MethodAction

/-- Which members are kept with a type. -/
inductive TypePreserve where
  | nothing
  | fields
  | methods
  | all
deriving Repr, DecidableEq, Inhabited

namespace TypePreserve

/-- The word for a choice of members. -/
def word : TypePreserve → String
  | .nothing => "nothing"
  | .fields => "fields"
  | .methods => "methods"
  | .all => "all"

/-- The choice of members that a word stands for. -/
def ofWord? (word : String) : Option TypePreserve :=
  [nothing, fields, methods, all].find? fun preserve => preserve.word == word

/-- Fields are kept. -/
def keepsFields (p : TypePreserve) : Bool := p == .fields || p == .all

/-- Methods are kept. -/
def keepsMethods (p : TypePreserve) : Bool := p == .methods || p == .all

end TypePreserve

/-- What users have decided. -/
structure Policy where
  assemblyActions : TokenMap LinkAction
  /-- The action for every other assembly. -/
  defaultAction : LinkAction
  preserves : TokenMap TypePreserve
  /-- Methods that are kept with a type. -/
  preservedMethods : TokenMap (List Token)

namespace Policy

/-- Every assembly is linked, and types are kept without their members. -/
def default : Policy where
  assemblyActions := ∅
  defaultAction := .link
  preserves := ∅
  preservedMethods := ∅

/-- The action for an assembly. -/
def assemblyAction (p : Policy) (assembly : Token) : LinkAction :=
  p.assemblyActions[assembly]?.getD p.defaultAction

/-- The members that are kept with a type. -/
def preserve (p : Policy) (type : Token) : TypePreserve :=
  p.preserves[type]?.getD .nothing

/-- The methods that are kept with a type one by one. -/
def methodsKept (p : Policy) (type : Token) : List Token :=
  p.preservedMethods[type]?.getD []

/-- The policy with an action for an assembly. -/
def setAssemblyAction (p : Policy) (assembly : Token) (action : LinkAction) : Policy :=
  { p with assemblyActions := p.assemblyActions.insert assembly action }

/-- The policy with a choice of members for a type. -/
def setPreserve (p : Policy) (type : Token) (preserve : TypePreserve) : Policy :=
  { p with preserves := p.preserves.insert type preserve }

/-- The policy with one more method that is kept with a type. -/
def addMethod (p : Policy) (type method : Token) : Policy :=
  if method ∈ p.methodsKept type then p
  else
    { p with
      preservedMethods := p.preservedMethods.insert type (p.methodsKept type ++ [method]) }

end Policy

end CilTrim
