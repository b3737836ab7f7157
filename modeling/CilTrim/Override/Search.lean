import CilTrim.Model.Resolution
import CilTrim.Override.Table

/-!
# Finding overrides

A virtual method overrides what it says it implements, and what it takes the slot of: the nearest
virtual method of its name and signature on a base. A method of an interface is implemented by the
type that declares the interface, or by a base of that type:

* `Model.interfacesOf`: the interfaces of a type, with those they build on;
* `Model.overridePairs`: the pairs that a type contributes;
* `OverrideTable.ofModel`: the table of a model, in token order.
-/

namespace CilTrim

namespace Model

/-- The references to the interfaces that an instantiated type builds on. -/
def inheritedInterfaces (m : Model) (token : Token) (args : List TypeRef) : List TypeRef :=
  match m.type? token with
  | some type => type.interfaces.map (·.substitute args [])
  | none => []

/-- The references to the interfaces of a list that have not been visited, each followed by those it
builds on. Every step either passes a reference or visits a type, so `fuel` need only exceed the
number of references to interfaces in the model and in the list. -/
def interfacesFrom (m : Model) :
    Nat → List Token → List TypeRef → List (Token × List TypeRef)
  | 0, _, _ => []
  | _, _, [] => []
  | fuel + 1, visited, r :: pending =>
    match m.resolveType r with
    | .error _ => m.interfacesFrom fuel visited pending
    | .ok token =>
      if token ∈ visited then m.interfacesFrom fuel visited pending
      else
        let args := r.typeArguments
        (token, args) ::
          m.interfacesFrom fuel (token :: visited) (m.inheritedInterfaces token args ++ pending)

/-- The number of references to interfaces in a model. -/
def interfaceCount (m : Model) : Nat :=
  (m.types.toList.flatMap (·.interfaces)).length

/-- The interfaces of a type and those they build on, each with the arguments it is instantiated
with. Of several instantiations of an interface the first counts. -/
def interfacesOf (m : Model) (type : TypeDef) : List (Token × List TypeRef) :=
  m.interfacesFrom (type.interfaces.length + m.interfaceCount + 1) [] type.interfaces

/-- The first virtual method of an instantiated type with a name and a signature. -/
def virtualOn? (m : Model) (name : String) (signature : Signature)
    (base : Token × List TypeRef) : Option Token :=
  (m.type? base.1).bind fun type =>
    ((m.methodsOf type).find? fun candidate =>
      candidate.isVirtual && candidate.name == name &&
        m.signaturesEqual (candidate.signature.substitute base.2) signature).map (·.token)

/-- The nearest virtual method on a list of bases with a name and a signature. -/
def nearestVirtual? (m : Model) (bases : List (Token × List TypeRef)) (name : String)
    (signature : Signature) : Option Token :=
  bases.findSome? (m.virtualOn? name signature)

/-- The methods that a virtual method overrides: those it names, and the one whose slot it takes. -/
def overriddenBy (m : Model) (bases : List (Token × List TypeRef)) (method : MethodDef) :
    List Token :=
  method.overrides.filterMap (fun r => (m.resolveMethod r).toOption) ++
    if method.isNewSlot then []
    else (m.nearestVirtual? bases method.name method.signature).toList

/-- The method that implements a method of an instantiated interface, for a type with the given
virtual methods and bases. -/
def implementation? (m : Model) (virtuals : List MethodDef) (bases : List (Token × List TypeRef))
    (args : List TypeRef) (slot : MethodDef) : Option Token :=
  let signature := slot.signature.substitute args
  match virtuals.find? fun method =>
      method.name == slot.name && m.signaturesEqual signature method.signature with
  | some method => some method.token
  | none => m.nearestVirtual? bases slot.name signature

/-- The pairs that an interface of a type contributes. -/
def interfacePairs (m : Model) (virtuals : List MethodDef) (bases : List (Token × List TypeRef))
    (interface : Token × List TypeRef) : List (Token × Token) :=
  match m.type? interface.1 with
  | none => []
  | some type =>
    (m.methodsOf type).filterMap fun slot =>
      (m.implementation? virtuals bases interface.2 slot).map (slot.token, ·)

/-- The pairs of a method and one that overrides it which a type contributes. -/
def overridePairs (m : Model) (type : TypeDef) : List (Token × Token) :=
  let virtuals := (m.methodsOf type).filter (·.isVirtual)
  let bases := (m.hierarchy type.token).drop 1
  virtuals.flatMap (fun method => (m.overriddenBy bases method).map (·, method.token)) ++
    (m.interfacesOf type).flatMap (m.interfacePairs virtuals bases)

end Model

namespace OverrideTable

/-- Pairs are ordered by the method that is overridden, and then by the one that overrides. -/
def edgeLt (a b : Token × Token) : Bool :=
  a.1.value < b.1.value || (a.1.value == b.1.value && a.2.value < b.2.value)

/-- A strictly increasing list of pairs with one more pair. -/
def insertEdge (edge : Token × Token) : List (Token × Token) → List (Token × Token)
  | [] => [edge]
  | head :: rest =>
    if edgeLt edge head then edge :: head :: rest
    else if edge = head then head :: rest
    else head :: insertEdge edge rest

/-- The override table of a model, in token order. Interfaces override nothing themselves, and no
method overrides itself. -/
def ofModel (m : Model) : OverrideTable :=
  let pairs := (m.types.toList.filter (!·.isInterface)).flatMap m.overridePairs
  ⟨(pairs.filter fun edge => edge.1 != edge.2).foldr insertEdge []⟩

/-- Inserting into a list of pairs adds that pair and nothing else. -/
theorem mem_insertEdge {edge x : Token × Token} {edges : List (Token × Token)} :
    x ∈ insertEdge edge edges ↔ x = edge ∨ x ∈ edges := by
  induction edges with
  | nil => simp [insertEdge]
  | cons head rest ih =>
    unfold insertEdge
    split
    · simp
    · split
      · rename_i h
        simp [h]
      · simp only [List.mem_cons, ih]
        exact or_left_comm

end OverrideTable

end CilTrim
