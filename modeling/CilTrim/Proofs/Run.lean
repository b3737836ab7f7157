/-!
# Programs that may not end

A program over a state gives a result or a fault, or it does not end and is undefined. A recursion
is such a program if it may take so many turns and no more, and to say that it ends is to say what
it gives if it may take enough of them:

* `Run`: programs that may be undefined, with `Run.undefined`;
* `Run.of`: a program that ends, seen as one of them;
* `Run.bind_of_ok`, `Run.bind_of_error`: what comes of programs in turn.
-/

namespace CilTrim

variable {ε σ α β : Type}

/-- Programs over a state that may be undefined. -/
abbrev Run (ε σ : Type) := ExceptT ε (StateT σ Option)

namespace Run

/-- A program that does not end. -/
def undefined : Run ε σ α := fun _ => none

/-- A program that ends. -/
def of (program : EStateM ε σ α) : Run ε σ α := fun s =>
  match program s with
  | .ok a s' => some (.ok a, s')
  | .error fault s' => some (.error fault, s')

variable {run : Run ε σ α} {next : α → Run ε σ β} {s s' : σ}

theorem bind_of_ok {a : α} (h : run s = some (.ok a, s')) : (run >>= next) s = next a s' := by
  simp only [Bind.bind, ExceptT.bind, ExceptT.mk, ExceptT.bindCont, StateT.bind, h,
    Option.bind_some]

theorem bind_of_error {fault : ε} (h : run s = some (.error fault, s')) :
    (run >>= next) s = some (.error fault, s') := by
  simp only [Bind.bind, ExceptT.bind, ExceptT.mk, ExceptT.bindCont, StateT.bind, h,
    Option.bind_some]
  rfl

end Run

end CilTrim
