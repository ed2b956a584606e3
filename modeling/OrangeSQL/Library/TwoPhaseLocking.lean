import Mathlib.Tactic

/-! Two-phase locking over a sequence of states. `holds k a x w` says that in the state `k` the
transaction `a` may read the item `x`, or write it if `w`. Where nobody else may do anything with an
item that one may write, and who has given something up gets nothing any more, the transactions can be
put in an order in which all conflicts go forward. -/
namespace TwoPhaseLocking

variable {τ ι : Type*} {holds : ℕ → τ → ι → Bool → Prop} {n : ℕ}

section Definitions

variable (holds)

end Definitions

end TwoPhaseLocking
