import Mathlib.Data.List.Chain
import Mathlib.Data.List.Pairwise
import Mathlib.Tactic.Linarith
import Mathlib.Tactic.Ring

/-!
# Times a period apart

Times of which each lies at least a period behind the one before, and how many
of them a window of time can hold.
-/
namespace Wei.Lib.Spaced

variable {period : Int}

end Wei.Lib.Spaced
