import Wei.Infer.Steady
import Wei.Perfreport.Alternation
import Wei.Process.Pulses

/-!
# A link that settled falls silent

The publishes of a run show a client what the ticks scored for it, in order. A link
whose record stays is shown one verdict from some tick on, so it is reported at most
once more, however the enable is toggled and whatever becomes of the publishes.
-/
namespace Wei.Process

open Wei.Lib Wei.ConnScorer
open Infer (ScoredTick scoredTicks beats)

/-! ## The scored ticks of a run -/

section Scored

variable {D : Type} [CDouble D] (lq : LinkQty D) (mac : Mac)

end Scored

/-! ## What a run leaves in the trace stays -/

section Growth

variable {D : Type} [CDouble D]
variable (lq : LinkQty D) (order : ByteOrder) (layout : Wire.Layout) (clock : Nat → Int)
variable (lib : Rfc.CJson)
variable {st₀ st st' : State D}

end Growth

/-! ## The reports of a settled link -/

section Settled

variable (lq : LinkQty ℝ) (order : ByteOrder) (layout : Wire.Layout) (clock : Nat → Int)
variable (lib : Rfc.CJson)
variable {st₀ st₁ st₂ : State ℝ} {mac : Mac} {pre a : List Infer.Event}
variable {old steady : List ScoredTick} {r : ConnMetric.Record}

/-- The verdicts published for a client by the end of a run. -/
def reported (mac : Mac) (st : State ℝ) : List Infer.Verdict :=
  Perfreport.publishedVerdicts mac (st.trace.filterMap Mark.call)

end Settled

section Witness

end Witness

end Wei.Process
