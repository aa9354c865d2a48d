import Wei.Perfreport.Cadence

/-!
# The reports of a stretch with one verdict

What is published for a client alternates, whether it has a slot or not. So a stretch
of calls that show one verdict for it adds at most one report.
-/
namespace Wei.Perfreport

open Wei.Lib Wei.Lib.SlotTable
open Infer (Verdict)

end Wei.Perfreport
