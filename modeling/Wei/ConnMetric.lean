import Mathlib.Data.Int.Notation

/-!
# The per-client metric record

`wei_conn_metric.h`: the record every part of the daemon passes by value. The
two codes are the only ones the senders write.
-/
namespace Wei

/-- The six MAC bytes that key every per-client table. -/
abbrev Mac := Vector UInt8 6

namespace ConnMetric

/-- `WEI_CONN_METRIC_VERSION` -/
def version : UInt8 := 3

inductive State where
  | active
  | idle
  | sleeping
  deriving DecidableEq, Repr

/-- The enumerator's value in C. -/
def State.code : State → Int
  | .active => 0
  | .idle => 1
  | .sleeping => 2

inductive Status where
  | ok
  | noClientData
  | stale
  | scoreSuppressed
  deriving DecidableEq, Repr

def Status.code : Status → Int
  | .ok => 0
  | .noClientData => 1
  | .stale => 2
  | .scoreSuppressed => 3

/-- `wei_conn_metric_record_t` -/
structure Record where
  version : UInt8
  activityState : State
  status : Status
  linkSnrDb : Int32
  phyRateKbps : UInt32
  txFrames : UInt32
  txErrFrames : UInt32
  chanUtilPct : UInt8
  deriving DecidableEq

/-- The all-zero record of a fresh allocation; its codes read ACTIVE and OK. -/
def Record.zero : Record where
  version := 0
  activityState := .active
  status := .ok
  linkSnrDb := 0
  phyRateKbps := 0
  txFrames := 0
  txErrFrames := 0
  chanUtilPct := 0

/-- The gate both scorers put in front of a record. -/
def Record.usable (rec : Record) : Bool :=
  decide (rec.activityState = .active) && decide (rec.status = .ok)

end ConnMetric

end Wei
