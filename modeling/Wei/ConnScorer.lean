import Wei.Lib.Double
import Wei.ConnMetric

/-!
# The scoring kernel

`wei_conn_scorer.c`, over any `double`. `LINK_QTY_B0` and `LINK_QTY_B1` come
from the staged `run_qmgr.h`, which this repository does not hold: they are
arbitrary constants.
-/
namespace Wei.ConnScorer

open Wei.Lib
open CDouble (ofInt lt le)

variable {D : Type} [CDouble D]

structure LinkQty (D : Type) where
  b0 : D
  b1 : D

/-- `cscore_normalize_metric` -/
def normalizeMetric (value lo hi : D) : D :=
  let span := hi - lo
  if le span (ofInt 0) then ofInt 0
  else
    let unit := (value - lo) / span
    let unit := if lt unit (ofInt 0) then ofInt 0 else unit
    if lt (ofInt 1) unit then ofInt 1 else unit

/-- `cscore_rms_reduce` -/
def rmsReduce (contributions : List D) : D :=
  if contributions.length = 0 then ofInt 0
  else
    let accum := contributions.foldl (· + ·) (ofInt 0)
    let accum := accum / ofInt contributions.length
    if lt accum (ofInt 0) then ofInt 0 else CDouble.sqrt accum

/-- `cscore_chanutil_weight` -/
def chanutilWeight (lq : LinkQty D) (reduced chanUtil : D) : D :=
  let exponent := -(lq.b0 + lq.b1 * chanUtil)
  let exponent := if lt exponent (-ofInt 50) then -ofInt 50 else exponent
  let exponent := if lt (ofInt 50) exponent then ofInt 50 else exponent
  let weight := ofInt 1 / (ofInt 1 + CDouble.exp exponent)
  reduced * weight

/-- `CSCORE_SCALE_MIN` and `CSCORE_SCALE_MAX` -/
def scaleMin : D := ofInt 0
def scaleMax : D := ofInt 100

/-- `cscore_standardize` -/
def standardize (weighted : D) : D :=
  let scaled := scaleMin + weighted * (scaleMax - scaleMin)
  let scaled := if lt scaled scaleMin then scaleMin else scaled
  if lt scaleMax scaled then scaleMax else scaled

/-- The loss percentage of `wei_conn_scorer_score`, straight from the cumulative
counters: their `uint32_t` sum guards and divides modulo 2^32. -/
def instantLoss (rec : ConnMetric.Record) : D :=
  if rec.txFrames + rec.txErrFrames = 0 then ofInt 0
  else ofInt rec.txErrFrames.toNat / ofInt (rec.txFrames + rec.txErrFrames).toNat * ofInt 100

/-- What `wei_conn_scorer_score` rounds. -/
def rawScore (lq : LinkQty D) (rec : ConnMetric.Record) : D :=
  let norm0 : D := normalizeMetric (ofInt rec.linkSnrDb.toInt) (ofInt 0) (ofInt 40)
  let norm1 : D := normalizeMetric (ofInt rec.phyRateKbps.toNat) (ofInt 0) (ofInt 866000)
  let norm2 : D := normalizeMetric (instantLoss rec) (ofInt 0) (ofInt 100)
  let contrib := [norm0 * norm0, norm1 * norm1, ofInt 1 - norm2 * norm2]
  let reduced := rmsReduce contrib
  standardize (chanutilWeight lq reduced (ofInt rec.chanUtilPct.toNat))

/-- `wei_conn_scorer_score` -/
def score (lq : LinkQty D) (rec : ConnMetric.Record) : UInt8 :=
  if rec.usable = false then 0 else UInt8.ofInt (CDouble.lround (rawScore lq rec))

end Wei.ConnScorer
