import Wei.Lib.Narrow
import Wei.Life.Station

/-!
# The thresholds as integers

Each detector hands `wei_track_tick` a metric and a band of type `int32_t`; two
of them negate both, two narrow a `uint32_t`. The comparison that is made
against the one that is meant, over every record and every policy.
-/
namespace Wei.Life

open Wei.Lib.Narrow

namespace Metric

section Thresholds

variable (m : ConnMetric.Record) (policy : Policy)

/-- The metric is beyond its bound, over the integers. -/
def Beyond : Metric → Prop
  | snr => m.linkSnrDb.toInt < policy.snrFloor.toInt
  | loss => policy.lossCeiling.toInt < m.txErrFrames.toNat
  | phy => (m.phyRateKbps.toNat : Int) < policy.phyFloor.toInt
  | chanutil => policy.chanutilCeiling.toInt < m.chanUtilPct.toNat

/-- No cast and no negation on the way to `wei_track_tick` overflows. -/
def NoOverflow : Metric → Prop
  | snr => True
  | loss => CastExact m.txErrFrames ∧ NegExact m.txErrFrames.toInt32 ∧ NegExact policy.lossCeiling
  | phy => CastExact m.phyRateKbps
  | chanutil => CastExact m.chanUtilPct.toUInt32 ∧ NegExact m.chanUtilPct.toUInt32.toInt32 ∧
      NegExact policy.chanutilCeiling

/-- The call to `wei_track_tick` makes the comparison that is meant. -/
def Compares (metric : Metric) : Prop :=
  metric.value m < metric.band policy ↔ metric.Beyond m policy

theorem compares_snr : snr.Compares m policy := Int32.lt_iff_toInt_lt

theorem compares_loss_iff : loss.Compares m policy ↔
    policy.lossCeiling ≠ Int32.minValue ∧ (m.txErrFrames.toNat ≤ 2147483648 ∨
      policy.lossCeiling.toInt < (m.txErrFrames.toNat : Int) - 4294967296) := by
  have hlow := policy.lossCeiling.le_toInt
  have hhigh := policy.lossCeiling.toInt_lt
  have hframes := m.txErrFrames.toNat_lt
  rw [Compares, Int32.lt_iff_toInt_lt, value, band, toInt_neg, toInt_neg, toInt_toInt32, Beyond,
    ne_eq, ← toInt_eq_minValue_iff]
  split <;> split <;> split <;> omega

theorem compares_phy_iff : phy.Compares m policy ↔
    m.phyRateKbps.toNat < 2147483648 ∨
      policy.phyFloor.toInt ≤ (m.phyRateKbps.toNat : Int) - 4294967296 := by
  have hhigh := policy.phyFloor.toInt_lt
  rw [Compares, Int32.lt_iff_toInt_lt, value, band, toInt_toInt32, Beyond]
  split <;> omega

theorem chanUtil_toInt : m.chanUtilPct.toUInt32.toInt32.toInt = m.chanUtilPct.toNat := by
  have hbyte := m.chanUtilPct.toNat_lt
  rw [toInt_toInt32, UInt8.toNat_toUInt32, if_pos (by omega)]

theorem compares_chanutil_iff :
    chanutil.Compares m policy ↔ policy.chanutilCeiling ≠ Int32.minValue := by
  have hlow := policy.chanutilCeiling.le_toInt
  have hhigh := policy.chanutilCeiling.toInt_lt
  have hbyte := m.chanUtilPct.toNat_lt
  rw [Compares, Int32.lt_iff_toInt_lt, value, band, toInt_neg, toInt_neg, chanUtil_toInt, Beyond,
    ne_eq, ← toInt_eq_minValue_iff]
  split <;> split <;> omega

/-- The inputs on which the expressions of a detector stay in range. -/
def InRange : Metric → Prop
  | snr => True
  | loss => m.txErrFrames.toNat < 2147483648 ∧ policy.lossCeiling ≠ Int32.minValue
  | phy => m.phyRateKbps.toNat < 2147483648
  | chanutil => policy.chanutilCeiling ≠ Int32.minValue

theorem noOverflow_iff (metric : Metric) :
    metric.NoOverflow m policy ↔ metric.InRange m policy := by
  cases metric with
  | snr => exact Iff.rfl
  | loss =>
    rw [NoOverflow, InRange, castExact_iff, negExact_iff, negExact_iff]
    refine and_congr_right fun hcast => and_iff_right ?_
    -- a counter that fits is not negative
    rw [ne_eq, ← toInt_eq_minValue_iff, toInt_toInt32, if_pos hcast]
    omega
  | phy => exact castExact_iff _
  | chanutil =>
    have hbyte := m.chanUtilPct.toNat_lt
    have hcast : CastExact m.chanUtilPct.toUInt32 := by
      rw [castExact_iff, UInt8.toNat_toUInt32]
      omega
    have hneg : NegExact m.chanUtilPct.toUInt32.toInt32 := by
      rw [negExact_iff, ne_eq, ← toInt_eq_minValue_iff, chanUtil_toInt]
      omega
    exact ⟨fun h => (negExact_iff _).mp h.2.2, fun h => ⟨hcast, hneg, (negExact_iff _).mpr h⟩⟩

theorem compares_of_inRange {metric : Metric} (h : metric.InRange m policy) :
    metric.Compares m policy := by
  cases metric with
  | snr => exact compares_snr m policy
  | loss => exact (compares_loss_iff m policy).mpr ⟨h.2, Or.inl (Nat.le_of_lt h.1)⟩
  | phy => exact (compares_phy_iff m policy).mpr (Or.inl h)
  | chanutil => exact (compares_chanutil_iff m policy).mpr h

end Thresholds

end Metric

/-- The detectors compare as over the integers, and nothing overflows, exactly
for counters and rates below 2^31 and ceilings that can be negated. -/
theorem thresholds_exact_iff (m : ConnMetric.Record) (policy : Policy) :
    (∀ metric : Metric, metric.Compares m policy ∧ metric.NoOverflow m policy) ↔
      m.txErrFrames.toNat < 2147483648 ∧ m.phyRateKbps.toNat < 2147483648 ∧
        policy.lossCeiling ≠ Int32.minValue ∧ policy.chanutilCeiling ≠ Int32.minValue := by
  constructor
  · intro h
    have hrange : ∀ metric : Metric, metric.InRange m policy := fun metric =>
      (Metric.noOverflow_iff m policy metric).mp (h metric).2
    exact ⟨(hrange .loss).1, hrange .phy, (hrange .loss).2, hrange .chanutil⟩
  · intro ⟨hframes, hrate, hloss, hchanutil⟩ metric
    have hrange : metric.InRange m policy := by
      cases metric with
      | snr => trivial
      | loss => exact ⟨hframes, hloss⟩
      | phy => exact hrate
      | chanutil => exact hchanutil
    exact ⟨Metric.compares_of_inRange m policy hrange,
      (Metric.noOverflow_iff m policy metric).mpr hrange⟩

/-- A counter of 3000000000 error frames passes for one below the default ceiling. -/
theorem many_errors_pass :
    ¬ Metric.loss.Compares { ConnMetric.Record.zero with txErrFrames := 3000000000 }
      Policy.defaults := by
  rw [Metric.compares_loss_iff]
  decide

end Wei.Life
