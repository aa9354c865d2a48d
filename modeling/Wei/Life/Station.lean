import Mathlib.Algebra.GroupWithZero.Nat
import Mathlib.Algebra.Ring.Int.Defs
import Wei.ConnScorer
import Wei.Track.Table

/-!
# One tracked station

The context of `wei_life.c` and the four detectors that run over it. Each
detector ticks and collects a tracker entry of its own; they differ in the
metric they read, its sign, and the bound and dwell the policy gives it.
-/
namespace Wei.Life

open Wei.Lib

/-- `wei_life_policy_t` -/
structure Policy where
  snrFloor : Int32
  snrDwellMs : Int
  lossCeiling : Int32
  lossDwellMs : Int
  phyFloor : Int32
  phyDwellMs : Int
  chanutilCeiling : Int32
  chanutilDwellMs : Int

/-- `WEI_LIFE_DEFAULT_DWELL_MS`, three ticks of `WEI_TICK_DEFAULT_MS`. -/
def defaultDwellMs : Int := 3 * 5000

/-- `wei_life_policy_set_defaults` -/
def Policy.defaults : Policy where
  snrFloor := 15
  snrDwellMs := defaultDwellMs
  lossCeiling := 10
  lossDwellMs := defaultDwellMs
  phyFloor := 6000
  phyDwellMs := defaultDwellMs
  chanutilCeiling := 70
  chanutilDwellMs := defaultDwellMs

/-- `wei_life_metric_t` -/
inductive Metric where
  | snr
  | loss
  | phy
  | chanutil
  deriving DecidableEq

/-- `wei_life_ctx` -/
structure Ctx where
  mac : Mac
  sample : ConnMetric.Record
  snrTrack : Track.Entry
  lossTrack : Track.Entry
  phyTrack : Track.Entry
  chanutilTrack : Track.Entry

/-- The zeroed context of a station that attaches. -/
def Ctx.opened (mac : Mac) : Ctx :=
  ⟨mac, ConnMetric.Record.zero, Track.Entry.zero, Track.Entry.zero, Track.Entry.zero,
    Track.Entry.zero⟩

/-- `wei_life_excursion_t` -/
structure Excursion where
  mac : Mac
  metric : Metric
  onsetCount : UInt32
  durationMs : Int
  deriving DecidableEq

/-- The body the detectors share: tick, collect, and an excursion unless both
collected values are zero. -/
def evalTrack (track : Track.Entry) (mac : Mac) (metric : Metric) (value : Int32) (now : Int)
    (band : Int32) (dwellMs : Int) : Track.Entry × Option Excursion :=
  let (track, rec) := Track.collect (Track.tick track value now band dwellMs)
  if rec.count = 0 ∧ rec.durationMs = 0 then (track, none)
  else (track, some ⟨mac, metric, rec.count, rec.durationMs⟩)

/-- `wei_life_eval_snr` -/
def evalSnr (ctx : Ctx) (m : ConnMetric.Record) (policy : Policy) (now : Int) :
    Ctx × Option Excursion :=
  let (track, out) :=
    evalTrack ctx.snrTrack ctx.mac .snr m.linkSnrDb now policy.snrFloor policy.snrDwellMs
  ({ ctx with snrTrack := track }, out)

/-- `wei_life_eval_loss`, above its ceiling through the negated value and band. -/
def evalLoss (ctx : Ctx) (m : ConnMetric.Record) (policy : Policy) (now : Int) :
    Ctx × Option Excursion :=
  let (track, out) :=
    evalTrack ctx.lossTrack ctx.mac .loss (-m.txErrFrames.toInt32) now (-policy.lossCeiling)
      policy.lossDwellMs
  ({ ctx with lossTrack := track }, out)

/-- `wei_life_eval_phy` -/
def evalPhy (ctx : Ctx) (m : ConnMetric.Record) (policy : Policy) (now : Int) :
    Ctx × Option Excursion :=
  let (track, out) :=
    evalTrack ctx.phyTrack ctx.mac .phy m.phyRateKbps.toInt32 now policy.phyFloor policy.phyDwellMs
  ({ ctx with phyTrack := track }, out)

/-- `wei_life_eval_chanutil` -/
def evalChanutil (ctx : Ctx) (m : ConnMetric.Record) (policy : Policy) (now : Int) :
    Ctx × Option Excursion :=
  let (track, out) :=
    evalTrack ctx.chanutilTrack ctx.mac .chanutil (-m.chanUtilPct.toUInt32.toInt32) now
      (-policy.chanutilCeiling) policy.chanutilDwellMs
  ({ ctx with chanutilTrack := track }, out)

/-- `wei_life_eval_ctx` with the excursions it packs. -/
def evalCtx (ctx : Ctx) (policy : Policy) (now : Int) : Ctx × List Excursion :=
  let m := ctx.sample
  let (ctx, snr) := evalSnr ctx m policy now
  let (ctx, loss) := evalLoss ctx m policy now
  let (ctx, phy) := evalPhy ctx m policy now
  let (ctx, chanutil) := evalChanutil ctx m policy now
  (ctx, snr.toList ++ loss.toList ++ phy.toList ++ chanutil.toList)

/-! ## The detectors by metric -/

namespace Metric

/-- What the detector reads. -/
def value (m : ConnMetric.Record) : Metric → Int32
  | snr => m.linkSnrDb
  | loss => -m.txErrFrames.toInt32
  | phy => m.phyRateKbps.toInt32
  | chanutil => -m.chanUtilPct.toUInt32.toInt32

/-- The band below which an excursion opens. -/
def band (policy : Policy) : Metric → Int32
  | snr => policy.snrFloor
  | loss => -policy.lossCeiling
  | phy => policy.phyFloor
  | chanutil => -policy.chanutilCeiling

def dwellMs (policy : Policy) : Metric → Int
  | snr => policy.snrDwellMs
  | loss => policy.lossDwellMs
  | phy => policy.phyDwellMs
  | chanutil => policy.chanutilDwellMs

/-- The order in which the detectors run. -/
def all : List Metric := [snr, loss, phy, chanutil]

theorem mem_all (metric : Metric) : metric ∈ all := by
  cases metric <;> simp [all]

end Metric

def Ctx.track (ctx : Ctx) : Metric → Track.Entry
  | .snr => ctx.snrTrack
  | .loss => ctx.lossTrack
  | .phy => ctx.phyTrack
  | .chanutil => ctx.chanutilTrack

/-- The detector of one metric over a context. -/
def Ctx.detect (ctx : Ctx) (policy : Policy) (now : Int) (metric : Metric) :
    Track.Entry × Option Excursion :=
  evalTrack (ctx.track metric) ctx.mac metric (metric.value ctx.sample) now (metric.band policy)
    (metric.dwellMs policy)

/-- The entry of one metric after its tick, before it is collected. -/
def Ctx.ticked (ctx : Ctx) (policy : Policy) (now : Int) (metric : Metric) : Track.Entry :=
  Track.tick (ctx.track metric) (metric.value ctx.sample) now (metric.band policy)
    (metric.dwellMs policy)

@[simp] theorem opened_mac (mac : Mac) : (Ctx.opened mac).mac = mac := rfl

@[simp] theorem opened_track (mac : Mac) (metric : Metric) :
    (Ctx.opened mac).track metric = Track.Entry.zero := by
  cases metric <;> rfl

section EvalCtx

variable (ctx : Ctx) (policy : Policy) (now : Int)

@[simp] theorem evalCtx_mac : (evalCtx ctx policy now).1.mac = ctx.mac := rfl

@[simp] theorem evalCtx_sample : (evalCtx ctx policy now).1.sample = ctx.sample := rfl

/-- The detectors do not touch each other's entries. -/
theorem evalCtx_track (metric : Metric) :
    (evalCtx ctx policy now).1.track metric = (ctx.detect policy now metric).1 := by
  cases metric <;> rfl

/-- The detectors pack their excursions in order, at most one each. -/
theorem evalCtx_excursions : (evalCtx ctx policy now).2 =
    Metric.all.flatMap fun metric => (ctx.detect policy now metric).2.toList := by
  have h : (evalCtx ctx policy now).2 =
      (ctx.detect policy now .snr).2.toList ++ (ctx.detect policy now .loss).2.toList ++
        (ctx.detect policy now .phy).2.toList ++ (ctx.detect policy now .chanutil).2.toList := rfl
  rw [h]
  simp [Metric.all]

theorem detect_entry (metric : Metric) : (ctx.detect policy now metric).1 =
    { ctx.ticked policy now metric with count := 0, accumulated := 0 } := by
  unfold Ctx.detect evalTrack
  dsimp only
  split <;> rfl

theorem detect_eq_none_iff {metric : Metric} : (ctx.detect policy now metric).2 = none ↔
    (ctx.ticked policy now metric).count = 0 ∧ (ctx.ticked policy now metric).accumulated = 0 := by
  unfold Ctx.detect evalTrack
  dsimp only
  split
  next h => exact iff_of_true rfl h
  next h => exact iff_of_false (by simp) h

theorem detect_eq {metric : Metric} {x : Excursion}
    (h : (ctx.detect policy now metric).2 = some x) :
    x = ⟨ctx.mac, metric, (ctx.ticked policy now metric).count,
      (ctx.ticked policy now metric).accumulated⟩ := by
  unfold Ctx.detect evalTrack at h
  dsimp only at h
  split at h
  · cases h
  · exact (Option.some.inj h).symm

theorem detect_excursion {metric : Metric} {x : Excursion}
    (h : x ∈ (ctx.detect policy now metric).2) : x.mac = ctx.mac ∧ x.metric = metric := by
  obtain rfl := detect_eq ctx policy now (Option.mem_def.mp h)
  exact ⟨rfl, rfl⟩

theorem mem_evalCtx {x : Excursion} : x ∈ (evalCtx ctx policy now).2 ↔
    x ∈ (ctx.detect policy now x.metric).2 := by
  rw [evalCtx_excursions, List.mem_flatMap]
  constructor
  · rintro ⟨metric, _, h⟩
    rw [Option.mem_toList] at h
    rwa [(detect_excursion ctx policy now h).2]
  · exact fun h => ⟨x.metric, Metric.mem_all _, Option.mem_toList.mpr h⟩

/-- The pack fits the array of `WEI_LIFE_METRIC_COUNT` it is written to. -/
theorem evalCtx_length : (evalCtx ctx policy now).2.length ≤ Metric.all.length := by
  have hone : ∀ metric, (ctx.detect policy now metric).2.toList.length ≤ 1 :=
    fun _ => Option.length_toList_le
  have hsnr := hone .snr
  have hloss := hone .loss
  have hphy := hone .phy
  have hchanutil := hone .chanutil
  rw [evalCtx_excursions]
  simp only [Metric.all, List.flatMap_cons, List.flatMap_nil, List.length_append, List.length_cons,
    List.length_nil]
  omega

theorem detect_filter (metric metric' : Metric) :
    ((ctx.detect policy now metric').2.toList.filter fun x => decide (x.metric = metric)) =
      if metric' = metric then (ctx.detect policy now metric').2.toList else [] := by
  cases hd : (ctx.detect policy now metric').2 with
  | none => simp
  | some x =>
    have hx := (detect_excursion ctx policy now (Option.mem_def.mpr hd)).2
    by_cases hm : metric' = metric <;> simp [hx, hm]

/-- Of one metric the pack holds what that metric's detector found. -/
theorem evalCtx_filter (metric : Metric) :
    ((evalCtx ctx policy now).2.filter fun x => decide (x.metric = metric)) =
      (ctx.detect policy now metric).2.toList := by
  rw [evalCtx_excursions, List.filter_flatMap]
  simp only [detect_filter]
  cases metric <;> simp [Metric.all]

/-- A suppressed excursion would have reported zeros. -/
theorem detect_sums (metric : Metric) :
    ((ctx.detect policy now metric).2.toList.map fun x => x.onsetCount.toNat).sum =
        (ctx.ticked policy now metric).count.toNat ∧
      ((ctx.detect policy now metric).2.toList.map Excursion.durationMs).sum =
        (ctx.ticked policy now metric).accumulated := by
  cases hd : (ctx.detect policy now metric).2 with
  | none =>
    obtain ⟨hcount, hduration⟩ := (detect_eq_none_iff ctx policy now).mp hd
    simp [hcount, hduration]
  | some x =>
    obtain rfl := detect_eq ctx policy now hd
    simp

end EvalCtx

end Wei.Life
