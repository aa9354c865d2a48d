import Mathlib.Data.Fin.VecNotation
import Wei.Lib.Ring
import Wei.ConnScorer
import Wei.Track.Table

/-!
# One client of the inference engine

The parts of `wei_infer.c` that read and write one client: its windows and
bands, the scorer, the three verdict flags, the attribution and the episode
ledger. The two ring buffers of `wei_infer_client_t` are `Ring` windows; its
`disconnected` and `disconnect_ts` are written and read nowhere and left out.
-/
namespace Wei.Infer

open Wei.Lib Wei.ConnScorer
open CDouble (ofInt lt le)

inductive Verdict where
  | smooth
  | degraded
  deriving DecidableEq, Repr

inductive Contributor where
  | none
  | snr
  | phy
  | pktErr
  | chanUtil
  deriving DecidableEq, Repr

/-- `wei_infer_policy_t` -/
structure Policy where
  tputVarBand : Int32
  tputFloorMs : Int
  latencyScoreBand : UInt8
  latencySustainTicks : UInt16
  videoDegradeBand : UInt8
  deriving DecidableEq

/-- `weid_wire_default_policy` -/
def wireDefaultPolicy : Policy where
  tputVarBand := 25
  tputFloorMs := 2 * 5000
  latencyScoreBand := 40
  latencySustainTicks := 3
  videoDegradeBand := 50

/-- `wei_infer_result_t` -/
structure Result where
  score : UInt8
  verdict : Verdict
  dominant : Contributor
  videoDegrade : Bool
  pktErrPct : UInt8
  deriving DecidableEq

def Result.zero : Result := ⟨0, .smooth, .none, false, 0⟩

/-- `WEI_INFER_METRIC_COUNT`, `WEI_INFER_PERR_WINDOW`, `WEI_INFER_PHY_WINDOW` -/
abbrev metricCount : Nat := 3
abbrev perrWindow : Nat := 8
abbrev phyWindow : Nat := 8

/-- `WEI_INFER_EPISODE_CAP` -/
abbrev episodeCap : Nat := 8

/-- As for the literals of `ℝ`: one instance for the literals of each index type below,
whatever the modules that use them import. -/
instance neZero_episodeCap : NeZero episodeCap := ⟨by decide⟩
instance (priority := high) neZero_fill : NeZero (episodeCap + 1) := ⟨by decide⟩
instance neZero_metricCount : NeZero metricCount := ⟨by decide⟩
instance neZero_contributors : NeZero 4 := ⟨by decide⟩

/-- `WEI_INFER_RECONNECT_RAMP` -/
def reconnectRamp : UInt16 := 4

section Client

variable {D : Type} [CDouble D]

/-- `wei_infer_band_t` -/
structure Band (D : Type) where
  lo : D
  hi : D
  primed : Bool

def Band.zero : Band D := ⟨ofInt 0, ofInt 0, false⟩

/-- `wei_infer_client_t`: `perr` is the ring of (frames, errors) counter pairs
and `phy` the ring of uplink rates. -/
structure Client (D : Type) where
  normBand : Fin metricCount → Band D
  perr : Ring (UInt32 × UInt32) perrWindow
  phy : Ring UInt32 phyWindow
  thresholdCross : UInt16
  alarm : Bool
  reconnectRamp : UInt16

def Client.zero : Client D where
  normBand := fun _ => Band.zero
  perr := Ring.empty (0, 0)
  phy := Ring.empty 0
  thresholdCross := 0
  alarm := false
  reconnectRamp := 0

/-- `wei_infer_perr_push` -/
def perrPush (st : Client D) (frames errs : UInt32) : Client D :=
  { st with perr := st.perr.push (frames, errs) }

/-- `wei_infer_phy_push` -/
def phyPush (st : Client D) (v : UInt32) : Client D := { st with phy := st.phy.push v }

/-- The saturated difference of two cumulative counters. -/
def counterDelta (newest oldest : UInt32) : UInt32 :=
  if oldest ≤ newest then newest - oldest else 0

/-- The quotient of `wei_infer_perr_rate`: both deltas and their sum are
`uint32_t`, so the sum that guards and divides is taken modulo 2^32. -/
def lossRate (newest oldest : UInt32 × UInt32) : D :=
  let dFrames := counterDelta newest.1 oldest.1
  let dErrs := counterDelta newest.2 oldest.2
  if dFrames + dErrs = 0 then ofInt 0
  else ofInt dErrs.toNat / ofInt (dFrames + dErrs).toNat * ofInt 100

/-- `wei_infer_perr_rate` -/
def perrRate (st : Client D) : D :=
  if st.perr.fill < 2 then ofInt 0
  else lossRate (st.perr.buf st.perr.newest) (st.perr.buf st.perr.oldest)

/-- `wei_infer_phy_mean`: eight 32-bit rates cannot overflow the 64-bit sum. -/
def phyMean (st : Client D) : D :=
  let sum := (st.phy.contents.map UInt32.toNat).sum
  if st.phy.fill = 0 then ofInt 0 else ofInt sum / ofInt st.phy.fill

/-- The variance of the rate window in (Mbps)^2, before the conversion of
`wei_infer_phy_instability` to `int32_t`. -/
def phyVarianceMbps (st : Client D) : Int :=
  let mean := phyMean st
  let accum := st.phy.contents.foldl
    (fun accum v => accum + (ofInt v.toNat - mean) * (ofInt v.toNat - mean)) (ofInt 0)
  CDouble.trunc (accum / ofInt st.phy.fill / ofInt 1000000)

/-- `wei_infer_phy_instability`: a variance outside the `int32_t` range makes
the C conversion undefined; it is read modulo 2^32 here. -/
def phyInstability (st : Client D) : Int32 :=
  if st.phy.fill < 2 then 0 else Int32.ofInt (phyVarianceMbps st)

/-- `wei_infer_band_widen` -/
def bandWiden (b : Band D) (v : D) : Band D :=
  if b.primed = false then ⟨v, v, true⟩
  else
    let b := if lt v b.lo then { b with lo := v } else b
    if lt b.hi v then { b with hi := v } else b

/-- The ease-in fraction applied while `ramp` ticks of the reconnect ramp are left. -/
def ease (ramp : UInt16) : D :=
  let progress := ofInt (reconnectRamp - ramp + 1).toNat / ofInt reconnectRamp.toNat
  (ofInt 1 - CDouble.exp (-ofInt 4 * progress)) / (ofInt 1 - CDouble.exp (-ofInt 4))

/-- Packet-error percentage carried in the result. -/
def pktErrPct (perPct : D) : UInt8 :=
  if le perPct (ofInt 0) then 0
  else if le (ofInt 100) perPct then 100
  else UInt8.ofInt (CDouble.lround perPct)

/-- `wei_infer_score_client`: `none` when the client is gated out this tick. -/
def scoreClient (lq : LinkQty D) (st : Client D) (rec : ConnMetric.Record) :
    Option (Client D × Result) :=
  if rec.usable = false then none
  else
    let warming := decide (st.phy.fill = 0)
    let st := phyPush st rec.phyRateKbps
    let st := perrPush st rec.txFrames rec.txErrFrames
    let smoothedPhy := phyMean st
    let perPct := perrRate st
    let snr : D := ofInt rec.linkSnrDb.toInt
    let band0 := bandWiden (st.normBand 0) snr
    let band1 := bandWiden (st.normBand 1) smoothedPhy
    let band2 := bandWiden (st.normBand 2) perPct
    let norm0 := normalizeMetric snr band0.lo band0.hi
    let norm1 := normalizeMetric smoothedPhy band1.lo band1.hi
    let norm2 := normalizeMetric perPct band2.lo band2.hi
    let contrib := [norm0 * norm0, norm1 * norm1, ofInt 1 - norm2 * norm2]
    let reduced := rmsReduce contrib
    let weighted := chanutilWeight lq reduced (ofInt rec.chanUtilPct.toNat)
    let score := standardize weighted
    let ramp := if warming then reconnectRamp else st.reconnectRamp
    let score := if 0 < ramp then score * ease ramp else score
    let ramp := if 0 < ramp then ramp - 1 else ramp
    some ({ st with normBand := ![band0, band1, band2], reconnectRamp := ramp },
      { score := UInt8.ofInt (CDouble.trunc (score + ofInt 1 / ofInt 2))
        verdict := .smooth
        dominant := .none
        videoDegrade := false
        pktErrPct := pktErrPct perPct })

/-- The tick and the collect that `wei_infer_flag_instability` gives the entry it
got: the tracker times the negated instability against the negated band. -/
def timeEntry (policy : Policy) (instability : Int32) (now : Int) (e : Track.Entry) :
    Track.Entry × Track.Record :=
  Track.collect (Track.tick e (-instability) now (-policy.tputVarBand) policy.tputFloorMs)

/-- `wei_infer_flag_instability`. The slot index is what `wei_track_get` returned. -/
def flagInstability (policy : Policy) (tracker : Track.Table) (mac : Mac) (st : Client D)
    (out : Result) (now : Int) : Track.Table × Option (Fin Track.maxClients) × Result :=
  let instability := phyInstability st
  let unstable := decide (policy.tputVarBand < instability)
  let (tracker, entry) := Track.get tracker mac now
  match entry with
  | none => (tracker, none, if unstable then { out with verdict := .degraded } else out)
  | some i =>
    let (e, excursion) := timeEntry policy instability now (tracker i)
    let unstable := unstable || decide (0 < excursion.durationMs)
    (Function.update tracker i e, some i,
      if unstable then { out with verdict := .degraded } else out)

/-- `wei_infer_flag_latency_risk` -/
def flagLatencyRisk (policy : Policy) (st : Client D) (out : Result) : Client D × Result :=
  let st :=
    if out.score < policy.latencyScoreBand then
      let cross := if st.thresholdCross < 65535 then st.thresholdCross + 1 else st.thresholdCross
      { st with
        thresholdCross := cross
        alarm := if policy.latencySustainTicks ≤ cross then true else st.alarm }
    else { st with thresholdCross := 0, alarm := false }
  (st, if st.alarm then { out with verdict := .degraded } else out)

/-- `wei_infer_flag_video_degrade` -/
def flagVideoDegrade (policy : Policy) (out : Result) : Result :=
  if out.score < policy.videoDegradeBand then { out with videoDegrade := true } else out

/-- The contributor that stands `worst` places after `WEI_INFER_CONTRIB_SNR`. -/
def contributorAt : Fin 4 → Contributor
  | 0 => .snr
  | 1 => .phy
  | 2 => .pktErr
  | 3 => .chanUtil

/-- `wei_infer_attribute`: the raw rate is ranked over the band of smoothed rates. -/
def attributeMetric (st : Client D) (rec : ConnMetric.Record) : Contributor :=
  let badness : Fin 4 → D := ![
    ofInt 1 - normalizeMetric (ofInt rec.linkSnrDb.toInt) (st.normBand 0).lo (st.normBand 0).hi,
    ofInt 1 - normalizeMetric (ofInt rec.phyRateKbps.toNat) (st.normBand 1).lo (st.normBand 1).hi,
    normalizeMetric (perrRate st) (st.normBand 2).lo (st.normBand 2).hi,
    ofInt rec.chanUtilPct.toNat / ofInt 100]
  let worst : Fin 4 := [1, 2, 3].foldl
    (fun worst i => if lt (badness worst) (badness i) then i else worst) 0
  contributorAt worst

end Client

/-- `wei_infer_episode_t` -/
structure Episode where
  startMs : Int
  stopMs : Int
  deriving DecidableEq

/-- `wei_infer_episode_log_t` -/
structure EpisodeLog where
  ring : Fin episodeCap → Episode
  head : Fin episodeCap
  fill : Fin (episodeCap + 1)
  episodes : UInt32

def EpisodeLog.zero : EpisodeLog := ⟨fun _ => ⟨0, 0⟩, 0, 0, 0⟩

/-- `wei_infer_ledger_update` -/
def ledgerUpdate (log : EpisodeLog) (verdict : Verdict) (now : Int) : EpisodeLog :=
  let isOpen := decide (0 < log.fill) && decide ((log.ring log.head).stopMs = 0)
  match verdict with
  | .degraded =>
    if isOpen = false then
      let head := if 0 < log.fill then log.head + 1 else 0
      { ring := Function.update log.ring head ⟨now, 0⟩
        head := head
        fill := if h : log.fill.val < episodeCap then ⟨log.fill.val + 1, by omega⟩ else log.fill
        episodes := if log.episodes < 4294967295 then log.episodes + 1 else log.episodes }
    else log
  | .smooth =>
    if isOpen then { log with ring := Function.update log.ring log.head ⟨(log.ring log.head).startMs, now⟩ }
    else log

end Wei.Infer
