import Wei.Infer.Tenure

/-!
# One scored tick

What `wei_infer_score_client` and the flags after it do to a client whose record
passes the gate, part by part: the windows and bands it pushes into, the ramp,
the score, and where the verdict comes from.
-/
namespace Wei.Infer

open Wei.Lib Wei.ConnScorer
open CDouble (ofInt lt le)

variable {D : Type} [CDouble D]

/-- The client after both windows took the record in. -/
def pushed (st : Client D) (rec : ConnMetric.Record) : Client D :=
  perrPush (phyPush st rec.phyRateKbps) rec.txFrames rec.txErrFrames

def snrValue (rec : ConnMetric.Record) : D := ofInt rec.linkSnrDb.toInt

/-- The three bands after the tick. -/
def widened (st : Client D) (rec : ConnMetric.Record) : Fin metricCount → Band D :=
  ![bandWiden (st.normBand 0) (snrValue rec),
    bandWiden (st.normBand 1) (phyMean (pushed st rec)),
    bandWiden (st.normBand 2) (perrRate (pushed st rec))]

/-- A value inside its own band. -/
def inBand (band : Band D) (v : D) : D := normalizeMetric v band.lo band.hi

/-- The score on the 0-100 scale, before the ramp and the rounding. -/
def scaledScore (lq : LinkQty D) (st : Client D) (rec : ConnMetric.Record) : D :=
  let snr := inBand (widened st rec 0) (snrValue rec)
  let phy := inBand (widened st rec 1) (phyMean (pushed st rec))
  let err := inBand (widened st rec 2) (perrRate (pushed st rec))
  standardize (chanutilWeight lq (rmsReduce [snr * snr, phy * phy, ofInt 1 - err * err])
    (ofInt rec.chanUtilPct.toNat))

/-- The ramp a tick starts with: an empty rate window restarts it. -/
def rampAt (st : Client D) : UInt16 := if st.phy.fill = 0 then reconnectRamp else st.reconnectRamp

def easedScore (lq : LinkQty D) (st : Client D) (rec : ConnMetric.Record) : D :=
  if 0 < rampAt st then scaledScore lq st rec * ease (rampAt st) else scaledScore lq st rec

/-- The client the scorer leaves behind. -/
def scoredState (st : Client D) (rec : ConnMetric.Record) : Client D :=
  { pushed st rec with
    normBand := widened st rec
    reconnectRamp := if 0 < rampAt st then rampAt st - 1 else rampAt st }

/-- The result before any flag. -/
def plainResult (lq : LinkQty D) (st : Client D) (rec : ConnMetric.Record) : Result where
  score := UInt8.ofInt (CDouble.trunc (easedScore lq st rec + ofInt 1 / ofInt 2))
  verdict := .smooth
  dominant := .none
  videoDegrade := false
  pktErrPct := pktErrPct (perrRate (pushed st rec))

theorem scoreClient_eq (lq : LinkQty D) (st : Client D) {rec : ConnMetric.Record}
    (h : rec.usable = true) :
    scoreClient lq st rec = some (scoredState st rec, plainResult lq st rec) := by
  unfold scoreClient
  rw [h]
  simp only [Bool.true_eq_false, if_false]
  unfold plainResult easedScore scoredState rampAt
  by_cases hfill : st.phy.fill = 0
  · simp only [hfill, decide_true, if_true]
    rfl
  · simp only [hfill, decide_false, if_false, Bool.false_eq_true]
    rfl

/-! ## The latency alarm -/

/-- The client after the latency flag saw the score `score`. -/
def latencyState (policy : Policy) (st : Client D) (score : UInt8) : Client D :=
  if score < policy.latencyScoreBand then
    let cross := if st.thresholdCross < 65535 then st.thresholdCross + 1 else st.thresholdCross
    { st with
      thresholdCross := cross
      alarm := if policy.latencySustainTicks ≤ cross then true else st.alarm }
  else { st with thresholdCross := 0, alarm := false }

section Latency

omit [CDouble D]

theorem flagLatencyRisk_eq (policy : Policy) (st : Client D) (out : Result) :
    flagLatencyRisk policy st out = (latencyState policy st out.score,
      if (latencyState policy st out.score).alarm then { out with verdict := .degraded }
      else out) := rfl

theorem latencyState_phy (policy : Policy) (st : Client D) (score : UInt8) :
    (latencyState policy st score).phy = st.phy := by
  unfold latencyState
  split <;> rfl

theorem latencyState_perr (policy : Policy) (st : Client D) (score : UInt8) :
    (latencyState policy st score).perr = st.perr := by
  unfold latencyState
  split <;> rfl

theorem latencyState_normBand (policy : Policy) (st : Client D) (score : UInt8) :
    (latencyState policy st score).normBand = st.normBand := by
  unfold latencyState
  split <;> rfl

theorem latencyState_reconnectRamp (policy : Policy) (st : Client D) (score : UInt8) :
    (latencyState policy st score).reconnectRamp = st.reconnectRamp := by
  unfold latencyState
  split <;> rfl

end Latency

/-! ## One entry of the tracker -/

/-- The tracker sees the instability negated, and so does its band: it is below
the band exactly if the instability is above. -/
def above (policy : Policy) (instability : Int32) : Prop := -instability < -policy.tputVarBand

/-- The excursion that a tick closes counts if it lasted to the floor, and at all. -/
theorem timeEntry_duration (policy : Policy) (instability : Int32) (now : Int) {e : Track.Entry}
    (h : e.accumulated = 0) :
    0 < (timeEntry policy instability now e).2.durationMs ↔
      ¬ above policy instability ∧ e.startTs ≠ 0 ∧ policy.tputFloorMs ≤ now - e.startTs ∧
        e.startTs < now := by
  simp only [timeEntry, Track.collect, Track.tick]
  by_cases habove : above policy instability
  · have hlt : -instability < -policy.tputVarBand := habove
    by_cases hstart : e.startTs = 0 <;> simp [hlt, hstart, h, habove]
  · have hnlt : ¬ -instability < -policy.tputVarBand := habove
    by_cases hstart : e.startTs = 0
    · simp [hnlt, hstart, h]
    · by_cases hfloor : policy.tputFloorMs ≤ now - e.startTs <;>
        simp [hnlt, hstart, hfloor, h, habove]

/-- A tick that is not above the band leaves no excursion open and nothing to collect. -/
theorem timeEntry_closed {policy : Policy} {instability : Int32} (h : ¬ above policy instability)
    (now : Int) (e : Track.Entry) : (timeEntry policy instability now e).1 =
      { e with startTs := 0, accumulated := 0, count := 0 } := by
  have hnlt : ¬ -instability < -policy.tputVarBand := h
  simp only [timeEntry, Track.collect, Track.tick, if_neg hnlt]
  by_cases hstart : e.startTs = 0
  · simp [hstart]
  · by_cases hfloor : policy.tputFloorMs ≤ now - e.startTs <;> simp [hstart, hfloor]

theorem timeEntry_startTs (policy : Policy) (instability : Int32) (now : Int) (e : Track.Entry) :
    (timeEntry policy instability now e).1.startTs =
      (Track.tick e (-instability) now (-policy.tputVarBand) policy.tputFloorMs).startTs := rfl

/-! ## The windows -/

/-- The counter pair of a record, as the loss window keeps it. -/
def counters (rec : ConnMetric.Record) : UInt32 × UInt32 := (rec.txFrames, rec.txErrFrames)

/-- Both rings hold the last values of the records `rs`. -/
structure Windows (rs : List ConnMetric.Record) (st : Client D) : Prop where
  phy : st.phy.Represents (rs.map ConnMetric.Record.phyRateKbps)
  perr : st.perr.Represents (rs.map counters)

theorem windows_zero : Windows [] (Client.zero : Client D) :=
  ⟨Ring.represents_empty 0, Ring.represents_empty (0, 0)⟩

omit [CDouble D] in
theorem Windows.pushed {rs : List ConnMetric.Record} {st : Client D} (h : Windows rs st)
    (rec : ConnMetric.Record) : Windows (rs ++ [rec]) (pushed st rec) := by
  constructor
  · rw [List.map_append]
    exact Ring.represents_push h.phy rec.phyRateKbps
  · rw [List.map_append]
    exact Ring.represents_push h.perr (counters rec)

theorem Windows.scored {rs : List ConnMetric.Record} {st : Client D} (h : Windows rs st)
    (rec : ConnMetric.Record) : Windows (rs ++ [rec]) (scoredState st rec) :=
  ⟨(h.pushed rec).phy, (h.pushed rec).perr⟩

omit [CDouble D] in
theorem Windows.fill_eq_zero {rs : List ConnMetric.Record} {st : Client D} (h : Windows rs st) :
    st.phy.fill = 0 ↔ rs = [] := by
  rw [Ring.represents_ne_nil h.phy, List.map_eq_nil_iff]

/-! ## The whole of it -/

/-- The client after a scored tick. It depends on nothing but the client and its record. -/
def nextState (lq : LinkQty D) (policy : Policy) (st : Client D) (rec : ConnMetric.Record) :
    Client D :=
  latencyState policy (scoredState st rec) (plainResult lq st rec).score

theorem Windows.next {rs : List ConnMetric.Record} {st : Client D} (h : Windows rs st)
    (lq : LinkQty D) (policy : Policy) (rec : ConnMetric.Record) :
    Windows (rs ++ [rec]) (nextState lq policy st rec) := by
  obtain ⟨hphy, hperr⟩ := h.scored rec
  constructor
  · rw [nextState, latencyState_phy]
    exact hphy
  · rw [nextState, latencyState_perr]
    exact hperr

/-- The instability flag fires: now, or on an excursion the tracker just closed. -/
def unstable (policy : Policy) (instability : Int32)
    (timed : Option (Track.Entry × Track.Record)) : Prop :=
  policy.tputVarBand < instability ∨ timed.any (fun x => decide (0 < x.2.durationMs)) = true

/-- What a scored tick does to a row and a tracker entry, and what it emits. -/
structure RowScored (lq : LinkQty D) (policy : Policy) (now : Int) (room : Bool) (row : Row D)
    (entry : Option Track.Entry) (row' : Row D) (entry' : Option Track.Entry)
    (out : Result) : Prop where
  state : row'.slot.state = nextState lq policy row.slot.state row.snapshot
  kept : entry' = (timedEntry policy room row.slot.mac
    (phyInstability (scoredState row.slot.state row.snapshot)) now entry).map (·.1)
  score : out.score = (plainResult lq row.slot.state row.snapshot).score
  pktErrPct : out.pktErrPct = (plainResult lq row.slot.state row.snapshot).pktErrPct
  verdict : out.verdict = .degraded ↔
    unstable policy (phyInstability (scoredState row.slot.state row.snapshot))
      (timedEntry policy room row.slot.mac
        (phyInstability (scoredState row.slot.state row.snapshot)) now entry) ∨
    (nextState lq policy row.slot.state row.snapshot).alarm = true
  dominant : out.dominant ≠ .none ↔ out.verdict = .degraded
  videoDegrade : out.videoDegrade = true ↔ out.score < policy.videoDegradeBand
  ledger : row'.ledger = ledgerUpdate row.ledger out.verdict now

theorem contributorAt_ne_none (i : Fin 4) : contributorAt i ≠ .none := by
  revert i
  decide

/-- The result after the latency flag, the video flag and the attribution. -/
def concluded (policy : Policy) (st : Client D) (rec : ConnMetric.Record) (out : Result) : Result :=
  let verdict := if st.alarm then .degraded else out.verdict
  { out with
    verdict := verdict
    dominant := if verdict = .degraded then attributeMetric st rec else out.dominant
    videoDegrade := if out.score < policy.videoDegradeBand then true else out.videoDegrade }

theorem concludeScore_eq (policy : Policy) (st : Client D) (rec : ConnMetric.Record)
    (out : Result) (log : EpisodeLog) (now : Int) :
    concludeScore policy st rec out log now =
      let st' := latencyState policy st out.score
      let out' := concluded policy st' rec out
      (st', out', ledgerUpdate log out'.verdict now) := by
  have hflag := flagLatencyRisk_eq policy st out
  simp only [concludeScore, hflag]
  generalize latencyState policy st out.score = st'
  have hresult : (if (flagVideoDegrade policy (if st'.alarm then { out with verdict := .degraded }
        else out)).verdict = .degraded
      then { flagVideoDegrade policy (if st'.alarm then { out with verdict := .degraded }
        else out) with dominant := attributeMetric st' rec }
      else flagVideoDegrade policy (if st'.alarm then { out with verdict := .degraded } else out)) =
      concluded policy st' rec out := by
    unfold flagVideoDegrade concluded
    by_cases ha : st'.alarm = true <;> by_cases hv : out.score < policy.videoDegradeBand <;>
      by_cases hd : out.verdict = .degraded <;> simp [ha, hv, hd]
  rw [hresult]

theorem attributeMetric_ne_none (st : Client D) (rec : ConnMetric.Record) :
    attributeMetric st rec ≠ .none := contributorAt_ne_none _

theorem concluded_verdict (policy : Policy) (st : Client D) (rec : ConnMetric.Record)
    (out : Result) : (concluded policy st rec out).verdict = .degraded ↔
      out.verdict = .degraded ∨ st.alarm = true := by
  cases ha : st.alarm <;> simp [concluded, ha]

theorem concluded_dominant (policy : Policy) (st : Client D) (rec : ConnMetric.Record)
    {out : Result} (h : out.dominant = .none) :
    (concluded policy st rec out).dominant ≠ .none ↔
      (concluded policy st rec out).verdict = .degraded := by
  have hne := attributeMetric_ne_none st rec
  simp only [concluded]
  generalize (if st.alarm = true then Verdict.degraded else out.verdict) = verdict
  by_cases hv : verdict = .degraded
  · simp [hv, hne]
  · simp [hv, h]

/-- A degraded result names the metric the attribution picks. -/
theorem concluded_attributed {policy : Policy} {st : Client D} {rec : ConnMetric.Record}
    {out : Result} (h : (concluded policy st rec out).verdict = .degraded) :
    (concluded policy st rec out).dominant = attributeMetric st rec := by
  simp only [concluded] at h ⊢
  rw [if_pos h]

theorem concluded_videoDegrade (policy : Policy) (st : Client D) (rec : ConnMetric.Record)
    {out : Result} (h : out.videoDegrade = false) :
    (concluded policy st rec out).videoDegrade = true ↔ out.score < policy.videoDegradeBand := by
  simp [concluded, h]

theorem flagTimed_verdict (policy : Policy) (instability : Int32)
    (timed : Option (Track.Entry × Track.Record)) {out : Result} (h : out.verdict = .smooth) :
    (flagTimed policy instability timed out).verdict = .degraded ↔
      unstable policy instability timed := by
  unfold flagTimed unstable
  split
  · rename_i hc
    exact iff_of_true rfl (by simpa using hc)
  · rename_i hc
    rw [h]
    exact iff_of_false (by decide) (by simpa using hc)

theorem flagTimed_rest (policy : Policy) (instability : Int32)
    (timed : Option (Track.Entry × Track.Record)) (out : Result) :
    (flagTimed policy instability timed out).score = out.score ∧
    (flagTimed policy instability timed out).pktErrPct = out.pktErrPct ∧
    (flagTimed policy instability timed out).dominant = out.dominant ∧
    (flagTimed policy instability timed out).videoDegrade = out.videoDegrade := by
  unfold flagTimed
  split <;> exact ⟨rfl, rfl, rfl, rfl⟩

theorem scoreRow_scored {lq : LinkQty D} {policy : Policy} {now : Int} {room : Bool}
    {row row' : Row D} {entry entry' : Option Track.Entry} {out : Result}
    (hgate : row.snapshot.usable = true)
    (h : scoreRow lq policy now room row entry = some (row', entry', out)) :
    RowScored lq policy now room row entry row' entry' out := by
  simp only [scoreRow, scoreClient_eq lq _ hgate, concludeScore_eq] at h
  generalize htimed : timedEntry policy room row.slot.mac
    (phyInstability (scoredState row.slot.state row.snapshot)) now entry = timed at h
  have hverdict := flagTimed_verdict policy
    (phyInstability (scoredState row.slot.state row.snapshot)) timed
    (show (plainResult lq row.slot.state row.snapshot).verdict = .smooth from rfl)
  obtain ⟨hscore, hpkt, hdom, hvideo⟩ := flagTimed_rest policy
    (phyInstability (scoredState row.slot.state row.snapshot)) timed
    (plainResult lq row.slot.state row.snapshot)
  generalize flagTimed policy (phyInstability (scoredState row.slot.state row.snapshot)) timed
    (plainResult lq row.slot.state row.snapshot) = flagged at h hverdict hscore hpkt hdom hvideo
  simp only [Option.some.injEq, Prod.mk.injEq] at h
  obtain ⟨hrow, hentry, hout⟩ := h
  have hstate : latencyState policy (scoredState row.slot.state row.snapshot) flagged.score =
      nextState lq policy row.slot.state row.snapshot := by rw [hscore, nextState]
  rw [hstate] at hrow hout
  subst hrow hentry hout
  exact {
    state := rfl
    kept := by rw [htimed]
    score := hscore
    pktErrPct := hpkt
    verdict := by rw [concluded_verdict, hverdict, htimed]
    dominant := concluded_dominant policy _ _ hdom
    videoDegrade := concluded_videoDegrade policy _ _ hvideo
    ledger := rfl }

/-- The attribution of a degraded result reads the client as the tick leaves it. -/
theorem scoreRow_attributed {lq : LinkQty D} {policy : Policy} {now : Int} {room : Bool}
    {row row' : Row D} {entry entry' : Option Track.Entry} {out : Result}
    (hgate : row.snapshot.usable = true)
    (h : scoreRow lq policy now room row entry = some (row', entry', out))
    (hdegraded : out.verdict = .degraded) :
    out.dominant = attributeMetric row'.slot.state row.snapshot := by
  simp only [scoreRow, scoreClient_eq lq _ hgate, concludeScore_eq, Option.some.injEq,
    Prod.mk.injEq] at h
  obtain ⟨hrow, _, hout⟩ := h
  subst hrow hout
  exact concluded_attributed hdegraded

end Wei.Infer
