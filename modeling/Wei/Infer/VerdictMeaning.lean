import Mathlib.Data.List.DropRight
import Wei.Infer.RateVariance
import Wei.Infer.Timed
import Wei.Track.Excursions

/-!
# What a verdict means

The verdict of a scored tick in terms of the scored ticks since admission: the
instability of the last rates, the run of unstable ticks that just ended, and the
run of low scores that still lasts. The rate ring, the tracker entry that is
collected every tick and the saturating alarm counter are each the summary of
one of the three. The instability is any function of the records that agrees with
the one the code computes.
-/
namespace Wei.Infer

open Wei.Lib Wei.Lib.SlotTable Wei.Lib.Statistics Wei.ConnScorer
open Track (maxClients)

/-! ## The run of low scores -/

/-- How many of the last scored ticks in a row scored below the latency band. -/
def lowRun (policy : Policy) (ticks : List ScoredTick) : Nat :=
  (ticks.rtakeWhile fun t => decide (t.result.score < policy.latencyScoreBand)).length

theorem lowRun_concat_low {policy : Policy} {t : ScoredTick}
    (h : t.result.score < policy.latencyScoreBand) (ticks : List ScoredTick) :
    lowRun policy (ticks ++ [t]) = lowRun policy ticks + 1 := by
  rw [lowRun, List.rtakeWhile_concat, if_pos (decide_eq_true h), List.length_append]
  rfl

theorem lowRun_concat_high {policy : Policy} {t : ScoredTick}
    (h : ¬ t.result.score < policy.latencyScoreBand) (ticks : List ScoredTick) :
    lowRun policy (ticks ++ [t]) = 0 := by
  rw [lowRun, List.rtakeWhile_concat, if_neg (by simpa using h)]
  rfl

theorem lowRun_le (policy : Policy) (ticks : List ScoredTick) :
    lowRun policy ticks ≤ ticks.length :=
  (List.rtakeWhile_suffix _ ticks).length_le

theorem lowRun_all {policy : Policy} {ticks : List ScoredTick}
    (h : ∀ t ∈ ticks, t.result.score < policy.latencyScoreBand) :
    lowRun policy ticks = ticks.length := by
  rw [lowRun, List.rtakeWhile_eq_self_iff.mpr]
  exact fun t ht => decide_eq_true (h t ht)

section Latency

variable {D : Type} [CDouble D]

/-- The saturating counter and its latch, against the run of low scores. -/
structure Latency (policy : Policy) (ticks : List ScoredTick) (st : Client D) : Prop where
  cross : st.thresholdCross.toNat = min 65535 (lowRun policy ticks)
  alarm : st.alarm = true ↔ max 1 policy.latencySustainTicks.toNat ≤ lowRun policy ticks

theorem latency_zero (policy : Policy) : Latency policy [] (Client.zero : Client D) where
  cross := by simp [lowRun, Client.zero]
  alarm := by simp [lowRun, Client.zero]

theorem Latency.scored {policy : Policy} {ticks : List ScoredTick} {st : Client D}
    (h : Latency policy ticks st) (rec : ConnMetric.Record) :
    Latency policy ticks (scoredState st rec) := ⟨h.cross, h.alarm⟩

omit [CDouble D] in
theorem Latency.next {policy : Policy} {ticks : List ScoredTick} {st : Client D}
    (h : Latency policy ticks st) (t : ScoredTick) :
    Latency policy (ticks ++ [t]) (latencyState policy st t.result.score) := by
  have hcross := h.cross
  have hsustain := policy.latencySustainTicks.toNat_lt
  by_cases hlow : t.result.score < policy.latencyScoreBand
  · have hnext : (if st.thresholdCross < 65535 then st.thresholdCross + 1
        else st.thresholdCross).toNat = min 65535 (lowRun policy ticks + 1) := by
      simp only [UInt16.lt_iff_toNat_lt]
      split
      · rename_i hlt
        rw [UInt16.toNat_add]
        simp at hlt ⊢
        omega
      · rename_i hge
        simp at hge
        omega
    rw [latencyState, if_pos hlow]
    dsimp only
    generalize (if st.thresholdCross < 65535 then st.thresholdCross + 1
      else st.thresholdCross) = cross at hnext ⊢
    constructor
    · rw [lowRun_concat_low hlow]
      exact hnext
    · rw [lowRun_concat_low hlow]
      by_cases hreached : policy.latencySustainTicks ≤ cross
      · have hle := UInt16.le_iff_toNat_le.mp hreached
        rw [if_pos hreached]
        exact iff_of_true rfl (by omega)
      · have hlt := mt UInt16.le_iff_toNat_le.mpr hreached
        rw [if_neg hreached, h.alarm]
        omega
  · rw [latencyState, if_neg hlow]
    constructor
    · rw [lowRun_concat_high hlow]
      rfl
    · rw [lowRun_concat_high hlow]
      simp

end Latency

/-! ## The excursion -/

/-- The negation of the tracker's arguments turns the comparison round. -/
theorem above_iff {policy : Policy} (hband : Int32.minValue < policy.tputVarBand) {v : Int32}
    (hv : 0 ≤ v.toInt) : above policy v ↔ policy.tputVarBand.toInt < v.toInt := by
  have hmin : -2 ^ 31 < policy.tputVarBand.toInt := Int32.lt_iff_toInt_lt.mp hband
  have hband' := policy.tputVarBand.toInt_lt
  have hv' := v.toInt_lt
  have hneg : ∀ x : Int32, -2 ^ 31 < x.toInt → (-x).toInt = -x.toInt := by
    intro x hx
    have hx' := x.toInt_lt
    rw [Int32.toInt_neg, Int.bmod_eq_of_le (by omega) (by omega)]
  rw [above, Int32.lt_iff_toInt_lt, hneg _ hmin, hneg _ (by omega)]
  omega

section Excursion

variable (D : Type) [CDouble D] (v : List ConnMetric.Record → Int)

/-- For the records `rs` the code computes `v rs`, and no more than its type holds. -/
structure Computes (rs : List ConnMetric.Record) : Prop where
  nonneg : 0 ≤ v rs
  lt : v rs < 2 ^ 31
  value : instabilityOf D rs = Int32.ofInt (v rs)

/-- At each of these ticks the code computes `v` of the records up to it. -/
def Computed (ticks : List ScoredTick) : Prop :=
  ∀ p ∈ prefixes ticks, Computes D v (p.map ScoredTick.metrics)

variable {D v} (policy : Policy)

theorem Computes.toInt {rs : List ConnMetric.Record} (h : Computes D v rs) :
    (instabilityOf D rs).toInt = v rs := by
  have hlow := h.nonneg
  rw [h.value, Int32.toInt_ofInt_of_le (by omega) h.lt]

theorem Computed.of_concat {ticks : List ScoredTick} {t : ScoredTick}
    (h : Computed D v (ticks ++ [t])) : Computed D v ticks := by
  intro p hp
  exact h p (by rw [prefixes_concat]; exact List.mem_append_left _ hp)

theorem Computed.last {ticks : List ScoredTick} {t : ScoredTick} (h : Computed D v (ticks ++ [t])) :
    Computes D v ((ticks ++ [t]).map ScoredTick.metrics) :=
  h _ (by rw [prefixes_concat]; simp)

variable (v)

/-- The last of the scored ticks `ticks` is above the band. -/
def Unstable (ticks : List ScoredTick) : Prop :=
  policy.tputVarBand.toInt < v (ticks.map ScoredTick.metrics)

/-- What the tracker is given at the last of these ticks. -/
def sampleOf (ticks : List ScoredTick) : Track.Sample where
  metric := -Int32.ofInt (v (ticks.map ScoredTick.metrics))
  now := (ticks.getLast?.map ScoredTick.now).getD 0
  band := -policy.tputVarBand
  floorMs := policy.tputFloorMs

def samples (ticks : List ScoredTick) : List Track.Sample :=
  (prefixes ticks).map (sampleOf v policy)

theorem samples_concat (ticks : List ScoredTick) (t : ScoredTick) :
    samples v policy (ticks ++ [t]) =
      samples v policy ticks ++ [sampleOf v policy (ticks ++ [t])] := by
  rw [samples, prefixes_concat, List.map_append, samples]
  rfl

theorem length_samples (ticks : List ScoredTick) :
    (samples v policy ticks).length = ticks.length := by
  rw [samples, List.length_map, length_prefixes]

/-- The time of a sample is that of its tick. -/
theorem samples_now (ticks : List ScoredTick) (i : Nat) :
    (samples v policy ticks)[i]?.map Track.Sample.now = ticks[i]?.map ScoredTick.now := by
  induction ticks using List.reverseRecOn with
  | nil => rfl
  | append_singleton ticks t ih =>
    have hlen := length_samples v policy ticks
    rw [samples_concat]
    rcases Nat.lt_trichotomy i ticks.length with hlt | rfl | hgt
    · rw [List.getElem?_append_left (by omega), List.getElem?_append_left hlt]
      exact ih
    · rw [← hlen, List.getElem?_concat_length, hlen, List.getElem?_concat_length]
      simp [sampleOf]
    · rw [List.getElem?_eq_none (by simp; omega), List.getElem?_eq_none (by simp; omega)]
      rfl

variable {v policy}

theorem below_sampleOf (hband : Int32.minValue < policy.tputVarBand) {ticks : List ScoredTick}
    (h : Computes D v (ticks.map ScoredTick.metrics)) :
    (sampleOf v policy ticks).Below ↔ Unstable v policy ticks := by
  have hv := h.toInt
  have habove := above_iff hband (v := instabilityOf D (ticks.map ScoredTick.metrics))
    (by rw [hv]; exact h.nonneg)
  rw [hv, h.value] at habove
  exact habove

theorem open_samples (hband : Int32.minValue < policy.tputVarBand) {ticks : List ScoredTick}
    (h : Computed D v ticks) (i : Nat) :
    Runs.Open Track.Sample.Below (samples v policy ticks) i ↔
      Runs.Open (Unstable v policy) (prefixes ticks) i :=
  Runs.open_map fun p hp => below_sampleOf hband (h p hp)

variable (v policy)

/-- The entry that times these ticks, the last of them at `seen`. -/
structure TimedBy (ticks : List ScoredTick) (seen : Int) (e : Track.Entry) : Prop where
  seen : e.lastSeen = seen
  timed : Track.Timed (samples v policy ticks) e.startTs
  drained : e.accumulated = 0

variable {v policy}

/-- One more scored tick at `now`, timed with the instability its records have. -/
theorem TimedBy.next {ticks : List ScoredTick} {e : Track.Entry} {t : ScoredTick}
    (h : TimedBy v policy ticks t.now e) (hpos : 0 < t.now) (instability : Int32)
    (hv : instability = Int32.ofInt (v ((ticks ++ [t]).map ScoredTick.metrics))) :
    TimedBy v policy (ticks ++ [t]) t.now (timeEntry policy instability t.now e).1 where
  seen := by rw [timeEntry_lastSeen, h.seen]
  timed := by
    have hs : sampleOf v policy (ticks ++ [t]) =
        ⟨-instability, t.now, -policy.tputVarBand, policy.tputFloorMs⟩ := by
      rw [sampleOf, hv, List.getLast?_concat]
      rfl
    have htick := (Track.tick_spec h.timed (sampleOf v policy (ticks ++ [t]))
      (by rw [hs]; exact hpos)).timed
    rw [samples_concat, timeEntry_startTs]
    rw [hs] at htick ⊢
    exact htick
  drained := timeEntry_accumulated policy instability t.now e

/-- The excursion flag of a tick that is not above the band itself. -/
theorem TimedBy.duration (hband : Int32.minValue < policy.tputVarBand) {ticks : List ScoredTick}
    (hticks : Computed D v ticks) {now : Int} {e : Track.Entry} (h : TimedBy v policy ticks now e)
    (instability : Int32) (hv : 0 ≤ instability.toInt) :
    0 < (timeEntry policy instability now e).2.durationMs ↔
      instability.toInt ≤ policy.tputVarBand.toInt ∧
        ∃ i t, Runs.Open (Unstable v policy) (prefixes ticks) i ∧ ticks[i]? = some t ∧
          policy.tputFloorMs ≤ now - t.now ∧ t.now < now := by
  rw [timeEntry_duration policy instability now h.drained, above_iff hband hv, not_lt]
  refine and_congr_right fun _ => ?_
  constructor
  · rintro ⟨hstart, hfloor, hlt⟩
    have hopen : ∃ i, Runs.Open Track.Sample.Below (samples v policy ticks) i :=
      not_not.mp (mt h.timed.closed.mpr hstart)
    obtain ⟨i, hi⟩ := hopen
    have hbound : i < ticks.length := by
      rw [← length_samples v policy ticks]
      exact hi.lt
    have hsample := List.getElem?_eq_getElem hi.lt
    have hstarted := h.timed.started i _ hi hsample
    have hnow := samples_now v policy ticks i
    rw [hsample, List.getElem?_eq_getElem hbound] at hnow
    have hstart' : e.startTs = (ticks[i]).now := hstarted.trans (Option.some.inj hnow)
    exact ⟨i, ticks[i], (open_samples hband hticks i).mp hi, List.getElem?_eq_getElem hbound,
      hstart' ▸ hfloor, hstart' ▸ hlt⟩
  · rintro ⟨i, t, hi, ht, hfloor, hlt⟩
    have hopen := (open_samples hband hticks i).mpr hi
    have hsample := List.getElem?_eq_getElem hopen.lt
    have hnow := samples_now v policy ticks i
    rw [hsample, ht] at hnow
    have hstart : e.startTs = t.now :=
      (h.timed.started i _ hopen hsample).trans (Option.some.inj hnow)
    exact ⟨fun h0 => h.timed.closed.mp h0 ⟨i, hopen⟩, hstart ▸ hfloor, hstart ▸ hlt⟩

end Excursion

/-! ## Runs -/

/-- The part of a run that the result speaks about: few MACs, a clock that moves
forward from a positive reading, and scored ticks of the client that follow each
other within the absence window. -/
structure Covered (pre a : List Event) (ticks : List ScoredTick) : Prop where
  few : (macs (pre ++ a)).card ≤ maxClients
  clock : ClockOk (pre ++ a)
  gaps : ticks.IsChain fun t u => u.now - t.now ≤ Track.absenceDefaultMs

theorem Covered.of_concat {pre a : List Event} {e : Event} {ticks : List ScoredTick}
    (h : Covered pre (a ++ [e]) ticks) : Covered pre a ticks where
  few := by
    have hsub := macs_subset_append (pre ++ a) [e]
    rw [List.append_assoc] at hsub
    exact (Finset.card_le_card hsub).trans h.few
  clock := by
    obtain ⟨hpos, hmono⟩ := h.clock
    rw [← List.append_assoc] at hpos hmono
    exact ⟨fun f hf => hpos f (List.mem_append_left _ hf), (List.pairwise_append.mp hmono).1⟩
  gaps := h.gaps

theorem Covered.of_ticks {pre a : List Event} {ticks : List ScoredTick} {t : ScoredTick}
    (h : Covered pre a (ticks ++ [t])) : Covered pre a ticks :=
  { h with gaps := (List.isChain_append.mp h.gaps).1 }

/-- What a scored tick shows, of the ticks `before` it and of itself, the last of `ticks`. -/
structure Meaning (v : List ConnMetric.Record → Int) (policy : Policy) (before : List ScoredTick)
    (now : Int) (ticks : List ScoredTick) (out : Result) : Prop where
  verdict : out.verdict = .degraded ↔
    policy.tputVarBand.toInt < v (ticks.map ScoredTick.metrics) ∨
    (v (ticks.map ScoredTick.metrics) ≤ policy.tputVarBand.toInt ∧
      ∃ i t, Runs.Open (Unstable v policy) (prefixes before) i ∧ before[i]? = some t ∧
        policy.tputFloorMs ≤ now - t.now ∧ t.now < now) ∨
    max 1 policy.latencySustainTicks.toNat ≤ lowRun policy ticks
  dominant : out.dominant ≠ .none ↔ out.verdict = .degraded
  videoDegrade : out.videoDegrade = true ↔ out.score < policy.videoDegradeBand

section Told

variable {D : Type} {v : List ConnMetric.Record → Int}

/-- What the row and the entry of a client say about its scored ticks since admission. -/
structure Told (v : List ConnMetric.Record → Int) (policy : Policy) (a : List Event)
    (ticks : List ScoredTick) (row : Row D) (entry : Option Track.Entry) : Prop where
  windows : Windows (ticks.map ScoredTick.metrics) row.slot.state
  latency : Latency policy ticks row.slot.state
  untimed : ticks = [] → entry = none
  timed : ∀ last, ticks.getLast? = some last →
    (∀ u, Event.tick u ∈ a → u ≤ last.now + Track.absenceDefaultMs) →
    ∃ e, entry = some e ∧ TimedBy v policy ticks last.now e

variable {policy : Policy} {pre a : List Event} {ticks : List ScoredTick} {row : Row D}
  {entry : Option Track.Entry}

/-- Staging changes nothing that is told about the ticks before. -/
theorem Told.staged (h : Told v policy a ticks row entry) (row' : Row D)
    (hstate : row'.slot.state = row.slot.state) (mac : Mac) (rec : ConnMetric.Record)
    (now : Int) : Told v policy (a ++ [.stage mac rec now]) ticks row' entry where
  windows := hstate ▸ h.windows
  latency := hstate ▸ h.latency
  untimed := h.untimed
  timed := fun last hlast hclose =>
    h.timed last hlast fun u hu => hclose u (List.mem_append_left _ hu)

/-- The reap of a tick that does not score the client keeps an entry that is still needed. -/
theorem Told.gated (h : Told v policy a ticks row entry) (now : Int) :
    Told v policy (a ++ [.tick now]) ticks row
      (entry.filter (fun e => !e.absent now Track.absenceDefaultMs)) where
  windows := h.windows
  latency := h.latency
  untimed := fun hnil => by rw [h.untimed hnil, Option.filter_none]
  timed := by
    intro last hlast hclose
    obtain ⟨e, rfl, he⟩ := h.timed last hlast fun u hu => hclose u (List.mem_append_left _ hu)
    have hnow := hclose now (List.mem_append_right _ (List.mem_singleton_self _))
    refine ⟨e, Option.filter_some_pos ?_, he⟩
    simp [Track.Entry.absent, he.seen]
    omega

/-- The entry that the tracker hands out for the next scored tick has timed all before it. -/
theorem Told.obtained (h : Told v policy a ticks row entry) {t : ScoredTick}
    (hc : Covered pre (a ++ [.tick t.now]) (ticks ++ [t])) (mac : Mac) :
    ∃ e, obtainEntry true mac t.now entry = some e ∧ TimedBy v policy ticks t.now e := by
  rcases List.eq_nil_or_concat ticks with rfl | ⟨before, last, rfl⟩
  · rw [h.untimed rfl]
    exact ⟨_, rfl, rfl, Track.timed_nil, rfl⟩
  · have hmono := hc.clock.mono
    rw [← List.append_assoc] at hmono
    have hgap : t.now - last.now ≤ Track.absenceDefaultMs := by
      have hchain := (List.isChain_append.mp hc.gaps).2.2
      exact hchain last (by simp) t (by simp)
    obtain ⟨e, rfl, he⟩ := h.timed last (by simp) fun u hu => by
      have hle : u ≤ t.now := (List.pairwise_append.mp hmono).2.2 (.tick u)
        (List.mem_append_right _ hu) (.tick t.now) (List.mem_singleton_self _)
      omega
    exact ⟨e.seen t.now, rfl, rfl, he.timed, he.drained⟩

/-- One scored tick. -/
theorem Told.scored [CDouble D] {lq : LinkQty D} (h : Told v policy a ticks row entry) {now : Int} {out : Result}
    (hc : Covered pre (a ++ [.tick now]) (ticks ++ [⟨now, row.snapshot, out⟩]))
    (hv : Computed D v (ticks ++ [⟨now, row.snapshot, out⟩]))
    {row' : Row D} {entry' : Option Track.Entry}
    (hscored : RowScored lq policy now true row entry row' entry' out) :
    Told v policy (a ++ [.tick now]) (ticks ++ [⟨now, row.snapshot, out⟩]) row'
      (entry'.filter (fun e => !e.absent now Track.absenceDefaultMs)) := by
  have hinstability := (h.windows.scored row.snapshot).instability
  obtain ⟨e, hobtain, he⟩ := h.obtained (t := ⟨now, row.snapshot, out⟩) hc row.slot.mac
  refine ⟨?_, ?_, fun hnil => ?_, ?_⟩
  · rw [List.map_append, hscored.state]
    exact h.windows.next lq policy row.snapshot
  · rw [hscored.state, nextState, ← hscored.score]
    exact (h.latency.scored row.snapshot).next ⟨now, row.snapshot, out⟩
  · simp at hnil
  · intro last hlast _
    rw [List.getLast?_concat] at hlast
    obtain rfl := Option.some.inj hlast
    have hpos : 0 < now := hc.clock.pos (.tick now) (by simp)
    rw [hscored.kept, timedEntry, hobtain]
    have hnext := he.next hpos (phyInstability (scoredState row.slot.state row.snapshot))
      (by rw [hinstability, ← hv.last.value, List.map_append]; rfl)
    exact ⟨_, kept_of_seen ((timeEntry_lastSeen policy _ now e).trans he.seen), hnext⟩

end Told

section Runs

variable {D : Type} [CDouble D] {v : List ConnMetric.Record → Int}
variable {lq : LinkQty D} {policy : Policy} {mac : Mac} {pre : List Event}

/-- In a run of few MACs the tracker has room for every member. -/
theorem trackerRoom_member {es : List Event} (hfew : (macs es).card ≤ maxClients) {row : Row D}
    (hrow : (cell (after lq policy es) mac).member = some row) :
    trackerRoom (after lq policy es) mac = true ∧ row.slot.mac = mac := by
  obtain ⟨i, hi, hrow'⟩ := holds_of_lookup hrow
  refine ⟨trackerRoom_of_few (wellFormed_after lq policy es) (within_after lq policy es) hfew hi, ?_⟩
  rw [← hrow']
  exact hi.2

theorem tenure_told (hentry : (cell (after lq policy pre) mac).entry = none) {a : List Event}
    (hne : a ≠ []) (h : Tenure lq policy mac pre a)
    (hc : Covered pre a (scoredTicks lq mac (after lq policy pre) a))
    (hv : Computed D v (scoredTicks lq mac (after lq policy pre) a)) :
    ∃ row, (cell (after lq policy (pre ++ a)) mac).member = some row ∧
      Told v policy a (scoredTicks lq mac (after lq policy pre) a) row
        (cell (after lq policy (pre ++ a)) mac).entry := by
  have hinv := tenure_induction (P := fun a ticks row entry =>
    Covered pre a ticks → Computed D v ticks → Told v policy a ticks row entry) ?_ ?_ ?_ ?_ ?_ a hne h
  · obtain ⟨row, hrow, _, htold⟩ := hinv
    exact ⟨row, hrow, htold hc hv⟩
  · intro rec now _ _
    refine ⟨windows_zero, latency_zero policy, fun _ => hentry, ?_⟩
    intro last hlast
    cases hlast
  · intro a ticks row entry rec now htold hc hv
    exact (htold hc.of_concat hv).staged (row.refreshed rec now) rfl mac rec now
  · intro a ticks row entry mac' rec now _ htold hc hv
    exact (htold hc.of_concat hv).staged row rfl mac' rec now
  · intro a ticks row entry now _ _ htold hc hv
    exact (htold hc.of_concat hv).gated now
  · intro a ticks row entry now row' entry' out hcell hgate hscore _ htold hc hv
    have hrow := congrArg Cell.member hcell
    have hfew := hc.of_concat.few
    rw [(trackerRoom_member hfew hrow).1] at hscore
    exact (htold hc.of_concat.of_ticks hv.of_concat).scored hc hv (scoreRow_scored hgate hscore)

/-- A MAC that was never a member has no tracker entry. -/
theorem untracked {es : List Event} (h : ∀ b, b <+: es → ¬ Member (after lq policy b) mac) :
    (cell (after lq policy es) mac).entry = none := by
  induction es using List.reverseRecOn with
  | nil => rw [show after lq policy [] = create policy from rfl, cell_create]; rfl
  | append_singleton es e ih =>
    have hbefore := ih fun b hb => h b (hb.trans (List.prefix_append es [e]))
    cases e with
    | stage mac' rec now => exact (entry_stage lq policy mac mac' rec now).trans hbefore
    | tick now =>
      have hidle : ¬ (cell (after lq policy es) mac).Scorable := by
        rintro ⟨row, hrow, _⟩
        exact h es (List.prefix_append es [.tick now]) (member_of_row hrow)
      refine (entry_tick lq policy mac now).trans ?_
      rw [tick_entry_idle lq policy now _ hidle, hbefore, Option.filter_none]

/-- Between a client's first admission and its first reap a scored tick means what it
should of the instability that the code computes. -/
theorem meaning_of_computed (hband : Int32.minValue < policy.tputVarBand) (pre a : List Event)
    (hfirst : ∀ b, b <+: pre → ¬ Member (after lq policy b) mac)
    (htenure : Tenure lq policy mac pre a) {now : Int} {s : Scored}
    (hs : s ∈ (tick lq (after lq policy (pre ++ a)) now).2) (hmac : s.mac = mac)
    {before ticks : List ScoredTick}
    (hbefore : before = scoredTicks lq mac (after lq policy pre) a)
    (hticks : ticks = before ++ [⟨now, s.metrics, s.result⟩])
    (hc : Covered pre (a ++ [.tick now]) ticks) (hv : Computed D v ticks) :
    Meaning v policy before now ticks s.result := by
  subst hmac hbefore hticks
  obtain ⟨row, row', entry', hrow, hmetrics, hgate, hscore⟩ := tick_scored lq policy _ hs
  obtain ⟨row₀, hrow₀, htold⟩ := tenure_told (untracked hfirst) (htenure.ne_nil hrow) htenure
    hc.of_concat.of_ticks hv.of_concat
  obtain rfl := Option.some.inj (hrow.symm.trans hrow₀)
  rw [(trackerRoom_member hc.of_concat.few hrow).1] at hscore
  have hscored := scoreRow_scored hgate hscore
  rw [← hmetrics] at hc hv ⊢
  have hnext := htold.scored hc hv hscored
  obtain ⟨e, hobtain, he⟩ :=
    htold.obtained (t := ⟨now, row.snapshot, s.result⟩) hc row.slot.mac
  have hinstability := (htold.windows.scored row.snapshot).instability
  rw [show ([row.snapshot] : List ConnMetric.Record) =
    [ScoredTick.mk now row.snapshot s.result].map ScoredTick.metrics from rfl,
    ← List.map_append] at hinstability
  have hbefore := hv.of_concat
  have hlast := hv.last
  generalize hticks : scoredTicks lq s.mac (after lq policy pre) a ++
    [⟨now, row.snapshot, s.result⟩] = ticks at hnext hinstability hlast ⊢
  have hvalue : (phyInstability (scoredState row.slot.state row.snapshot)).toInt =
      v (ticks.map ScoredTick.metrics) := by
    rw [hinstability, hlast.toInt]
  have hduration := he.duration hband hbefore
    (phyInstability (scoredState row.slot.state row.snapshot))
    (by rw [hvalue]; exact hlast.nonneg)
  have halarm := hnext.latency.alarm
  have hverdict := hscored.verdict
  rw [hscored.state] at halarm
  rw [unstable, timedEntry, hobtain, Int32.lt_iff_toInt_lt, Option.map_some, Option.any_some,
    decide_eq_true_iff, hduration, halarm, hvalue, or_assoc] at hverdict
  exact ⟨hverdict, hscored.dominant, hscored.videoDegrade⟩

end Runs

end Wei.Infer
