import Wei.Infer.BetterLink
import Wei.Infer.VerdictMeaning

/-!
# Ticks that read a record again

A staged record stays where it is until the next one replaces it, so every tick
scores it anew. The samples of a client count the ticks that scored it, not the
records staged for it; what bounds them is the reap of a client whose record got
too old. A station that fell silent can be flagged in between.
-/
namespace Wei.Infer

open Wei.Lib Wei.Lib.SlotTable Wei.Lib.Statistics Wei.ConnScorer
open Track (maxClients)

/-- The records that `es` stages for `mac`. -/
def stagedFor (mac : Mac) (es : List Event) : List ConnMetric.Record :=
  es.filterMap fun e => match e with
    | .stage mac' rec _ => if mac' = mac then some rec else none
    | .tick _ => none

section Tenure

variable {D : Type} [CDouble D] {lq : LinkQty D} {policy : Policy} {mac : Mac} {pre : List Event}

/-- Throughout a tenure the last record is at most the absence window old. -/
theorem Tenure.recent {a b : List Event} (h : Tenure lq policy mac pre a) (hb : b ≠ []) {t : Int}
    (hpre : b ++ [.tick t] <+: a) {x : Staged} (hx : lastStaged mac (pre ++ b) = some x) :
    t - x.time ≤ Track.absenceDefaultMs := by
  have hbefore := h.stays b ((List.prefix_append b [.tick t]).trans hpre) hb
  have hafter := h.stays (b ++ [.tick t]) hpre (by simp)
  rw [← List.append_assoc] at hafter
  by_contra hold
  exact (leaves_iff lq policy hbefore (.tick t)).mpr ⟨t, x, rfl, hx, by omega⟩ hafter

/-- The saturating counter and its latch follow the run of low scores, and a tick
that leaves the alarm latched is `DEGRADED`. -/
theorem tenure_latency {a : List Event} (hne : a ≠ []) (h : Tenure lq policy mac pre a) :
    ∃ row, (cell (after lq policy (pre ++ a)) mac).member = some row ∧
      Latency policy (scoredTicks lq mac (after lq policy pre) a) row.slot.state ∧
      ∀ t, (scoredTicks lq mac (after lq policy pre) a).getLast? = some t →
        row.slot.state.alarm = true → t.result.verdict = .degraded := by
  refine tenure_state (P := fun ticks st => Latency policy ticks st ∧
    ∀ t, ticks.getLast? = some t → st.alarm = true → t.result.verdict = .degraded) ?_ ?_ hne h
  · exact ⟨latency_zero policy, by simp⟩
  · intro ticks row room entry now row' entry' out hgate hscore ⟨hlatency, _⟩
    have hscored := scoreRow_scored hgate hscore
    constructor
    · rw [hscored.state, nextState, ← hscored.score]
      exact (hlatency.scored row.snapshot).next ⟨now, row.snapshot, out⟩
    · intro t ht halarm
      rw [List.getLast?_concat] at ht
      rw [hscored.state] at halarm
      rw [← Option.some.inj ht]
      exact hscored.verdict.mpr (Or.inr halarm)

/-- The windows hold one sample for each scored tick. -/
theorem tenure_windows {a : List Event} (hne : a ≠ []) (h : Tenure lq policy mac pre a) :
    ∃ row, (cell (after lq policy (pre ++ a)) mac).member = some row ∧
      Windows ((scoredTicks lq mac (after lq policy pre) a).map ScoredTick.metrics)
        row.slot.state := by
  refine tenure_state (P := fun ticks st => Windows (ticks.map ScoredTick.metrics) st)
    windows_zero ?_ hne h
  intro ticks row room entry now row' entry' out hgate hscore hwindows
  rw [List.map_append, (scoreRow_scored hgate hscore).state]
  exact hwindows.next lq policy row.snapshot

/-- Since its admission a client has one sample in its windows for each tick at which
its last record passed the gate, and no other tick moved its run of low scores. Such
ticks come at most the absence window after the record they read, but for the one
that reaps the client, which scores it once more. -/
theorem one_sample_per_tick {a : List Event} (hne : a ≠ []) (h : Tenure lq policy mac pre a) :
    ∃ row, (cell (after lq policy (pre ++ a)) mac).member = some row ∧
      Windows ((recordsRead mac a).map (·.2)) row.slot.state ∧
      (scoredTicks lq mac (after lq policy pre) a).map (fun t => (t.now, t.metrics)) =
        recordsRead mac a ∧
      row.slot.state.thresholdCross.toNat ≤ (recordsRead mac a).length ∧
      (row.slot.state.alarm = true → policy.latencySustainTicks.toNat ≤ (recordsRead mac a).length) ∧
      (∀ b t x, b ≠ [] → b ++ [.tick t] <+: a → lastStaged mac (pre ++ b) = some x →
        t - x.time ≤ 30000) ∧
      ∀ now x, lastStaged mac (pre ++ a) = some x → 30000 < now - x.time →
        ¬ Member (after lq policy (pre ++ a ++ [.tick now])) mac ∧
          (x.record.usable = true →
            ∃ s ∈ (tick lq (after lq policy (pre ++ a)) now).2,
              s.mac = mac ∧ s.metrics = x.record) := by
  obtain ⟨row, hrow, hwindows⟩ := tenure_windows hne h
  obtain ⟨row₁, hrow₁, hlatency, -⟩ := tenure_latency hne h
  obtain rfl := Option.some.inj (hrow.symm.trans hrow₁)
  obtain ⟨_, _, _, hreads⟩ := tenure_reads hne h
  have hlength := congrArg List.length hreads
  have hlow := lowRun_le policy (scoredTicks lq mac (after lq policy pre) a)
  rw [List.length_map] at hlength
  refine ⟨row, hrow, ?_, hreads, ?_, ?_, ?_, ?_⟩
  · rw [← hreads, List.map_map]
    exact hwindows
  · have := hlatency.cross
    omega
  · intro halarm
    have := hlatency.alarm.mp halarm
    omega
  · intro b t x hb hpre hx
    exact h.recent hb hpre hx
  · intro now x hx hold
    have hmem := h.stays a (List.prefix_refl a) hne
    refine ⟨(leaves_iff lq policy hmem (.tick now)).mpr ⟨now, x, rfl, hx, hold⟩, fun hgate => ?_⟩
    obtain rfl := Option.some.inj (hx.symm.trans (lastStaged_of_held lq policy hrow))
    obtain ⟨s, hs, hmac⟩ := (scored_iff lq policy (pre ++ a) now hrow).mpr hgate
    obtain ⟨row', _, _, hrow', hmetrics, _⟩ := tick_scored lq policy _ hs
    rw [hmac] at hrow'
    obtain rfl := Option.some.inj (hrow.symm.trans hrow')
    exact ⟨s, hs, hmac, hmetrics.symm⟩

end Tenure

/-! ## A station that fell silent -/

noncomputable section

/-- Throughout a tenure no score exceeds what the channel of its record allows. -/
theorem tenure_capped {lq : LinkQty ℝ} {policy : Policy} {mac : Mac} {pre a : List Event}
    (hne : a ≠ []) (h : Tenure lq policy mac pre a) :
    ∀ t ∈ scoredTicks lq mac (after lq policy pre) a,
      (t.result.score.toNat : ℝ) ≤ 100 * logisticWeight lq t.metrics.chanUtilPct.toNat + 1 / 2 := by
  have hinv := tenure_state (P := fun ticks st =>
    Summarises (ticks.map ScoredTick.metrics) st ∧ ∀ t ∈ ticks,
      (t.result.score.toNat : ℝ) ≤ 100 * logisticWeight lq t.metrics.chanUtilPct.toNat + 1 / 2)
    ?_ ?_ hne h
  · obtain ⟨_, _, _, hcap⟩ := hinv
    exact hcap
  · exact ⟨summarises_zero, by simp⟩
  · intro ticks row room entry now row' entry' out hgate hscore ⟨hsum, hcap⟩
    have hscored := scoreRow_scored hgate hscore
    constructor
    · rw [List.map_append, hscored.state]
      exact hsum.next lq policy row.snapshot
    · intro t ht
      rcases List.mem_append.mp ht with ht | ht
      · exact hcap t ht
      · rw [List.mem_singleton.mp ht]
        have hconv : (out.score.toNat : Int) = ⌊easedScore lq row.slot.state row.snapshot + 1 / 2⌋ := by
          rw [hscored.score]
          exact (hsum.score_conv lq row.snapshot).1
        have hfloor := Int.floor_le (easedScore lq row.slot.state row.snapshot + 1 / 2)
        have heased := hsum.easedScore_le_weight lq row.snapshot
        rw [← hconv, Int.cast_natCast] at hfloor
        linarith

/-- One record, and three ticks that read it. -/
def silent : List Event :=
  [.stage (Vector.replicate 6 0) ConnMetric.Record.zero 1, .tick 2, .tick 3, .tick 4]

theorem silent_tenure (lq : LinkQty ℝ) (policy : Policy) :
    Tenure lq policy (Vector.replicate 6 0) [] silent := by
  have hstaged := staged_tenure lq policy (Vector.replicate 6 0) ConnMetric.Record.zero 1
  have hextend : ∀ (ticks : List Event) (now : Int), now ≤ 4 →
      lastStaged (Vector.replicate 6 0)
        (.stage (Vector.replicate 6 0) ConnMetric.Record.zero 1 :: ticks) =
          some ⟨ConnMetric.Record.zero, 1⟩ →
      Tenure lq policy (Vector.replicate 6 0) []
        (.stage (Vector.replicate 6 0) ConnMetric.Record.zero 1 :: ticks) →
      Tenure lq policy (Vector.replicate 6 0) []
        (.stage (Vector.replicate 6 0) ConnMetric.Record.zero 1 :: (ticks ++ [.tick now])) := by
    intro ticks now hnow hlast h
    refine h.extend (List.cons_ne_nil _ _) (e := .tick now) ?_
    rintro _ x ⟨rfl⟩ hx
    rw [List.nil_append, hlast, Option.some.injEq] at hx
    subst hx
    have hwindow : Track.absenceDefaultMs = 30000 := rfl
    dsimp only
    omega
  have htwo := hextend [] 2 (by decide) rfl hstaged
  have hthree := hextend [.tick 2] 3 (by decide) rfl htwo
  exact hextend [.tick 2, .tick 3] 4 (by decide) rfl hthree

/-- The tick that comes 40 s after the record scores it a fourth time. -/
theorem one_sample_per_tick_silent :
    ∃ row, (cell (after (⟨-1, 0⟩ : LinkQty ℝ) wireDefaultPolicy ([] ++ silent))
        (Vector.replicate 6 0)).member = some row ∧
      Windows ((recordsRead (Vector.replicate 6 0) silent).map (·.2)) row.slot.state ∧
      row.slot.state.thresholdCross.toNat ≤ (recordsRead (Vector.replicate 6 0) silent).length ∧
      ¬ Member (after (⟨-1, 0⟩ : LinkQty ℝ) wireDefaultPolicy ([] ++ silent ++ [.tick 40001]))
        (Vector.replicate 6 0) ∧
      ∃ s ∈ (tick ⟨-1, 0⟩ (after (⟨-1, 0⟩ : LinkQty ℝ) wireDefaultPolicy ([] ++ silent)) 40001).2,
        s.mac = Vector.replicate 6 0 ∧ s.metrics = ConnMetric.Record.zero := by
  obtain ⟨row, hrow, hwindows, _, hcross, _, _, hreap⟩ :=
    one_sample_per_tick (List.cons_ne_nil _ _) (silent_tenure ⟨-1, 0⟩ wireDefaultPolicy)
  obtain ⟨hgone, hscored⟩ := hreap 40001 ⟨ConnMetric.Record.zero, 1⟩ rfl (by decide)
  exact ⟨row, hrow, hwindows, hcross, hgone, hscored rfl⟩

/-- The weight of any channel under these constants. -/
theorem weight_le_third (u : ℝ) : logisticWeight ⟨-1, 0⟩ u ≤ 1 / 3 := by
  have hexp : (2 : ℝ) ≤ Real.exp 1 := by
    have := Real.add_one_le_exp (1 : ℝ)
    linarith
  rw [logisticWeight, zero_mul, add_zero, neg_neg, clamp_of_mem (by norm_num) (by norm_num)]
  exact one_div_le_one_div_of_le (by norm_num) (by linarith)

/-- One record makes three samples and an alarm: its station is reported degraded. -/
theorem silent_latched :
    ClockOk silent ∧
    Tenure (⟨-1, 0⟩ : LinkQty ℝ) wireDefaultPolicy (Vector.replicate 6 0) [] silent ∧
    (stagedFor (Vector.replicate 6 0) silent).length = 1 ∧
    (recordsRead (Vector.replicate 6 0) silent).length = 3 ∧
    ∃ row t, (cell (after (⟨-1, 0⟩ : LinkQty ℝ) wireDefaultPolicy silent)
        (Vector.replicate 6 0)).member = some row ∧
      row.slot.state.phy.fill = 3 ∧ row.slot.state.thresholdCross = 3 ∧
      row.slot.state.alarm = true ∧
      (scoredTicks (⟨-1, 0⟩ : LinkQty ℝ) (Vector.replicate 6 0)
        (after (⟨-1, 0⟩ : LinkQty ℝ) wireDefaultPolicy []) silent).getLast? = some t ∧
      t.result.verdict = .degraded := by
  have htenure := silent_tenure ⟨-1, 0⟩ wireDefaultPolicy
  have hne : silent ≠ [] := List.cons_ne_nil _ _
  obtain ⟨row, hrow, hwindows⟩ := tenure_windows hne htenure
  obtain ⟨row₁, hrow₁, hlatency, hdegraded⟩ := tenure_latency hne htenure
  obtain rfl := Option.some.inj (hrow.symm.trans hrow₁)
  obtain ⟨_, _, _, hreads⟩ := tenure_reads hne htenure
  have hcap := tenure_capped hne htenure
  have hthree : (recordsRead (Vector.replicate 6 0) silent).length = 3 := by decide
  generalize scoredTicks (⟨-1, 0⟩ : LinkQty ℝ) (Vector.replicate 6 0)
    (after (⟨-1, 0⟩ : LinkQty ℝ) wireDefaultPolicy []) silent = ticks at *
  have hlength : ticks.length = 3 := by
    rw [← hthree, ← hreads, List.length_map]
  have hlow : ∀ t ∈ ticks, t.result.score < wireDefaultPolicy.latencyScoreBand := by
    intro t ht
    have hscore := hcap t ht
    have hweight := weight_le_third t.metrics.chanUtilPct.toNat
    have hlt : (t.result.score.toNat : ℝ) < (40 : ℕ) := by
      push_cast
      linarith
    rw [UInt8.lt_iff_toNat_lt]
    exact Nat.cast_lt.mp hlt
  have hrun : lowRun wireDefaultPolicy ticks = 3 := by
    rw [lowRun, List.rtakeWhile_eq_self_iff.mpr fun t ht => decide_eq_true (hlow t ht), hlength]
  have halarm : row.slot.state.alarm = true := by
    rw [hlatency.alarm, hrun]
    decide
  have hcross := hlatency.cross
  have hfill := hwindows.phy.fill_eq
  rw [hrun] at hcross
  rw [List.length_map, List.length_map, hlength] at hfill
  have hticks : ticks ≠ [] := by
    rintro rfl
    cases hlength
  have ht := List.getLast?_eq_getLast_of_ne_nil hticks
  refine ⟨⟨by decide, by decide⟩, htenure, rfl, hthree, row, _, hrow, hfill, ?_, halarm, ht,
    hdegraded _ ht halarm⟩
  exact UInt16.toNat_inj.mp hcross

end

end Wei.Infer
