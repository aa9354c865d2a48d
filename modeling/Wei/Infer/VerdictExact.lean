import Wei.Infer.RoundedVariance
import Wei.Infer.VerdictMeaning
import Wei.Lib.Binary64

/-!
# Verdicts in rounded doubles

For rates of whole Mbps, which are all that the wire receiver stages, a verdict means
what it should although the variance is computed in doubles that round. Other rates
can have a variance that is an integer and that the computed one misses from below.
-/
namespace Wei.Infer

open Wei.Lib Wei.Lib.Statistics Wei.ConnScorer
open Track (maxClients)

/-! ## One client that is staged before every tick -/

/-- The clock moves forward from a positive reading, and the ticks follow each other
within the absence window. -/
structure Paced (bs : List Beat) : Prop where
  pos : ∀ b ∈ bs, 0 < b.staged ∧ 0 < b.now
  mono : (bs.flatMap fun b => [b.staged, b.now]).Pairwise (· ≤ ·)
  close : (bs.map Beat.now).IsChain fun t u => u - t ≤ Track.absenceDefaultMs

theorem paced_inTurn (recs : List ConnMetric.Record) : Paced (inTurn recs) where
  pos := by
    intro b hb
    obtain ⟨i, hi, rfl⟩ := List.mem_mapIdx.mp hb
    exact ⟨show (0 : Int) < 5000 * i + 1 by omega, show (0 : Int) < 5000 * i + 2 by omega⟩
  mono := by
    have hinv : ((inTurn recs).flatMap fun b => [b.staged, b.now]).Pairwise (· ≤ ·) ∧
        ∀ t : Int, t ∈ (inTurn recs).flatMap (fun b => [b.staged, b.now]) →
          t < 5000 * recs.length := by
      induction recs using List.reverseRecOn with
      | nil => exact ⟨.nil, by simp [inTurn]⟩
      | append_singleton recs rec ih =>
        obtain ⟨hmono, hbefore⟩ := ih
        rw [inTurn_concat, List.flatMap_append, List.length_append]
        refine ⟨List.pairwise_append.mpr ⟨hmono, by simp [beatAt], ?_⟩, ?_⟩
        · intro t ht u hu
          have := hbefore t ht
          simp [beatAt] at hu
          omega
        · intro t ht
          rcases List.mem_append.mp ht with ht | ht
          · have := hbefore t ht
            simp
            omega
          · simp [beatAt] at ht ⊢
            omega
    exact hinv.1
  close := by
    rw [List.isChain_iff_getElem]
    intro i hi
    simp [inTurn, beatAt, Track.absenceDefaultMs]
    omega

theorem map_now_beats (mac : Mac) (bs : List Beat) :
    (beats mac bs).map Event.now = bs.flatMap fun b => [b.staged, b.now] := by
  rw [beats, List.map_flatMap]
  rfl

theorem Paced.clock {bs : List Beat} (h : Paced bs) (mac : Mac) : ClockOk (beats mac bs) where
  pos := by
    intro e he
    have hnow := List.mem_map_of_mem (f := Event.now) he
    rw [map_now_beats] at hnow
    obtain ⟨b, hb, hnow⟩ := List.mem_flatMap.mp hnow
    have hpos := h.pos b hb
    rcases List.mem_pair.mp hnow with heq | heq <;> omega
  mono := by
    rw [← List.pairwise_map, map_now_beats]
    exact h.mono

theorem macs_beats (mac : Mac) (bs : List Beat) : macs (beats mac bs) ⊆ {mac} := by
  intro m hm
  obtain ⟨e, he, hmac⟩ := List.mem_filterMap.mp (List.mem_toFinset.mp hm)
  obtain ⟨b, _, he⟩ := List.mem_flatMap.mp he
  rcases List.mem_pair.mp he with rfl | rfl
  · exact Finset.mem_singleton.mpr (Option.some.inj hmac).symm
  · cases hmac

theorem Paced.covered {bs : List Beat} {b : Beat} (h : Paced (bs ++ [b])) (mac : Mac)
    {ticks : List ScoredTick} (hticks : ticks.map ScoredTick.now = (bs ++ [b]).map Beat.now) :
    Covered [] (beats mac bs ++ [b.stage mac] ++ [.tick b.now]) ticks := by
  rw [← beats_concat]
  refine ⟨?_, h.clock mac, ?_⟩
  · have hcard := Finset.card_le_card (macs_beats mac (bs ++ [b]))
    rw [Finset.card_singleton] at hcard
    exact hcard.trans (by decide)
  · rw [← List.isChain_map (f := ScoredTick.now) (R := fun t u => u - t ≤ Track.absenceDefaultMs),
      hticks]
    exact h.close

theorem staged_of_beats {mac mac' : Mac} {bs : List Beat} {b : Beat} {rec : ConnMetric.Record}
    {t : Int} (h : .stage mac' rec t ∈ beats mac bs ++ [b.stage mac]) :
    ∃ c ∈ bs ++ [b], c.metrics = rec := by
  rcases List.mem_append.mp h with h | h
  · obtain ⟨c, hc, he⟩ := List.mem_flatMap.mp h
    rcases List.mem_pair.mp he with he | he
    · obtain ⟨-, rfl, -⟩ := Event.stage.inj he
      exact ⟨c, List.mem_append_left [b] hc, rfl⟩
    · cases he
  · obtain ⟨-, rfl, -⟩ := Event.stage.inj (List.mem_singleton.mp h)
    exact ⟨b, by simp, rfl⟩

/-! ## The verdict -/

section Exact

variable {D : Type} [CDouble D] {lq : LinkQty D} {policy : Policy} {mac : Mac}

theorem computed_of_whole [RoundedDouble D] {ticks : List ScoredTick}
    (h : WholeRates (ticks.map ScoredTick.metrics)) : Computed D rateVariance ticks := by
  intro p hp
  have hpre : p <+: ticks := (List.mem_inits p ticks).mp (List.mem_of_mem_tail hp)
  have hwhole : WholeRates (p.map ScoredTick.metrics) :=
    fun r hr => h r ((hpre.map ScoredTick.metrics).mem hr)
  have hbounds := rateVariance_bounds fun r hr => (hwhole r hr).2
  exact ⟨hbounds.1, hbounds.2, instabilityOf_eq D hwhole⟩

/-- What the scored ticks of a tenure read was staged in it. -/
theorem staged_of_scored {pre a : List Event} (htenure : Tenure lq policy mac pre a) {now : Int}
    {s : Scored} (hs : s ∈ (tick lq (after lq policy (pre ++ a)) now).2) (hmac : s.mac = mac) :
    ∀ r ∈ (scoredTicks lq mac (after lq policy pre) a ++
      [ScoredTick.mk now s.metrics s.result]).map ScoredTick.metrics, ∃ t, .stage mac r t ∈ a := by
  subst hmac
  obtain ⟨row, _, _, hrow, hmetrics, _⟩ := tick_scored lq policy _ hs
  obtain ⟨row₀, hrow₀, hlast, hreads⟩ := tenure_reads (htenure.ne_nil hrow) htenure
  obtain rfl := Option.some.inj (hrow.symm.trans hrow₀)
  intro r hr
  rw [List.map_append, List.mem_append] at hr
  rcases hr with hr | hr
  · obtain ⟨t, ht, rfl⟩ := List.mem_map.mp hr
    have hread : (t.now, t.metrics) ∈ recordsRead s.mac a := hreads ▸ List.mem_map_of_mem ht
    exact mem_of_recordsRead hread
  · obtain rfl := List.mem_singleton.mp hr
    obtain ⟨x, hx, hrecord⟩ := Option.map_eq_some_iff.mp hlast
    rw [← hmetrics, ← hrecord]
    exact ⟨x.time, mem_of_lastStaged hx⟩

theorem never_member (lq : LinkQty D) (policy : Policy) (mac : Mac) :
    ∀ b, b <+: [] → ¬ Member (after lq policy b) mac := by
  intro b hb
  rw [List.prefix_nil.mp hb]
  exact not_member_create policy mac

/-- In a run of beats, too, a result above the band is degraded. -/
theorem beats_degraded [RoundedDouble D] (hband : Int32.minValue < policy.tputVarBand)
    {bs : List Beat} {b : Beat} (hpaced : Paced (bs ++ [b])) (hfresh : ∀ c ∈ bs ++ [b], c.Fresh)
    (hwhole : WholeRates ((bs ++ [b]).map Beat.metrics))
    (habove : policy.tputVarBand.toInt < rateVariance ((bs ++ [b]).map Beat.metrics)) {s : Scored}
    (hs : s ∈ (tick lq (after lq policy (beats mac bs ++ [b.stage mac])) b.now).2)
    (hmac : s.mac = mac) : s.result.verdict = .degraded := by
  have hbefore : ∀ c ∈ bs, c.Fresh := fun c hc => hfresh c (List.mem_append_left [b] hc)
  obtain ⟨s', hs', _, ticks, hticks, hnow, hmetrics⟩ := beats_ticks lq policy mac hfresh
  obtain ⟨only, halone, -⟩ := beats_alone lq policy mac hbefore (hfresh b (by simp))
  have hsame : s' = s := by
    rw [halone] at hs hs'
    exact (List.mem_singleton.mp hs').trans (List.mem_singleton.mp hs).symm
  subst hsame
  have hmeans := meaning_of_computed hband [] _ (never_member lq policy mac)
    (beats_tenure lq policy mac hbefore b) hs hmac rfl hticks (hpaced.covered mac hnow)
    (computed_of_whole (hmetrics ▸ hwhole))
  rw [hmeans.verdict, hmetrics]
  exact .inl habove

/-- Between a client's first admission and its first reap, a scored tick means what it
should in doubles that round. -/
theorem verdict_exact [RoundedDouble D] (hband : Int32.minValue < policy.tputVarBand)
    (pre a : List Event) (hfirst : ∀ b, b <+: pre → ¬ Member (after lq policy b) mac)
    (htenure : Tenure lq policy mac pre a) {now : Int} {s : Scored}
    (hs : s ∈ (tick lq (after lq policy (pre ++ a)) now).2) (hmac : s.mac = mac)
    {before ticks : List ScoredTick}
    (hbefore : before = scoredTicks lq mac (after lq policy pre) a)
    (hticks : ticks = before ++ [⟨now, s.metrics, s.result⟩])
    (hc : Covered pre (a ++ [.tick now]) ticks)
    (hrates : ∀ rec t, .stage mac rec t ∈ a →
      1000 ∣ rec.phyRateKbps.toNat ∧ rec.phyRateKbps.toNat ≤ rateLimit) :
    Meaning rateVariance policy before now ticks s.result := by
  refine meaning_of_computed hband pre a hfirst htenure hs hmac hbefore hticks hc
    (computed_of_whole fun r hr => ?_)
  rw [hticks, hbefore] at hr
  obtain ⟨t, ht⟩ := staged_of_scored htenure hs hmac r hr
  exact hrates r t ht

end Exact

/-- The uplink goes up from 100 to 120 Mbps at the second scored tick. -/
def swing : List ConnMetric.Record := rated 100000 :: List.replicate 9 (rated 120000)

/-- The default band, and a run of low scores that lasts until the tenth tick. -/
def swingPolicy : Policy where
  tputVarBand := 25
  tputFloorMs := 30000
  latencyScoreBand := 101
  latencySustainTicks := 10
  videoDegradeBand := 50

section Swing

variable {D : Type} [CDouble D] (lq : LinkQty D)

/-- The calls up to the `n + 1`-th tick. -/
def swingRun (n : Fin 10) : List Event :=
  beats (Vector.replicate 6 0) (inTurn (swing.take n)) ++
    [(beatAt n swing[n]).stage (Vector.replicate 6 0)]

/-- What the `n + 1`-th tick publishes. -/
def swingTick (n : Fin 10) : List Scored :=
  (tick lq (after lq swingPolicy (swingRun n)) (5000 * n + 2)).2

/-- The scored ticks before the `n + 1`-th. -/
def swingBefore (n : Fin 10) : List ScoredTick :=
  scoredTicks lq (Vector.replicate 6 0) (after lq swingPolicy []) (swingRun n)

theorem swing_variance : ∀ n : Fin 10,
    rateVariance (swing.take (n + 1)) = [0, 100, 88, 75, 64, 55, 48, 43, 0, 0][n] := by
  simp only [rateVariance_eq]
  decide

/-- The excursion that the second tick begins lasts to the eighth. -/
theorem swing_open : Runs.Open (fun rs => 25 < rateVariance rs) (prefixes (swing.take 8)) 1 := by
  have hat : ∀ k : Fin 8, Runs.At (fun rs => 25 < rateVariance rs) (prefixes (swing.take 8)) k ↔
      k ≠ 0 := by
    intro k
    have hk : (prefixes (swing.take 8))[k.val]? = some (swing.take (k + 1)) := by
      revert k
      decide
    have hvalue := swing_variance ⟨k, by omega⟩
    simp only [Runs.At, hk, Option.some.injEq, exists_eq_left', hvalue]
    clear hk hvalue
    revert k
    decide
  refine ⟨by decide, ⟨(hat 1).mpr (by decide), .inr fun h => (hat 0).mp h rfl⟩, fun k hk hlt => ?_⟩
  have hlt' : k < 8 := hlt
  exact (hat ⟨k, hlt'⟩).mpr (Fin.ne_of_val_ne (by simp; omega))

theorem open_unstable {v : List ConnMetric.Record → Int} {policy : Policy} {ticks : List ScoredTick}
    {i : Nat} : Runs.Open (Unstable v policy) (prefixes ticks) i ↔
      Runs.Open (fun rs => policy.tputVarBand.toInt < v rs)
        (prefixes (ticks.map ScoredTick.metrics)) i := by
  rw [prefixes_map]
  exact (Runs.open_map (P := fun rs => policy.tputVarBand.toInt < v rs) fun p _ => Iff.rfl).symm

theorem swing_split (n : Fin 10) :
    inTurn (swing.take n) ++ [beatAt n swing[n]] = inTurn (swing.take (n + 1)) := by
  rw [← List.take_append_getElem n.isLt, inTurn_concat, List.length_take_of_le (Nat.le_of_lt n.isLt)]
  rfl

theorem swing_fresh (n : Fin 10) : ∀ c ∈ inTurn (swing.take n) ++ [beatAt n swing[n]], c.Fresh := by
  rw [swing_split]
  exact fresh_inTurn fun rec hrec => (show ∀ rec ∈ swing, rec.usable = true by decide) rec
    (List.mem_of_mem_take hrec)

theorem swing_tenure (n : Fin 10) :
    Tenure lq swingPolicy (Vector.replicate 6 0) [] (swingRun n) :=
  beats_tenure _ _ _ (fun c hc => swing_fresh n c (List.mem_append_left _ hc)) _

theorem swing_rates (n : Fin 10) {mac : Mac} {rec : ConnMetric.Record} {t : Int}
    (h : .stage mac rec t ∈ swingRun n) :
    1000 ∣ rec.phyRateKbps.toNat ∧ rec.phyRateKbps.toNat ≤ rateLimit := by
  obtain ⟨c, hc, rfl⟩ := staged_of_beats h
  rw [swing_split] at hc
  have hmem := List.mem_map_of_mem (f := Beat.metrics) hc
  rw [map_metrics_inTurn] at hmem
  exact (show ∀ r ∈ swing, 1000 ∣ r.phyRateKbps.toNat ∧ r.phyRateKbps.toNat ≤ rateLimit by
    decide) c.metrics (List.mem_of_mem_take hmem)

/-- The records and the times of the ticks up to one. -/
theorem swing_ticks (n : Fin 10) : ∃ s ∈ swingTick lq n, s.mac = Vector.replicate 6 0 ∧
    ∃ ticks, ticks = swingBefore lq n ++ [⟨5000 * n + 2, s.metrics, s.result⟩] ∧
      ticks.map ScoredTick.now = (inTurn (swing.take (n + 1))).map Beat.now ∧
      ticks.map ScoredTick.metrics = swing.take (n + 1) ∧
      Covered [] (swingRun n ++ [.tick (5000 * n + 2)]) ticks := by
  obtain ⟨s, hs, hmac, ticks, hticks, hnow, hmetrics⟩ := beats_ticks lq swingPolicy
    (Vector.replicate 6 0) (swing_fresh n)
  have hcovered := (swing_split n ▸ paced_inTurn _).covered (Vector.replicate 6 0) hnow
  rw [swing_split] at hnow hmetrics
  rw [map_metrics_inTurn] at hmetrics
  exact ⟨s, hs, hmac, ticks, hticks, hnow, hmetrics, hcovered⟩

variable {lq}

/-- What a tick of the run means, when it means what it should: up to the eighth the
variance is above the band, at the ninth an excursion ends, at the tenth the scores
have been low for long enough. -/
theorem swing_degraded {n : Fin 10} {s : Scored} {ticks : List ScoredTick}
    (hticks : ticks = swingBefore lq n ++ [⟨5000 * n + 2, s.metrics, s.result⟩])
    (hnow : ticks.map ScoredTick.now = (inTurn (swing.take (n + 1))).map Beat.now)
    (hmetrics : ticks.map ScoredTick.metrics = swing.take (n + 1))
    (hlow : n = 9 → ∀ t ∈ ticks, t.result.score < swingPolicy.latencyScoreBand)
    (hmeans : Meaning rateVariance swingPolicy (swingBefore lq n) (5000 * n + 2) ticks s.result) :
    s.result.verdict = .degraded ↔ n ≠ 0 := by
  have hlen : ticks.length = n + 1 := by
    have hlen := congrArg List.length hmetrics
    rwa [List.length_map, List.length_take_of_le n.isLt] at hlen
  have hfew : lowRun swingPolicy ticks ≤ n + 1 := hlen ▸ lowRun_le swingPolicy ticks
  have hsustain : max 1 swingPolicy.latencySustainTicks.toNat = 10 := by decide
  have hverdict := hmeans.verdict
  rw [hmetrics, swing_variance n] at hverdict
  rw [hverdict]
  generalize swingBefore lq n = before at hticks ⊢
  constructor
  · intro h hn
    subst hn
    have hnone : before = [] := by
      rw [hticks, List.length_append, List.length_singleton] at hlen
      exact List.length_eq_zero_iff.mp (Nat.succ.inj hlen)
    rcases h with h | ⟨-, i, t, -, hget, -⟩ | h
    · exact absurd h (by decide)
    · rw [hnone] at hget
      cases hget
    · rw [hsustain] at h
      have hten := h.trans hfew
      revert hten
      decide
  · intro hn
    have habove : ∀ n : Fin 10, n ≠ 0 → n < 8 →
        (25 : Int) < [0, 100, 88, 75, 64, 55, 48, 43, 0, 0][n] := by decide
    rcases (show n < 8 ∨ n = 8 ∨ n = 9 by omega) with hlt | rfl | rfl
    · exact .inl (habove n hn hlt)
    · rw [hticks, List.map_append] at hmetrics hnow
      rw [← List.take_append_getElem (show ((8 : Fin 10) : Nat) < swing.length by decide)] at hmetrics
      obtain ⟨hrecords, -⟩ := List.append_inj' hmetrics rfl
      rw [← swing_split, List.map_append] at hnow
      obtain ⟨htimes, -⟩ := List.append_inj' hnow rfl
      refine .inr (.inl ⟨by decide, 1, ?_⟩)
      have hsecond := congrArg (fun l => l[1]?) htimes
      rw [List.getElem?_map] at hsecond
      obtain ⟨t, ht, hnow⟩ := Option.map_eq_some_iff.mp (hsecond.trans (show _ = some 5002 from rfl))
      refine ⟨t, open_unstable.mpr (hrecords ▸ swing_open), ht, ?_, ?_⟩
      · rw [hnow]
        decide
      · rw [hnow]
        decide
    · refine .inr (.inr ?_)
      rw [lowRun_all (hlow rfl), hlen]
      decide

/-- Scores of exact reals are below the latency band of the run. -/
theorem swing_low {lq : LinkQty ℝ} {n : Fin 10} {s : Scored} (hs : s ∈ swingTick lq n)
    (hmac : s.mac = Vector.replicate 6 0) :
    ∀ t ∈ swingBefore lq n ++ [⟨5000 * n + 2, s.metrics, s.result⟩],
      t.result.score < swingPolicy.latencyScoreBand := by
  intro t ht
  rw [UInt8.lt_iff_toNat_lt]
  refine Nat.lt_succ_of_le ?_
  rcases List.mem_append.mp ht with ht | ht
  · exact tenure_scores (by simp [swingRun]) (swing_tenure lq n) t ht
  · obtain rfl := List.mem_singleton.mp ht
    exact scored_score_le (swing_tenure lq n) hs hmac

/-- In binary64 nothing is wrong at the first tick, the second is degraded for the
variance and the ninth for the excursion that ends; the scores, which need an
exponential, are below the band over the reals and degrade the tenth alone. -/
theorem verdict_exact_swing :
    (∃ s ∈ swingTick (⟨0, 0⟩ : LinkQty Float) 0, s.result.verdict = .smooth ∧
      rateVariance (swing.take 1) = 0) ∧
    (∃ s ∈ swingTick (⟨0, 0⟩ : LinkQty Float) 1, s.result.verdict = .degraded ∧
      rateVariance (swing.take 2) = 100) ∧
    (∃ s ∈ swingTick (⟨0, 0⟩ : LinkQty Float) 8, s.result.verdict = .degraded ∧
      rateVariance (swing.take 9) = 0) ∧
    (∃ s ∈ swingTick (⟨0, 0⟩ : LinkQty ℝ) 9, s.result.verdict = .degraded ∧
      rateVariance (swing.take 10) = 0) := by
  have hall : ∀ (D : Type) [CDouble D] [RoundedDouble D] (lq : LinkQty D) (n : Fin 10),
      (n = 9 → ∀ s ∈ swingTick lq n, s.mac = Vector.replicate 6 0 →
        ∀ t ∈ swingBefore lq n ++ [⟨5000 * n + 2, s.metrics, s.result⟩],
          t.result.score < swingPolicy.latencyScoreBand) →
      ∃ s ∈ swingTick lq n, s.result.verdict = .degraded ↔ n ≠ 0 := by
    intro D _ _ lq n hlow
    obtain ⟨s, hs, hmac, ticks, hticks, hnow, hmetrics, hcovered⟩ := swing_ticks lq n
    have hmeans := verdict_exact (by decide) [] _ (never_member lq swingPolicy _)
      (swing_tenure lq n) hs hmac rfl hticks hcovered fun rec t h => swing_rates n h
    exact ⟨s, hs, swing_degraded hticks hnow hmetrics (fun h => hticks ▸ hlow h s hs hmac) hmeans⟩
  have hmachine : ∀ n : Fin 10, n ≠ 9 →
      ∃ s ∈ swingTick (⟨0, 0⟩ : LinkQty Float) n, s.result.verdict = .degraded ↔ n ≠ 0 :=
    fun n hn => hall Float ⟨0, 0⟩ n fun h => absurd h hn
  have hreal : ∀ n : Fin 10,
      ∃ s ∈ swingTick (⟨0, 0⟩ : LinkQty ℝ) n, s.result.verdict = .degraded ↔ n ≠ 0 :=
    fun n => hall ℝ ⟨0, 0⟩ n fun _ s hs hmac => swing_low hs hmac
  have hvariance := swing_variance
  obtain ⟨s, hs, hfirst⟩ := hmachine 0 (by decide)
  refine ⟨⟨s, hs, ?_, hvariance 0⟩, ?_, ?_, ?_⟩
  · cases hv : s.result.verdict with
    | smooth => rfl
    | degraded => exact absurd rfl (hfirst.mp hv)
  · obtain ⟨s, hs, hiff⟩ := hmachine 1 (by decide)
    exact ⟨s, hs, hiff.mpr (by decide), hvariance 1⟩
  · obtain ⟨s, hs, hiff⟩ := hmachine 8 (by decide)
    exact ⟨s, hs, hiff.mpr (by decide), hvariance 8⟩
  · obtain ⟨s, hs, hiff⟩ := hreal 9
    exact ⟨s, hs, hiff.mpr (by decide), hvariance 9⟩

end Swing

/-! ## Rates of fractional Mbps -/

/-- With a last rate of 3678833, their variance is the integer 710743135; the computed
one is below it. -/
def uneven : List ConnMetric.Record :=
  [9361436, 76702758, 52182958, 6590411, 23264580, 53995592, 61732188].map rated

/-- A band right below the variance, and no other cause of a verdict. -/
def unevenPolicy : Policy where
  tputVarBand := 710743134
  tputFloorMs := 1000000
  latencyScoreBand := 0
  latencySustainTicks := 3
  videoDegradeBand := 50

theorem lowRun_zero {policy : Policy} (hzero : policy.latencyScoreBand = 0)
    (ticks : List ScoredTick) : lowRun policy ticks = 0 := by
  rcases List.eq_nil_or_concat ticks with rfl | ⟨before, t, rfl⟩
  · rfl
  · rw [List.concat_eq_append]
    refine lowRun_concat_high ?_ before
    rw [hzero]
    exact UInt8.not_lt_zero

/-- The computed variance of the uneven rates is not above the band, the exact one is. -/
theorem verdict_below_variance :
    ¬ ∀ (lq : LinkQty Float) (policy : Policy) (mac : Mac) (pre a : List Event) (now : Int)
      (s : Scored) (before ticks : List ScoredTick), Int32.minValue < policy.tputVarBand →
      (∀ b, b <+: pre → ¬ Member (after lq policy b) mac) → Tenure lq policy mac pre a →
      s ∈ (tick lq (after lq policy (pre ++ a)) now).2 → s.mac = mac →
      before = scoredTicks lq mac (after lq policy pre) a →
      ticks = before ++ [⟨now, s.metrics, s.result⟩] → Covered pre (a ++ [.tick now]) ticks →
      (∀ mac' rec t, .stage mac' rec t ∈ pre ++ a → rec.phyRateKbps.toNat ≤ rateLimit) →
      Meaning rateVariance policy before now ticks s.result := by
  intro hclaim
  have hpaced : Paced (inTurn uneven ++ [beatAt 7 (rated 3678833)]) := by constructor <;> decide
  have hfresh : ∀ c ∈ inTurn uneven ++ [beatAt 7 (rated 3678833)], c.Fresh :=
    inTurn_concat uneven (rated 3678833) ▸ fresh_inTurn (by decide)
  have hlimit : ∀ c ∈ inTurn uneven ++ [beatAt 7 (rated 3678833)],
      c.metrics.phyRateKbps.toNat ≤ rateLimit := by decide
  have htenure := beats_tenure (⟨0, 0⟩ : LinkQty Float) unevenPolicy (Vector.replicate 6 0)
    (fun c hc => hfresh c (List.mem_append_left _ hc)) (beatAt 7 (rated 3678833))
  have hfirst := never_member (⟨0, 0⟩ : LinkQty Float) unevenPolicy (Vector.replicate 6 0)
  obtain ⟨s, hs, hmac, ticks, hticks, hnow, hmetrics⟩ := beats_ticks (⟨0, 0⟩ : LinkQty Float)
    unevenPolicy (Vector.replicate 6 0) hfresh
  have hc := hpaced.covered (Vector.replicate 6 0) hnow
  have hexact := hclaim _ _ _ _ _ _ _ _ _ (by decide) hfirst htenure hs hmac rfl hticks hc (by
    intro mac' rec t hstaged
    obtain ⟨c, hc, rfl⟩ := staged_of_beats hstaged
    exact hlimit c hc)
  have hcomputed : Computed Float (fun rs => (instabilityOf Float rs).toInt) ticks := by
    have hnonneg : ∀ rs ∈ prefixes ((inTurn uneven ++ [beatAt 7 (rated 3678833)]).map Beat.metrics),
        0 ≤ (instabilityOf Float rs).toInt := by decide +kernel
    intro p hp
    refine ⟨hnonneg _ ?_, Int32.toInt_lt _, (Int32.ofInt_toInt _).symm⟩
    rw [← hmetrics, prefixes_map]
    exact List.mem_map_of_mem hp
  have hrounded := meaning_of_computed (by decide) [] _ hfirst htenure hs hmac rfl hticks hc hcomputed
  have hdegraded : s.result.verdict = .degraded := by
    rw [hexact.verdict, hmetrics, rateVariance_eq]
    exact .inl (by decide)
  rcases hrounded.verdict.mp hdegraded with habove | hended | hlow
  · rw [hmetrics] at habove
    revert habove
    decide +kernel
  · obtain ⟨-, i, t, -, hget, hfloor, -⟩ := hended
    have hmem : t.now ∈ (inTurn uneven ++ [beatAt 7 (rated 3678833)]).map Beat.now := by
      rw [← hnow, hticks]
      exact List.mem_map_of_mem (List.mem_append_left _ (List.mem_of_getElem? hget))
    have hpos : ∀ u ∈ (inTurn uneven ++ [beatAt 7 (rated 3678833)]).map Beat.now, 0 < u := by decide
    have := hpos _ hmem
    simp [unevenPolicy, beatAt] at hfloor
    omega
  · rw [lowRun_zero rfl] at hlow
    exact absurd hlow (by decide)

end Wei.Infer
