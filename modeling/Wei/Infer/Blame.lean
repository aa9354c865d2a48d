import Wei.Infer.Rereading
import Wei.Lib.FirstMax

/-!
# The blamed metric

`wei_infer_attribute` ranks the metrics of a degraded client by how far each sits
in its degrading direction, inside the band of the values it had since admission.
An empty band puts a value at 0, which is the bad end for the metrics that are
good when high: one that never moved ranks as bad as can be.
-/
namespace Wei.Infer

open Wei.Lib Wei.Lib.SlotTable Wei.Lib.Statistics Wei.ConnScorer
open Track (maxClients)

noncomputable section

/-! ## The ranking -/

/-- How bad each metric of `r` is, `r` the last of the records `rs`. The raw rate
stands in the band of the running means. -/
def badness (rs : List ConnMetric.Record) (r : ConnMetric.Record) : Fin 4 → ℝ := ![
  1 - minMax (snrValue r) (snrs rs),
  1 - minMax r.phyRateKbps.toNat ((prefixes rs).map runningMean),
  minMax (windowedLoss rs) ((prefixes rs).map windowedLoss),
  r.chanUtilPct.toNat / 100]

/-- The metric that is blamed. -/
def blamed (rs : List ConnMetric.Record) (r : ConnMetric.Record) : Contributor :=
  contributorAt (firstMax (badness rs r) 0 [1, 2, 3])

/-- The loop of `wei_infer_attribute`. -/
theorem worst_eq (f : Fin 4 → ℝ) : [1, 2, 3].foldl
    (fun worst i => if CDouble.lt (f worst) (f i) then i else worst) 0 = firstMax f 0 [1, 2, 3] := by
  have hstep : ∀ w i : Fin 4,
      (if CDouble.lt (f w) (f i) then i else w) = if f w < f i then i else w := by
    intro w i
    simp [RealDouble.lt_iff]
  simp only [hstep]
  rfl

theorem attributeMetric_eq {rs : List ConnMetric.Record} {st : Client ℝ} (h : Summarises rs st)
    (hne : rs ≠ []) (r : ConnMetric.Record) : attributeMetric st r = blamed rs r := by
  have hsnrs : snrs rs ≠ [] := by simpa [snrs] using hne
  have hmeans : (prefixes rs).map runningMean ≠ [] := by simpa using prefixes_ne_nil hne
  have hlosses : (prefixes rs).map windowedLoss ≠ [] := by simpa using prefixes_ne_nil hne
  have hsnr : normalizeMetric (snrValue r) (st.normBand 0).lo (st.normBand 0).hi =
      minMax (snrValue r) (snrs rs) := by
    rw [h.bands]
    exact inBand_bandOf _ hsnrs
  have hphy : normalizeMetric (r.phyRateKbps.toNat : ℝ) (st.normBand 1).lo (st.normBand 1).hi =
      minMax r.phyRateKbps.toNat ((prefixes rs).map runningMean) := by
    rw [h.bands]
    exact inBand_bandOf _ hmeans
  have hloss : normalizeMetric (perrRate st) (st.normBand 2).lo (st.normBand 2).hi =
      minMax (windowedLoss rs) ((prefixes rs).map windowedLoss) := by
    rw [h.bands, perrRate_eq h.windows hne]
    exact inBand_bandOf _ hlosses
  unfold attributeMetric blamed badness
  dsimp only
  rw [worst_eq, ← hsnr, ← hphy, ← hloss, snrValue]
  simp only [RealDouble.ofInt_eq, Int.cast_natCast, Int.cast_one, Int.cast_ofNat]

section Ranking

variable (f : Fin 4 → ℝ)

theorem blames_snr_iff : contributorAt (firstMax f 0 [1, 2, 3]) = .snr ↔
    f 1 ≤ f 0 ∧ f 2 ≤ f 0 ∧ f 3 ≤ f 0 := by
  have hindex : ∀ i, contributorAt i = .snr ↔ i = 0 := by decide
  rw [hindex, firstMax_eq_self_iff]
  simp

theorem blames_phy_iff : contributorAt (firstMax f 0 [1, 2, 3]) = .phy ↔
    f 0 < f 1 ∧ f 2 ≤ f 1 ∧ f 3 ≤ f 1 := by
  have hindex : ∀ i, contributorAt i = .phy ↔ i = 1 := by decide
  have hnd : ((0 : Fin 4) :: [] ++ 1 :: [2, 3]).Nodup := by decide
  rw [hindex, ← List.nil_append [1, 2, 3], firstMax_eq_iff f 0 1 hnd]
  simp

theorem blames_pktErr_iff : contributorAt (firstMax f 0 [1, 2, 3]) = .pktErr ↔
    (f 0 < f 2 ∧ f 1 < f 2) ∧ f 3 ≤ f 2 := by
  have hindex : ∀ i, contributorAt i = .pktErr ↔ i = 2 := by decide
  have hnd : ((0 : Fin 4) :: [1] ++ 2 :: [3]).Nodup := by decide
  rw [hindex, show ([1, 2, 3] : List (Fin 4)) = [1] ++ [2, 3] from rfl, firstMax_eq_iff f 0 2 hnd]
  simp

end Ranking

/-! ## The running means -/

theorem rateWindow_concat (rs : List ConnMetric.Record) (r : ConnMetric.Record) :
    rateWindow (rs ++ [r]) = (Ring.window 7 (rs.map ConnMetric.Record.phyRateKbps)).map
      (fun v => (v.toNat : ℝ)) ++ [(r.phyRateKbps.toNat : ℝ)] := by
  have hlength : (rs.map ConnMetric.Record.phyRateKbps ++ [r.phyRateKbps]).length - phyWindow =
      (rs.map ConnMetric.Record.phyRateKbps).length - 7 := by
    rw [List.length_append, List.length_singleton]
    have hwindow : phyWindow = 8 := rfl
    omega
  rw [rateWindow, List.map_append, List.map_singleton, Ring.window, hlength, Ring.window,
    List.drop_append_of_le_length (by omega), List.map_append]
  rfl

/-- The running means stay at one value exactly as long as the rates do. -/
theorem means_eq_iff (v : ℝ) (rs : List ConnMetric.Record) :
    (∀ m ∈ (prefixes rs).map runningMean, m = v) ↔ ∀ r ∈ rs, (r.phyRateKbps.toNat : ℝ) = v := by
  induction rs using List.reverseRecOn with
  | nil => simp [prefixes]
  | append_singleton rs r ih =>
    rw [prefixes_concat, List.map_append, List.forall_mem_append, ih, List.forall_mem_append]
    refine and_congr_right fun hrs => ?_
    have hwindow : ∀ x ∈ (Ring.window 7 (rs.map ConnMetric.Record.phyRateKbps)).map
        (fun v => (v.toNat : ℝ)), x = v := by
      intro x hx
      obtain ⟨w, hw, rfl⟩ := List.mem_map.mp hx
      obtain ⟨r', hr', rfl⟩ := List.mem_map.mp (List.mem_of_mem_drop hw)
      exact hrs r' hr'
    have hmean := mean_concat_eq_iff hwindow (r.phyRateKbps.toNat : ℝ)
    rw [← rateWindow_concat] at hmean
    simp only [List.map_singleton, List.mem_singleton, forall_eq]
    exact hmean

/-- No running mean exceeds a rate that no record exceeds. -/
theorem means_le {M : ℝ} (h0 : 0 ≤ M) {rs : List ConnMetric.Record}
    (h : ∀ r ∈ rs, (r.phyRateKbps.toNat : ℝ) ≤ M) : ∀ m ∈ (prefixes rs).map runningMean, m ≤ M := by
  intro m hm
  obtain ⟨b, hb, rfl⟩ := List.mem_map.mp hm
  have hpre : b <+: rs := (List.mem_inits b rs).mp (List.mem_of_mem_tail hb)
  apply mean_le h0
  intro x hx
  obtain ⟨w, hw, rfl⟩ := List.mem_map.mp hx
  obtain ⟨r, hr, rfl⟩ := List.mem_map.mp (List.mem_of_mem_drop hw)
  exact h r (hpre.mem hr)

/-! ## Metrics at their best -/

/-- `dominant` names no metric of `r` that is at its best, among the records `rs`
that `r` is the last of. -/
structure SparesBest (rs : List ConnMetric.Record) (r : ConnMetric.Record)
    (dominant : Contributor) : Prop where
  snr : (∀ x ∈ rs, x.linkSnrDb ≤ r.linkSnrDb) → dominant ≠ .snr
  phy : (∀ x ∈ rs, x.phyRateKbps ≤ r.phyRateKbps) → dominant ≠ .phy
  pktErr : (∀ b ∈ prefixes rs, windowedLoss rs ≤ windowedLoss b) → dominant ≠ .pktErr

/-- The channel is rated past the end of its scale, or the SNR has moved, and so
has the rate unless the SNR is at its worst. -/
def Ranked (rs : List ConnMetric.Record) (r : ConnMetric.Record) : Prop :=
  100 < r.chanUtilPct ∨
    (∃ x ∈ rs, x.linkSnrDb ≠ r.linkSnrDb) ∧
      ((∃ x ∈ rs, x.phyRateKbps ≠ r.phyRateKbps) ∨ ∀ x ∈ rs, r.linkSnrDb ≤ x.linkSnrDb)

section Best

variable {rs : List ConnMetric.Record} {r : ConnMetric.Record}

theorem snrValue_mem (hr : r ∈ rs) : snrValue r ∈ snrs rs := List.mem_map.mpr ⟨r, hr, rfl⟩

theorem snrValue_le_iff (x y : ConnMetric.Record) :
    (snrValue x : ℝ) ≤ snrValue y ↔ x.linkSnrDb ≤ y.linkSnrDb := by
  rw [Int32.le_iff_toInt_le]
  exact Int.cast_le

/-- The band of the SNR is empty exactly if all records have the same. -/
theorem snr_flat_iff (hr : r ∈ rs) :
    highest (snrs rs) ≤ lowest (snrs rs) ↔ ∀ x ∈ rs, x.linkSnrDb = r.linkSnrDb := by
  rw [highest_le_lowest_iff (snrValue_mem hr), snrs, List.forall_mem_map]
  refine forall₂_congr fun x _ => ?_
  rw [le_antisymm_iff, snrValue_le_iff, snrValue_le_iff, Int32.le_antisymm_iff]

theorem rate_flat_iff (hr : r ∈ rs) :
    highest ((prefixes rs).map runningMean) ≤ lowest ((prefixes rs).map runningMean) ↔
      ∀ x ∈ rs, x.phyRateKbps = r.phyRateKbps := by
  have hne : (prefixes rs).map runningMean ≠ [] := by
    simpa using prefixes_ne_nil (List.ne_nil_of_mem hr)
  obtain ⟨v, hv⟩ := List.exists_mem_of_ne_nil _ hne
  rw [highest_le_lowest_iff hv]
  constructor
  · intro h x hx
    have hrates := (means_eq_iff v rs).mp h
    exact UInt32.toNat_inj.mp (Nat.cast_injective ((hrates x hx).trans (hrates r hr).symm))
  · intro h
    have hmeans := (means_eq_iff (r.phyRateKbps.toNat : ℝ) rs).mpr fun x hx => by rw [h x hx]
    rw [hmeans v hv]
    exact hmeans

/-- The SNR that no record exceeds is as good as can be, if it ever moved. -/
theorem badness_snr_best (hr : r ∈ rs) (hmoved : ∃ x ∈ rs, x.linkSnrDb ≠ r.linkSnrDb)
    (hbest : ∀ x ∈ rs, x.linkSnrDb ≤ r.linkSnrDb) : badness rs r 0 = 0 := by
  have hspan := mt (snr_flat_iff hr).mp (by push Not; exact hmoved)
  have htop : highest (snrs rs) ≤ snrValue r := by
    apply highest_le (List.ne_nil_of_mem (snrValue_mem hr))
    rw [snrs, List.forall_mem_map]
    exact fun x hx => (snrValue_le_iff x r).mpr (hbest x hx)
  exact sub_eq_zero.mpr (minMax_of_highest_le (not_le.mp hspan) htop).symm

theorem badness_snr_flat (hr : r ∈ rs) (hflat : ∀ x ∈ rs, x.linkSnrDb = r.linkSnrDb) :
    badness rs r 0 = 1 := by
  change 1 - minMax (snrValue r) (snrs rs) = 1
  rw [minMax_flat ((snr_flat_iff hr).mpr hflat), sub_zero]

/-- Otherwise only the worst SNR is as bad as can be. -/
theorem badness_snr_lt_iff (hr : r ∈ rs) (hmoved : ∃ x ∈ rs, x.linkSnrDb ≠ r.linkSnrDb) :
    badness rs r 0 < 1 ↔ ¬ ∀ x ∈ rs, r.linkSnrDb ≤ x.linkSnrDb := by
  have hspan := mt (snr_flat_iff hr).mp (by push Not; exact hmoved)
  have hlow : snrValue r ≤ lowest (snrs rs) ↔ ∀ x ∈ rs, r.linkSnrDb ≤ x.linkSnrDb := by
    constructor
    · intro h x hx
      exact (snrValue_le_iff r x).mp (h.trans (lowest_le (snrValue_mem hx)))
    · intro h
      apply le_lowest (List.ne_nil_of_mem (snrValue_mem hr))
      rw [snrs, List.forall_mem_map]
      exact fun x hx => (snrValue_le_iff r x).mpr (h x hx)
  rw [← hlow]
  change 1 - minMax (snrValue r) (snrs rs) < 1 ↔ _
  constructor
  · intro hlt hle
    rw [minMax_of_le_lowest hle] at hlt
    linarith
  · intro hgt
    have := minMax_pos (not_le.mp hspan) (not_le.mp hgt)
    linarith

theorem badness_phy_best (hr : r ∈ rs) (hmoved : ∃ x ∈ rs, x.phyRateKbps ≠ r.phyRateKbps)
    (hbest : ∀ x ∈ rs, x.phyRateKbps ≤ r.phyRateKbps) : badness rs r 1 = 0 := by
  have hspan := mt (rate_flat_iff hr).mp (by push Not; exact hmoved)
  have hne : (prefixes rs).map runningMean ≠ [] := by
    simpa using prefixes_ne_nil (List.ne_nil_of_mem hr)
  have htop := highest_le hne (means_le (Nat.cast_nonneg r.phyRateKbps.toNat) fun x hx =>
    Nat.cast_le.mpr (UInt32.le_iff_toNat_le.mp (hbest x hx)))
  exact sub_eq_zero.mpr (minMax_of_highest_le (not_le.mp hspan) htop).symm

theorem badness_phy_flat (hr : r ∈ rs) (hflat : ∀ x ∈ rs, x.phyRateKbps = r.phyRateKbps) :
    badness rs r 1 = 1 := by
  change 1 - minMax _ ((prefixes rs).map runningMean) = 1
  rw [minMax_flat ((rate_flat_iff hr).mpr hflat), sub_zero]

theorem badness_pktErr_best (hr : r ∈ rs)
    (hbest : ∀ b ∈ prefixes rs, windowedLoss rs ≤ windowedLoss b) : badness rs r 2 = 0 := by
  have hne : (prefixes rs).map windowedLoss ≠ [] := by
    simpa using prefixes_ne_nil (List.ne_nil_of_mem hr)
  refine minMax_of_le_lowest (le_lowest hne ?_)
  rw [List.forall_mem_map]
  exact hbest

theorem badness_mem (rs : List ConnMetric.Record) (r : ConnMetric.Record) :
    (0 ≤ badness rs r 0 ∧ badness rs r 0 ≤ 1) ∧ (0 ≤ badness rs r 1 ∧ badness rs r 1 ≤ 1) ∧
      (0 ≤ badness rs r 2 ∧ badness rs r 2 ≤ 1) := by
  have hsnr := minMax_mem (snrValue r) (snrs rs)
  have hphy := minMax_mem (r.phyRateKbps.toNat : ℝ) ((prefixes rs).map runningMean)
  have hloss := minMax_mem (windowedLoss rs) ((prefixes rs).map windowedLoss)
  refine ⟨⟨?_, ?_⟩, ⟨?_, ?_⟩, hloss⟩
  · exact sub_nonneg.mpr hsnr.2
  · exact sub_le_self 1 hsnr.1
  · exact sub_nonneg.mpr hphy.2
  · exact sub_le_self 1 hphy.1

theorem badness_chanUtil (rs : List ConnMetric.Record) (r : ConnMetric.Record) :
    (badness rs r 3 ≤ 1 ↔ ¬ 100 < r.chanUtilPct) ∧ (0 < r.chanUtilPct → 0 < badness rs r 3) := by
  change ((r.chanUtilPct.toNat : ℝ) / 100 ≤ 1 ↔ _) ∧ (_ → 0 < (r.chanUtilPct.toNat : ℝ) / 100)
  rw [UInt8.lt_iff_toNat_lt, UInt8.lt_iff_toNat_lt, div_le_one (by norm_num), not_lt]
  constructor
  · exact_mod_cast Iff.rfl
  · intro h
    have hpos : (0 : ℝ) < r.chanUtilPct.toNat := Nat.cast_pos.mpr h
    positivity

/-- On a busy channel the blamed metric is not at its best exactly if the metrics
are ranked. -/
theorem sparesBest_iff (hr : r ∈ rs) (hbusy : 0 < r.chanUtilPct) :
    SparesBest rs r (blamed rs r) ↔ Ranked rs r := by
  obtain ⟨⟨hsnr0, hsnr1⟩, ⟨hphy0, hphy1⟩, ⟨hloss0, hloss1⟩⟩ := badness_mem rs r
  obtain ⟨hchan, hpos⟩ := badness_chanUtil rs r
  have hutil := hpos hbusy
  have hpktErr : (∀ b ∈ prefixes rs, windowedLoss rs ≤ windowedLoss b) → blamed rs r ≠ .pktErr := by
    intro hbest hblamed
    have hlt := ((blames_pktErr_iff _).mp hblamed).1.1
    rw [badness_pktErr_best hr hbest] at hlt
    linarith
  by_cases hmoved : ∃ x ∈ rs, x.linkSnrDb ≠ r.linkSnrDb
  · have hsnr : (∀ x ∈ rs, x.linkSnrDb ≤ r.linkSnrDb) → blamed rs r ≠ .snr := by
      intro hbest hblamed
      have hle := ((blames_snr_iff _).mp hblamed).2.2
      rw [badness_snr_best hr hmoved hbest] at hle
      linarith
    have hworst := badness_snr_lt_iff hr hmoved
    by_cases hvaried : ∃ x ∈ rs, x.phyRateKbps ≠ r.phyRateKbps
    · refine iff_of_true ⟨hsnr, ?_, hpktErr⟩ (Or.inr ⟨hmoved, Or.inl hvaried⟩)
      intro hbest hblamed
      have hlt := ((blames_phy_iff _).mp hblamed).1
      rw [badness_phy_best hr hvaried hbest] at hlt
      linarith
    · -- a rate that never moved ranks behind the worst SNR only
      have hflat : ∀ x ∈ rs, x.phyRateKbps = r.phyRateKbps := by
        push Not at hvaried
        exact hvaried
      have hone := badness_phy_flat hr hflat
      have hphy : blamed rs r = .phy ↔ badness rs r 0 < 1 ∧ badness rs r 3 ≤ 1 := by
        rw [blamed, blames_phy_iff, hone, and_iff_right hloss1]
      constructor
      · intro h
        by_contra hranked
        rw [Ranked, not_or, not_and, not_or] at hranked
        obtain ⟨hutil', hrest⟩ := hranked
        refine h.phy (fun x hx => UInt32.le_of_eq (hflat x hx)) (hphy.mpr ⟨hworst.mpr ?_, hchan.mpr hutil'⟩)
        exact (hrest hmoved).2
      · intro h
        refine ⟨hsnr, fun _ hblamed => ?_, hpktErr⟩
        obtain ⟨hlt, hle⟩ := hphy.mp hblamed
        rcases h with h | ⟨_, h | h⟩
        · exact hchan.mp hle h
        · exact hvaried h
        · exact hworst.mp hlt h
  · have hflat : ∀ x ∈ rs, x.linkSnrDb = r.linkSnrDb := by
      push Not at hmoved
      exact hmoved
    have hone := badness_snr_flat hr hflat
    have hsnr : blamed rs r = .snr ↔ badness rs r 3 ≤ 1 := by
      rw [blamed, blames_snr_iff, hone, and_iff_right hphy1, and_iff_right hloss1]
    have hphy : blamed rs r ≠ .phy := by
      intro hblamed
      have hlt := ((blames_phy_iff _).mp hblamed).1
      linarith
    have hranked : Ranked rs r ↔ 100 < r.chanUtilPct := or_iff_left fun h => hmoved h.1
    rw [hranked]
    constructor
    · intro h
      by_contra hutil'
      exact h.snr (fun x hx => Int32.le_of_eq (hflat x hx)) (hsnr.mpr (hchan.mpr hutil'))
    · intro h
      refine ⟨fun _ hblamed => ?_, fun _ => hphy, hpktErr⟩
      exact hchan.mp (hsnr.mp hblamed) h

end Best

/-! ## Over a run -/

section Runs

variable {lq : LinkQty ℝ} {policy : Policy}

/-- A client that ends a tick degraded has its metric blamed over the records it
was scored with since its admission. -/
theorem degraded_blames {pre a : List Event} {now : Int} {s : Scored}
    (h : Tenure lq policy s.mac pre a)
    (hs : s ∈ (tick lq (after lq policy (pre ++ a)) now).2)
    (hdegraded : s.result.verdict = .degraded) :
    ∃ rs, (recordsRead s.mac (a ++ [.tick now])).map (·.2) = rs ++ [s.metrics] ∧
      s.result.dominant = blamed (rs ++ [s.metrics]) s.metrics := by
  obtain ⟨row, _, _, _, hmetrics, hgate, hscore, hsum, hread⟩ := tick_summary h hs rfl
  refine ⟨(recordsRead s.mac a).map (·.2), ?_, ?_⟩
  · rw [hread, List.map_append]
    rfl
  · have hnext := hsum.next lq policy row.snapshot
    rw [← (scoreRow_scored hgate hscore).state] at hnext
    rw [scoreRow_attributed hgate hscore hdegraded, ← hmetrics]
    exact attributeMetric_eq hnext (by simp) row.snapshot

/-- A client that a tick leaves degraded on a busy channel is not blamed for a metric
at its best if and only if the records since its admission rank the metrics. -/
theorem spares_best_iff (es : List Event) {now : Int} {s : Scored}
    (hs : s ∈ (tick lq (after lq policy es) now).2) (hdegraded : s.result.verdict = .degraded)
    (hbusy : 0 < s.metrics.chanUtilPct) :
    ∃ pre a rs, es = pre ++ a ∧ Tenure lq policy s.mac pre a ∧
      (recordsRead s.mac (a ++ [.tick now])).map (·.2) = rs ++ [s.metrics] ∧
      (SparesBest (rs ++ [s.metrics]) s.metrics s.result.dominant ↔
        Ranked (rs ++ [s.metrics]) s.metrics) := by
  obtain ⟨row, _, _, hrow, _⟩ := tick_scored lq policy _ hs
  obtain ⟨pre, a, rfl, _, h⟩ := exists_tenure lq policy es (member_of_row hrow)
  obtain ⟨rs, hreads, hblamed⟩ := degraded_blames h hs hdegraded
  refine ⟨pre, a, rs, rfl, h, hreads, ?_⟩
  rw [hblamed]
  exact sparesBest_iff (by simp) hbusy

end Runs

/-- A station with a strong signal that stays as it is. -/
def steadyRecord (rate : UInt32) : ConnMetric.Record :=
  { ConnMetric.Record.zero with linkSnrDb := 40, phyRateKbps := rate, chanUtilPct := 10 }

/-- Its uplink rate doubles. -/
def steady : List Event :=
  [.stage (Vector.replicate 6 0) (steadyRecord 100000) 1, .tick 2,
    .stage (Vector.replicate 6 0) (steadyRecord 200000) 3]

theorem steady_tenure (lq : LinkQty ℝ) (policy : Policy) :
    Tenure lq policy (Vector.replicate 6 0) [] steady := by
  have hstaged := staged_tenure lq policy (Vector.replicate 6 0) (steadyRecord 100000) 1
  have hticked := hstaged.extend (List.cons_ne_nil _ _) (e := .tick 2) ?_
  · refine hticked.extend (by simp) (e := .stage _ (steadyRecord 200000) 3) ?_
    intro now x h
    cases h
  · intro now x h hx
    obtain rfl := Event.tick.inj h
    obtain rfl := Option.some.inj hx
    decide

theorem steady_variance : rateVariance [steadyRecord 100000, steadyRecord 200000] = 2500 := by
  have hwindow : rateWindow [steadyRecord 100000, steadyRecord 200000] = [100000, 200000] := by
    simp [rateWindow, Ring.window, phyWindow, steadyRecord]
  rw [rateVariance, if_neg (by decide), hwindow]
  norm_num [variance, mean]

theorem steady_degraded (lq : LinkQty ℝ) :
    ∃ s ∈ (tick lq (after lq wireDefaultPolicy steady) 4).2,
      s.mac = Vector.replicate 6 0 ∧ s.metrics = steadyRecord 200000 ∧
      s.result.verdict = .degraded := by
  have htenure := steady_tenure lq wireDefaultPolicy
  obtain ⟨row, hrow, hlast, _⟩ := tenure_reads (by simp [steady]) htenure
  have hsnapshot : row.snapshot = steadyRecord 200000 := (Option.some.inj hlast).symm
  have hreads : (recordsRead (Vector.replicate 6 0) steady).map (·.2) = [steadyRecord 100000] := by
    decide
  obtain ⟨s, hs, hmac⟩ := (scored_iff lq _ _ 4 hrow).mpr (by rw [hsnapshot]; rfl)
  obtain ⟨row₁, _, _, hrow₁, hmetrics, hgate, hscore, hsum, _⟩ := tick_summary htenure hs hmac
  obtain rfl := Option.some.inj (hrow.symm.trans hrow₁)
  refine ⟨s, hs, hmac, hmetrics.symm.trans hsnapshot, ?_⟩
  -- the rates of the two ticks lie 100 Mbps apart
  apply (scoreRow_scored hgate hscore).verdict.mpr
  refine Or.inl (Or.inl ?_)
  rw [phyInstability_eq (hsum.windows.scored row.snapshot), hreads, hsnapshot, List.singleton_append,
    steady_variance]
  decide

theorem spares_best_iff_steady :
    ∃ s ∈ (tick (⟨0, 0⟩ : LinkQty ℝ) (after ⟨0, 0⟩ wireDefaultPolicy steady) 4).2,
      ∃ pre a rs, steady = pre ++ a ∧
        Tenure (⟨0, 0⟩ : LinkQty ℝ) wireDefaultPolicy s.mac pre a ∧
        (recordsRead s.mac (a ++ [.tick 4])).map (·.2) = rs ++ [s.metrics] ∧
        (SparesBest (rs ++ [s.metrics]) s.metrics s.result.dominant ↔
          Ranked (rs ++ [s.metrics]) s.metrics) := by
  obtain ⟨s, hs, _, hmetrics, hdegraded⟩ := steady_degraded ⟨0, 0⟩
  have hbusy : 0 < s.metrics.chanUtilPct := by
    rw [hmetrics]
    decide
  exact ⟨s, hs, spares_best_iff steady hs hdegraded hbusy⟩

/-- The SNR never moved, and it is blamed for what the uplink rate did. -/
theorem steady_signal_blamed :
    ∃ s ∈ (tick (⟨0, 0⟩ : LinkQty ℝ) (after ⟨0, 0⟩ wireDefaultPolicy steady) 4).2,
      Tenure (⟨0, 0⟩ : LinkQty ℝ) wireDefaultPolicy s.mac [] steady ∧
      s.result.verdict = .degraded ∧ 0 < s.metrics.chanUtilPct ∧
      (∀ x ∈ recordsRead s.mac (steady ++ [.tick 4]), x.2.linkSnrDb ≤ s.metrics.linkSnrDb) ∧
      s.result.dominant = .snr := by
  obtain ⟨s, hs, hmac, hmetrics, hdegraded⟩ := steady_degraded ⟨0, 0⟩
  have htenure := steady_tenure (⟨0, 0⟩ : LinkQty ℝ) wireDefaultPolicy
  rw [← hmac] at htenure
  obtain ⟨rs, hreads, hblamed⟩ := degraded_blames htenure hs hdegraded
  rw [hmac, hmetrics, show (recordsRead (Vector.replicate 6 0) (steady ++ [.tick 4])).map (·.2) =
    [steadyRecord 100000] ++ [steadyRecord 200000] by decide] at hreads
  obtain rfl := List.append_cancel_right hreads
  refine ⟨s, hs, htenure, hdegraded, by rw [hmetrics]; decide, ?_, ?_⟩
  · rw [hmac, hmetrics]
    decide
  · rw [hblamed, hmetrics, blamed, blames_snr_iff,
      badness_snr_flat (r := steadyRecord 200000) (by simp) (by decide)]
    obtain ⟨_, ⟨_, hphy⟩, ⟨_, hloss⟩⟩ :=
      badness_mem ([steadyRecord 100000] ++ [steadyRecord 200000]) (steadyRecord 200000)
    refine ⟨hphy, hloss, (badness_chanUtil _ _).1.mpr (by decide)⟩

end

end Wei.Infer
