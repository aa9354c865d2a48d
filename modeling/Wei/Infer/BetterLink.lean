import Wei.Infer.Batch

/-!
# A better link in the same state

A record moves the bands it is judged by, and the mean of the rates, before it is
judged: in a band that took the value in, the position of the value still grows
with the value. So does the score, whatever the reachable state of the client, and
it is a percentage that the conversions to `uint8_t` hold.
-/
namespace Wei.Infer

open Wei.Lib Wei.Lib.Statistics Wei.ConnScorer
open Track (maxClients)

noncomputable section

/-! ## A band that takes its value in -/

theorem position_of_le {x lo hi : ℝ} (h : x ≤ lo) : position x lo hi = 0 := by
  unfold position
  split
  · rfl
  · rename_i hspan
    have hneg : (x - lo) / (hi - lo) ≤ 0 := div_nonpos_of_nonpos_of_nonneg (by linarith) (by linarith)
    rw [clamp, max_eq_left ((min_le_right 1 _).trans hneg)]

theorem position_of_ge {x lo hi : ℝ} (hspan : lo < hi) (h : hi ≤ x) : position x lo hi = 1 := by
  have hone : 1 ≤ (x - lo) / (hi - lo) := by
    rw [le_div_iff₀ (by linarith)]
    linarith
  rw [position, if_neg (by linarith), clamp, min_eq_left hone, max_eq_right zero_le_one]

/-- Where a value stands in the band that it widens, if need be. -/
theorem position_widened_mono (lo hi : ℝ) {x y : ℝ} (h : x ≤ y) :
    position x (min x lo) (max hi x) ≤ position y (min y lo) (max hi y) := by
  rcases le_or_gt x lo with hlow | hlow
  · rw [min_eq_left hlow, position_of_le (le_refl x)]
    exact position_nonneg _ _ _
  · rw [min_eq_right hlow.le, min_eq_right (hlow.trans_le h).le]
    rcases le_or_gt hi y with hhigh | hhigh
    · rw [max_eq_right hhigh, position_of_ge (hlow.trans_le h) (le_refl y)]
      exact position_le_one _ _ _
    · rw [max_eq_left hhigh.le, max_eq_left (h.trans_lt hhigh).le]
      exact position_mono lo hi h

theorem inBand_widen_mono (b : Band ℝ) {x y : ℝ} (h : x ≤ y) :
    inBand (bandWiden b x) x ≤ inBand (bandWiden b y) y := by
  by_cases hprimed : b.primed = true
  · have hwiden : ∀ v, inBand (bandWiden b v) v = position v (min v b.lo) (max b.hi v) := by
      intro v
      rw [inBand, normalizeMetric_eq, min_def_lt, max_def_lt]
      simp only [bandWiden, RealDouble.lt_iff, hprimed, Bool.true_eq_false, if_false]
      split <;> split <;> rfl
    rw [hwiden, hwiden]
    exact position_widened_mono b.lo b.hi h
  · have hprime : ∀ v, inBand (bandWiden b v) v = 0 := by
      intro v
      rw [inBand, normalizeMetric_eq, bandWiden, if_pos (by simpa using hprimed)]
      exact position_of_le (le_refl v)
    rw [hprime, hprime]

/-! ## The mean of the rates -/

/-- The mean of the rate window grows with the rate that is pushed. -/
theorem phyMean_push_mono (st : Client ℝ) {rate rate' : UInt32} (h : rate ≤ rate') :
    phyMean (phyPush st rate) ≤ phyMean (phyPush st rate') := by
  have hsum : ((st.phy.push rate).contents.map UInt32.toNat).sum ≤
      ((st.phy.push rate').contents.map UInt32.toNat).sum := by
    rw [Ring.contents, Ring.contents, List.map_map, List.map_map]
    apply List.sum_le_sum
    intro i _
    by_cases hi : i = st.phy.head
    · subst hi
      simpa [Ring.push] using UInt32.le_iff_toNat_le.mp h
    · simp [Ring.push, hi]
  have hfill : (phyPush st rate').phy.fill = (phyPush st rate).phy.fill := rfl
  unfold phyMean
  rw [hfill]
  split
  · exact le_refl _
  · simp only [RealDouble.ofInt_eq]
    exact div_le_div_of_nonneg_right (by exact_mod_cast hsum) (Int.cast_nonneg (Int.natCast_nonneg _))

/-! ## The score -/

theorem scaledScore_blend (lq : LinkQty ℝ) (st : Client ℝ) (rec : ConnMetric.Record) :
    scaledScore lq st rec = blend lq (inBand (widened st rec 0) (snrValue rec))
      (inBand (widened st rec 1) (phyMean (pushed st rec)))
      (inBand (widened st rec 2) (perrRate (pushed st rec))) rec.chanUtilPct.toNat := by
  unfold scaledScore blend
  simp only [RealDouble.ofInt_eq, Int.cast_one, Int.cast_natCast]

theorem inBand_mem (b : Band ℝ) (v : ℝ) : 0 ≤ inBand b v ∧ inBand b v ≤ 1 := by
  rw [inBand, normalizeMetric_eq]
  exact position_mem _ _ _

/-- The ramp only lowers a score, and the channel caps it. -/
theorem Summarises.easedScore_le_weight {rs : List ConnMetric.Record} {st : Client ℝ}
    (h : Summarises rs st) (lq : LinkQty ℝ) (rec : ConnMetric.Record) :
    easedScore lq st rec ≤ 100 * logisticWeight lq rec.chanUtilPct.toNat := by
  have hscaled : scaledScore lq st rec ≤ 100 * logisticWeight lq rec.chanUtilPct.toNat := by
    rw [scaledScore_blend]
    exact blend_le_weight lq _ (inBand_mem _ _) (inBand_mem _ _) (inBand_mem _ _)
  rw [h.easedScore_eq, ← h.scaledScore_eq]
  refine le_trans (mul_le_of_le_one_left ?_ (easeIn_le_one _)) hscaled
  rw [h.scaledScore_eq]
  exact batchScale_nonneg _ _ _

/-- A record with a link quality and an uplink rate at least those of `rec`. -/
def improved (rec : ConnMetric.Record) (snr : Int32) (rate : UInt32) : ConnMetric.Record :=
  { rec with linkSnrDb := snr, phyRateKbps := rate }

section Better

variable (lq : LinkQty ℝ) (st : Client ℝ) {rec : ConnMetric.Record} {snr : Int32} {rate : UInt32}

theorem scaledScore_mono (hsnr : rec.linkSnrDb ≤ snr) (hrate : rec.phyRateKbps ≤ rate) :
    scaledScore lq st rec ≤ scaledScore lq st (improved rec snr rate) := by
  have hsnr' : snrValue rec ≤ (snrValue (improved rec snr rate) : ℝ) :=
    Int.cast_le.mpr (Int32.le_iff_toInt_le.mp hsnr)
  have hmean : phyMean (pushed st rec) ≤ phyMean (pushed st (improved rec snr rate)) :=
    phyMean_push_mono st hrate
  rw [scaledScore_blend, scaledScore_blend]
  exact blend_mono lq _ (inBand_mem _ _).1 (inBand_widen_mono (st.normBand 0) hsnr')
    (inBand_mem _ _).2 (inBand_mem _ _).1 (inBand_widen_mono (st.normBand 1) hmean)
    (inBand_mem _ _).2 (inBand_mem _ _)

theorem ease_nonneg (ramp : UInt16) : 0 ≤ (ease ramp : ℝ) := by
  unfold ease
  simp only [RealDouble.ofInt_eq, RealDouble.exp_eq, Int.cast_natCast, Int.cast_one,
    Int.cast_ofNat]
  have hprogress : (0 : ℝ) ≤
      ((reconnectRamp - ramp + 1).toNat : ℝ) / ((reconnectRamp.toNat : ℕ) : ℝ) := by positivity
  have htop := Real.exp_le_one_iff.mpr (show -4 * (((reconnectRamp - ramp + 1).toNat : ℝ) /
    ((reconnectRamp.toNat : ℕ) : ℝ)) ≤ 0 by linarith)
  have hbottom := Real.exp_le_one_iff.mpr (show (-4 : ℝ) ≤ 0 by norm_num)
  exact div_nonneg (by linarith) (by linarith)

theorem easedScore_mono (hsnr : rec.linkSnrDb ≤ snr) (hrate : rec.phyRateKbps ≤ rate) :
    easedScore lq st rec ≤ easedScore lq st (improved rec snr rate) := by
  have hscaled := scaledScore_mono lq st hsnr hrate
  unfold easedScore
  split
  · exact mul_le_mul_of_nonneg_right hscaled (ease_nonneg _)
  · exact hscaled

end Better

/-! ## Reachable states -/

/-- Every slot of a reachable engine holds a client that some records summarise. -/
theorem exists_summary (lq : LinkQty ℝ) (policy : Policy) (es : List Event) (i : Fin maxClients) :
    ∃ rs, Summarises rs ((after lq policy es).map.slots i).state := by
  have hwf := wellFormed_after lq policy es
  cases hin : ((after lq policy es).map.slots i).inUse with
  | false =>
    have hzero : (after lq policy es).map.slots i = Slot.zero := (hwf.vacant i hin).1
    rw [hzero]
    exact ⟨[], summarises_zero⟩
  | true =>
    have hi : SlotTable.Holds (after lq policy es).rows ((after lq policy es).map.slots i).mac i :=
      ⟨hin, rfl⟩
    obtain ⟨pre, a, hsplit, hne, h⟩ := exists_tenure lq policy es ⟨i, holds_rows.mp hi⟩
    obtain ⟨row, hrow, hsum⟩ := tenure_summary hne h
    rw [← hsplit, cell_member_of_holds hwf hi] at hrow
    rw [← Option.some.inj hrow] at hsum
    exact ⟨_, hsum⟩

/-- What a client shows of a tick is a percentage, and the values that the code
converts to `uint8_t` are within its range. -/
structure InRange (lq : LinkQty ℝ) (st : Client ℝ) (rec : ConnMetric.Record) (out : Result) :
    Prop where
  score : out.score.toNat ≤ 100
  score_conv : (out.score.toNat : Int) = ⌊easedScore lq st rec + 1 / 2⌋
  pktErrPct : out.pktErrPct.toNat ≤ 100
  pktErrPct_conv : 0 < perrRate (pushed st rec) → perrRate (pushed st rec) < 100 →
    (out.pktErrPct.toNat : Int) = ⌊perrRate (pushed st rec) + 1 / 2⌋

theorem pktErrPct_range (x : ℝ) : (pktErrPct x).toNat ≤ 100 ∧
    (0 < x → x < 100 → ((pktErrPct x).toNat : Int) = ⌊x + 1 / 2⌋) := by
  unfold pktErrPct
  simp only [RealDouble.le_iff, RealDouble.ofInt_eq, Int.cast_zero, Int.cast_ofNat]
  split
  · rename_i h
    exact ⟨by decide, fun hpos => absurd h (not_le.mpr hpos)⟩
  · rename_i hpos
    rw [not_le] at hpos
    split
    · rename_i h
      exact ⟨by decide, fun _ hlt => absurd h (not_le.mpr hlt)⟩
    · rename_i hlt
      rw [not_le] at hlt
      obtain ⟨h0, h100⟩ := RealDouble.floor_half_mem hpos.le hlt.le
      have hbyte := RealDouble.toNat_byte h0 (by omega)
      rw [RealDouble.lround_of_nonneg hpos.le]
      exact ⟨by omega, fun _ _ => hbyte⟩

theorem Summarises.inRange {rs : List ConnMetric.Record} {st : Client ℝ} (h : Summarises rs st)
    (lq : LinkQty ℝ) (rec : ConnMetric.Record) : InRange lq st rec (plainResult lq st rec) where
  score := (h.score_conv lq rec).2
  score_conv := (h.score_conv lq rec).1
  pktErrPct := (pktErrPct_range _).1
  pktErrPct_conv := (pktErrPct_range _).2

/-- From whatever state a client of a reachable engine is in, a record with at least
the link quality and the uplink rate of another scores at least as much, and every
result is in range. -/
theorem better_link_never_lower (lq : LinkQty ℝ) (policy : Policy) (es : List Event)
    (i : Fin maxClients) {rec : ConnMetric.Record} (hgate : rec.usable = true) :
    ∃ st out, scoreClient lq ((after lq policy es).map.slots i).state rec = some (st, out) ∧
      InRange lq ((after lq policy es).map.slots i).state rec out ∧
      ∀ snr rate, rec.linkSnrDb ≤ snr → rec.phyRateKbps ≤ rate →
        ∃ st' out', scoreClient lq ((after lq policy es).map.slots i).state
            (improved rec snr rate) = some (st', out') ∧
          out.score ≤ out'.score := by
  obtain ⟨rs, hsum⟩ := exists_summary lq policy es i
  refine ⟨_, _, scoreClient_eq lq _ hgate, hsum.inRange lq rec, ?_⟩
  intro snr rate hsnr hrate
  refine ⟨_, _, scoreClient_eq lq _ hgate, ?_⟩
  have heased := easedScore_mono lq ((after lq policy es).map.slots i).state hsnr hrate
  have hfloor : ⌊easedScore lq ((after lq policy es).map.slots i).state rec + 1 / 2⌋ ≤
      ⌊easedScore lq ((after lq policy es).map.slots i).state (improved rec snr rate) + 1 / 2⌋ :=
    Int.floor_le_floor (by linarith)
  have hscore := (hsum.score_conv lq rec).1
  have hscore' := (hsum.score_conv lq (improved rec snr rate)).1
  rw [UInt8.le_iff_toNat_le]
  omega

/-- After nine scored ticks of a link that got better, the tenth record and a better one. -/
theorem better_link_never_lower_tenth :
    ∃ i, SlotTable.Holds (after (⟨0, 0⟩ : LinkQty ℝ) wireDefaultPolicy betterEachTick).map.slots
        (Vector.replicate 6 0) i ∧
      ∃ st out st' out', scoreClient (⟨0, 0⟩ : LinkQty ℝ)
          ((after (⟨0, 0⟩ : LinkQty ℝ) wireDefaultPolicy betterEachTick).map.slots i).state
          (linkAt 9) = some (st, out) ∧
        scoreClient (⟨0, 0⟩ : LinkQty ℝ)
          ((after (⟨0, 0⟩ : LinkQty ℝ) wireDefaultPolicy betterEachTick).map.slots i).state
          (improved (linkAt 9) 48 866000) = some (st', out') ∧ out.score ≤ out'.score := by
  obtain ⟨i, hi⟩ := betterEachTick_member
  obtain ⟨st, out, hscore, -, hbetter⟩ := better_link_never_lower (⟨0, 0⟩ : LinkQty ℝ)
    wireDefaultPolicy betterEachTick i (show (linkAt 9).usable = true by decide)
  obtain ⟨st', out', hscore', hle⟩ := hbetter 48 866000 (by decide) (by decide)
  exact ⟨i, hi, st, out, st', out', hscore, hscore', hle⟩

end

end Wei.Infer
