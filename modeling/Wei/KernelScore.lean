import Wei.Lib.Statistics
import Wei.Lib.Percent
import Wei.Lib.RealDouble
import Wei.ConnScorer

/-!
# The scoring kernel on exact reals

The stages of `wei_conn_scorer.c` as formulas, and what follows for the stateless
score: it is a percentage that moves with the link quality and the uplink rate,
and with the two frame counters as long as their 32-bit sum does not run over.
-/
namespace Wei.ConnScorer

open Wei.Lib Wei.Lib.Statistics Wei.Lib.Percent

noncomputable section

/-- The weight of a channel utilisation. -/
def logisticWeight (lq : LinkQty ℝ) (chanUtil : ℝ) : ℝ :=
  1 / (1 + Real.exp (clamp (-50) 50 (-(lq.b0 + lq.b1 * chanUtil))))

/-! ## The stages -/

theorem normalizeMetric_eq (x lo hi : ℝ) : normalizeMetric x lo hi = position x lo hi := by
  unfold normalizeMetric position
  simp only [RealDouble.le_iff, RealDouble.ofInt_eq, Int.cast_zero, Int.cast_one,
    RealDouble.cut_eq zero_le_one]

theorem rmsReduce_eq {x y z : ℝ} (h : 0 ≤ x + y + z) :
    rmsReduce [x, y, z] = √((x + y + z) / 3) := by
  have hmean : ¬ (x + y + z) / 3 < 0 := not_lt.mpr (div_nonneg h (by norm_num))
  simp [rmsReduce, hmean]

theorem chanutilWeight_eq (lq : LinkQty ℝ) (reduced u : ℝ) :
    chanutilWeight lq reduced u = reduced * logisticWeight lq u := by
  have hcut := RealDouble.cut_eq (show (-50 : ℝ) ≤ 50 by norm_num) (-(lq.b0 + lq.b1 * u))
  unfold chanutilWeight logisticWeight
  simp only [RealDouble.ofInt_eq, RealDouble.exp_eq, Int.cast_ofNat, Int.cast_one, hcut]

theorem standardize_eq (x : ℝ) : standardize x = clamp 0 100 (100 * x) := by
  have hcut := RealDouble.cut_eq (show (0 : ℝ) ≤ 100 by norm_num) (100 * x)
  unfold standardize scaleMin scaleMax
  simp only [RealDouble.ofInt_eq, Int.cast_ofNat, Int.cast_zero, zero_add, sub_zero, mul_comm x,
    hcut]

theorem logisticWeight_pos (lq : LinkQty ℝ) (u : ℝ) : 0 < logisticWeight lq u := by
  have := Real.exp_pos (clamp (-50) 50 (-(lq.b0 + lq.b1 * u)))
  exact div_pos one_pos (by linarith)

theorem logisticWeight_le_one (lq : LinkQty ℝ) (u : ℝ) : logisticWeight lq u ≤ 1 := by
  have := Real.exp_pos (clamp (-50) 50 (-(lq.b0 + lq.b1 * u)))
  exact div_le_one_of_le₀ (by linarith) (by linarith)

/-- The loss quotient of the C code, in `uint32_t` arithmetic up to the division. -/
theorem loss_quotient_eq (frames errs : UInt32) :
    (if frames + errs = 0 then CDouble.ofInt 0
      else CDouble.ofInt errs.toNat / CDouble.ofInt (frames + errs).toNat * CDouble.ofInt 100 : ℝ) =
      wrapped (2 ^ 32) frames.toNat errs.toNat := by
  rw [wrapped, ← UInt32.toNat_add, percent]
  by_cases hz : frames + errs = 0
  · rw [if_pos hz, hz]
    simp
  · have hz' : (frames + errs).toNat ≠ 0 := fun h => hz (UInt32.toNat_inj.mp h)
    rw [if_neg hz, if_neg hz']
    simp only [RealDouble.ofInt_eq, Int.cast_natCast, Int.cast_ofNat]
    ring

/-! ## Three metrics in one score -/

/-- The scaled score of two rewards and a penalty, each inside its band. -/
def blend (lq : LinkQty ℝ) (snr phy loss u : ℝ) : ℝ :=
  standardize (chanutilWeight lq (rmsReduce [snr * snr, phy * phy, 1 - loss * loss]) u)

theorem blend_nonneg (lq : LinkQty ℝ) (snr phy loss u : ℝ) : 0 ≤ blend lq snr phy loss u := by
  rw [blend, standardize_eq]
  exact le_clamp 0 100 _

theorem blend_le (lq : LinkQty ℝ) (snr phy loss u : ℝ) : blend lq snr phy loss u ≤ 100 := by
  rw [blend, standardize_eq]
  exact clamp_le (by norm_num) _

/-- Inside their bands the metrics never reach the cut of the last stage. -/
theorem blend_eq (lq : LinkQty ℝ) {snr phy loss : ℝ} (u : ℝ) (hsnr : 0 ≤ snr ∧ snr ≤ 1)
    (hphy : 0 ≤ phy ∧ phy ≤ 1) (hloss : 0 ≤ loss ∧ loss ≤ 1) :
    blend lq snr phy loss u =
      100 * (√((snr ^ 2 + phy ^ 2 + (1 - loss ^ 2)) / 3) * logisticWeight lq u) := by
  have hsnr2 : snr ^ 2 ≤ 1 := pow_le_one₀ hsnr.1 hsnr.2
  have hphy2 : phy ^ 2 ≤ 1 := pow_le_one₀ hphy.1 hphy.2
  have hloss2 : loss ^ 2 ≤ 1 := pow_le_one₀ hloss.1 hloss.2
  have hpos := logisticWeight_pos lq u
  have hle := logisticWeight_le_one lq u
  have hsum : 0 ≤ snr * snr + phy * phy + (1 - loss * loss) := by nlinarith
  have hroot : √((snr ^ 2 + phy ^ 2 + (1 - loss ^ 2)) / 3) ≤ 1 := by
    apply Real.sqrt_le_one.mpr
    linarith [sq_nonneg loss]
  have hroot0 := Real.sqrt_nonneg ((snr ^ 2 + phy ^ 2 + (1 - loss ^ 2)) / 3)
  rw [blend, rmsReduce_eq hsum, chanutilWeight_eq, standardize_eq]
  simp only [← sq]
  exact clamp_of_mem (by positivity) (by nlinarith)

/-- No metric lifts the score above the weight of its channel. -/
theorem blend_le_weight (lq : LinkQty ℝ) {snr phy loss : ℝ} (u : ℝ) (hsnr : 0 ≤ snr ∧ snr ≤ 1)
    (hphy : 0 ≤ phy ∧ phy ≤ 1) (hloss : 0 ≤ loss ∧ loss ≤ 1) :
    blend lq snr phy loss u ≤ 100 * logisticWeight lq u := by
  have hsnr2 : snr ^ 2 ≤ 1 := pow_le_one₀ hsnr.1 hsnr.2
  have hphy2 : phy ^ 2 ≤ 1 := pow_le_one₀ hphy.1 hphy.2
  have hroot : √((snr ^ 2 + phy ^ 2 + (1 - loss ^ 2)) / 3) ≤ 1 :=
    Real.sqrt_le_one.mpr (by linarith [sq_nonneg loss])
  rw [blend_eq lq u hsnr hphy hloss]
  have := mul_le_mul_of_nonneg_right hroot (logisticWeight_pos lq u).le
  linarith

/-- Better rewards never lower the score. -/
theorem blend_mono (lq : LinkQty ℝ) {snr snr' phy phy' loss : ℝ} (u : ℝ) (hsnr : 0 ≤ snr)
    (hsnr' : snr ≤ snr') (hsnr1 : snr' ≤ 1) (hphy : 0 ≤ phy) (hphy' : phy ≤ phy')
    (hphy1 : phy' ≤ 1) (hloss : 0 ≤ loss ∧ loss ≤ 1) :
    blend lq snr phy loss u ≤ blend lq snr' phy' loss u := by
  rw [blend_eq lq u ⟨hsnr, hsnr'.trans hsnr1⟩ ⟨hphy, hphy'.trans hphy1⟩ hloss,
    blend_eq lq u ⟨hsnr.trans hsnr', hsnr1⟩ ⟨hphy.trans hphy', hphy1⟩ hloss]
  have hsnr2 := pow_le_pow_left₀ hsnr hsnr' 2
  have hphy2 := pow_le_pow_left₀ hphy hphy' 2
  have hroot := Real.sqrt_le_sqrt (show (snr ^ 2 + phy ^ 2 + (1 - loss ^ 2)) / 3 ≤
    (snr' ^ 2 + phy' ^ 2 + (1 - loss ^ 2)) / 3 by linarith)
  have := mul_le_mul_of_nonneg_right hroot (logisticWeight_pos lq u).le
  linarith

/-- The score shows every change of the penalty. -/
theorem blend_le_iff (lq : LinkQty ℝ) {snr phy loss loss' : ℝ} (u : ℝ) (hsnr : 0 ≤ snr ∧ snr ≤ 1)
    (hphy : 0 ≤ phy ∧ phy ≤ 1) (hloss : 0 ≤ loss ∧ loss ≤ 1) (hloss' : 0 ≤ loss' ∧ loss' ≤ 1) :
    blend lq snr phy loss u ≤ blend lq snr phy loss' u ↔ loss' ≤ loss := by
  have hloss2 : loss' ^ 2 ≤ 1 := pow_le_one₀ hloss'.1 hloss'.2
  have hnonneg : 0 ≤ (snr ^ 2 + phy ^ 2 + (1 - loss' ^ 2)) / 3 := by
    nlinarith [sq_nonneg snr, sq_nonneg phy]
  rw [blend_eq lq u hsnr hphy hloss, blend_eq lq u hsnr hphy hloss',
    mul_le_mul_iff_right₀ (by norm_num), mul_le_mul_iff_left₀ (logisticWeight_pos lq u),
    Real.sqrt_le_sqrt_iff hnonneg, ← pow_le_pow_iff_left₀ hloss'.1 hloss.1 two_ne_zero]
  constructor
  · intro h
    linarith
  · intro h
    linarith

/-! ## The stateless score -/

def snrNorm (rec : ConnMetric.Record) : ℝ := position rec.linkSnrDb.toInt 0 40
def phyNorm (rec : ConnMetric.Record) : ℝ := position rec.phyRateKbps.toNat 0 866000
def lossNorm (rec : ConnMetric.Record) : ℝ :=
  position (wrapped (2 ^ 32) rec.txFrames.toNat rec.txErrFrames.toNat) 0 100

theorem position_mem (x lo hi : ℝ) : 0 ≤ position x lo hi ∧ position x lo hi ≤ 1 :=
  ⟨position_nonneg x lo hi, position_le_one x lo hi⟩

theorem rawScore_eq (lq : LinkQty ℝ) (rec : ConnMetric.Record) :
    rawScore lq rec = blend lq (snrNorm rec) (phyNorm rec) (lossNorm rec) rec.chanUtilPct.toNat := by
  have hloss : (instantLoss rec : ℝ) =
      wrapped (2 ^ 32) rec.txFrames.toNat rec.txErrFrames.toNat :=
    loss_quotient_eq rec.txFrames rec.txErrFrames
  unfold rawScore snrNorm phyNorm lossNorm blend
  simp only [normalizeMetric_eq, hloss, RealDouble.ofInt_eq, Int.cast_zero, Int.cast_one,
    Int.cast_natCast, Int.cast_ofNat]

theorem score_toNat (lq : LinkQty ℝ) {rec : ConnMetric.Record} (h : rec.usable = true) :
    ((score lq rec).toNat : Int) = ⌊rawScore lq rec + 1 / 2⌋ ∧ (score lq rec).toNat ≤ 100 := by
  have hnonneg : 0 ≤ rawScore lq rec := rawScore_eq lq rec ▸ blend_nonneg lq _ _ _ _
  have hle : rawScore lq rec ≤ 100 := rawScore_eq lq rec ▸ blend_le lq _ _ _ _
  obtain ⟨h0, h100⟩ := RealDouble.floor_half_mem hnonneg hle
  have hscore : score lq rec = UInt8.ofInt ⌊rawScore lq rec + 1 / 2⌋ := by
    rw [score, h, if_neg (by simp), RealDouble.lround_of_nonneg hnonneg]
  have hbyte := RealDouble.toNat_byte h0 (by omega)
  rw [hscore]
  exact ⟨hbyte, by omega⟩

/-- Rounding keeps the order of two scores. -/
theorem score_le_of_raw (lq : LinkQty ℝ) {rec rec' : ConnMetric.Record} (h : rec.usable = true)
    (h' : rec'.usable = true) (hraw : rawScore lq rec ≤ rawScore lq rec') :
    score lq rec ≤ score lq rec' := by
  have hfloor : ⌊rawScore lq rec + 1 / 2⌋ ≤ ⌊rawScore lq rec' + 1 / 2⌋ :=
    Int.floor_le_floor (by linarith)
  have hrec := (score_toNat lq h).1
  have hrec' := (score_toNat lq h').1
  rw [UInt8.le_iff_toNat_le]
  omega

/-- Inside its fixed band a share counts up to 100. -/
theorem position_percent {x : ℝ} (h : 0 ≤ x) : position x 0 100 = min 100 x / 100 := by
  rw [position, if_neg (by norm_num), clamp]
  simp only [sub_zero]
  rw [← min_div_div_right (by norm_num : (0 : ℝ) ≤ 100), div_self (by norm_num), max_eq_right]
  exact le_min zero_le_one (div_nonneg h (by norm_num))

theorem position_percent_le_iff {x y : ℝ} (hx : 0 ≤ x) (hy : 0 ≤ y) :
    position x 0 100 ≤ position y 0 100 ↔ min 100 x ≤ min 100 y := by
  rw [position_percent hx, position_percent hy, div_le_div_iff_of_pos_right (by norm_num)]

/-- Going from the frames of the record to `frames`, the sum with its errors does
not come to run over: it stays within 2^32, or already was beyond, or the loss is
total to begin with. -/
def FramesFit (rec : ConnMetric.Record) (frames : UInt32) : Prop :=
  frames.toNat + rec.txErrFrames.toNat ≤ 2 ^ 32 ∨
    2 ^ 32 < rec.txFrames.toNat + rec.txErrFrames.toNat ∨ rec.txFrames = 0

/-- Going from the errors of the record to `errs`, the sum does not come to 2^32. -/
def ErrorsFit (rec : ConnMetric.Record) (errs : UInt32) : Prop :=
  rec.txFrames.toNat + errs.toNat ≠ 2 ^ 32 ∨ rec.txErrFrames = 0 ∨ rec.txErrFrames = errs

/-- Beside equal rewards the order of two scores is that of the losses, cut at 100. -/
theorem raw_le_iff (lq : LinkQty ℝ) (rec rec' : ConnMetric.Record)
    (hsnr : rec'.linkSnrDb = rec.linkSnrDb) (hphy : rec'.phyRateKbps = rec.phyRateKbps)
    (hutil : rec'.chanUtilPct = rec.chanUtilPct) :
    rawScore lq rec ≤ rawScore lq rec' ↔
      min 100 (wrapped (2 ^ 32) rec'.txFrames.toNat rec'.txErrFrames.toNat) ≤
        min 100 (wrapped (2 ^ 32) rec.txFrames.toNat rec.txErrFrames.toNat) := by
  have hloss := blend_le_iff lq rec.chanUtilPct.toNat (position_mem rec.linkSnrDb.toInt 0 40)
    (position_mem rec.phyRateKbps.toNat 0 866000)
    (position_mem (wrapped (2 ^ 32) rec.txFrames.toNat rec.txErrFrames.toNat) 0 100)
    (position_mem (wrapped (2 ^ 32) rec'.txFrames.toNat rec'.txErrFrames.toNat) 0 100)
  rw [position_percent_le_iff (wrapped_nonneg _ _ _) (wrapped_nonneg _ _ _)] at hloss
  rw [rawScore_eq, rawScore_eq, ← hloss, snrNorm, snrNorm, phyNorm, phyNorm, hsnr, hphy, hutil]
  rfl

theorem raw_frames_iff (lq : LinkQty ℝ) {rec : ConnMetric.Record} {frames : UInt32}
    (h : rec.txFrames ≤ frames) :
    rawScore lq rec ≤ rawScore lq { rec with txFrames := frames } ↔ FramesFit rec frames := by
  have hzero : rec.txFrames.toNat = 0 ↔ rec.txFrames = 0 := by
    rw [← UInt32.toNat_inj]
    rfl
  rw [raw_le_iff lq rec { rec with txFrames := frames } rfl rfl rfl, FramesFit, ← hzero]
  exact capped_anti_rest_iff (UInt32.le_iff_toNat_le.mp h) frames.toNat_lt rec.txErrFrames.toNat_lt

theorem raw_errors_iff (lq : LinkQty ℝ) {rec : ConnMetric.Record} {errs : UInt32}
    (h : rec.txErrFrames ≤ errs) :
    rawScore lq { rec with txErrFrames := errs } ≤ rawScore lq rec ↔ ErrorsFit rec errs := by
  have hzero : rec.txErrFrames.toNat = 0 ↔ rec.txErrFrames = 0 := by
    rw [← UInt32.toNat_inj]
    rfl
  rw [raw_le_iff lq { rec with txErrFrames := errs } rec rfl rfl rfl, ErrorsFit, ← hzero,
    ← UInt32.toNat_inj]
  exact capped_mono_part_iff (UInt32.le_iff_toNat_le.mp h) rec.txFrames.toNat_lt errs.toNat_lt

/-- The stateless score is a percentage that never falls with a better link or a
faster uplink. It never falls with more frames and never rises with more errors
where their sum does not run over; before rounding, it does so only there. -/
theorem kernel_score_monotone (lq : LinkQty ℝ) {rec : ConnMetric.Record} (h : rec.usable = true) :
    (score lq rec).toNat ≤ 100 ∧
    (∀ snr, rec.linkSnrDb ≤ snr → score lq rec ≤ score lq { rec with linkSnrDb := snr }) ∧
    (∀ rate, rec.phyRateKbps ≤ rate → score lq rec ≤ score lq { rec with phyRateKbps := rate }) ∧
    (∀ frames, rec.txFrames ≤ frames →
      (rawScore lq rec ≤ rawScore lq { rec with txFrames := frames } ↔ FramesFit rec frames) ∧
      (FramesFit rec frames → score lq rec ≤ score lq { rec with txFrames := frames })) ∧
    (∀ errs, rec.txErrFrames ≤ errs →
      (rawScore lq { rec with txErrFrames := errs } ≤ rawScore lq rec ↔ ErrorsFit rec errs) ∧
      (ErrorsFit rec errs → score lq { rec with txErrFrames := errs } ≤ score lq rec)) := by
  refine ⟨(score_toNat lq h).2, ?_, ?_, ?_, ?_⟩
  · intro snr hle
    have hsnr : snrNorm rec ≤ snrNorm { rec with linkSnrDb := snr } :=
      position_mono 0 40 (Int.cast_le.mpr (Int32.le_iff_toInt_le.mp hle))
    have hraw : rawScore lq rec ≤ rawScore lq { rec with linkSnrDb := snr } := by
      rw [rawScore_eq, rawScore_eq]
      exact blend_mono lq _ (position_nonneg _ _ _) hsnr (position_le_one _ _ _)
        (position_nonneg _ _ _) (le_refl _) (position_le_one _ _ _) (position_mem _ _ _)
    exact score_le_of_raw lq h h hraw
  · intro rate hle
    have hphy : phyNorm rec ≤ phyNorm { rec with phyRateKbps := rate } :=
      position_mono 0 866000 (Nat.cast_le.mpr (UInt32.le_iff_toNat_le.mp hle))
    have hraw : rawScore lq rec ≤ rawScore lq { rec with phyRateKbps := rate } := by
      rw [rawScore_eq, rawScore_eq]
      exact blend_mono lq _ (position_nonneg _ _ _) (le_refl _) (position_le_one _ _ _)
        (position_nonneg _ _ _) hphy (position_le_one _ _ _) (position_mem _ _ _)
    exact score_le_of_raw lq h h hraw
  · intro frames hle
    exact ⟨raw_frames_iff lq hle, fun hfit => score_le_of_raw lq h h ((raw_frames_iff lq hle).mpr hfit)⟩
  · intro errs hle
    exact ⟨raw_errors_iff lq hle, fun hfit => score_le_of_raw lq h h ((raw_errors_iff lq hle).mpr hfit)⟩

/-- A record with one frame sent and two lost. -/
def lossy : ConnMetric.Record := { ConnMetric.Record.zero with txFrames := 1, txErrFrames := 2 }

theorem kernel_score_monotone_lossy :
    lossy.usable = true ∧ (score (⟨0, 0⟩ : LinkQty ℝ) lossy).toNat ≤ 100 ∧
      score (⟨0, 0⟩ : LinkQty ℝ) lossy ≤
        score (⟨0, 0⟩ : LinkQty ℝ) { lossy with txFrames := 1000 } := by
  have h := kernel_score_monotone (⟨0, 0⟩ : LinkQty ℝ) (show lossy.usable = true from rfl)
  exact ⟨rfl, h.1, (h.2.2.2.1 1000 (by decide)).2 (Or.inl (by decide))⟩

/-- With 2^32 - 1 frames sent the sum is 1, the loss 200 percent, and the score falls to 0. -/
theorem kernel_score_falls :
    lossy.txFrames ≤ 4294967295 ∧
      score (⟨0, 0⟩ : LinkQty ℝ) { lossy with txFrames := 4294967295 } <
        score (⟨0, 0⟩ : LinkQty ℝ) lossy := by
  refine ⟨by decide, ?_⟩
  have hmild : lossNorm lossy = 2 / 3 := by
    have hloss : wrapped (2 ^ 32) lossy.txFrames.toNat lossy.txErrFrames.toNat = 200 / 3 := by
      rw [show wrapped (2 ^ 32) lossy.txFrames.toNat lossy.txErrFrames.toNat = percent 2 3 from rfl,
        percent_of_pos (by decide)]
      norm_num
    rw [lossNorm, hloss, position_percent (by norm_num), min_eq_right (by norm_num)]
    norm_num
  have htotal : lossNorm { lossy with txFrames := 4294967295 } = 1 := by
    have hloss : 100 ≤ wrapped (2 ^ 32) (4294967295 : UInt32).toNat lossy.txErrFrames.toNat :=
      (le_wrapped_iff (by decide) (by decide)).mpr (Or.inl (by decide))
    rw [lossNorm, position_percent (wrapped_nonneg _ _ _), min_eq_left hloss]
    norm_num
  have hsnr : snrNorm lossy = 0 := by
    simp [snrNorm, lossy, ConnMetric.Record.zero, position, clamp]
  have hphy : phyNorm lossy = 0 := by
    simp [phyNorm, lossy, ConnMetric.Record.zero, position, clamp]
  have hweight : logisticWeight ⟨0, 0⟩ (lossy.chanUtilPct.toNat : ℝ) = 1 / 2 := by
    rw [logisticWeight, zero_mul, add_zero, neg_zero, clamp_of_mem (by norm_num) (by norm_num),
      Real.exp_zero]
    norm_num
  have hraw : 1 / 2 ≤ rawScore (⟨0, 0⟩ : LinkQty ℝ) lossy := by
    have hroot : (1 / 10 : ℝ) ≤ √((0 ^ 2 + 0 ^ 2 + (1 - (2 / 3) ^ 2)) / 3) := by
      apply Real.le_sqrt_of_sq_le
      norm_num
    rw [rawScore_eq, hsnr, hphy, hmild, blend_eq _ _ (by norm_num) (by norm_num) (by norm_num),
      hweight]
    linarith
  have hraw' : rawScore (⟨0, 0⟩ : LinkQty ℝ) { lossy with txFrames := 4294967295 } = 0 := by
    rw [rawScore_eq, htotal, show snrNorm { lossy with txFrames := 4294967295 } = 0 from hsnr,
      show phyNorm { lossy with txFrames := 4294967295 } = 0 from hphy,
      blend_eq _ _ (by norm_num) (by norm_num) (by norm_num)]
    norm_num
  have hbefore := (score_toNat (⟨0, 0⟩ : LinkQty ℝ) (show lossy.usable = true from rfl)).1
  have hafter := (score_toNat (⟨0, 0⟩ : LinkQty ℝ)
    (show ({ lossy with txFrames := 4294967295 } : ConnMetric.Record).usable = true from rfl)).1
  have hone : 1 ≤ ⌊rawScore (⟨0, 0⟩ : LinkQty ℝ) lossy + 1 / 2⌋ :=
    Int.le_floor.mpr (by push_cast; linarith)
  have hzero : ⌊rawScore (⟨0, 0⟩ : LinkQty ℝ) { lossy with txFrames := 4294967295 } + 1 / 2⌋ = 0 := by
    rw [hraw']
    norm_num
  rw [UInt8.lt_iff_toNat_lt]
  omega

end

end Wei.ConnScorer
