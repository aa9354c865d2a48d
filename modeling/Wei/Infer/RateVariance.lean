import Wei.Infer.Batch

/-!
# The instability of the last rates

`wei_infer_phy_instability` reads nothing of a client but the live cells of its rate
ring, so its value is a function of the records the client was scored with. Over
exact reals that function is the variance of the last rates, without its fraction.
-/
namespace Wei.Infer

open Wei.Lib Wei.Lib.Statistics Wei.ConnScorer

/-! ## As the code computes it -/

section Instability

variable (D : Type) [CDouble D]

/-- What `wei_infer_phy_instability` returns for a client scored with these records. -/
def instabilityOf (rs : List ConnMetric.Record) : Int32 :=
  phyInstability { (Client.zero : Client D) with
    phy := (rs.map ConnMetric.Record.phyRateKbps).foldl Ring.push (Ring.empty 0) }

variable {D}

theorem phyInstability_congr {st st' : Client D} (hfill : st.phy.fill = st'.phy.fill)
    (hcontents : st.phy.contents = st'.phy.contents) : phyInstability st = phyInstability st' := by
  have hmean : phyMean st = phyMean st' := by rw [phyMean, phyMean, hfill, hcontents]
  rw [phyInstability, phyInstability, phyVarianceMbps, phyVarianceMbps, hmean, hfill, hcontents]

theorem Windows.instability {rs : List ConnMetric.Record} {st : Client D} (h : Windows rs st) :
    phyInstability st = instabilityOf D rs := by
  have hring : Ring.Represents ((rs.map ConnMetric.Record.phyRateKbps).foldl Ring.push
      (Ring.empty 0 : Ring UInt32 phyWindow)) (rs.map ConnMetric.Record.phyRateKbps) :=
    Ring.represents_foldl _ _
  exact phyInstability_congr (h.phy.fill_eq.trans hring.fill_eq.symm) (h.phy.contents_eq hring)

end Instability

noncomputable section

/-! ## The variance of the rates -/

/-- The variance of the last eight rates in (Mbps)², without its fraction. -/
def rateVariance (rs : List ConnMetric.Record) : Int :=
  if rs.length < 2 then 0 else ⌊variance (rateWindow rs) / 10 ^ 6⌋

/-- The last eight rates. -/
def lastRates (rs : List ConnMetric.Record) : List Nat :=
  (Ring.window phyWindow (rs.map ConnMetric.Record.phyRateKbps)).map UInt32.toNat

theorem rateWindow_eq (rs : List ConnMetric.Record) :
    rateWindow rs = (lastRates rs).map fun v : Nat => (v : ℝ) := by
  rw [rateWindow, lastRates, List.map_map]
  rfl

theorem lastRates_ne_nil {rs : List ConnMetric.Record} (h : rs ≠ []) : lastRates rs ≠ [] := by
  have hpos := List.length_pos_iff.mpr h
  rw [← List.length_pos_iff, lastRates, List.length_map, Ring.length_window, List.length_map]
  have hwindow : phyWindow = 8 := rfl
  omega

/-- The variance of some rates times the square of their number. -/
def spread (ns : List ℕ) : ℤ := ns.length * ((ns.map fun n => n ^ 2).sum : ℕ) - (ns.sum : ℤ) ^ 2

theorem spread_eq (ns : List ℕ) :
    (spread ns : ℝ) = ((ns.length : ℕ) : ℝ) ^ 2 * variance (ns.map fun n : ℕ => (n : ℝ)) := by
  have hsum : (ns.map fun n : ℕ => (n : ℝ)).sum = (ns.sum : ℕ) := (Nat.cast_list_sum ns).symm
  have hsquares : (((ns.map fun n : ℕ => (n : ℝ)).map fun x => x ^ 2).sum : ℝ) =
      ((ns.map fun n : ℕ => n ^ 2).sum : ℕ) := by
    rw [Nat.cast_list_sum, List.map_map, List.map_map]
    congr 1
    exact List.map_congr_left fun n _ => (Nat.cast_pow n 2).symm
  have hvariance := sq_length_mul_variance (ns.map fun n : ℕ => (n : ℝ))
  rw [hsum, hsquares, List.length_map] at hvariance
  rw [hvariance, spread]
  simp only [Int.cast_sub, Int.cast_mul, Int.cast_pow, Int.cast_natCast]

/-- The variance of the last rates in integers. -/
theorem rateVariance_eq (rs : List ConnMetric.Record) : rateVariance rs =
    if rs.length < 2 then 0
    else spread (lastRates rs) / ((lastRates rs).length ^ 2 * 10 ^ 6 : ℕ) := by
  rw [rateVariance, rateWindow_eq]
  split
  · rfl
  · rename_i hmany
    have hne : ((lastRates rs).length : ℝ) ≠ 0 := by
      rw [Nat.cast_ne_zero, Ne, List.length_eq_zero_iff]
      refine lastRates_ne_nil ?_
      rintro rfl
      exact hmany (by decide)
    have hvariance : variance ((lastRates rs).map fun n : ℕ => (n : ℝ)) / 10 ^ 6 =
        (spread (lastRates rs) : ℝ) / ((lastRates rs).length ^ 2 * 10 ^ 6 : ℕ) := by
      rw [spread_eq, Nat.cast_mul, Nat.cast_pow, mul_div_mul_left _ _ (pow_ne_zero 2 hne)]
      norm_num
    rw [hvariance, Int.floor_div_natCast, Int.floor_intCast]

/-- The fastest uplink rate, in kbps, for which the variance fits 32 bits. -/
def rateLimit : Nat := 92000000

theorem rateVariance_bounds {rs : List ConnMetric.Record}
    (h : ∀ r ∈ rs, r.phyRateKbps.toNat ≤ rateLimit) :
    0 ≤ rateVariance rs ∧ rateVariance rs < 2 ^ 31 := by
  have hvar : variance (rateWindow rs) ≤ (rateLimit : ℝ) ^ 2 / 4 := by
    apply variance_le
    intro x hx
    obtain ⟨v, hv, rfl⟩ := List.mem_map.mp hx
    obtain ⟨r, hr, rfl⟩ := List.mem_map.mp (List.mem_of_mem_drop hv)
    exact ⟨Nat.cast_nonneg _, Nat.cast_le.mpr (h r hr)⟩
  unfold rateVariance
  split
  · exact ⟨le_refl 0, by norm_num⟩
  · constructor
    · exact Int.floor_nonneg.mpr (div_nonneg (variance_nonneg _) (by norm_num))
    · rw [Int.floor_lt]
      have hlimit : (rateLimit : ℝ) = 92000000 := by norm_num [rateLimit]
      rw [hlimit] at hvar
      push_cast
      rw [div_lt_iff₀ (by norm_num)]
      linarith

theorem phyVarianceMbps_eq {rs : List ConnMetric.Record} {st : Client ℝ} (h : Windows rs st)
    (hne : rs ≠ []) : phyVarianceMbps st = ⌊variance (rateWindow rs) / 10 ^ 6⌋ := by
  have hsum : st.phy.contents.foldl (fun accum v => accum +
      (CDouble.ofInt v.toNat - phyMean st) * (CDouble.ofInt v.toNat - phyMean st))
        (CDouble.ofInt 0) =
      ((st.phy.contents.map fun v => (v.toNat : ℝ)).map fun x =>
        (x - mean (st.phy.contents.map fun v => (v.toNat : ℝ))) ^ 2).sum := by
    rw [foldl_add, phyMean_eq h hne, runningMean, mean_perm (rates_perm h), List.map_map]
    simp only [RealDouble.ofInt_eq, Int.cast_zero, zero_add, Int.cast_natCast, Function.comp_def,
      sq]
  have hloop : phyVarianceMbps st = CDouble.trunc (st.phy.contents.foldl (fun accum v => accum +
      (CDouble.ofInt v.toNat - phyMean st) * (CDouble.ofInt v.toNat - phyMean st))
        (CDouble.ofInt 0) / CDouble.ofInt st.phy.fill / CDouble.ofInt 1000000) := rfl
  have hvar : ((st.phy.contents.map fun v => (v.toNat : ℝ)).map fun x =>
      (x - mean (st.phy.contents.map fun v => (v.toNat : ℝ))) ^ 2).sum /
        CDouble.ofInt st.phy.fill = variance (rateWindow rs) := by
    rw [← variance_perm (rates_perm h), variance, List.length_map, Ring.length_contents]
    rfl
  have hscale : (CDouble.ofInt 1000000 : ℝ) = 10 ^ 6 := by norm_num
  rw [hloop, hsum, hvar, hscale]
  exact RealDouble.trunc_of_nonneg (div_nonneg (variance_nonneg _) (by norm_num))

/-- What `wei_infer_phy_instability` converts to `int32_t`; short of two rates, the
zero it returns. -/
def phyConverted (st : Client ℝ) : Int := if st.phy.fill < 2 then 0 else phyVarianceMbps st

theorem phyConverted_eq {rs : List ConnMetric.Record} {st : Client ℝ} (h : Windows rs st) :
    phyConverted st = rateVariance rs := by
  have hfill := h.phy.fill_eq
  have hwindow : phyWindow = 8 := rfl
  rw [List.length_map] at hfill
  unfold phyConverted rateVariance
  by_cases hshort : rs.length < 2
  · rw [if_pos hshort, if_pos (by omega)]
  · have hne : rs ≠ [] := by
      rintro rfl
      exact hshort (by decide)
    rw [if_neg hshort, if_neg (by omega), phyVarianceMbps_eq h hne]

theorem phyInstability_eq {rs : List ConnMetric.Record} {st : Client ℝ} (h : Windows rs st) :
    phyInstability st = Int32.ofInt (rateVariance rs) := by
  rw [← phyConverted_eq h, phyInstability, phyConverted]
  split <;> rfl

end

end Wei.Infer
