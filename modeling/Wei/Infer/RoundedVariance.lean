import Mathlib.Tactic.IntervalCases
import Wei.Infer.RateVariance
import Wei.Lib.Rounding

/-!
# The instability in rounded doubles

For rates of whole Mbps, rounding does not reach the integer that
`wei_infer_phy_instability` returns. The variance is then a multiple of `1 / n²`; a
double is off by far less than that, and where the variance is an integer every
intermediate value fits the 53 bits of a double.
-/
namespace Wei.Infer

open Wei.Lib Wei.Lib.Statistics Wei.ConnScorer
open CDouble (ofInt)

/-- Rates of whole Mbps, up to the limit. -/
def WholeRates (rs : List ConnMetric.Record) : Prop :=
  ∀ r ∈ rs, 1000 ∣ r.phyRateKbps.toNat ∧ r.phyRateKbps.toNat ≤ rateLimit

/-- The live cells of a rate ring that holds such rates. -/
structure Cells (vs : List UInt32) : Prop where
  ne_nil : vs ≠ []
  few : vs.length ≤ 8
  whole : ∀ v ∈ vs, 1000 ∣ v.toNat
  limit : ∀ v ∈ vs, v.toNat ≤ rateLimit

noncomputable section

/-- The rates, in kbps. -/
def ratesOf (vs : List UInt32) : List ℝ := vs.map fun v => (v.toNat : ℝ)

/-- The variance in (Mbps)². -/
def scaledVariance (vs : List UInt32) : ℝ := variance (ratesOf vs) / (1000000 : ℤ)

/-- The variance is an integer. -/
def Whole (vs : List UInt32) : Prop := ∃ W : ℤ, scaledVariance vs = W

/-! ## Exact values -/

section Exact

variable {vs : List UInt32}

theorem Cells.pos (h : Cells vs) : 0 < vs.length := List.length_pos_iff.mpr h.ne_nil

theorem Cells.mem_rates (h : Cells vs) : ∀ x ∈ ratesOf vs, 0 ≤ x ∧ x ≤ 92000000 := by
  intro x hx
  obtain ⟨v, hv, rfl⟩ := List.mem_map.mp hx
  have hlimit : v.toNat ≤ 92000000 := h.limit v hv
  exact ⟨Nat.cast_nonneg _, by exact_mod_cast hlimit⟩

theorem Cells.mean_mem (h : Cells vs) : 0 ≤ mean (ratesOf vs) ∧ mean (ratesOf vs) ≤ 92000000 := by
  refine ⟨div_nonneg (List.sum_nonneg fun x hx => (h.mem_rates x hx).1) (Nat.cast_nonneg _), ?_⟩
  exact mean_le (by norm_num) fun x hx => (h.mem_rates x hx).2

theorem Cells.abs_sub_mean (h : Cells vs) {v : UInt32} (hv : v ∈ vs) :
    |(v.toNat : ℝ) - mean (ratesOf vs)| ≤ 92000000 := by
  have hmean := h.mean_mem
  have hrate := h.mem_rates _ (List.mem_map_of_mem hv)
  rw [abs_le]
  constructor <;> linarith [hmean.1, hmean.2, hrate.1, hrate.2]

theorem Cells.variance_mem (h : Cells vs) :
    0 ≤ variance (ratesOf vs) ∧ variance (ratesOf vs) ≤ 2116000000000000 := by
  refine ⟨variance_nonneg _, ?_⟩
  have hle := variance_le h.mem_rates
  norm_num at hle ⊢
  exact hle

/-- The rates in Mbps. -/
def megabits (vs : List UInt32) : List ℕ := vs.map fun v => v.toNat / 1000

theorem Cells.rate_eq (h : Cells vs) {v : UInt32} (hv : v ∈ vs) :
    (v.toNat : ℝ) = 1000 * ((v.toNat / 1000 : ℕ) : ℝ) := by
  obtain ⟨k, hk⟩ := h.whole v hv
  rw [hk, Nat.mul_div_cancel_left k (by decide), Nat.cast_mul]
  norm_num

theorem Cells.sum_eq (h : Cells vs) : (ratesOf vs).sum = 1000 * ((megabits vs).sum : ℝ) := by
  have hmap : ratesOf vs = vs.map fun v => 1000 * ((v.toNat / 1000 : ℕ) : ℝ) :=
    List.map_congr_left fun v hv => h.rate_eq hv
  rw [hmap, List.sum_map_mul_left, megabits, Nat.cast_list_sum, List.map_map]
  rfl

theorem Cells.sq_length_mul (h : Cells vs) :
    ((vs.length ^ 2 : ℕ) : ℝ) * scaledVariance vs = (spread (megabits vs) : ℝ) := by
  have hsquares : ((ratesOf vs).map fun x => x ^ 2).sum =
      10 ^ 6 * ((((megabits vs).map fun k => k ^ 2).sum : ℕ) : ℝ) := by
    have hmap : (ratesOf vs).map (fun x => x ^ 2) =
        vs.map fun v => 10 ^ 6 * (((v.toNat / 1000) ^ 2 : ℕ) : ℝ) := by
      rw [ratesOf, List.map_map]
      refine List.map_congr_left fun v hv => ?_
      rw [Function.comp_apply, h.rate_eq hv, Nat.cast_pow]
      ring
    rw [hmap, List.sum_map_mul_left, megabits, Nat.cast_list_sum, List.map_map, List.map_map]
    rfl
  have hvariance := sq_length_mul_variance (ratesOf vs)
  rw [h.sum_eq, hsquares, ratesOf, List.length_map, ← ratesOf] at hvariance
  rw [scaledVariance, spread, show (megabits vs).length = vs.length from List.length_map _]
  generalize ((megabits vs).map fun k => k ^ 2).sum = Q at hvariance ⊢
  generalize (megabits vs).sum = K at hvariance ⊢
  push_cast
  linarith

/-- A number whose square `n` divides is a multiple of `n / 2`. -/
theorem dvd_two_mul_of_dvd_sq {n K : ℕ} (hn : n ≤ 8) (hpos : 0 < n) (h : n ∣ K ^ 2) : n ∣ 2 * K := by
  have hfinite : ∀ n ∈ List.range' 1 8, ∀ r ∈ List.range n, r * r % n = 0 → 2 * r % n = 0 := by decide
  have hr := Nat.mod_lt K hpos
  have hsq : K % n * (K % n) % n = 0 := by
    rw [← Nat.mul_mod, ← sq]
    exact Nat.mod_eq_zero_of_dvd h
  have htwice := hfinite n (List.mem_range'_1.mpr ⟨hpos, by omega⟩) (K % n) (List.mem_range.mpr hr) hsq
  apply Nat.dvd_of_mod_eq_zero
  rw [Nat.mul_mod, Nat.mul_mod] at htwice
  rw [Nat.mul_mod]
  simpa using htwice

/-- The mean is then a multiple of 500 kbps. -/
theorem Cells.mean_of_whole (h : Cells vs) (hwhole : Whole vs) :
    ∃ J : ℤ, mean (ratesOf vs) = 500 * J := by
  obtain ⟨W, hW⟩ := hwhole
  have hpos := h.pos
  have hsq : vs.length ∣ (megabits vs).sum ^ 2 := by
    have heq := h.sq_length_mul
    rw [hW, spread, show (megabits vs).length = vs.length from List.length_map _] at heq
    generalize ((megabits vs).map fun k => k ^ 2).sum = Q at heq
    generalize (megabits vs).sum = K at heq ⊢
    have hint : (vs.length : ℤ) ^ 2 * W = vs.length * Q - (K : ℤ) ^ 2 := by exact_mod_cast heq
    have hdvd : (vs.length : ℤ) ∣ (K : ℤ) ^ 2 := by
      refine ⟨Q - vs.length * W, ?_⟩
      linear_combination hint
    exact_mod_cast hdvd
  obtain ⟨J, hJ⟩ := dvd_two_mul_of_dvd_sq h.few hpos hsq
  refine ⟨J, ?_⟩
  have hlength : (0 : ℝ) < vs.length := Nat.cast_pos.mpr hpos
  rw [mean, h.sum_eq, ratesOf, List.length_map, div_eq_iff hlength.ne', Int.cast_natCast]
  generalize (megabits vs).sum = K at hJ ⊢
  have hJ' : 2 * (K : ℝ) = vs.length * J := by exact_mod_cast hJ
  linarith

/-- Every rate is then a multiple of 500 kbps from the mean. -/
theorem Cells.sub_of_whole (h : Cells vs) (hwhole : Whole vs) {v : UInt32} (hv : v ∈ vs) :
    ∃ j : ℤ, |j| ≤ 184000 ∧ (v.toNat : ℝ) - mean (ratesOf vs) = 500 * j := by
  obtain ⟨J, hJ⟩ := h.mean_of_whole hwhole
  have hdiff : (v.toNat : ℝ) - mean (ratesOf vs) =
      500 * ((2 * ((v.toNat / 1000 : ℕ) : ℤ) - J : ℤ) : ℝ) := by
    rw [hJ, h.rate_eq hv]
    generalize v.toNat / 1000 = k
    push_cast
    ring
  refine ⟨_, ?_, hdiff⟩
  have hbound := h.abs_sub_mean hv
  rw [hdiff, abs_mul, show |(500 : ℝ)| = 500 by norm_num] at hbound
  have hscaled : |((2 * ((v.toNat / 1000 : ℕ) : ℤ) - J : ℤ) : ℝ)| ≤ 184000 := by linarith
  exact_mod_cast hscaled

/-- A partial sum of the squares then fits 53 bits. -/
theorem Cells.sum_of_whole (h : Cells vs) (hwhole : Whole vs) {us : List UInt32}
    (hsub : ∀ u ∈ us, u ∈ vs) :
    ∃ N : ℤ, 0 ≤ N ∧ N ≤ 33856000000 * us.length ∧
      (us.map fun u => ((u.toNat : ℝ) - mean (ratesOf vs)) ^ 2).sum = ((15625 * N : ℤ) : ℝ) * 2 ^ 4 := by
  induction us with
  | nil => exact ⟨0, le_refl 0, by simp, by simp⟩
  | cons u us ih =>
    obtain ⟨N, hN0, hN, hsum⟩ := ih fun u' hu' => hsub u' (List.mem_cons_of_mem u hu')
    obtain ⟨j, hj, hdiff⟩ := h.sub_of_whole hwhole (hsub u List.mem_cons_self)
    have hsq : j ^ 2 ≤ 33856000000 := by
      rw [abs_le] at hj
      nlinarith
    refine ⟨j ^ 2 + N, by positivity, ?_, ?_⟩
    · rw [List.length_cons]
      push_cast
      linarith
    · rw [List.map_cons, List.sum_cons, hsum, hdiff]
      push_cast
      ring

end Exact

/-! ## Rounded values -/

section Rounded

variable {D : Type} [CDouble D] [RoundedDouble D] {vs : List UInt32} {st : Client D}

theorem Cells.near_mean (h : Cells vs) (hcontents : st.phy.contents = vs) :
    Near (Whole vs) (phyMean st) (mean (ratesOf vs)) (1 / 10 ^ 7) := by
  have hfill : st.phy.fill = vs.length := by rw [← Ring.length_contents, hcontents]
  have hpos := h.pos
  have hlength : (0 : ℝ) < vs.length := Nat.cast_pos.mpr hpos
  have hsum : (((vs.map UInt32.toNat).sum : ℤ) : ℝ) = (ratesOf vs).sum := by
    rw [Int.cast_natCast, Nat.cast_list_sum, List.map_map]
    rfl
  have hsmall : |((vs.map UInt32.toNat).sum : ℤ)| ≤ 2 ^ 53 := by
    have hle : (vs.map UInt32.toNat).sum ≤ (vs.map UInt32.toNat).length • 92000000 := by
      refine List.sum_le_card_nsmul _ _ fun n hn => ?_
      obtain ⟨v, hv, rfl⟩ := List.mem_map.mp hn
      exact h.limit v hv
    rw [List.length_map, smul_eq_mul] at hle
    have hfew := h.few
    rw [Nat.abs_cast]
    generalize (vs.map UInt32.toNat).sum = total at hle ⊢
    norm_num
    omega
  have hmean : mean (ratesOf vs) = (((vs.map UInt32.toNat).sum : ℤ) : ℝ) / (vs.length : ℤ) := by
    rw [hsum, mean, ratesOf, List.length_map, Int.cast_natCast]
  have hmem := h.mean_mem
  have hdiv := (near_ofInt (p := Whole vs) (D := D) hsmall).div
    (RoundedDouble.ofInt (vs.length : ℤ) (by rw [Nat.abs_cast]; have := h.few; norm_num; omega))
    (by exact_mod_cast hlength) (B := 92000000)
    (by rw [← hmean, abs_of_nonneg hmem.1]; exact hmem.2) (by norm_num)
    (by
      intro hwhole
      obtain ⟨J, hJ⟩ := h.mean_of_whole hwhole
      have hJbound : |500 * J| ≤ 2 ^ 53 := by
        have hcast : ((500 * J : ℤ) : ℝ) = mean (ratesOf vs) := by rw [hJ]; push_cast; ring
        have hlow : (0 : ℝ) ≤ ((500 * J : ℤ) : ℝ) := hcast ▸ hmem.1
        have hhigh : ((500 * J : ℤ) : ℝ) ≤ 92000000 := hcast ▸ hmem.2
        have hlow' : 0 ≤ 500 * J := by exact_mod_cast hlow
        have hhigh' : 500 * J ≤ 92000000 := by exact_mod_cast hhigh
        rw [abs_of_nonneg hlow']
        omega
      rw [← hmean, hJ, show (500 : ℝ) * J = ((500 * J : ℤ) : ℝ) by push_cast; ring]
      exact representable_int hJbound)
  rw [← hmean] at hdiv
  have heq : phyMean st = ofInt ((vs.map UInt32.toNat).sum : ℤ) / ofInt (vs.length : ℤ) := by
    rw [phyMean, hfill, if_neg (by omega), hcontents]
  rw [heq]
  exact hdiv.mono (by norm_num)

/-- The square of a rate's distance from the mean, as the loop computes it. -/
theorem Cells.near_square (h : Cells vs) (hcontents : st.phy.contents = vs) {v : UInt32} (hv : v ∈ vs) :
    Near (Whole vs) ((ofInt v.toNat - phyMean st) * (ofInt v.toNat - phyMean st))
      (((v.toNat : ℝ) - mean (ratesOf vs)) ^ 2) 40 := by
  have hrate : v.toNat ≤ 92000000 := h.limit v hv
  have hexact : |((v.toNat : ℕ) : ℤ)| ≤ 2 ^ 53 := by
    rw [Nat.abs_cast]
    norm_num
    omega
  have hint : Near (Whole vs) (ofInt (v.toNat : ℤ) : D) (v.toNat : ℝ) 0 := by
    have hofInt := near_ofInt (p := Whole vs) (D := D) hexact
    rwa [Int.cast_natCast] at hofInt
  have hsub := (hint.sub (h.near_mean hcontents) (h.abs_sub_mean hv) (by norm_num) (by
    intro hwhole
    obtain ⟨j, hj, hdiff⟩ := h.sub_of_whole hwhole hv
    rw [hdiff, show (500 : ℝ) * j = ((500 * j : ℤ) : ℝ) by push_cast; ring]
    refine representable_int ?_
    rw [abs_mul]
    norm_num
    omega)).mono (show _ ≤ (2 : ℝ) / 10 ^ 7 by norm_num)
  refine (hsub.mul_self (h.abs_sub_mean hv) (by norm_num) ?_).mono (by norm_num)
  intro hwhole
  have hsub' : ∀ u ∈ [v], u ∈ vs := by simpa using hv
  obtain ⟨N, hN0, hN, hsum⟩ := h.sum_of_whole hwhole hsub'
  rw [List.map_singleton, List.sum_singleton] at hsum
  rw [hsum]
  refine representable_mul_two_pow ?_ 4
  rw [List.length_singleton] at hN
  rw [abs_of_nonneg (by positivity)]
  norm_num at hN ⊢
  omega

/-- The loop over some of the cells. -/
theorem Cells.near_sum (h : Cells vs) (hcontents : st.phy.contents = vs) {us : List UInt32}
    (hsub : ∀ u ∈ us, u ∈ vs) (hlen : us.length ≤ 8) :
    Near (Whole vs) (us.foldl (fun accum v => accum +
        (ofInt v.toNat - phyMean st) * (ofInt v.toNat - phyMean st)) (ofInt 0))
      (us.map fun u => ((u.toNat : ℝ) - mean (ratesOf vs)) ^ 2).sum (60 * us.length) := by
  induction us using List.reverseRecOn with
  | nil =>
    have hzero := near_ofInt (p := Whole vs) (D := D) (n := 0) (by norm_num)
    simpa using hzero
  | append_singleton us u ih =>
    have hmem := fun u' hu' => hsub u' (List.mem_append_left [u] hu')
    rw [List.length_append, List.length_singleton] at hlen
    have hlen' : (us.length : ℝ) ≤ 7 := by exact_mod_cast (by omega : us.length ≤ 7)
    have hlen0 : (0 : ℝ) ≤ us.length := Nat.cast_nonneg _
    have hsum : (us.map fun u => ((u.toNat : ℝ) - mean (ratesOf vs)) ^ 2).sum +
        ((u.toNat : ℝ) - mean (ratesOf vs)) ^ 2 =
          ((us ++ [u]).map fun u => ((u.toNat : ℝ) - mean (ratesOf vs)) ^ 2).sum := by simp
    rw [List.foldl_append, ← hsum]
    refine ((ih hmem (by omega)).add (B := 8 * 92000000 ^ 2)
      (h.near_square hcontents (hsub u (by simp))) ?_ ?_ ?_).mono ?_
    · have hall : ((us ++ [u]).map fun u => ((u.toNat : ℝ) - mean (ratesOf vs)) ^ 2).sum ≤
          ((us ++ [u]).map fun u => ((u.toNat : ℝ) - mean (ratesOf vs)) ^ 2).length •
            (92000000 : ℝ) ^ 2 := by
        refine List.sum_le_card_nsmul _ _ fun x hx => ?_
        obtain ⟨u', hu', rfl⟩ := List.mem_map.mp hx
        rw [← sq_abs]
        have hle := h.abs_sub_mean (hsub u' hu')
        gcongr
      have hnonneg : 0 ≤ ((us ++ [u]).map fun u => ((u.toNat : ℝ) - mean (ratesOf vs)) ^ 2).sum := by
        refine List.sum_nonneg fun x hx => ?_
        obtain ⟨u', _, rfl⟩ := List.mem_map.mp hx
        positivity
      rw [hsum, abs_of_nonneg hnonneg]
      refine hall.trans ?_
      rw [List.length_map, List.length_append, List.length_singleton, nsmul_eq_mul]
      push_cast
      gcongr
      linarith
    · linarith [show (8 : ℝ) * 92000000 ^ 2 + 460 ≤ 2 ^ 200 by norm_num]
    · intro hwhole
      obtain ⟨N, hN0, hN, hexact⟩ := h.sum_of_whole hwhole hsub
      rw [hsum, hexact]
      refine representable_mul_two_pow ?_ 4
      rw [List.length_append, List.length_singleton] at hN
      rw [abs_of_nonneg (by positivity)]
      have hN' : N ≤ 33856000000 * 8 := hN.trans (by gcongr; exact_mod_cast hlen)
      norm_num at hN' ⊢
      omega
    · rw [List.length_append, List.length_singleton]
      push_cast
      linarith

/-- What is converted to `int32_t`. -/
theorem Cells.near_variance (h : Cells vs) (hcontents : st.phy.contents = vs) :
    Near (Whole vs) (vs.foldl (fun accum v => accum +
        (ofInt v.toNat - phyMean st) * (ofInt v.toNat - phyMean st)) (ofInt 0) /
          ofInt st.phy.fill / ofInt 1000000) (scaledVariance vs) (1 / 1000) := by
  have hfill : st.phy.fill = vs.length := by rw [← Ring.length_contents, hcontents]
  have hlength : (0 : ℝ) < vs.length := Nat.cast_pos.mpr h.pos
  have hvariance : variance (ratesOf vs) =
      (vs.map fun u => ((u.toNat : ℝ) - mean (ratesOf vs)) ^ 2).sum / ((vs.length : ℤ) : ℝ) := by
    rw [variance, ratesOf, List.length_map, List.map_map, Int.cast_natCast]
    rfl
  have hmem := h.variance_mem
  have hwholeVariance : ∀ W : ℤ, scaledVariance vs = W → |W * 1000000| ≤ 2 ^ 53 ∧ |W| ≤ 2 ^ 53 := by
    intro W hW
    have hscaled : variance (ratesOf vs) = ((W * 1000000 : ℤ) : ℝ) := by
      rw [scaledVariance, div_eq_iff (by norm_num)] at hW
      rw [hW, Int.cast_mul]
    rw [hscaled] at hmem
    obtain ⟨hlow, hhigh⟩ := hmem
    have hlow' : 0 ≤ W * 1000000 := by exact_mod_cast hlow
    have hhigh' : W * 1000000 ≤ 2116000000000000 := by exact_mod_cast hhigh
    rw [abs_of_nonneg hlow', abs_of_nonneg (by omega)]
    constructor <;> omega
  have hfirst := ((h.near_sum hcontents (fun u (hu : u ∈ vs) => hu) h.few).div
    (RoundedDouble.ofInt (vs.length : ℤ) (by rw [Nat.abs_cast]; have := h.few; norm_num; omega))
    (by exact_mod_cast hlength) (B := 2116000000000000)
    (by rw [← hvariance, abs_of_nonneg hmem.1]; exact hmem.2)
    (by rw [Int.cast_natCast, mul_div_assoc, div_self hlength.ne']; norm_num)
    (by
      intro hwhole
      obtain ⟨W, hW⟩ := hwhole
      rw [← hvariance, show variance (ratesOf vs) = ((W * 1000000 : ℤ) : ℝ) by
        rw [scaledVariance, div_eq_iff (by norm_num)] at hW
        rw [hW, Int.cast_mul]]
      exact representable_int (hwholeVariance W hW).1)).mono (show _ ≤ (61 : ℝ) by
        rw [Int.cast_natCast, mul_div_assoc, div_self hlength.ne']; norm_num)
  rw [← hvariance] at hfirst
  have hmillion : RoundedDouble.Reads (ofInt 1000000 : D) ((1000000 : ℤ) : ℝ) :=
    RoundedDouble.ofInt 1000000 (by norm_num)
  have hscaled : scaledVariance vs = variance (ratesOf vs) / ((1000000 : ℤ) : ℝ) := rfl
  have hsecond := hfirst.div hmillion (by norm_num) (B := 2116000000)
    (by
      rw [abs_of_nonneg (div_nonneg hmem.1 (by norm_num)), div_le_iff₀ (by norm_num)]
      push_cast
      linarith [hmem.2])
    (by norm_num)
    (by
      rintro ⟨W, hW⟩
      rw [← hscaled, hW]
      exact representable_int (hwholeVariance W hW).2)
  rw [← hscaled] at hsecond
  rw [hfill]
  exact hsecond.mono (by norm_num)

/-- The conversion of the rounded variance drops the same fraction. -/
theorem Cells.trunc_eq (h : Cells vs) (hcontents : st.phy.contents = vs) :
    phyVarianceMbps st = ⌊scaledVariance vs⌋ := by
  obtain ⟨r, hreads, hnear, hexact⟩ := h.near_variance hcontents
  have hpos := h.pos
  have hlength : (vs.length : ℝ) ≤ 8 := by exact_mod_cast h.few
  have hmem := h.variance_mem
  have hlow : 0 ≤ scaledVariance vs := div_nonneg hmem.1 (by norm_num)
  have hhigh : scaledVariance vs ≤ 2116000000 := by
    rw [scaledVariance, div_le_iff₀ (by norm_num), Int.cast_ofNat]
    linarith [hmem.2]
  have hsq : ((vs.length ^ 2 : ℕ) : ℝ) ≤ 64 := by
    push_cast
    nlinarith [(Nat.cast_nonneg vs.length : (0 : ℝ) ≤ vs.length)]
  have hfloor : ⌊r⌋ = ⌊scaledVariance vs⌋ := by
    refine floor_eq_of_near (pow_pos hpos 2) h.sq_length_mul ?_ hexact
    calc ((vs.length ^ 2 : ℕ) : ℝ) * |r - scaledVariance vs| ≤ 64 * (1 / 1000) := by gcongr
      _ < 1 := by norm_num
  have hr0 : 0 ≤ r := by
    have hfloor0 : 0 ≤ ⌊r⌋ := by
      rw [hfloor]
      exact Int.floor_nonneg.mpr hlow
    exact Int.floor_nonneg.mp hfloor0
  have hr1 : r < 2 ^ 63 := by
    have hclose := (abs_le.mp hnear).2
    norm_num
    linarith
  have htrunc := RoundedDouble.trunc hreads hr0 hr1
  rw [hfloor] at htrunc
  rw [← htrunc, phyVarianceMbps, hcontents]

end Rounded

/-! ## The instability -/

/-- In rounded doubles, too, the instability of whole rates is the variance without
its fraction. -/
theorem instabilityOf_eq (D : Type) [CDouble D] [RoundedDouble D] {rs : List ConnMetric.Record}
    (h : WholeRates rs) : instabilityOf D rs = Int32.ofInt (rateVariance rs) := by
  have hring : Ring.Represents ((rs.map ConnMetric.Record.phyRateKbps).foldl Ring.push
      (Ring.empty 0 : Ring UInt32 phyWindow)) (rs.map ConnMetric.Record.phyRateKbps) :=
    Ring.represents_foldl _ _
  have hfill := hring.fill_eq
  have hperm := Ring.contents_perm hring
  have hwindow : phyWindow = 8 := rfl
  rw [List.length_map] at hfill
  rw [instabilityOf, phyInstability, rateVariance]
  generalize (rs.map ConnMetric.Record.phyRateKbps).foldl Ring.push
    (Ring.empty 0 : Ring UInt32 phyWindow) = ring
    at hring hfill hperm ⊢
  dsimp only
  by_cases hshort : rs.length < 2
  · rw [if_pos (by omega), if_pos hshort]
    rfl
  · have hcells : Cells ring.contents := by
      have hmem : ∀ v ∈ ring.contents, 1000 ∣ v.toNat ∧ v.toNat ≤ rateLimit := by
        intro v hv
        obtain ⟨r, hr, rfl⟩ := List.mem_map.mp (List.mem_of_mem_drop (hperm.mem_iff.mp hv))
        exact h r hr
      have hlength := Ring.length_contents ring
      refine ⟨?_, by omega, fun v hv => (hmem v hv).1, fun v hv => (hmem v hv).2⟩
      rw [← List.length_pos_iff]
      omega
    have hmillion : ((1000000 : ℤ) : ℝ) = 10 ^ 6 := by norm_num
    rw [if_neg (by omega), if_neg hshort, hcells.trunc_eq rfl, scaledVariance, ratesOf,
      variance_perm (hperm.map _), hmillion]
    rfl

end

end Wei.Infer
