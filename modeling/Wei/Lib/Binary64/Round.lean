import Mathlib
import Wei.Lib.Rounding

/-!
# Rounding in binary64

The definitions of `Float` keep a mantissa with a round and a sticky bit while they cut
a value to 53 bits. What these bits say of the exact value, the grid on which a value
is rounded, and that a rounded value is canonical and keeps the law of `Rounds`.
-/
namespace Wei.Lib.Binary64

open Float.Model Float.Model.UnpackedFloat

/-- What the residual bits say of the part of a value below the mantissa's last bit. -/
def Rests : Accuracy → ℝ → Prop
  | .exact, t => t = 0
  | .inexact .lt, t => 0 < t ∧ t < 1 / 2
  | .inexact .eq, t => t = 1 / 2
  | .inexact .gt, t => 1 / 2 < t ∧ t < 1

/-- The mantissa, with its residual bits, of the value `x`. -/
def Extends (em : ExtendedMantissa) (x : ℝ) : Prop := Rests em.accuracy (x - em.mantissa)

variable {em : ExtendedMantissa} {acc : Accuracy} {x t : ℝ}

theorem Rests.mem (h : Rests acc t) : 0 ≤ t ∧ t < 1 := by
  rcases acc with _ | ⟨_ | _ | _⟩ <;> simp only [Rests] at h <;> constructor <;> linarith

theorem Rests.extends (h : Rests acc t) (m : ℕ) :
    Extends (ExtendedMantissa.ofMantissaAndAccuracy m acc) (m + t) := by
  rcases acc with _ | ⟨_ | _ | _⟩ <;>
    simpa [Extends, ExtendedMantissa.ofMantissaAndAccuracy, ExtendedMantissa.accuracy] using h

theorem Extends.shiftRightOne (h : Extends em x) : Extends em.shiftRightOne (x / 2) := by
  obtain ⟨m, round, sticky⟩ := em
  have hm : (m : ℝ) = 2 * (m / 2 : ℕ) + (m % 2 : ℕ) := by exact_mod_cast (Nat.div_add_mod m 2).symm
  rcases Nat.mod_two_eq_zero_or_one m with hbit | hbit <;> rw [hbit] at hm <;>
    cases round <;> cases sticky <;>
    simp [Extends, Rests, ExtendedMantissa.accuracy, ExtendedMantissa.shiftRightOne, hbit] at h hm ⊢
  all_goals first | linarith | constructor <;> linarith

theorem Extends.shiftRight (h : Extends em x) (n : ℕ) : Extends (em >>> n) (x / 2 ^ n) := by
  induction n with
  | zero =>
    rw [pow_zero, div_one]
    exact h
  | succ n ih =>
    rw [pow_succ, ← div_div]
    exact ih.shiftRightOne

theorem Extends.near (h : Extends em x) : |(em.roundedMantissa : ℝ) - x| ≤ 1 / 2 := by
  obtain ⟨m, round, sticky⟩ := em
  rw [abs_le]
  cases round <;> cases sticky <;>
    simp only [Extends, Rests, ExtendedMantissa.accuracy, ExtendedMantissa.roundedMantissa,
      Accuracy.roundToNearestEven] at h ⊢
  · constructor <;> linarith
  · constructor <;> linarith
  · have hbit : ((m % 2 : ℕ) : ℝ) = 0 ∨ ((m % 2 : ℕ) : ℝ) = 1 := by
      exact_mod_cast Nat.mod_two_eq_zero_or_one m
    push_cast
    rcases hbit with hbit | hbit <;> rw [hbit] <;> constructor <;> linarith
  · push_cast
    constructor <;> linarith

theorem Extends.floor (h : Extends em x) : ⌊x⌋ = em.mantissa := by
  have hmem := Rests.mem h
  rw [Int.floor_eq_iff]
  push_cast
  constructor <;> linarith

theorem Extends.exact (h : Extends em x) (hint : ∃ k : ℤ, x = k) : (em.roundedMantissa : ℝ) = x := by
  obtain ⟨k, hk⟩ := hint
  have hnear := h.near
  rw [hk, abs_le] at hnear
  rw [hk]
  have hlow : k < em.roundedMantissa + 1 := by
    have : (k : ℝ) < em.roundedMantissa + 1 := by linarith
    exact_mod_cast this
  have hhigh : (em.roundedMantissa : ℤ) < k + 1 := by
    have : (em.roundedMantissa : ℝ) < k + 1 := by linarith
    exact_mod_cast this
  have heq : (em.roundedMantissa : ℤ) = k := by omega
  exact_mod_cast heq

/-! ## The grid of a value -/

/-- The exponent of the last bit, after rounding, of a value that starts like this. -/
def grid (m : ℕ) (e : ℤ) : ℤ := Format.binary64.targetExponent (totalExponent m e)

theorem grid_eq (m : ℕ) (e : ℤ) : grid m e = max (m.log2 + e - 52) (-1074) := by
  have hbits : (Format.binary64.mantissaBits : ℤ) = 53 := by decide
  have hmin : Format.binary64.minExponent = -1074 := by decide
  rw [grid, Format.targetExponent, totalExponent, hbits, hmin]
  congr 1
  omega

variable {m : ℕ} {e : ℤ} {v : ℝ}

/-- A value that starts like this has at most 53 bits above its grid, and all of them
unless it is close to zero. -/
theorem grid_bounds (ht : 0 ≤ t ∧ t < 1) (hle : e ≤ grid m e) (hv : v = (m + t) * 2 ^ e) :
    v < 2 ^ (grid m e + 53) ∧ (grid m e = -1074 ∨ (2 : ℝ) ^ (grid m e + 52) ≤ v) := by
  have hgrid := grid_eq m e
  have hpos : (0 : ℝ) < 2 ^ e := by positivity
  constructor
  · have hlog : ((m + 1 : ℕ) : ℝ) ≤ 2 ^ ((m.log2 + 1 : ℕ) : ℤ) := by
      rw [zpow_natCast]
      exact_mod_cast Nat.lt_log2_self
    push_cast at hlog
    calc v < (m + 1) * 2 ^ e := by rw [hv]; gcongr; exact ht.2
      _ ≤ 2 ^ ((m.log2 : ℤ) + 1) * 2 ^ e := by gcongr
      _ = 2 ^ ((m.log2 : ℤ) + 1 + e) := (zpow_add₀ two_ne_zero _ _).symm
      _ ≤ 2 ^ (grid m e + 53) := zpow_le_zpow_right₀ one_le_two (by omega)
  · by_cases hzero : m = 0
    · subst hzero
      left
      rw [Nat.log2_zero] at hgrid
      omega
    · by_cases hlow : grid m e = -1074
      · exact .inl hlow
      · right
        have hlog : (2 : ℝ) ^ (m.log2 : ℤ) ≤ m := by
          rw [zpow_natCast]
          exact_mod_cast Nat.log2_self_le hzero
        calc (2 : ℝ) ^ (grid m e + 52) = 2 ^ (m.log2 : ℤ) * 2 ^ e := by
              rw [← zpow_add₀ two_ne_zero]
              congr 1
              omega
          _ ≤ (m + t) * 2 ^ e := by gcongr; linarith [ht.1]
          _ = v := hv.symm

/-- Half a step of the grid is within the error that rounding may make. -/
theorem half_grid_le {g : ℤ} (hv : 0 ≤ v) (hfull : g = -1074 ∨ (2 : ℝ) ^ (g + 52) ≤ v) :
    (2 : ℝ) ^ g / 2 ≤ v / 2 ^ 52 + 1 / 2 ^ 1074 := by
  have hleast : (0 : ℝ) < 1 / 2 ^ 1074 := by positivity
  rcases hfull with hfull | hfull
  · have htiny : (2 : ℝ) ^ (-1074 : ℤ) = 1 / 2 ^ 1074 := by
      rw [zpow_neg, one_div]
      norm_cast
    rw [hfull, htiny]
    generalize (1 : ℝ) / 2 ^ 1074 = least at hleast ⊢
    linarith [div_nonneg hv (pow_nonneg zero_le_two 52)]
  · have hscaled : (2 : ℝ) ^ g ≤ v / 2 ^ 52 := by
      rw [le_div_iff₀ (by positivity), ← zpow_natCast, ← zpow_add₀ two_ne_zero]
      exact hfull
    generalize (1 : ℝ) / 2 ^ 1074 = least at hleast ⊢
    linarith

/-- On its grid a representable value is an integer. -/
theorem on_grid_of_representable (ht : 0 ≤ t ∧ t < 1) (hle : e ≤ grid m e)
    (hv : v = (m + t) * 2 ^ e) (hrep : Representable v) : ∃ k : ℤ, v / 2 ^ grid m e = k := by
  obtain ⟨n, k, hn, hk, hnk⟩ := hrep
  obtain ⟨-, hlow⟩ := grid_bounds ht hle hv
  by_cases hgrid : grid m e ≤ k
  · refine ⟨n * 2 ^ (k - grid m e).toNat, ?_⟩
    rw [hnk, mul_div_assoc, ← zpow_sub₀ two_ne_zero]
    push_cast
    rw [← zpow_natCast, Int.toNat_of_nonneg (by omega)]
  · -- the value then needs 54 bits, so it is a power of two
    have hhigh : (2 : ℝ) ^ (grid m e + 52) ≤ v := hlow.resolve_left (by omega)
    have hn' : (n : ℝ) ≤ 2 ^ (53 : ℤ) := by
      have := (abs_le.mp hn).2
      norm_num
      exact_mod_cast this
    have hbits : (2 : ℝ) ^ (grid m e + 52) ≤ 2 ^ (53 + k) := by
      rw [zpow_add₀ two_ne_zero 53 k]
      calc (2 : ℝ) ^ (grid m e + 52) ≤ n * 2 ^ k := hnk ▸ hhigh
        _ ≤ 2 ^ (53 : ℤ) * 2 ^ k := by gcongr
    have hexp := (zpow_le_zpow_iff_right₀ one_lt_two).mp hbits
    have hnext : grid m e = k + 1 := by omega
    refine ⟨2 ^ 52, ?_⟩
    have heq : v = 2 ^ (53 + k) := by
      refine le_antisymm ?_ ?_
      · rw [hnk, zpow_add₀ two_ne_zero 53 k]
        gcongr
      · calc (2 : ℝ) ^ (53 + k) = 2 ^ (grid m e + 52) := by congr 1; omega
          _ ≤ v := hhigh
    rw [heq, hnext, ← zpow_sub₀ two_ne_zero, show 53 + k - (k + 1) = (52 : ℕ) by omega, zpow_natCast]
    norm_num

/-! ## Results -/

def signed : Sign → ℝ → ℝ
  | .negative, x => -x
  | .positive, x => x

/-- The number is canonical in the format, and this one. -/
inductive Means : UnpackedFloat → ℝ → Prop
  | zero (s : Sign) : Means (.zero s) 0
  | finite (s : Sign) (m : ℕ) (e : ℤ) (hpos : 0 < m) (hlt : m < 2 ^ 53) (hlow : -1074 ≤ e)
      (hhigh : e ≤ 971) (hfull : m < 2 ^ 52 → e = -1074) :
      Means (.finite s m e hpos) (signed s (m * 2 ^ e))

theorem shiftToTarget_eq (m : ℕ) (e : ℤ) (acc : Accuracy) :
    shiftToTargetExponent Format.binary64 m e acc =
      (ExtendedMantissa.ofMantissaAndAccuracy m acc >>> (grid m e - e).toNat,
        e + ((grid m e - e).toNat : ℤ)) := rfl

theorem shift_extends (hacc : Rests acc t) (hle : e ≤ grid m e) (hv : v = (m + t) * 2 ^ e) :
    ∃ em, shiftToTargetExponent Format.binary64 m e acc = (em, grid m e) ∧
      Extends em (v / 2 ^ grid m e) := by
  have hshift := (hacc.extends m).shiftRight (grid m e - e).toNat
  refine ⟨_, Prod.ext rfl (show e + ((grid m e - e).toNat : ℤ) = grid m e by omega), ?_⟩
  have hpow : (2 : ℝ) ^ grid m e = 2 ^ e * 2 ^ (grid m e - e).toNat := by
    rw [← zpow_natCast, ← zpow_add₀ two_ne_zero]
    congr 1
    omega
  have hne : (2 : ℝ) ^ e ≠ 0 := by positivity
  rw [hv, hpow, mul_comm _ ((2 : ℝ) ^ e), mul_div_mul_left _ _ hne]
  exact hshift

theorem shiftToTarget_of_le (h : grid m e ≤ e) : shiftToTargetExponent Format.binary64 m e acc =
    (ExtendedMantissa.ofMantissaAndAccuracy m acc, e) := by
  rw [shiftToTarget_eq, Int.toNat_of_nonpos (Int.sub_nonpos_of_le h), Int.natCast_zero, add_zero]
  rfl

theorem shiftToTarget_of_succ (h : grid m e = e + 1) : shiftToTargetExponent Format.binary64 m e acc =
    ((ExtendedMantissa.ofMantissaAndAccuracy m acc).shiftRightOne, e + 1) := by
  rw [shiftToTarget_eq, h, add_sub_cancel_left]
  rfl

theorem roundWithAccuracy_eq {em' : ExtendedMantissa} {g g' : ℤ} {s : Sign} {r : ℕ}
    (hfirst : shiftToTargetExponent Format.binary64 m e acc = (em, g))
    (hsecond : shiftToTargetExponent Format.binary64 em.roundedMantissa g .exact = (em', g'))
    (hr : em'.mantissa = r) : roundWithAccuracy Format.binary64 s m e acc =
      if h : r = 0 then .zero s else .finite s r g' (Nat.pos_of_ne_zero h) := by
  subst hr
  rw [roundWithAccuracy, hfirst]
  dsimp only
  rw [hsecond]

/-- A mantissa that rounding has carried to 54 bits is cut once more. -/
theorem means_of_rounded {g : ℤ} {s : Sign}
    (hfirst : shiftToTargetExponent Format.binary64 m e acc = (em, g))
    (hr : em.roundedMantissa ≤ 2 ^ 53) (hlow : -1074 ≤ g) (hhigh : g ≤ 970)
    (hfull : g = -1074 ∨ 2 ^ 52 ≤ em.roundedMantissa) :
    Means (roundWithAccuracy Format.binary64 s m e acc)
      (signed s (em.roundedMantissa * 2 ^ g)) := by
  have hgrid := grid_eq em.roundedMantissa g
  rcases Nat.lt_or_eq_of_le hr with hlt | heq
  · have hlog : em.roundedMantissa.log2 ≤ 52 := by
      rcases Nat.eq_zero_or_pos em.roundedMantissa with h0 | hpos
      · simp [h0]
      · exact Nat.le_of_lt_succ ((Nat.log2_lt hpos.ne').mpr hlt)
    rw [roundWithAccuracy_eq (r := em.roundedMantissa) hfirst (shiftToTarget_of_le (by omega)) rfl]
    by_cases hzero : em.roundedMantissa = 0
    · have h0 : signed s ((em.roundedMantissa : ℝ) * 2 ^ g) = 0 := by
        cases s <;> simp [signed, hzero]
      rw [dif_pos hzero, h0]
      exact .zero s
    · rw [dif_neg hzero]
      exact .finite s em.roundedMantissa g _ hlt hlow (by omega) (by omega)
  · have hlog : em.roundedMantissa.log2 = 53 := by
      rw [heq]
      decide
    have hvalue : (em.roundedMantissa : ℝ) * 2 ^ g = (2 ^ 52 : ℕ) * 2 ^ (g + 1) := by
      rw [heq, zpow_add_one₀ two_ne_zero]
      push_cast
      ring
    have hhalf : (ExtendedMantissa.ofMantissaAndAccuracy em.roundedMantissa .exact).shiftRightOne.mantissa =
        2 ^ 52 := by
      rw [heq]
      rfl
    rw [roundWithAccuracy_eq hfirst (shiftToTarget_of_succ (by omega)) hhalf, hvalue,
      dif_neg (by decide)]
    exact .finite s (2 ^ 52) (g + 1) _ (by decide) (by omega) (by omega) (by simp)

theorem signed_abs (s : Sign) (x : ℝ) : |signed s x| = |x| := by
  cases s with
  | negative => exact abs_neg x
  | positive => rfl

theorem rounds_signed {r : ℝ} (s : Sign) (h : Rounds v r) : Rounds (signed s v) (signed s r) := by
  cases s with
  | negative => exact h.neg
  | positive => exact h

/-- Rounding a value that has enough bits. -/
theorem rounds_means (s : Sign) (hacc : Rests acc t) (hle : e ≤ grid m e) (hv : v = (m + t) * 2 ^ e)
    (hlimit : v ≤ 2 ^ 1000) :
    ∃ r, Rounds v r ∧ Means (roundWithAccuracy Format.binary64 s m e acc) (signed s r) := by
  obtain ⟨em, hfirst, hem⟩ := shift_extends hacc hle hv
  obtain ⟨hbits, hfull⟩ := grid_bounds hacc.mem hle hv
  have hlow : -1074 ≤ grid m e := by
    rw [grid_eq]
    omega
  have hpos : (0 : ℝ) < 2 ^ grid m e := by positivity
  have hv0 : 0 ≤ v := by
    rw [hv]
    have ht := hacc.mem.1
    positivity
  have hnear := hem.near
  have hmantissa : v / 2 ^ grid m e < 2 ^ 53 := by
    rw [div_lt_iff₀ hpos, ← zpow_natCast, ← zpow_add₀ two_ne_zero, add_comm]
    exact hbits
  refine ⟨em.roundedMantissa * 2 ^ grid m e, ⟨?_, fun hrep => ?_⟩,
    means_of_rounded hfirst ?_ hlow ?_ ?_⟩
  · have hhalf : |(em.roundedMantissa : ℝ) * 2 ^ grid m e - v| ≤ 2 ^ grid m e / 2 := by
      calc |(em.roundedMantissa : ℝ) * 2 ^ grid m e - v|
          = |(em.roundedMantissa : ℝ) - v / 2 ^ grid m e| * 2 ^ grid m e := by
            rw [← abs_of_pos hpos, ← abs_mul, sub_mul, abs_of_pos hpos, div_mul_cancel₀ v hpos.ne']
        _ ≤ 1 / 2 * 2 ^ grid m e := by gcongr
        _ = 2 ^ grid m e / 2 := by ring
    rw [abs_of_nonneg hv0]
    exact hhalf.trans (half_grid_le hv0 hfull)
  · rw [hem.exact (on_grid_of_representable hacc.mem hle hv hrep)]
    exact div_mul_cancel₀ v hpos.ne'
  · have hlt : (em.roundedMantissa : ℝ) < 2 ^ 53 + 1 := by linarith [(abs_le.mp hnear).2]
    exact Nat.le_of_lt_succ (by exact_mod_cast hlt)
  · rcases hfull with hfull | hfull
    · omega
    · have hexp : (2 : ℝ) ^ (grid m e + 52) ≤ 2 ^ (1000 : ℤ) := hfull.trans (by exact_mod_cast hlimit)
      have := (zpow_le_zpow_iff_right₀ one_lt_two).mp hexp
      omega
  · refine hfull.imp_right fun hfull => ?_
    have hlow : (2 : ℝ) ^ 52 ≤ v / 2 ^ grid m e := by
      rw [le_div_iff₀ hpos, ← zpow_natCast, ← zpow_add₀ two_ne_zero, add_comm]
      exact hfull
    have hlt : ((2 ^ 52 : ℕ) : ℝ) < em.roundedMantissa + 1 := by
      push_cast
      linarith [(abs_le.mp hnear).1]
    exact Nat.le_of_lt_succ (by exact_mod_cast hlt)

theorem rounds_exact (s : Sign) (hle : e ≤ grid m e) (hlimit : (m : ℝ) * 2 ^ e ≤ 2 ^ 1000) :
    ∃ r, Rounds (m * 2 ^ e) r ∧
      Means (roundWithAccuracy Format.binary64 s m e .exact) (signed s r) :=
  rounds_means s (show Rests .exact 0 from rfl) hle (by rw [add_zero]) hlimit

end Wei.Lib.Binary64
