import Mathlib.Analysis.Real.Sqrt
import Mathlib.Tactic.LinearCombination

/-!
# Percentages whose divisor wraps

`percent part whole` is a share in percent, 0 of nothing. `wrapped M rest part`
is the share of `part` in `rest + part` when that sum is only known modulo `M`,
both summands below `M`: it is the true share as long as the sum fits, 0 when
the sum is `M` itself, and more than 100 beyond.
-/
namespace Wei.Lib.Percent

noncomputable section

def percent (part whole : ℕ) : ℝ := if whole = 0 then 0 else 100 * part / whole

def wrapped (M rest part : ℕ) : ℝ := percent part ((rest + part) % M)

theorem percent_zero (whole : ℕ) : percent 0 whole = 0 := by
  simp [percent]

theorem percent_nonneg (part whole : ℕ) : 0 ≤ percent part whole := by
  unfold percent
  split
  · exact le_refl 0
  · positivity

theorem percent_of_pos {whole : ℕ} (h : 0 < whole) (part : ℕ) :
    percent part whole = 100 * part / whole := if_neg h.ne'

theorem percent_pos {part whole : ℕ} (hpart : 0 < part) (hwhole : 0 < whole) :
    0 < percent part whole := by
  rw [percent_of_pos hwhole]
  positivity

theorem percent_le {part whole : ℕ} (h : part ≤ whole) : percent part whole ≤ 100 := by
  unfold percent
  split
  · norm_num
  · have hwhole : (0 : ℝ) < whole := by
      rw [Nat.cast_pos]
      omega
    have hpart : (part : ℝ) ≤ whole := Nat.cast_le.mpr h
    rw [div_le_iff₀ hwhole]
    linarith

theorem percent_self {whole : ℕ} (h : 0 < whole) : percent whole whole = 100 := by
  have hwhole : (whole : ℝ) ≠ 0 := Nat.cast_ne_zero.mpr h.ne'
  rw [percent_of_pos h]
  field_simp

theorem lt_percent {part whole : ℕ} (h : 0 < whole) (hlt : whole < part) :
    100 < percent part whole := by
  have hwhole : (0 : ℝ) < whole := Nat.cast_pos.mpr h
  have hpart : (whole : ℝ) < part := Nat.cast_lt.mpr hlt
  rw [percent_of_pos h, lt_div_iff₀ hwhole]
  linarith

/-- A larger part of a sum has the larger share. -/
theorem percent_mono_part (rest : ℕ) {part part' : ℕ} (h : part ≤ part') :
    percent part (rest + part) ≤ percent part' (rest + part') := by
  rcases Nat.eq_zero_or_pos part with rfl | hpos
  · rw [percent_zero]
    exact percent_nonneg _ _
  · rw [percent_of_pos (by omega), percent_of_pos (by omega)]
    have hpart : (part : ℝ) ≤ part' := Nat.cast_le.mpr h
    have hpos' : (0 : ℝ) < part := Nat.cast_pos.mpr hpos
    have hrest : (0 : ℝ) ≤ rest := Nat.cast_nonneg rest
    push_cast
    rw [div_le_div_iff₀ (by linarith) (by linarith)]
    nlinarith [mul_le_mul_of_nonneg_left hpart hrest]

/-- Beside a larger rest a part has the smaller share. -/
theorem percent_anti_rest (part : ℕ) {rest rest' : ℕ} (h : rest ≤ rest') :
    percent part (rest' + part) ≤ percent part (rest + part) := by
  rcases Nat.eq_zero_or_pos part with rfl | hpos
  · rw [percent_zero, percent_zero]
  · rw [percent_of_pos (by omega), percent_of_pos (by omega)]
    have hpos' : (0 : ℝ) < part := Nat.cast_pos.mpr hpos
    have hrest : (rest : ℝ) ≤ rest' := Nat.cast_le.mpr h
    have hrest' : (0 : ℝ) ≤ rest := Nat.cast_nonneg rest
    push_cast
    exact div_le_div_of_nonneg_left (by linarith) (by linarith) (by linarith)

/-! ## The wrapped sum -/

section Wrapped

variable {M rest part : ℕ}

theorem wrapped_of_lt (h : rest + part < M) : wrapped M rest part = percent part (rest + part) := by
  rw [wrapped, Nat.mod_eq_of_lt h]

theorem wrapped_of_eq (h : rest + part = M) : wrapped M rest part = 0 := by
  rw [wrapped, h, Nat.mod_self]
  exact if_pos rfl

theorem lt_wrapped (hrest : rest < M) (hpart : part < M) (h : M < rest + part) :
    100 < wrapped M rest part := by
  have hmod : (rest + part) % M = rest + part - M := by
    rw [Nat.mod_eq_sub_mod h.le, Nat.mod_eq_of_lt (by omega)]
  rw [wrapped, hmod]
  exact lt_percent (by omega) (by omega)

theorem wrapped_nonneg (M rest part : ℕ) : 0 ≤ wrapped M rest part := percent_nonneg _ _

/-- The wrapped share is the true one exactly if the sum fits. -/
theorem wrapped_eq_percent_iff (hrest : rest < M) (hpart : part < M) :
    wrapped M rest part = percent part (rest + part) ↔ rest + part < M := by
  refine ⟨fun h => ?_, wrapped_of_lt⟩
  have hle : percent part (rest + part) ≤ 100 := percent_le (Nat.le_add_left part rest)
  rcases lt_trichotomy (rest + part) M with hlt | heq | hgt
  · exact hlt
  · have hpos : 0 < percent part (rest + part) := percent_pos (by omega) (by omega)
    rw [← h, wrapped_of_eq heq] at hpos
    exact absurd hpos (lt_irrefl 0)
  · have := lt_wrapped hrest hpart hgt
    linarith

theorem wrapped_le_iff (hrest : rest < M) (hpart : part < M) :
    wrapped M rest part ≤ 100 ↔ rest + part ≤ M := by
  constructor
  · intro h
    by_contra hgt
    have := lt_wrapped hrest hpart (by omega)
    linarith
  · intro h
    rcases h.lt_or_eq with hlt | heq
    · rw [wrapped_of_lt hlt]
      exact percent_le (Nat.le_add_left part rest)
    · rw [wrapped_of_eq heq]
      norm_num

theorem wrapped_eq_zero_iff (hrest : rest < M) (hpart : part < M) :
    wrapped M rest part = 0 ↔ part = 0 ∨ rest + part = M := by
  constructor
  · intro h
    by_contra hno
    rw [not_or] at hno
    have hpos : 0 < part := Nat.pos_of_ne_zero hno.1
    rcases lt_or_gt_of_ne hno.2 with hlt | hgt
    · rw [wrapped_of_lt hlt] at h
      exact absurd h (percent_pos hpos (by omega)).ne'
    · have := lt_wrapped hrest hpart hgt
      linarith
  · rintro (rfl | h)
    · exact percent_zero _
    · exact wrapped_of_eq h

/-- The wrapped share is all or more exactly if nothing is left or the sum runs over. -/
theorem le_wrapped_iff (hrest : rest < M) (hpart : part < M) :
    100 ≤ wrapped M rest part ↔ M < rest + part ∨ (rest = 0 ∧ 0 < part) := by
  rcases lt_trichotomy (rest + part) M with hlt | heq | hgt
  · rw [wrapped_of_lt hlt]
    constructor
    · intro h
      rcases Nat.eq_zero_or_pos part with rfl | hpos
      · rw [percent_zero] at h
        norm_num at h
      · have hsum : (0 : ℝ) < ((rest + part : ℕ) : ℝ) := Nat.cast_pos.mpr (by omega)
        rw [percent_of_pos (by omega), le_div_iff₀ hsum] at h
        have hle : rest + part ≤ part := by
          have : ((rest + part : ℕ) : ℝ) ≤ part := by linarith
          exact_mod_cast this
        exact Or.inr ⟨by omega, hpos⟩
    · rintro (h | ⟨rfl, hpos⟩)
      · omega
      · rw [Nat.zero_add]
        exact (percent_self hpos).ge
  · rw [wrapped_of_eq heq]
    refine iff_of_false (by norm_num) ?_
    rintro (h | ⟨rfl, -⟩) <;> omega
  · exact iff_of_true (lt_wrapped hrest hpart hgt).le (Or.inl hgt)

/-- Cut at 100, the share falls as the rest grows, unless the sum comes to run over. -/
theorem capped_anti_rest_iff {rest' : ℕ} (h : rest ≤ rest') (hrest' : rest' < M) (hpart : part < M) :
    min 100 (wrapped M rest' part) ≤ min 100 (wrapped M rest part) ↔
      rest' + part ≤ M ∨ M < rest + part ∨ rest = 0 := by
  have hrest : rest < M := h.trans_lt hrest'
  rcases lt_trichotomy (rest' + part) M with hlt | heq | hgt
  · refine iff_of_true (min_le_min_left 100 ?_) (Or.inl hlt.le)
    rw [wrapped_of_lt hlt, wrapped_of_lt (by omega)]
    exact percent_anti_rest part h
  · refine iff_of_true ?_ (Or.inl heq.le)
    rw [wrapped_of_eq heq]
    exact (min_le_right _ _).trans (le_min (by norm_num) (wrapped_nonneg M rest part))
  · have hpos : 0 < part := by omega
    rw [min_eq_left (lt_wrapped hrest' hpart hgt).le, le_min_iff, and_iff_right (le_refl _),
      le_wrapped_iff hrest hpart, or_iff_right (not_le.mpr hgt), and_iff_left hpos]

/-- Cut at 100, the share grows with the part, unless the sum comes to 0. -/
theorem capped_mono_part_iff {part' : ℕ} (h : part ≤ part') (hrest : rest < M) (hpart' : part' < M) :
    min 100 (wrapped M rest part) ≤ min 100 (wrapped M rest part') ↔
      rest + part' ≠ M ∨ part = 0 ∨ part = part' := by
  have hpart : part < M := h.trans_lt hpart'
  rcases lt_trichotomy (rest + part') M with hlt | heq | hgt
  · refine iff_of_true (min_le_min_left 100 ?_) (Or.inl hlt.ne)
    rw [wrapped_of_lt hlt, wrapped_of_lt (by omega)]
    exact percent_mono_part rest h
  · have hsame : rest + part = M ↔ part = part' := by omega
    have hnonneg := wrapped_nonneg M rest part
    rw [wrapped_of_eq heq, min_eq_right (by norm_num : (0 : ℝ) ≤ 100), ← hsame,
      ← wrapped_eq_zero_iff hrest hpart, or_iff_right (not_not.mpr heq)]
    constructor
    · intro hmin
      rcases min_le_iff.mp hmin with h | h
      · norm_num at h
      · exact le_antisymm h hnonneg
    · intro hzero
      rw [hzero]
      exact min_le_right _ _
  · refine iff_of_true ?_ (Or.inl hgt.ne')
    rw [min_eq_left (lt_wrapped hrest hpart' hgt).le]
    exact min_le_left _ _

end Wrapped

end

end Wei.Lib.Percent
