import Mathlib.Analysis.Complex.Exponential
import Mathlib.Analysis.Real.Sqrt
import Wei.Lib.Double
import Wei.Lib.Statistics

/-!
# Doubles read as exact reals

The instance under which `CDouble` code computes without rounding, and the
equations that turn its operations into those of `ℝ`.
-/
namespace Wei.Lib

/-- Instance search finds different proofs for the literals 2 and 100 of `ℝ` under
different imports; with one instance each, a literal is the same term in every module,
and a lemma about it rewrites wherever it is used. -/
instance atLeastTwo_two : Nat.AtLeastTwo 2 := ⟨Nat.le_refl 2⟩
instance atLeastTwo_hundred : Nat.AtLeastTwo 100 := ⟨by decide⟩

noncomputable instance : CDouble ℝ where
  ofInt n := (n : ℝ)
  lt a b := decide (a < b)
  le a b := decide (a ≤ b)
  sqrt := Real.sqrt
  exp := Real.exp
  trunc x := if 0 ≤ x then ⌊x⌋ else ⌈x⌉
  lround x := if 0 ≤ x then ⌊x + 1 / 2⌋ else ⌈x - 1 / 2⌉

namespace RealDouble

@[simp] theorem ofInt_eq (n : Int) : (CDouble.ofInt n : ℝ) = n := rfl
@[simp] theorem sqrt_eq (x : ℝ) : CDouble.sqrt x = Real.sqrt x := rfl
@[simp] theorem exp_eq (x : ℝ) : CDouble.exp x = Real.exp x := rfl
@[simp] theorem lt_iff (a b : ℝ) : CDouble.lt a b = true ↔ a < b := decide_eq_true_iff
@[simp] theorem le_iff (a b : ℝ) : CDouble.le a b = true ↔ a ≤ b := decide_eq_true_iff

/-- A value cut at one bound and then at the other. -/
theorem cut_eq {lo hi : ℝ} (h : lo ≤ hi) (x : ℝ) :
    (if CDouble.lt hi (if CDouble.lt x lo then lo else x) then hi
      else if CDouble.lt x lo then lo else x) = Statistics.clamp lo hi x := by
  simp only [lt_iff, Statistics.cut_eq_clamp h]

theorem trunc_of_nonneg {x : ℝ} (h : 0 ≤ x) : CDouble.trunc x = ⌊x⌋ := if_pos h

theorem lround_of_nonneg {x : ℝ} (h : 0 ≤ x) : CDouble.lround x = ⌊x + 1 / 2⌋ := if_pos h

/-- The nearest integer of a value from 0 to 100 is again from 0 to 100. -/
theorem floor_half_mem {x : ℝ} (h0 : 0 ≤ x) (h100 : x ≤ 100) :
    0 ≤ ⌊x + 1 / 2⌋ ∧ ⌊x + 1 / 2⌋ ≤ 100 := by
  have hlt : x + 1 / 2 < ((101 : ℤ) : ℝ) := by push_cast; linarith
  exact ⟨Int.floor_nonneg.mpr (by linarith), Int.le_of_lt_add_one (Int.floor_lt.mpr hlt)⟩

/-- A conversion to `uint8_t` that is in range. -/
theorem toNat_byte {n : Int} (h0 : 0 ≤ n) (h : n ≤ 255) : ((UInt8.ofInt n).toNat : Int) = n := by
  lift n to ℕ using h0
  rw [UInt8.ofInt]
  simp
  omega

end RealDouble

end Wei.Lib
