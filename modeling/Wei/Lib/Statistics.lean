import Mathlib.Algebra.BigOperators.Group.List.Lemmas
import Mathlib.Algebra.Order.Archimedean.Real.Basic
import Mathlib.Algebra.Order.BigOperators.Group.List
import Mathlib.Order.ConditionallyCompleteLattice.Finset
import Mathlib.Data.List.Infix
import Mathlib.Tactic.FieldSimp
import Mathlib.Tactic.Linarith

/-!
# Statistics of a finite sequence

Mean, population variance and extremes of a list of reals, and the position of a
value between the extremes. The empty sequence has mean and variance zero.
-/
namespace Wei.Lib.Statistics

/-- Every nonempty beginning of a sequence, shortest first. -/
def prefixes {α : Type*} (xs : List α) : List (List α) := xs.inits.tail

theorem prefixes_concat {α : Type*} (xs : List α) (x : α) :
    prefixes (xs ++ [x]) = prefixes xs ++ [xs ++ [x]] := by
  have hne : xs.inits ≠ [] := by cases xs <;> simp
  rw [prefixes, List.inits_append, List.tail_append_of_ne_nil hne]
  rfl

@[simp] theorem length_prefixes {α : Type*} (xs : List α) : (prefixes xs).length = xs.length := by
  simp [prefixes]

theorem prefixes_map {α β : Type*} (f : α → β) (xs : List α) :
    prefixes (xs.map f) = (prefixes xs).map (List.map f) := by
  rw [prefixes, prefixes, List.map_inits, ← List.map_tail]

theorem prefixes_ne_nil {α : Type*} {xs : List α} (h : xs ≠ []) : prefixes xs ≠ [] := by
  rw [← List.length_pos_iff, length_prefixes]
  exact List.length_pos_iff.mpr h

noncomputable section

def mean (xs : List ℝ) : ℝ := xs.sum / xs.length

/-- The population variance. -/
def variance (xs : List ℝ) : ℝ := (xs.map fun x => (x - mean xs) ^ 2).sum / xs.length

theorem mean_le {M : ℝ} (h0 : 0 ≤ M) {xs : List ℝ} (h : ∀ x ∈ xs, x ≤ M) : mean xs ≤ M := by
  have hsum := List.sum_le_card_nsmul xs M h
  rw [nsmul_eq_mul, mul_comm] at hsum
  exact div_le_of_le_mul₀ (Nat.cast_nonneg _) h0 hsum

/-- One more value keeps the mean of equal values only if it is equal to them. -/
theorem mean_concat_eq_iff {v : ℝ} {xs : List ℝ} (h : ∀ x ∈ xs, x = v) (x : ℝ) :
    mean (xs ++ [x]) = v ↔ x = v := by
  have hsum : xs.sum = xs.length * v := by
    rw [List.eq_replicate_of_mem h, List.sum_replicate, nsmul_eq_mul, List.length_replicate]
  have hn : ((xs ++ [x]).length : ℝ) = xs.length + 1 := by simp
  have hpos : (0 : ℝ) < xs.length + 1 := by positivity
  rw [mean, hn, List.sum_append, List.sum_singleton, hsum, div_eq_iff hpos.ne']
  constructor
  · intro heq
    linarith
  · intro heq
    rw [heq]
    ring

/-- Summing in a loop. -/
theorem foldl_add {α : Type*} (f : α → ℝ) (xs : List α) (z : ℝ) :
    xs.foldl (fun acc x => acc + f x) z = z + (xs.map f).sum := by
  induction xs generalizing z with
  | nil => simp
  | cons x xs ih =>
    rw [List.foldl_cons, ih, List.map_cons, List.sum_cons]
    ring

theorem mean_perm {xs ys : List ℝ} (h : xs.Perm ys) : mean xs = mean ys := by
  rw [mean, mean, h.sum_eq, h.length_eq]

theorem variance_perm {xs ys : List ℝ} (h : xs.Perm ys) : variance xs = variance ys := by
  rw [variance, variance, mean_perm h, (h.map _).sum_eq, h.length_eq]

theorem variance_nonneg (xs : List ℝ) : 0 ≤ variance xs := by
  apply div_nonneg
  · apply List.sum_nonneg
    intro y hy
    obtain ⟨x, _, rfl⟩ := List.mem_map.mp hy
    exact sq_nonneg _
  · exact Nat.cast_nonneg _

theorem sum_sq_sub (m : ℝ) (xs : List ℝ) : (xs.map fun x => (x - m) ^ 2).sum =
    (xs.map fun x => x ^ 2).sum - 2 * m * xs.sum + xs.length * m ^ 2 := by
  induction xs with
  | nil => simp
  | cons x xs ih =>
    simp only [List.map_cons, List.sum_cons, List.length_cons, ih]
    push_cast
    ring

/-- The variance from the sum and the sum of the squares. -/
theorem sq_length_mul_variance (xs : List ℝ) : (xs.length : ℝ) ^ 2 * variance xs =
    xs.length * (xs.map fun x => x ^ 2).sum - xs.sum ^ 2 := by
  rcases xs.eq_nil_or_concat with rfl | ⟨ys, y, rfl⟩
  · simp
  · have hn : ((ys ++ [y]).length : ℝ) ≠ 0 := by
      rw [Nat.cast_ne_zero, List.length_append]
      exact Nat.succ_ne_zero _
    rw [variance, sum_sq_sub, mean]
    field_simp
    ring

theorem sum_sq_le {M : ℝ} {xs : List ℝ} (h : ∀ x ∈ xs, 0 ≤ x ∧ x ≤ M) :
    (xs.map fun x => x ^ 2).sum ≤ M * xs.sum := by
  induction xs with
  | nil => simp
  | cons x xs ih =>
    obtain ⟨h0, hM⟩ := h x List.mem_cons_self
    have hx : x ^ 2 ≤ M * x := by nlinarith
    have hxs := ih fun y hy => h y (List.mem_cons_of_mem x hy)
    simp only [List.map_cons, List.sum_cons]
    linarith

/-- Values between `0` and `M` vary by at most `M² / 4`. -/
theorem variance_le {M : ℝ} {xs : List ℝ} (h : ∀ x ∈ xs, 0 ≤ x ∧ x ≤ M) :
    variance xs ≤ M ^ 2 / 4 := by
  rcases Nat.eq_zero_or_pos xs.length with h0 | hpos
  · rw [variance, h0]
    simp only [Nat.cast_zero, div_zero]
    positivity
  · have hn : (0 : ℝ) < xs.length := Nat.cast_pos.mpr hpos
    have hsum : xs.sum = xs.length * mean xs := by
      rw [mean]
      field_simp
    have hsq := sum_sq_le h
    rw [variance, div_le_iff₀ hn, sum_sq_sub, hsum]
    rw [hsum] at hsq
    -- what is left is `m * (M - m) ≤ M² / 4`, once for every value
    have hmid : M * mean xs - mean xs ^ 2 ≤ M ^ 2 / 4 := by nlinarith [sq_nonneg (M - 2 * mean xs)]
    have hscaled := mul_le_mul_of_nonneg_left hmid hn.le
    linarith

/-! ## Extremes -/

def lowest (xs : List ℝ) : ℝ := sInf {x | x ∈ xs}

def highest (xs : List ℝ) : ℝ := sSup {x | x ∈ xs}

theorem setOf_mem_concat (xs : List ℝ) (x : ℝ) : {y | y ∈ xs ++ [x]} = insert x {y | y ∈ xs} := by
  ext y
  simp [or_comm]

theorem lowest_singleton (x : ℝ) : lowest [x] = x := by simp [lowest]

theorem highest_singleton (x : ℝ) : highest [x] = x := by simp [highest]

theorem finite_mem (xs : List ℝ) : {y | y ∈ xs}.Finite := xs.finite_toSet

theorem nonempty_mem {xs : List ℝ} (h : xs ≠ []) : {y | y ∈ xs}.Nonempty :=
  List.exists_mem_of_ne_nil xs h

theorem lowest_concat {xs : List ℝ} (h : xs ≠ []) (x : ℝ) :
    lowest (xs ++ [x]) = min x (lowest xs) := by
  rw [lowest, setOf_mem_concat, csInf_insert (finite_mem xs).bddBelow (nonempty_mem h)]
  rfl

theorem highest_concat {xs : List ℝ} (h : xs ≠ []) (x : ℝ) :
    highest (xs ++ [x]) = max x (highest xs) := by
  rw [highest, setOf_mem_concat, csSup_insert (finite_mem xs).bddAbove (nonempty_mem h)]
  rfl

theorem lowest_le {xs : List ℝ} {x : ℝ} (h : x ∈ xs) : lowest xs ≤ x :=
  csInf_le (finite_mem xs).bddBelow h

theorem le_highest {xs : List ℝ} {x : ℝ} (h : x ∈ xs) : x ≤ highest xs :=
  le_csSup (finite_mem xs).bddAbove h

theorem le_lowest {xs : List ℝ} (hne : xs ≠ []) {m : ℝ} (h : ∀ x ∈ xs, m ≤ x) : m ≤ lowest xs :=
  le_csInf (nonempty_mem hne) h

theorem highest_le {xs : List ℝ} (hne : xs ≠ []) {m : ℝ} (h : ∀ x ∈ xs, x ≤ m) : highest xs ≤ m :=
  csSup_le (nonempty_mem hne) h

/-- The extremes meet where all values are equal. -/
theorem highest_le_lowest_iff {xs : List ℝ} {v : ℝ} (hv : v ∈ xs) :
    highest xs ≤ lowest xs ↔ ∀ x ∈ xs, x = v := by
  constructor
  · intro h x hx
    have h₁ := lowest_le hx
    have h₂ := le_highest hx
    have h₃ := lowest_le hv
    have h₄ := le_highest hv
    linarith
  · intro h
    have hne := List.ne_nil_of_mem hv
    have hhigh := highest_le hne fun x hx => (h x hx).le
    exact hhigh.trans (le_lowest hne fun x hx => (h x hx).ge)

/-! ## Positions -/

/-- The value of `[lo, hi]` next to `x`. -/
def clamp (lo hi x : ℝ) : ℝ := max lo (min hi x)

theorem le_clamp (lo hi x : ℝ) : lo ≤ clamp lo hi x := le_max_left lo _

theorem clamp_le {lo hi : ℝ} (h : lo ≤ hi) (x : ℝ) : clamp lo hi x ≤ hi :=
  max_le h (min_le_left hi x)

theorem clamp_mono (lo hi : ℝ) {x y : ℝ} (h : x ≤ y) : clamp lo hi x ≤ clamp lo hi y :=
  max_le_max_left lo (min_le_min_left hi h)

theorem clamp_of_mem {lo hi x : ℝ} (hlo : lo ≤ x) (hhi : x ≤ hi) : clamp lo hi x = x := by
  rw [clamp, min_eq_right hhi, max_eq_right hlo]

/-- Cutting at one bound and then at the other. -/
theorem cut_eq_clamp {lo hi : ℝ} (h : lo ≤ hi) (x : ℝ) :
    (if hi < (if x < lo then lo else x) then hi else if x < lo then lo else x) =
      clamp lo hi x := by
  unfold clamp
  rcases lt_or_ge x lo with hlow | hlow
  · rw [if_pos hlow, if_neg (not_lt.mpr h), max_eq_left ((min_le_right hi x).trans hlow.le)]
  · rw [if_neg (not_lt.mpr hlow), max_eq_right (le_min h hlow)]
    rcases lt_or_ge hi x with hhigh | hhigh
    · rw [if_pos hhigh, min_eq_left hhigh.le]
    · rw [if_neg (not_lt.mpr hhigh), min_eq_right hhigh]

/-- Where `x` stands between `lo` and `hi`, cut to `[0, 1]`; zero on an empty span. -/
def position (x lo hi : ℝ) : ℝ := if hi - lo ≤ 0 then 0 else clamp 0 1 ((x - lo) / (hi - lo))

theorem position_nonneg (x lo hi : ℝ) : 0 ≤ position x lo hi := by
  unfold position
  split
  · exact le_refl 0
  · exact le_clamp 0 1 _

theorem position_le_one (x lo hi : ℝ) : position x lo hi ≤ 1 := by
  unfold position
  split
  · exact zero_le_one
  · exact clamp_le zero_le_one _

theorem position_mono (lo hi : ℝ) {x y : ℝ} (h : x ≤ y) : position x lo hi ≤ position y lo hi := by
  unfold position
  split
  · exact le_refl 0
  · rename_i hspan
    exact clamp_mono 0 1 (div_le_div_of_nonneg_right (by linarith) (by linarith))

/-- The min-max normalisation of `x` over the values `xs`. -/
def minMax (x : ℝ) (xs : List ℝ) : ℝ := position x (lowest xs) (highest xs)

theorem minMax_mem (x : ℝ) (xs : List ℝ) : 0 ≤ minMax x xs ∧ minMax x xs ≤ 1 :=
  ⟨position_nonneg x _ _, position_le_one x _ _⟩

/-- Equal values have no positions between them. -/
theorem minMax_flat {xs : List ℝ} (h : highest xs ≤ lowest xs) (x : ℝ) : minMax x xs = 0 :=
  if_pos (by linarith)

theorem minMax_of_le_lowest {xs : List ℝ} {x : ℝ} (h : x ≤ lowest xs) : minMax x xs = 0 := by
  rcases le_or_gt (highest xs) (lowest xs) with hflat | hspan
  · exact minMax_flat hflat x
  · have hle : (x - lowest xs) / (highest xs - lowest xs) ≤ 0 :=
      div_nonpos_of_nonpos_of_nonneg (by linarith) (by linarith)
    rw [minMax, position, if_neg (by linarith), clamp, min_eq_right (by linarith),
      max_eq_left hle]

theorem minMax_of_highest_le {xs : List ℝ} (hspan : lowest xs < highest xs) {x : ℝ}
    (h : highest xs ≤ x) : minMax x xs = 1 := by
  have hle : 1 ≤ (x - lowest xs) / (highest xs - lowest xs) := by
    rw [one_le_div (by linarith)]
    linarith
  rw [minMax, position, if_neg (by linarith), clamp, min_eq_left hle, max_eq_right zero_le_one]

theorem minMax_pos {xs : List ℝ} (hspan : lowest xs < highest xs) {x : ℝ} (h : lowest xs < x) :
    0 < minMax x xs := by
  rw [minMax, position, if_neg (by linarith), clamp, lt_max_iff, lt_min_iff]
  exact Or.inr ⟨zero_lt_one, div_pos (by linarith) (by linarith)⟩

end

end Wei.Lib.Statistics
