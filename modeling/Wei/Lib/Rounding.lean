import Mathlib.Tactic.GCongr
import Mathlib.Tactic.Linarith
import Wei.Lib.RealDouble

/-!
# Doubles that round

The laws of a double whose operations round to 53 bits: a result misses the exact
one by at most a unit in the last place, and is the exact one where 53 bits hold it.
`Near` carries an error bound, and the exact value besides under a condition of the
caller's, through one operation after the other.
-/
namespace Wei.Lib

/-- 53 bits hold the number, at an exponent that the format has. -/
def Representable (a : ℝ) : Prop :=
  ∃ m k : ℤ, |m| ≤ 2 ^ 53 ∧ -1074 ≤ k ∧ a = m * (2 : ℝ) ^ k

/-- `r` is a rounding of `a`. -/
structure Rounds (a r : ℝ) : Prop where
  near : |r - a| ≤ |a| / 2 ^ 52 + 1 / 2 ^ 1074
  exact : Representable a → r = a

theorem Rounds.refl (a : ℝ) : Rounds a a where
  near := by
    rw [sub_self, abs_zero]
    positivity
  exact _ := rfl

theorem Rounds.neg {a r : ℝ} (h : Rounds a r) : Rounds (-a) (-r) where
  near := by
    rw [abs_neg, neg_sub_neg, abs_sub_comm]
    exact h.near
  exact hrep := by
    obtain ⟨m, k, hm, hk, ha⟩ := hrep
    rw [h.exact ⟨-m, k, by rwa [abs_neg], hk, by push_cast; linarith⟩]

class RoundedDouble (D : Type) [CDouble D] where
  /-- The value is finite, and this number. -/
  Reads : D → ℝ → Prop
  ofInt : ∀ n : ℤ, |n| ≤ 2 ^ 53 → Reads (CDouble.ofInt n) n
  add : ∀ {x y a b}, Reads x a → Reads y b → |a + b| ≤ 2 ^ 1000 →
    ∃ r, Rounds (a + b) r ∧ Reads (x + y) r
  sub : ∀ {x y a b}, Reads x a → Reads y b → |a - b| ≤ 2 ^ 1000 →
    ∃ r, Rounds (a - b) r ∧ Reads (x - y) r
  mul : ∀ {x y a b}, Reads x a → Reads y b → |a * b| ≤ 2 ^ 1000 →
    ∃ r, Rounds (a * b) r ∧ Reads (x * y) r
  div : ∀ {x y a b}, Reads x a → Reads y b → b ≠ 0 → |a / b| ≤ 2 ^ 1000 →
    ∃ r, Rounds (a / b) r ∧ Reads (x / y) r
  trunc : ∀ {x a}, Reads x a → 0 ≤ a → a < 2 ^ 63 → CDouble.trunc x = ⌊a⌋

/-- Without rounding every law holds. -/
instance : RoundedDouble ℝ where
  Reads x a := x = a
  ofInt _ _ := rfl
  add h h' _ := ⟨_, .refl _, by rw [h, h']⟩
  sub h h' _ := ⟨_, .refl _, by rw [h, h']⟩
  mul h h' _ := ⟨_, .refl _, by rw [h, h']⟩
  div h h' _ _ := ⟨_, .refl _, by rw [h, h']⟩
  trunc h hnonneg _ := h ▸ RealDouble.trunc_of_nonneg (h ▸ hnonneg)

theorem representable_int {n : ℤ} (h : |n| ≤ 2 ^ 53) : Representable n :=
  ⟨n, 0, h, by decide, by simp⟩

/-- An integer of more bits, the low ones of which are zero. -/
theorem representable_mul_two_pow {n : ℤ} (h : |n| ≤ 2 ^ 53) (k : ℕ) :
    Representable ((n : ℝ) * 2 ^ k) :=
  ⟨n, k, h, by omega, by rw [zpow_natCast]⟩

theorem Rounds.near_of_le {a r B : ℝ} (h : Rounds a r) (hB : |a| ≤ B) :
    |r - a| ≤ (B + 1) / 2 ^ 52 := by
  have hnear := h.near
  have htiny : (1 : ℝ) / 2 ^ 1074 ≤ 1 / 2 ^ 52 := by
    rw [div_le_div_iff_of_pos_left one_pos (by positivity) (by positivity)]
    exact pow_le_pow_right₀ (by norm_num) (by norm_num)
  have hscaled : |a| / 2 ^ 52 ≤ B / 2 ^ 52 := by gcongr
  generalize (1 : ℝ) / 2 ^ 1074 = least at hnear htiny
  rw [add_div]
  linarith

/-- Far from overflow. -/
theorem le_two_pow_1000 {x : ℝ} (h : x ≤ 2 ^ 200) : x ≤ 2 ^ 1000 :=
  h.trans (pow_le_pow_right₀ (by norm_num) (by norm_num))

section Near

variable {D : Type} [CDouble D] [RoundedDouble D]

/-- `x` is within `e` of `a`, and is `a` itself if `p`. -/
def Near (p : Prop) (x : D) (a e : ℝ) : Prop :=
  ∃ r, RoundedDouble.Reads x r ∧ |r - a| ≤ e ∧ (p → r = a)

variable {p : Prop} {x y : D} {a b e f A B : ℝ}

theorem near_ofInt {n : ℤ} (h : |n| ≤ 2 ^ 53) : Near p (CDouble.ofInt n : D) n 0 :=
  ⟨n, RoundedDouble.ofInt n h, by simp, fun _ => rfl⟩

theorem Near.mono (h : Near p x a e) (hle : e ≤ f) : Near p x a f := by
  obtain ⟨r, hr, hnear, hexact⟩ := h
  exact ⟨r, hr, hnear.trans hle, hexact⟩

theorem abs_le_of_near {c d : ℝ} (hop : |c - d| ≤ e) (hd : |d| ≤ B) : |c| ≤ B + e := by
  have htri := abs_add_le d (c - d)
  rw [add_sub_cancel] at htri
  linarith

/-- A rounded result of operands that are near theirs. -/
theorem near_of_rounds {c d : ℝ} {z : D} (hz : ∃ r, Rounds c r ∧ RoundedDouble.Reads z r)
    (hop : |c - d| ≤ e) (hp : p → c = d) (hd : |d| ≤ B) (hrep : p → Representable d) :
    Near p z d (e + (B + e + 1) / 2 ^ 52) := by
  obtain ⟨r, hround, hreads⟩ := hz
  have hnear := hround.near_of_le (abs_le_of_near hop hd)
  refine ⟨r, hreads, ?_, fun hexact => ?_⟩
  · have htri := abs_add_le (r - c) (c - d)
    rw [sub_add_sub_cancel] at htri
    linarith
  · rw [← hp hexact]
    exact hround.exact (hp hexact ▸ hrep hexact)

theorem Near.add (hx : Near p x a e) (hy : Near p y b f) (hB : |a + b| ≤ B)
    (hlimit : B + (e + f) ≤ 2 ^ 200) (hrep : p → Representable (a + b)) :
    Near p (x + y) (a + b) (e + f + (B + (e + f) + 1) / 2 ^ 52) := by
  obtain ⟨r, hr, hnear, hexact⟩ := hx
  obtain ⟨s, hs, hnear', hexact'⟩ := hy
  have hop : |r + s - (a + b)| ≤ e + f := by
    have htri := abs_add_le (r - a) (s - b)
    rw [show r - a + (s - b) = r + s - (a + b) by ring] at htri
    linarith
  exact near_of_rounds (RoundedDouble.add hr hs (le_two_pow_1000 ((abs_le_of_near hop hB).trans hlimit))) hop
    (fun hp => by rw [hexact hp, hexact' hp]) hB hrep

theorem Near.sub (hx : Near p x a e) (hy : Near p y b f) (hB : |a - b| ≤ B)
    (hlimit : B + (e + f) ≤ 2 ^ 200) (hrep : p → Representable (a - b)) :
    Near p (x - y) (a - b) (e + f + (B + (e + f) + 1) / 2 ^ 52) := by
  obtain ⟨r, hr, hnear, hexact⟩ := hx
  obtain ⟨s, hs, hnear', hexact'⟩ := hy
  have hop : |r - s - (a - b)| ≤ e + f := by
    have htri := abs_sub (r - a) (s - b)
    rw [show r - a - (s - b) = r - s - (a - b) by ring] at htri
    linarith
  exact near_of_rounds (RoundedDouble.sub hr hs (le_two_pow_1000 ((abs_le_of_near hop hB).trans hlimit))) hop
    (fun hp => by rw [hexact hp, hexact' hp]) hB hrep

/-- The square of what is near. -/
theorem Near.mul_self (hx : Near p x a e) (hA : |a| ≤ A)
    (hlimit : A ^ 2 + e * (2 * A + e) ≤ 2 ^ 200) (hrep : p → Representable (a ^ 2)) :
    Near p (x * x) (a ^ 2) (e * (2 * A + e) + (A ^ 2 + e * (2 * A + e) + 1) / 2 ^ 52) := by
  obtain ⟨r, hr, hnear, hexact⟩ := hx
  have hA0 : 0 ≤ A := (abs_nonneg a).trans hA
  have hop : |r * r - a ^ 2| ≤ e * (2 * A + e) := by
    have hsum : |r + a| ≤ 2 * A + e := by
      have htri := abs_add_le (r - a) (2 * a)
      rw [show r - a + 2 * a = r + a by ring, abs_mul, abs_two] at htri
      linarith
    rw [show r * r - a ^ 2 = (r - a) * (r + a) by ring, abs_mul]
    exact mul_le_mul hnear hsum (abs_nonneg _) ((abs_nonneg _).trans hnear)
  have hB : |a ^ 2| ≤ A ^ 2 := by
    rw [abs_pow]
    gcongr
  exact near_of_rounds (RoundedDouble.mul hr hr (le_two_pow_1000 ((abs_le_of_near hop hB).trans hlimit))) hop
    (fun hp => by rw [hexact hp, sq]) hB hrep

/-- A quotient by a value that is exact. -/
theorem Near.div (hx : Near p x a e) (hy : RoundedDouble.Reads y b) (hb : 0 < b)
    (hB : |a / b| ≤ B) (hlimit : B + e / b ≤ 2 ^ 200) (hrep : p → Representable (a / b)) :
    Near p (x / y) (a / b) (e / b + (B + e / b + 1) / 2 ^ 52) := by
  obtain ⟨r, hr, hnear, hexact⟩ := hx
  have hop : |r / b - a / b| ≤ e / b := by
    rw [← sub_div, abs_div, abs_of_pos hb]
    gcongr
  exact near_of_rounds (RoundedDouble.div hr hy hb.ne'
    (le_two_pow_1000 ((abs_le_of_near hop hB).trans hlimit))) hop
    (fun hp => by rw [hexact hp]) hB hrep

end Near

/-- A multiple of `1 / n` that is met exactly where it is an integer, and missed by
less than `1 / n` elsewhere, keeps its integer part. -/
theorem floor_eq_of_near {n : ℕ} (hn : 0 < n) {N : ℤ} {a r : ℝ} (hN : (n : ℝ) * a = N)
    (hnear : n * |r - a| < 1) (hexact : (∃ W : ℤ, a = W) → r = a) : ⌊r⌋ = ⌊a⌋ := by
  have hn' : (0 : ℝ) < n := Nat.cast_pos.mpr hn
  by_cases hint : ∃ W : ℤ, a = W
  · rw [hexact hint]
  · have hlow := Int.floor_le a
    have hhigh := Int.lt_floor_add_one a
    have hne : a ≠ ⌊a⌋ := fun h => hint ⟨_, h⟩
    -- the multiple is strictly between the two integers, so it is `1 / n` away from both
    have hN1 : (n : ℤ) * ⌊a⌋ + 1 ≤ N := by
      have hlt : (n : ℝ) * ⌊a⌋ < n * a := by gcongr; exact lt_of_le_of_ne hlow hne.symm
      rw [hN] at hlt
      exact_mod_cast hlt
    have hN2 : N + 1 ≤ (n : ℤ) * (⌊a⌋ + 1) := by
      have hlt : (n : ℝ) * a < n * (⌊a⌋ + 1) := by gcongr
      rw [hN] at hlt
      exact_mod_cast hlt
    have hN1' : (n : ℝ) * ⌊a⌋ + 1 ≤ n * a := by
      rw [hN]
      exact_mod_cast hN1
    have hN2' : (n : ℝ) * a + 1 ≤ n * (⌊a⌋ + 1) := by
      rw [hN]
      exact_mod_cast hN2
    have hbelow : n * (a - r) < 1 := lt_of_le_of_lt (by gcongr; rw [abs_sub_comm]; exact le_abs_self _) hnear
    have habove : n * (r - a) < 1 := lt_of_le_of_lt (by gcongr; exact le_abs_self _) hnear
    rw [Int.floor_eq_iff]
    constructor
    · refine le_of_mul_le_mul_left ?_ hn'
      linarith
    · refine lt_of_mul_lt_mul_left ?_ hn'.le
      linarith

end Wei.Lib
