import Wei.Lib.Binary64.Round

/-!
# Doubles of the machine

`Float` runs the operations of C code that is written over `CDouble` in binary64. All
but the exponential have a definition, so a run without one can be evaluated, and the
laws of a double that rounds can be proved of them.
-/
namespace Wei.Lib

instance : CDouble Float where
  ofInt n := .ofModel (.ofInt n)
  lt := Float.lt
  le := Float.le
  sqrt := Float.sqrt
  exp := Float.exp
  trunc x := x.toModel.toInt64.toInt
  lround x := x.round.toModel.toInt64.toInt

namespace Binary64

open Float.Model Float.Model.UnpackedFloat

/-! ## The packed form -/

theorem unpackSign_packComponents {spec : Format} (s : Sign) (exponent : BitVec spec.exponentBits)
    (mantissa : BitVec spec.mantissaBitsWithoutImplicit) :
    unpackSign (packComponents spec s exponent mantissa) = s.toBitVec := by
  ext i hi
  obtain rfl : i = 0 := by omega
  simp [unpackSign, packComponents, BitVec.getLsbD_eq_getElem, BitVec.getLsbD_append,
    BitVec.getElem_append]

theorem ofBitVec_toBitVec (s : Sign) : Sign.ofBitVec s.toBitVec = s := by
  cases s <;> rfl

theorem toNat_biased {e : ℤ} (hlow : -1075 ≤ e) (hhigh : e ≤ 971) :
    (BitVec.ofNat 11 (e + 1075).toNat).toNat = (e + 1075).toNat := by
  rw [BitVec.toNat_ofNat]
  omega

theorem unpack_normal {s : Sign} {m : ℕ} {e : ℤ} (hpos : 0 < m) (hfull : 2 ^ 52 ≤ m) (hlt : m < 2 ^ 53)
    (hlow : -1074 ≤ e) (hhigh : e ≤ 971) :
    UnpackedFloat.unpack Format.binary64 (packComponents Format.binary64 s
      (BitVec.ofNat 11 (e + 1075).toNat) (BitVec.ofNat 52 m)) = .finite s m e hpos := by
  have hexponent := toNat_biased (by omega) hhigh
  have hmantissa : (1#1 ++ BitVec.ofNat 52 m).toNat = m := by
    have hrest : m % 2 ^ 52 < 2 ^ 52 := Nat.mod_lt m (by decide)
    rw [BitVec.toNat_append, BitVec.toNat_ofNat, BitVec.toNat_ofNat,
      ← Nat.shiftLeft_add_eq_or_of_lt hrest]
    omega
  have hnotZero : BitVec.ofNat 11 (e + 1075).toNat ≠ 0#11 := by
    intro h
    have := congrArg BitVec.toNat h
    rw [hexponent, BitVec.toNat_ofNat] at this
    omega
  have hnotOnes : BitVec.ofNat 11 (e + 1075).toNat ≠ -1#11 := by
    intro h
    have := congrArg BitVec.toNat h
    rw [hexponent, show (-1#11).toNat = 2047 from rfl] at this
    omega
  rw [UnpackedFloat.unpack]
  simp only [unpackMantissa_packComponents, unpackExponent_packComponents, unpackSign_packComponents,
    ofBitVec_toBitVec, hexponent]
  rw [if_neg hnotOnes, if_neg hnotZero, UnpackedFloat.finite.injEq]
  refine ⟨rfl, hmantissa, ?_⟩
  rw [show Format.binary64.exponentBias = 1023 from rfl]
  omega

theorem unpack_subnormal {s : Sign} {m : ℕ} (hpos : 0 < m) (hlt : m < 2 ^ 52) :
    UnpackedFloat.unpack Format.binary64 (packComponents Format.binary64 s 0#11 (BitVec.ofNat 52 m)) =
      .finite s m (-1074) hpos := by
  have hmantissa : (BitVec.ofNat 52 m).toNat = m := by
    rw [BitVec.toNat_ofNat, Nat.mod_eq_of_lt hlt]
  have hnotZero : BitVec.ofNat 52 m ≠ 0#52 := by
    intro h
    have := congrArg BitVec.toNat h
    rw [hmantissa, BitVec.toNat_ofNat] at this
    omega
  rw [UnpackedFloat.unpack]
  simp only [unpackMantissa_packComponents, unpackExponent_packComponents, unpackSign_packComponents,
    ofBitVec_toBitVec]
  rw [if_neg (by decide), if_pos trivial, dif_neg hnotZero, UnpackedFloat.finite.injEq]
  exact ⟨rfl, hmantissa, by decide⟩

/-- Packing loses nothing of a canonical number. -/
theorem Means.unpack_pack {u : UnpackedFloat} {a : ℝ} (h : Means u a) :
    UnpackedFloat.unpack Format.binary64 (UnpackedFloat.pack Format.binary64 u) = u := by
  cases h with
  | zero s => cases s <;> rfl
  | finite s m e hpos hlt hlow hhigh hfull =>
    have hbiased : e + (Format.binary64.exponentBias : ℕ) + (52 : ℕ) = e + 1075 := by
      rw [show Format.binary64.exponentBias = 1023 from rfl]
      omega
    have hbits : Format.binary64.mantissaBits = 53 := rfl
    have hlog := Nat.log2_lt (k := 53) hpos.ne'
    have hlog' := Nat.le_log2 (k := 52) hpos.ne'
    simp only [UnpackedFloat.pack, hbiased, hbits]
    rw [if_neg (by omega)]
    by_cases hnormal : 2 ^ 52 ≤ m
    · rw [if_pos (by omega)]
      exact unpack_normal hpos hnormal hlt hlow hhigh
    · obtain rfl := hfull (by omega)
      rw [if_neg (by omega)]
      exact unpack_subnormal hpos (by omega)

/-! ## Operations -/

variable {a b : ℝ} {u w : UnpackedFloat}

theorem cast_apply (s : Sign) (n : ℤ) : ((s.apply n : ℤ) : ℝ) = signed s n := by
  cases s with
  | negative => exact Int.cast_neg n
  | positive => rfl

theorem signed_mul (s : Sign) (a b : ℝ) : signed s a * b = signed s (a * b) := by
  cases s with
  | negative => exact neg_mul a b
  | positive => rfl

theorem log2_shiftLeft {m : ℕ} (hpos : 0 < m) (k : ℕ) : (m <<< k).log2 = m.log2 + k := by
  have hpos' : m <<< k ≠ 0 := by
    rw [Nat.shiftLeft_eq]
    positivity
  refine (Nat.log2_eq_iff hpos').mpr ?_
  rw [Nat.shiftLeft_eq, pow_add, show m.log2 + k + 1 = m.log2 + 1 + k by omega, pow_add _ (m.log2 + 1)]
  exact ⟨Nat.mul_le_mul_right _ (Nat.log2_self_le hpos.ne'),
    Nat.mul_lt_mul_of_pos_right Nat.lt_log2_self (by positivity)⟩

/-- The same number, with an exponent that is not above another. -/
theorem decreaseExponent_value (m : ℕ) {e g : ℤ} :
    ((decreaseExponent m e g).1 : ℝ) * 2 ^ (decreaseExponent m e g).2 = m * 2 ^ e := by
  have hshift : ((m <<< (e - g).toNat : ℕ) : ℝ) = m * 2 ^ ((e - g).toNat : ℤ) := by
    rw [Nat.shiftLeft_eq, zpow_natCast]
    push_cast
    rfl
  change ((m <<< (e - g).toNat : ℕ) : ℝ) * 2 ^ (e - (e - g).toNat) = m * 2 ^ e
  rw [hshift, mul_assoc, ← zpow_add₀ two_ne_zero]
  congr 2
  omega

theorem round_means (s : Sign) {m : ℕ} {e : ℤ} (hpos : 0 < m) (hlimit : (m : ℝ) * 2 ^ e ≤ 2 ^ 1000) :
    ∃ r, Rounds (m * 2 ^ e) r ∧ Means (UnpackedFloat.round Format.binary64 s m e) (signed s r) := by
  have hvalue := decreaseExponent_value m (e := e) (g := grid m e)
  have hgrid := grid_eq m e
  have hgrid' := grid_eq (m <<< (e - grid m e).toNat) (e - (e - grid m e).toNat)
  rw [log2_shiftLeft hpos] at hgrid'
  rw [← hvalue] at hlimit ⊢
  exact rounds_exact s (show e - ((e - grid m e).toNat : ℤ) ≤
    grid (m <<< (e - grid m e).toNat) (e - (e - grid m e).toNat) by omega) hlimit

theorem normalize_means {M : ℤ} {e : ℤ} (s : Sign) (hlimit : |(M : ℝ) * 2 ^ e| ≤ 2 ^ 1000) :
    ∃ r, Rounds (M * 2 ^ e) r ∧ Means (UnpackedFloat.normalize Format.binary64 M e s) r := by
  have hpow : (0 : ℝ) < 2 ^ e := by positivity
  rw [abs_mul, abs_of_pos hpow] at hlimit
  rw [UnpackedFloat.normalize]
  rcases lt_trichotomy M 0 with hneg | rfl | hpos
  · rw [compare_lt_iff_lt.mpr hneg]
    lift -M to ℕ using by omega with m hm
    have hM : (M : ℝ) = -m := by
      rw [← Int.cast_natCast, hm]
      push_cast
      ring
    rw [hM, abs_neg, Nat.abs_cast] at hlimit
    obtain ⟨r, hround, hmeans⟩ := round_means .negative (show 0 < m by omega) hlimit
    refine ⟨-r, ?_, hmeans⟩
    rw [hM, neg_mul]
    exact hround.neg
  · refine ⟨0, ?_, .zero s⟩
    rw [Int.cast_zero, zero_mul]
    exact .refl 0
  · rw [compare_gt_iff_gt.mpr hpos]
    lift M to ℕ using hpos.le with m
    rw [Int.cast_natCast, Nat.abs_cast] at hlimit
    rw [Int.cast_natCast]
    exact round_means .positive (show 0 < m by omega) hlimit

/-- One exponent for both, and a mantissa with a sign. -/
theorem aligned (s : Sign) (m : ℕ) {e g : ℤ} (hle : g ≤ e) :
    ((s.apply (decreaseExponent m e g).1 : ℤ) : ℝ) * 2 ^ g = signed s (m * 2 ^ e) := by
  have hvalue := decreaseExponent_value m (e := e) (g := g)
  have hexp : (decreaseExponent m e g).2 = g := show e - ((e - g).toNat : ℤ) = g by omega
  rw [hexp] at hvalue
  rw [cast_apply, signed_mul, Int.cast_natCast, hvalue]

theorem Means.add (hu : Means u a) (hw : Means w b) (hlimit : |a + b| ≤ 2 ^ 1000) :
    ∃ r, Rounds (a + b) r ∧ Means (UnpackedFloat.add Format.binary64 u w) r := by
  cases hu with
  | zero s =>
    cases hw with
    | zero s' =>
      refine ⟨0, ?_, ?_⟩
      · rw [add_zero]
        exact .refl 0
      · cases s <;> cases s' <;> exact .zero _
    | finite s' m' e' hpos' hlt' hlow' hhigh' hfull' =>
      refine ⟨_, ?_, .finite s' m' e' hpos' hlt' hlow' hhigh' hfull'⟩
      rw [zero_add]
      exact .refl _
  | finite s m e hpos hlt hlow hhigh hfull =>
    cases hw with
    | zero s' =>
      refine ⟨_, ?_, .finite s m e hpos hlt hlow hhigh hfull⟩
      rw [add_zero]
      exact .refl _
    | finite s' m' e' hpos' hlt' hlow' hhigh' hfull' =>
      rw [← aligned s m (min_le_left e e'), ← aligned s' m' (min_le_right e e'), ← add_mul,
        ← Int.cast_add] at hlimit ⊢
      exact normalize_means .positive hlimit

theorem Means.sub (hu : Means u a) (hw : Means w b) (hlimit : |a - b| ≤ 2 ^ 1000) :
    ∃ r, Rounds (a - b) r ∧ Means (UnpackedFloat.sub Format.binary64 u w) r := by
  cases hu with
  | zero s =>
    cases hw with
    | zero s' =>
      refine ⟨0, ?_, ?_⟩
      · rw [sub_zero]
        exact .refl 0
      · cases s <;> cases s' <;> exact .zero _
    | finite s' m' e' hpos' hlt' hlow' hhigh' hfull' =>
      refine ⟨_, ?_, .finite (-s') m' e' hpos' hlt' hlow' hhigh' hfull'⟩
      rw [zero_sub]
      cases s' with
      | negative =>
        rw [signed, neg_neg]
        exact .refl _
      | positive => exact .refl _
  | finite s m e hpos hlt hlow hhigh hfull =>
    cases hw with
    | zero s' =>
      refine ⟨_, ?_, .finite s m e hpos hlt hlow hhigh hfull⟩
      rw [sub_zero]
      exact .refl _
    | finite s' m' e' hpos' hlt' hlow' hhigh' hfull' =>
      rw [← aligned s m (min_le_left e e'), ← aligned s' m' (min_le_right e e'), ← sub_mul,
        ← Int.cast_sub] at hlimit ⊢
      exact normalize_means .positive hlimit

theorem signed_mul_signed (s s' : Sign) (a b : ℝ) :
    signed s a * signed s' b = signed (s * s') (a * b) := by
  cases s with
  | negative =>
    cases s' with
    | negative => exact neg_mul_neg a b
    | positive => exact neg_mul a b
  | positive =>
    cases s' with
    | negative => exact mul_neg a b
    | positive => rfl

theorem signed_div_signed (s s' : Sign) (a b : ℝ) :
    signed s a / signed s' b = signed (s / s') (a / b) := by
  cases s with
  | negative =>
    cases s' with
    | negative => exact neg_div_neg_eq a b
    | positive => exact neg_div b a
  | positive =>
    cases s' with
    | negative => exact div_neg a
    | positive => rfl

theorem Means.mul (hu : Means u a) (hw : Means w b) (hlimit : |a * b| ≤ 2 ^ 1000) :
    ∃ r, Rounds (a * b) r ∧ Means (UnpackedFloat.mul Format.binary64 u w) r := by
  cases hu with
  | zero s =>
    refine ⟨0, ?_, ?_⟩
    · rw [zero_mul]
      exact .refl 0
    · cases hw <;> exact .zero _
  | finite s m e hpos hlt hlow hhigh hfull =>
    cases hw with
    | zero s' =>
      refine ⟨0, ?_, .zero _⟩
      rw [mul_zero]
      exact .refl 0
    | finite s' m' e' hpos' hlt' hlow' hhigh' hfull' =>
      have hvalue : (m : ℝ) * 2 ^ e * (m' * 2 ^ e') = (m * m' : ℕ) * 2 ^ (e + e') := by
        rw [zpow_add₀ two_ne_zero]
        push_cast
        ring
      have hle : e + e' ≤ grid (m * m') (e + e') := by
        rw [grid_eq]
        by_cases hsmall : m < 2 ^ 52 ∧ m' < 2 ^ 52
        · have := hfull hsmall.1
          have := hfull' hsmall.2
          omega
        · have hbits : 2 ^ 52 ≤ m * m' := by
            rcases not_and_or.mp hsmall with h | h
            · exact (not_lt.mp h).trans (Nat.le_mul_of_pos_right m hpos')
            · exact (not_lt.mp h).trans (Nat.le_mul_of_pos_left m' hpos)
          have := (Nat.le_log2 (Nat.mul_pos hpos hpos').ne').mpr hbits
          omega
      rw [signed_mul_signed, signed_abs, hvalue] at hlimit
      rw [signed_mul_signed, hvalue]
      obtain ⟨r, hround, hmeans⟩ := rounds_exact (s * s') hle (le_of_abs_le hlimit)
      exact ⟨_, rounds_signed (s * s') hround, hmeans⟩

theorem rests_fraction {num den : ℕ} (hlt : num < den) :
    Rests (accuracyOfFraction num den) (num / den) := by
  have hden : (0 : ℝ) < den := by exact_mod_cast Nat.zero_lt_of_lt hlt
  rw [accuracyOfFraction]
  split
  · next hzero =>
    rw [hzero, Nat.cast_zero, zero_div]
    rfl
  · next hne =>
    have hnum : (0 : ℝ) < num := by exact_mod_cast Nat.pos_of_ne_zero hne
    rcases lt_trichotomy (2 * num) den with hlow | heq | hhigh
    · rw [compare_lt_iff_lt.mpr hlow]
      have hlow' : (2 : ℝ) * num < den := by exact_mod_cast hlow
      exact ⟨div_pos hnum hden, by rw [div_lt_iff₀ hden]; linarith⟩
    · rw [compare_eq_iff_eq.mpr heq]
      have heq' : (2 : ℝ) * num = den := by exact_mod_cast heq
      change (num : ℝ) / den = 1 / 2
      rw [div_eq_iff hden.ne']
      linarith
    · rw [compare_gt_iff_gt.mpr hhigh]
      have hhigh' : (den : ℝ) < 2 * num := by exact_mod_cast hhigh
      have hlt' : (num : ℝ) < den := by exact_mod_cast hlt
      exact ⟨by rw [lt_div_iff₀ hden]; linarith, by rw [div_lt_iff₀ hden]; linarith⟩

/-- The exponent of the last bit of a quotient. -/
def quotientExponent (m : ℕ) (e : ℤ) (m' : ℕ) (e' : ℤ) : ℤ :=
  min (e - e') (Format.binary64.targetExponent (totalExponent m e - totalExponent m' e'))

theorem quotientExponent_eq (m : ℕ) (e : ℤ) (m' : ℕ) (e' : ℤ) : quotientExponent m e m' e' =
    min (e - e') (max (m.log2 + e - (m'.log2 + e') - 53) (-1074)) := by
  have hbits : (Format.binary64.mantissaBits : ℤ) = 53 := by decide
  have hmin : Format.binary64.minExponent = -1074 := by decide
  rw [quotientExponent, Format.targetExponent, totalExponent, totalExponent, hbits, hmin]
  congr 2
  omega

/-- There, a quotient has enough bits. -/
theorem quotient_full {m m' : ℕ} {e e' : ℤ} (hpos : 0 < m) (hpos' : 0 < m') :
    quotientExponent m e m' e' ≤
      grid ((m <<< (e - e' - quotientExponent m e m' e').toNat) / m') (quotientExponent m e m' e') := by
  have hexponent := quotientExponent_eq m e m' e'
  generalize quotientExponent m e m' e' = g at hexponent ⊢
  rw [grid_eq]
  by_cases hlow : g ≤ -1074
  · omega
  · have hlog : m'.log2 + 53 ≤ m.log2 + (e - e' - g).toNat := by omega
    have hbits : 2 ^ 52 * m' ≤ m <<< (e - e' - g).toNat := by
      calc 2 ^ 52 * m' ≤ 2 ^ 52 * 2 ^ (m'.log2 + 1) := Nat.mul_le_mul_left _ Nat.lt_log2_self.le
        _ = 2 ^ (m'.log2 + 53) := by rw [← pow_add]; congr 1; omega
        _ ≤ 2 ^ (m.log2 + (e - e' - g).toNat) := Nat.pow_le_pow_right two_pos hlog
        _ ≤ m <<< (e - e' - g).toNat := by
          rw [Nat.shiftLeft_eq, pow_add]
          exact Nat.mul_le_mul_right _ (Nat.log2_self_le hpos.ne')
    have hquotient := (Nat.le_div_iff_mul_le hpos').mpr hbits
    have hlog2 := (Nat.le_log2 (k := 52) (Nat.ne_of_gt (lt_of_lt_of_le (by decide) hquotient))).mpr
      hquotient
    omega

/-- What the integer division finds there, with its remainder. -/
theorem quotient_value {m m' : ℕ} {e e' g : ℤ} (hpos' : 0 < m') (hle : g ≤ e - e') :
    (m : ℝ) * 2 ^ e / (m' * 2 ^ e') = (((m <<< (e - e' - g).toNat) / m' : ℕ) +
      ((m <<< (e - e' - g).toNat) % m' : ℕ) / m') * 2 ^ g := by
  have hm' : (m' : ℝ) ≠ 0 := Nat.cast_ne_zero.mpr hpos'.ne'
  have hparts : (m' : ℝ) * ((m <<< (e - e' - g).toNat) / m' : ℕ) +
      ((m <<< (e - e' - g).toNat) % m' : ℕ) = (m <<< (e - e' - g).toNat : ℕ) := by
    exact_mod_cast Nat.div_add_mod _ _
  have hshift : ((m <<< (e - e' - g).toNat : ℕ) : ℝ) = m * 2 ^ (e - e' - g) := by
    rw [Nat.shiftLeft_eq, Nat.cast_mul, Nat.cast_pow, ← zpow_natCast,
      Int.toNat_of_nonneg (Int.sub_nonneg_of_le hle)]
    rfl
  rw [hshift] at hparts
  calc (m : ℝ) * 2 ^ e / (m' * 2 ^ e') = m * 2 ^ (e - e' - g) / m' * 2 ^ g := by
        rw [mul_div_mul_comm, ← zpow_sub₀ two_ne_zero, mul_div_right_comm, mul_assoc,
          ← zpow_add₀ two_ne_zero, sub_add_cancel]
    _ = _ := by
        rw [← hparts, add_div, mul_div_cancel_left₀ _ hm']

theorem Means.div (hu : Means u a) (hw : Means w b) (hb : b ≠ 0) (hlimit : |a / b| ≤ 2 ^ 1000) :
    ∃ r, Rounds (a / b) r ∧ Means (UnpackedFloat.div Format.binary64 u w) r := by
  cases hw with
  | zero s' => exact absurd rfl hb
  | finite s' m' e' hpos' hlt' hlow' hhigh' hfull' =>
    cases hu with
    | zero s =>
      refine ⟨0, ?_, .zero _⟩
      rw [zero_div]
      exact .refl 0
    | finite s m e hpos hlt hlow hhigh hfull =>
      have hle : quotientExponent m e m' e' ≤ e - e' := by
        rw [quotientExponent_eq]
        omega
      rw [signed_div_signed, signed_abs] at hlimit
      rw [signed_div_signed]
      obtain ⟨r, hround, hmeans⟩ := rounds_means (s / s') (rests_fraction (Nat.mod_lt _ hpos'))
        (quotient_full hpos hpos') (quotient_value hpos' hle) (le_of_abs_le hlimit)
      exact ⟨_, rounds_signed (s / s') hround, hmeans⟩

/-- The conversion to an integer type drops the bits below the unit. -/
theorem Means.toInt (hu : Means u a) (hnonneg : 0 ≤ a) (lo hi : ℤ) : u.toInt lo hi = ⌊a⌋ := by
  cases hu with
  | zero s => exact Int.floor_zero.symm
  | finite s m e hpos hlt hlow hhigh hfull =>
    have hvalue : (0 : ℝ) < m * 2 ^ e := by positivity
    cases s with
    | negative =>
      rw [signed] at hnonneg
      linarith
    | positive =>
      have hexp : (decreaseExponent m e 0).2 = -((0 - (decreaseExponent m e 0).2).toNat : ℤ) := by
        change e - ((e - 0).toNat : ℤ) = -((0 - (e - ((e - 0).toNat : ℤ))).toNat : ℤ)
        omega
      have hshift := ((show Rests .exact 0 from rfl).extends (decreaseExponent m e 0).1).shiftRight
        (0 - (decreaseExponent m e 0).2).toNat
      have hreal : ((decreaseExponent m e 0).1 + 0 : ℝ) / 2 ^ (0 - (decreaseExponent m e 0).2).toNat =
          m * 2 ^ e := by
        rw [← decreaseExponent_value m (e := e) (g := 0), hexp, zpow_neg, zpow_natCast, add_zero,
          ← hexp]
        rfl
      rw [hreal] at hshift
      rw [signed, hshift.floor]
      rfl

theorem Means.toInt64 (hu : Means u a) (hnonneg : 0 ≤ a) (hlt : a < 2 ^ 63) :
    u.toInt64.toInt = ⌊a⌋ := by
  have hlow : 0 ≤ ⌊a⌋ := Int.floor_nonneg.mpr hnonneg
  have hhigh : ⌊a⌋ < 2 ^ 63 := by
    rw [Int.floor_lt]
    exact_mod_cast hlt
  rw [UnpackedFloat.toInt64, hu.toInt hnonneg]
  exact Int64.toInt_ofIntClamp (by rw [Int64.toInt_minValue]; omega)
    (by rw [Int64.toInt_maxValue]; omega)

theorem ofInt_means {n : ℤ} (h : |n| ≤ 2 ^ 53) : Means (UnpackedFloat.ofInt Format.binary64 n) n := by
  have hvalue : (n : ℝ) * 2 ^ (0 : ℤ) = n := by rw [zpow_zero, mul_one]
  have hlimit : |(n : ℝ) * 2 ^ (0 : ℤ)| ≤ 2 ^ 1000 := by
    rw [hvalue]
    have hreal : |(n : ℝ)| ≤ 2 ^ 53 := by exact_mod_cast h
    exact hreal.trans (pow_le_pow_right₀ one_le_two (by norm_num))
  obtain ⟨r, hround, hmeans⟩ := normalize_means .positive hlimit
  rw [hvalue] at hround
  rw [← hround.exact (representable_int h)]
  exact hmeans

theorem reads_pack (h : Means u a) : Means (Float.ofModel (.pack u)).toModel.unpack a := by
  change Means (UnpackedFloat.unpack Format.binary64 (UnpackedFloat.pack Format.binary64 u)) a
  rw [h.unpack_pack]
  exact h

end Binary64

/-- The laws hold of the doubles of the machine. -/
instance : RoundedDouble Float where
  Reads x a := Binary64.Means x.toModel.unpack a
  ofInt n h := Binary64.reads_pack (Binary64.ofInt_means h)
  add hx hy hlimit := by
    obtain ⟨r, hround, hmeans⟩ := hx.add hy hlimit
    exact ⟨r, hround, Binary64.reads_pack hmeans⟩
  sub hx hy hlimit := by
    obtain ⟨r, hround, hmeans⟩ := hx.sub hy hlimit
    exact ⟨r, hround, Binary64.reads_pack hmeans⟩
  mul hx hy hlimit := by
    obtain ⟨r, hround, hmeans⟩ := hx.mul hy hlimit
    exact ⟨r, hround, Binary64.reads_pack hmeans⟩
  div hx hy hne hlimit := by
    obtain ⟨r, hround, hmeans⟩ := hx.div hy hne hlimit
    exact ⟨r, hround, Binary64.reads_pack hmeans⟩
  trunc hx hnonneg hlt := hx.toInt64 hnonneg hlt

end Wei.Lib