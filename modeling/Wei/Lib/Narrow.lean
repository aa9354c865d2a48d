import Mathlib.Init

/-!
# Narrowing to 32 bits

A `uint32_t` read as an `int32_t` and the negation of an `int32_t`, by cases on
whether the value is still there: what the operation gives in every case, and
when it is exact.
-/
namespace Wei.Lib.Narrow

theorem toInt_toInt32 (x : UInt32) : x.toInt32.toInt =
    if x.toNat < 2147483648 then (x.toNat : Int) else (x.toNat : Int) - 4294967296 := by
  have hlt := x.toNat_lt
  have hcond : x.toInt32.toInt = if 2 * x.toNat < 2 ^ 32 then (x.toNat : Int)
      else (x.toNat : Int) - (2 ^ 32 : Nat) := BitVec.toInt_eq_toNat_cond x.toBitVec
  rw [hcond]
  split <;> split <;> omega

theorem toInt_neg (x : Int32) : (-x).toInt =
    if x.toInt = -2147483648 then -2147483648 else -x.toInt := by
  have hlow := x.le_toInt
  have hhigh := x.toInt_lt
  rw [Int32.toInt_neg, Int.bmod_def]
  split <;> split <;> omega

theorem toInt_eq_minValue_iff (x : Int32) : x.toInt = -2147483648 ↔ x = Int32.minValue :=
  ⟨fun h => Int32.toInt_inj.mp h, fun h => h ▸ rfl⟩

/-- The cast to `int32_t` keeps the value. -/
def CastExact (x : UInt32) : Prop := x.toInt32.toInt = x.toNat

/-- The negation does not overflow. -/
def NegExact (x : Int32) : Prop := (-x).toInt = -x.toInt

theorem castExact_iff (x : UInt32) : CastExact x ↔ x.toNat < 2147483648 := by
  rw [CastExact, toInt_toInt32]
  split <;> omega

theorem negExact_iff (x : Int32) : NegExact x ↔ x ≠ Int32.minValue := by
  rw [NegExact, toInt_neg, ne_eq, ← toInt_eq_minValue_iff]
  split <;> omega

end Wei.Lib.Narrow
