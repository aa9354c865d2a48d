import Mathlib.Data.List.Basic
import Mathlib.Data.List.Range

/-!
# Loads that may fault

A memory gives a byte or faults; code that loads from it is a function into
`Option`. A load that succeeds gives the same in every memory that extends the
one it was run in, and the loads of a copy succeed where its whole range may be
read.
-/
namespace Wei.Lib

/-- A memory; `none` where a load faults. -/
abbrev Mem := Nat → Option UInt8

namespace Mem

/-- The memory that holds some bytes from address 0 on, and no more. -/
def ofBytes (bytes : List UInt8) : Mem := fun i => bytes[i]?

/-- Wherever `m` may be read, `m'` reads the same. -/
def Extends (m m' : Mem) : Prop := ∀ i b, m i = some b → m' i = some b

/-- The `n` bytes from an address on. -/
def copy (m : Mem) (start n : Nat) : Option (List UInt8) := (List.range' start n).mapM m

section Loops

variable {α β : Type*} {f g : α → Option β}

theorem mapM_isSome_iff (xs : List α) : (xs.mapM f).isSome ↔ ∀ x ∈ xs, (f x).isSome := by
  induction xs with
  | nil => simp
  | cons x xs ih =>
    rw [List.mapM_cons, List.forall_mem_cons, ← ih]
    cases f x <;> cases xs.mapM f <;> simp

theorem mapM_mono {xs : List α} {ys : List β} (h : ∀ x y, f x = some y → g x = some y)
    (hf : xs.mapM f = some ys) : xs.mapM g = some ys := by
  induction xs generalizing ys with
  | nil => exact hf
  | cons x xs ih =>
    rw [List.mapM_cons] at hf ⊢
    obtain ⟨y, hy, hrest⟩ := Option.bind_eq_some_iff.mp hf
    obtain ⟨ys', hys', hcons⟩ := Option.bind_eq_some_iff.mp hrest
    exact Option.bind_eq_some_iff.mpr ⟨y, h x y hy,
      Option.bind_eq_some_iff.mpr ⟨ys', ih hys', hcons⟩⟩

end Loops

theorem copy_mono {m m' : Mem} (h : Extends m m') {start n : Nat} {bytes : List UInt8}
    (hm : m.copy start n = some bytes) : m'.copy start n = some bytes := mapM_mono h hm

theorem copy_isSome_iff (m : Mem) (start n : Nat) :
    (m.copy start n).isSome ↔ ∀ i ∈ List.range' start n, (m i).isSome := mapM_isSome_iff _

theorem ofBytes_isSome {bytes : List UInt8} {i : Nat} :
    (ofBytes bytes i).isSome ↔ i < bytes.length := by
  rw [ofBytes, Option.isSome_iff_ne_none, ne_eq, List.getElem?_eq_none_iff, Nat.not_le]

/-- A range that is not empty ends inside the bytes exactly when all of it does. -/
theorem range_within_iff {start n r : Nat} (hn : 0 < n) :
    (∀ i ∈ List.range' start n, i < r) ↔ start + n ≤ r := by
  constructor
  · intro h
    have hlast := h (start + (n - 1)) (List.mem_range'_1.mpr (by omega))
    omega
  · intro h i hi
    have hlt := (List.mem_range'_1.mp hi).2
    omega

end Mem

end Wei.Lib
