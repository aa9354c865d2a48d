import Mathlib.Data.List.Rotate
import Mathlib.Data.List.FinRange
import Mathlib.Data.Nat.ModEq
import Mathlib.Logic.Function.Basic

/-!
# Ring windows

A ring keeps the last `k` values pushed into it: `head` is the next cell to
write and `fill` counts the live cells up to `k`. `Represents r xs` says that
`r` is what pushing `xs`, oldest first, leaves behind. The live cells are then
the last `min xs.length k` values up to order, and the two index rules read
their newest and oldest member.
-/
namespace Wei.Lib

structure Ring (α : Type*) (k : Nat) where
  buf : Fin k → α
  head : Fin k
  fill : Nat
  fill_le : fill ≤ k

namespace Ring

variable {α : Type*} {k : Nat} [NeZero k]

def empty (z : α) : Ring α k where
  buf := fun _ => z
  head := 0
  fill := 0
  fill_le := Nat.zero_le k

def push (r : Ring α k) (v : α) : Ring α k where
  buf := Function.update r.buf r.head v
  head := ⟨(r.head + 1) % k, Nat.mod_lt _ (Nat.pos_of_neZero k)⟩
  fill := if r.fill < k then r.fill + 1 else r.fill
  fill_le := by have := r.fill_le; split <;> omega

theorem fill_push (r : Ring α k) (v : α) :
    (r.push v).fill = if r.fill < k then r.fill + 1 else r.fill := rfl

/-- The live cells in index order. -/
def contents (r : Ring α k) : List α := ((List.finRange k).take r.fill).map r.buf

def newest (r : Ring α k) : Fin k := ⟨(r.head + k - 1) % k, Nat.mod_lt _ (Nat.pos_of_neZero k)⟩

def oldest (r : Ring α k) : Fin k := if r.fill < k then 0 else r.head

/-- The last `k` values of a history, or all of them when there are fewer. -/
def window (k : Nat) (xs : List α) : List α := xs.drop (xs.length - k)

structure Represents (r : Ring α k) (xs : List α) : Prop where
  head_eq : r.head.val = xs.length % k
  fill_eq : r.fill = min xs.length k
  cells : ∀ (j : Nat) (hj : j < xs.length), xs.length ≤ j + k →
    r.buf ⟨j % k, Nat.mod_lt _ (Nat.pos_of_neZero k)⟩ = xs[j]

theorem represents_empty (z : α) : Represents (empty z : Ring α k) [] where
  head_eq := by simp [empty]
  fill_eq := by simp [empty]
  cells := fun j hj => absurd hj (Nat.not_lt_zero j)

theorem represents_push {r : Ring α k} {xs : List α} (h : Represents r xs) (v : α) :
    Represents (r.push v) (xs ++ [v]) where
  head_eq := by simp [push, h.head_eq]
  fill_eq := by
    have hf := h.fill_eq
    simp only [push, List.length_append, List.length_singleton]
    split <;> omega
  cells := by
    intro j hj hk
    simp only [List.length_append, List.length_singleton] at hj hk
    by_cases hlast : j = xs.length
    · subst hlast
      have hidx : (⟨xs.length % k, Nat.mod_lt _ (Nat.pos_of_neZero k)⟩ : Fin k) = r.head :=
        Fin.ext h.head_eq.symm
      simp [push, hidx]
    · have hlt : j < xs.length := by omega
      have hne : (⟨j % k, Nat.mod_lt _ (Nat.pos_of_neZero k)⟩ : Fin k) ≠ r.head := by
        intro he
        have hmod : j % k = xs.length % k := by rw [← h.head_eq, ← he]
        -- two counters less than a full turn apart cannot share a cell
        have hdvd := (Nat.modEq_iff_dvd' hlt.le).mp hmod
        have := Nat.le_of_dvd (by omega) hdvd
        omega
      have hbuf : (r.push v).buf ⟨j % k, Nat.mod_lt _ (Nat.pos_of_neZero k)⟩ =
          r.buf ⟨j % k, Nat.mod_lt _ (Nat.pos_of_neZero k)⟩ := Function.update_of_ne hne _ _
      rw [hbuf, h.cells j hlt (by omega), List.getElem_append_left hlt]

theorem represents_ne_nil {r : Ring α k} {xs : List α} (h : Represents r xs) :
    r.fill = 0 ↔ xs = [] := by
  have hf := h.fill_eq
  have hk := Nat.pos_of_neZero k
  rw [← List.length_eq_zero_iff]
  omega

omit [NeZero k] in
theorem length_window (xs : List α) : (window k xs).length = min xs.length k := by
  simp only [window, List.length_drop]
  omega

/-- Once the ring is full its cells are the window, turned by `head`. -/
theorem window_eq_rotate {r : Ring α k} {xs : List α} (h : Represents r xs)
    (hfull : k ≤ xs.length) : window k xs = (List.ofFn r.buf).rotate r.head.val := by
  apply List.ext_getElem
  · simp only [length_window, List.length_rotate, List.length_ofFn]
    omega
  · intro i hi _
    rw [length_window] at hi
    have hik : i < k := by omega
    rw [List.getElem_rotate, List.getElem_ofFn]
    simp only [window, List.getElem_drop, List.length_ofFn]
    rw [← h.cells (xs.length - k + i) (by omega) (by omega)]
    congr 2
    rw [h.head_eq, Nat.add_mod_mod]
    have hsplit : xs.length - k + i + k = i + xs.length := by omega
    rw [← Nat.add_mod_right, hsplit]

theorem represents_foldl (z : α) (xs : List α) :
    Represents (xs.foldl push (empty z : Ring α k)) xs := by
  induction xs using List.reverseRecOn with
  | nil => exact represents_empty z
  | append_singleton xs v ih =>
    rw [List.foldl_append]
    exact represents_push ih v

theorem contents_of_full {r : Ring α k} {xs : List α} (h : Represents r xs) (hfull : k ≤ xs.length) :
    r.contents = List.ofFn r.buf := by
  have hf := h.fill_eq
  rw [contents, List.take_of_length_le (by rw [List.length_finRange]; omega), List.ofFn_eq_map]

theorem contents_of_short {r : Ring α k} {xs : List α} (h : Represents r xs)
    (hshort : ¬ k ≤ xs.length) : r.contents = window k xs := by
  have hf := h.fill_eq
  apply List.ext_getElem
  · simp only [contents, List.length_map, List.length_take, List.length_finRange, length_window]
    omega
  · intro i hi _
    simp only [contents, List.length_map, List.length_take, List.length_finRange] at hi
    have hmod : i % k = i := Nat.mod_eq_of_lt (by omega)
    have hc := h.cells i (by omega) (by omega)
    simp only [hmod] at hc
    simpa [contents, window, show xs.length - k = 0 by omega] using hc

theorem contents_perm {r : Ring α k} {xs : List α} (h : Represents r xs) :
    r.contents.Perm (window k xs) := by
  by_cases hfull : k ≤ xs.length
  · rw [contents_of_full h hfull, window_eq_rotate h hfull]
    exact (List.rotate_perm _ _).symm
  · rw [contents_of_short h hfull]

/-- The history decides the live cells, in index order. -/
theorem Represents.contents_eq {r r' : Ring α k} {xs : List α} (h : Represents r xs)
    (h' : Represents r' xs) : r.contents = r'.contents := by
  by_cases hfull : k ≤ xs.length
  · have hturned := (window_eq_rotate h hfull).symm.trans (window_eq_rotate h' hfull)
    rw [h.head_eq, h'.head_eq] at hturned
    rw [contents_of_full h hfull, contents_of_full h' hfull]
    exact List.rotate_injective _ hturned
  · rw [contents_of_short h hfull, contents_of_short h' hfull]

omit [NeZero k] in
theorem length_contents (r : Ring α k) : r.contents.length = r.fill := by
  have := r.fill_le
  simp [contents]
  omega

theorem newest_val {r : Ring α k} {xs : List α} (h : Represents r xs) (hne : xs ≠ []) :
    r.newest.val = (xs.length - 1) % k := by
  have hpos : 0 < xs.length := List.length_pos_iff.mpr hne
  have hk := Nat.pos_of_neZero k
  change (r.head.val + k - 1) % k = (xs.length - 1) % k
  rw [h.head_eq]
  have hdiv := Nat.div_add_mod xs.length k
  have hlt := Nat.mod_lt xs.length hk
  by_cases hz : xs.length % k = 0
  · have hq : 0 < xs.length / k := by
      rcases Nat.eq_zero_or_pos (xs.length / k) with h0 | h0
      · rw [h0] at hdiv; omega
      · exact h0
    have hsub : xs.length - 1 = (k - 1) + k * (xs.length / k - 1) := by
      have hmul : k * (xs.length / k) = k * (xs.length / k - 1) + k := by
        rw [← Nat.mul_succ]; congr 1; omega
      omega
    rw [hz, hsub, Nat.add_mul_mod_self_left, Nat.zero_add]
  · have hsub : xs.length - 1 = (xs.length % k - 1) + k * (xs.length / k) := by omega
    have hadd : xs.length % k + k - 1 = (xs.length % k - 1) + k := by omega
    rw [hsub, Nat.add_mul_mod_self_left, hadd, Nat.add_mod_right]

theorem buf_newest {r : Ring α k} {xs : List α} (h : Represents r xs) (hne : xs ≠ []) :
    r.buf r.newest = xs.getLast hne := by
  have hpos : 0 < xs.length := List.length_pos_iff.mpr hne
  have hk := Nat.pos_of_neZero k
  rw [List.getLast_eq_getElem, ← h.cells (xs.length - 1) (by omega) (by omega)]
  exact congrArg r.buf (Fin.ext (newest_val h hne))

/-- The oldest value is the first of the window. -/
theorem buf_oldest {r : Ring α k} {xs : List α} (h : Represents r xs) (hne : xs ≠ []) :
    (window k xs).head? = some (r.buf r.oldest) := by
  have hpos : 0 < xs.length := List.length_pos_iff.mpr hne
  have hk := Nat.pos_of_neZero k
  have hf := h.fill_eq
  have hfirst : xs.length - k < xs.length := by omega
  rw [window, List.head?_drop, List.getElem?_eq_getElem hfirst,
    ← h.cells (xs.length - k) hfirst (by omega)]
  congr 2
  apply Fin.ext
  unfold oldest
  by_cases hlt : r.fill < k
  · rw [if_pos hlt]
    have hz : xs.length - k = 0 := by omega
    simp [hz]
  · rw [if_neg hlt, h.head_eq]
    have hle : k ≤ xs.length := by omega
    exact (Nat.mod_eq_sub_mod hle).symm

/-- The newest value can be rewritten in place. -/
theorem represents_amend {r : Ring α k} {xs : List α} {v : α} (h : Represents r (xs ++ [v]))
    (w : α) :
    Represents { r with buf := Function.update r.buf r.newest w } (xs ++ [w]) where
  head_eq := by simpa using h.head_eq
  fill_eq := by simpa using h.fill_eq
  cells := by
    intro j hj hk
    have hcells := h.cells j (by simpa using hj) (by simpa using hk)
    have hnewest := newest_val h (by simp)
    simp only [List.length_append, List.length_singleton, Nat.add_sub_cancel] at hj hk hnewest
    by_cases hlast : j = xs.length
    · subst hlast
      have hidx : (⟨xs.length % k, Nat.mod_lt _ (Nat.pos_of_neZero k)⟩ : Fin k) = r.newest :=
        Fin.ext hnewest.symm
      simp [hidx]
    · have hlt : j < xs.length := by omega
      have hne : (⟨j % k, Nat.mod_lt _ (Nat.pos_of_neZero k)⟩ : Fin k) ≠ r.newest := by
        intro he
        have hmod : j % k = xs.length % k := by rw [← hnewest, ← he]
        have hdvd := (Nat.modEq_iff_dvd' hlt.le).mp hmod
        have := Nat.le_of_dvd (by omega) hdvd
        omega
      dsimp only
      rw [Function.update_of_ne hne, hcells, List.getElem_append_left hlt,
        List.getElem_append_left hlt]

end Ring

end Wei.Lib
