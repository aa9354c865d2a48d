import Mathlib.Order.Lattice

/-!
# The first of the greatest

A scan that moves on to an element only if its value is strictly greater ends at
the first of the elements with the greatest value.
-/
namespace Wei.Lib

variable {ι α : Type*} [LinearOrder α]

/-- The element where a scan of `is` that stands at `w` ends. -/
def firstMax (f : ι → α) (w : ι) (is : List ι) : ι :=
  is.foldl (fun w i => if f w < f i then i else w) w

variable (f : ι → α)

theorem firstMax_append (w : ι) (is js : List ι) :
    firstMax f w (is ++ js) = firstMax f (firstMax f w is) js := List.foldl_append

theorem firstMax_mem (w : ι) (is : List ι) : firstMax f w is ∈ w :: is := by
  induction is generalizing w with
  | nil => exact List.mem_singleton_self w
  | cons i is ih =>
    have h := ih (if f w < f i then i else w)
    rw [List.mem_cons] at h ⊢
    rcases h with h | h
    · rw [List.mem_cons, firstMax, List.foldl_cons, ← firstMax, h]
      split
      · exact Or.inr (Or.inl rfl)
      · exact Or.inl rfl
    · exact Or.inr (List.mem_cons_of_mem i h)

/-- No element that was scanned exceeds the one where the scan ends. -/
theorem le_firstMax (w : ι) (is : List ι) : ∀ i ∈ w :: is, f i ≤ f (firstMax f w is) := by
  induction is generalizing w with
  | nil =>
    intro i hi
    rw [List.mem_singleton.mp hi]
    exact le_refl _
  | cons j is ih =>
    have h := ih (if f w < f j then j else w)
    have hstep : f w ≤ f (if f w < f j then j else w) ∧ f j ≤ f (if f w < f j then j else w) := by
      split
      next hlt => exact ⟨hlt.le, le_refl _⟩
      next hle => exact ⟨le_refl _, not_lt.mp hle⟩
    have hhere := h _ List.mem_cons_self
    intro i hi
    rcases List.mem_cons.mp hi with rfl | hi
    · exact hstep.1.trans hhere
    rcases List.mem_cons.mp hi with rfl | hi
    · exact hstep.2.trans hhere
    · exact h i (List.mem_cons_of_mem _ hi)

theorem firstMax_eq_self_iff (w : ι) (is : List ι) : firstMax f w is = w ↔ ∀ i ∈ is, f i ≤ f w := by
  constructor
  · intro h i hi
    have hle := le_firstMax f w is i (List.mem_cons_of_mem w hi)
    rw [h] at hle
    exact hle
  · intro h
    induction is with
    | nil => rfl
    | cons i is ih =>
      rw [firstMax, List.foldl_cons, if_neg (not_lt.mpr (h i List.mem_cons_self))]
      exact ih fun j hj => h j (List.mem_cons_of_mem i hj)

/-- The scan ends at `v` if `v` exceeds all before it, and nothing after it exceeds `v`. -/
theorem firstMax_eq_iff (w v : ι) {is js : List ι} (hnd : (w :: is ++ v :: js).Nodup) :
    firstMax f w (is ++ v :: js) = v ↔ (∀ i ∈ w :: is, f i < f v) ∧ ∀ i ∈ js, f i ≤ f v := by
  obtain ⟨_, hnd', hdisjoint⟩ := List.nodup_append.mp hnd
  have hjs : v ∉ js := (List.nodup_cons.mp hnd').1
  have hmem := firstMax_mem f w is
  have hle := le_firstMax f w is
  have hne : firstMax f w is ≠ v := hdisjoint _ hmem v List.mem_cons_self
  rw [firstMax_append]
  generalize firstMax f w is = u at hmem hle hne ⊢
  have hstep : firstMax f u (v :: js) = firstMax f (if f u < f v then v else u) js := rfl
  rw [hstep]
  by_cases hlt : f u < f v
  · rw [if_pos hlt, firstMax_eq_self_iff]
    exact (and_iff_right fun i hi => (hle i hi).trans_lt hlt).symm
  · rw [if_neg hlt]
    refine iff_of_false (fun h => ?_) fun h => hlt (h.1 u hmem)
    have hend := firstMax_mem f u js
    rw [h] at hend
    rcases List.mem_cons.mp hend with hv | hv
    · exact hne hv.symm
    · exact hjs hv

end Wei.Lib
