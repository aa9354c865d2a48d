import Mathlib.Data.Finset.Prod
import Mathlib.Data.Finset.Card
import Mathlib.Data.Finset.Range
import Mathlib.Data.Finset.Lattice.Basic
import Mathlib.Data.List.Basic

/-!
# Maximal runs in a sequence of observations

A run is a maximal block of consecutive observations that satisfy `P`. A run is
closed by the first later observation that does not satisfy `P`, and open when
the sequence ends inside it. The lemmas say how the runs change when one
observation is appended; nothing here depends on what is observed.
-/
namespace Wei.Lib.Runs

open scoped Classical

variable {α : Type*} (P : α → Prop)

/-- Observation `i` exists and satisfies `P`. -/
def At (xs : List α) (i : Nat) : Prop := ∃ a, xs[i]? = some a ∧ P a

/-- A run begins at `i`. -/
def Onset (xs : List α) (i : Nat) : Prop := At P xs i ∧ (i = 0 ∨ ¬ At P xs (i - 1))

/-- The run that began at `i` lasts to the end of the sequence. -/
structure Open (xs : List α) (i : Nat) : Prop where
  lt : i < xs.length
  onset : Onset P xs i
  inside : ∀ k, i ≤ k → k < xs.length → At P xs k

/-- The observations `i, …, j - 1` are a run and observation `j` closes it. -/
structure Closed (xs : List α) (i j : Nat) : Prop where
  lt : i < j
  bound : j < xs.length
  onset : Onset P xs i
  inside : ∀ k, i ≤ k → k < j → At P xs k
  stop : ¬ At P xs j

/-- The number of runs. -/
noncomputable def onsets (xs : List α) : Nat :=
  ((Finset.range xs.length).filter (Onset P xs)).card

/-- Start and closing index of every closed run. -/
noncomputable def closedRuns (xs : List α) : Finset (Nat × Nat) :=
  (Finset.range xs.length ×ˢ Finset.range xs.length).filter (fun r => Closed P xs r.1 r.2)

variable {P} {xs : List α} {x : α} {i j : Nat}

theorem at_append_of_lt (hi : i < xs.length) : At P (xs ++ [x]) i ↔ At P xs i := by
  rw [At, At, List.getElem?_append_left hi]

theorem at_append_length : At P (xs ++ [x]) xs.length ↔ P x := by
  simp [At]

theorem onset_append_of_lt (hi : i < xs.length) : Onset P (xs ++ [x]) i ↔ Onset P xs i := by
  rw [Onset, Onset, at_append_of_lt hi, at_append_of_lt (by omega)]

theorem open_unique (hi : Open P xs i) (hj : Open P xs j) : i = j := by
  rcases Nat.lt_trichotomy i j with h | h | h
  · rcases hj.onset.2 with h0 | h0
    · omega
    · exact absurd (hi.inside (j - 1) (by omega) (by have := hj.lt; omega)) h0
  · exact h
  · rcases hi.onset.2 with h0 | h0
    · omega
    · exact absurd (hj.inside (i - 1) (by omega) (by have := hi.lt; omega)) h0

theorem not_open_nil : ¬ Open P ([] : List α) i := fun h => absurd h.lt (Nat.not_lt_zero i)

/-- A run that was open goes on. -/
theorem open_append_of_open (hx : P x) (h : Open P xs i) : Open P (xs ++ [x]) i where
  lt := by have := h.lt; simp; omega
  onset := (onset_append_of_lt h.lt).mpr h.onset
  inside := by
    intro k hk hlt
    simp only [List.length_append, List.length_singleton] at hlt
    rcases Nat.lt_succ_iff_lt_or_eq.mp hlt with hlt | rfl
    · exact (at_append_of_lt hlt).mpr (h.inside k hk hlt)
    · exact at_append_length.mpr hx

/-- Some run is open exactly when the last observation satisfies `P`. -/
theorem exists_open_append_iff : (∃ i, Open P (xs ++ [x]) i) ↔ P x := by
  constructor
  · rintro ⟨i, h⟩
    have hi := h.lt
    simp only [List.length_append, List.length_singleton] at hi
    exact at_append_length.mp (h.inside xs.length (by omega) (by simp))
  · induction xs using List.reverseRecOn generalizing x with
    | nil =>
      intro hx
      refine ⟨0, ⟨by simp, ⟨by simpa [At] using hx, Or.inl rfl⟩, ?_⟩⟩
      intro k _ hk
      have hk0 : k = 0 := by simpa using hk
      subst hk0
      simpa [At] using hx
    | append_singleton ys y ih =>
      intro hx
      by_cases hy : P y
      · obtain ⟨i, hi⟩ := ih hy
        exact ⟨i, open_append_of_open hx hi⟩
      · refine ⟨(ys ++ [y]).length, ⟨by simp, ⟨at_append_length.mpr hx, Or.inr ?_⟩, ?_⟩⟩
        · rw [at_append_of_lt (by simp)]
          have hlen : (ys ++ [y]).length - 1 = ys.length := by simp
          rw [hlen, at_append_length]
          exact hy
        · intro k hk hlt
          have hkl : k = (ys ++ [y]).length := by
            rw [@List.length_append _ (ys ++ [y]), List.length_singleton] at hlt
            omega
          rw [hkl]
          exact at_append_length.mpr hx

/-- A new run begins at the end exactly when no run was open there. -/
theorem onset_append_length : Onset P (xs ++ [x]) xs.length ↔ P x ∧ ¬ ∃ i, Open P xs i := by
  rw [Onset, at_append_length]
  refine and_congr_right fun _ => ?_
  induction xs using List.reverseRecOn with
  | nil => simp [not_open_nil]
  | append_singleton ys y _ =>
    rw [at_append_of_lt (by simp)]
    have hlen : (ys ++ [y]).length - 1 = ys.length := by simp
    rw [hlen, at_append_length, exists_open_append_iff]
    simp

theorem open_append_of_not_open (hx : P x) (h : ¬ ∃ i, Open P xs i) :
    Open P (xs ++ [x]) xs.length where
  lt := by simp
  onset := onset_append_length.mpr ⟨hx, h⟩
  inside := by
    intro k hk hlt
    have hkl : k = xs.length := by
      rw [List.length_append, List.length_singleton] at hlt
      omega
    rw [hkl]
    exact at_append_length.mpr hx

theorem not_open_append (hx : ¬ P x) : ¬ ∃ i, Open P (xs ++ [x]) i := by
  rw [exists_open_append_iff]
  exact hx

theorem closed_append_iff_of_lt (hj : j < xs.length) :
    Closed P (xs ++ [x]) i j ↔ Closed P xs i j := by
  constructor
  · intro h
    have hi := h.lt
    exact ⟨h.lt, hj, (onset_append_of_lt (by omega)).mp h.onset,
      fun k hk hlt => (at_append_of_lt (by omega)).mp (h.inside k hk hlt),
      fun hs => h.stop ((at_append_of_lt hj).mpr hs)⟩
  · intro h
    have hi := h.lt
    exact ⟨h.lt, by simp; omega, (onset_append_of_lt (by omega)).mpr h.onset,
      fun k hk hlt => (at_append_of_lt (by omega)).mpr (h.inside k hk hlt),
      fun hs => h.stop ((at_append_of_lt hj).mp hs)⟩

theorem closed_append_length : Closed P (xs ++ [x]) i xs.length ↔ ¬ P x ∧ Open P xs i := by
  constructor
  · intro h
    have hi := h.lt
    exact ⟨fun hx => h.stop (at_append_length.mpr hx),
      ⟨hi, (onset_append_of_lt hi).mp h.onset,
        fun k hk hlt => (at_append_of_lt hlt).mp (h.inside k hk hlt)⟩⟩
  · rintro ⟨hx, h⟩
    exact ⟨h.lt, by simp, (onset_append_of_lt h.lt).mpr h.onset,
      fun k hk hlt => (at_append_of_lt hlt).mpr (h.inside k hk hlt),
      fun hs => hx (at_append_length.mp hs)⟩

/-- Runs of a sequence that is a view of another are runs of the other. -/
theorem at_map {β : Type*} {Q : β → Prop} {f : β → α} {ys : List β}
    (h : ∀ y ∈ ys, P (f y) ↔ Q y) (i : Nat) : At P (ys.map f) i ↔ At Q ys i := by
  rw [At, At, List.getElem?_map]
  cases hy : ys[i]? with
  | none => simp
  | some y => simp [h y (List.mem_of_getElem? hy)]

theorem open_map {β : Type*} {Q : β → Prop} {f : β → α} {ys : List β}
    (h : ∀ y ∈ ys, P (f y) ↔ Q y) : Open P (ys.map f) i ↔ Open Q ys i := by
  constructor
  · rintro ⟨hlt, honset, hinside⟩
    rw [List.length_map] at hlt
    refine ⟨hlt, ?_, fun k hk hlt => (at_map h k).mp (hinside k hk (by rwa [List.length_map]))⟩
    rwa [Onset, at_map h, at_map h] at honset
  · rintro ⟨hlt, honset, hinside⟩
    refine ⟨by rwa [List.length_map], ?_, fun k hk hlt => (at_map h k).mpr (hinside k hk ?_)⟩
    · rwa [Onset, at_map h, at_map h]
    · rwa [List.length_map] at hlt

/-! ## Appending one observation -/

theorem onsets_nil : onsets P ([] : List α) = 0 := by simp [onsets]

theorem onsets_le_length : onsets P xs ≤ xs.length := by
  have h := Finset.card_filter_le (Finset.range xs.length) (Onset P xs)
  rwa [Finset.card_range] at h

theorem onsets_append : onsets P (xs ++ [x]) =
    onsets P xs + if P x ∧ ¬ ∃ i, Open P xs i then 1 else 0 := by
  have hold : (Finset.range xs.length).filter (Onset P (xs ++ [x])) =
      (Finset.range xs.length).filter (Onset P xs) := by
    apply Finset.filter_congr
    intro i hi
    exact onset_append_of_lt (Finset.mem_range.mp hi)
  rw [onsets, List.length_append, List.length_singleton, Finset.range_add_one,
    Finset.filter_insert]
  by_cases h : P x ∧ ¬ ∃ i, Open P xs i
  · rw [if_pos (onset_append_length.mpr h), if_pos h, Finset.card_insert_of_notMem (by simp), hold]
    rfl
  · rw [if_neg (fun ho => h (onset_append_length.mp ho)), if_neg h, hold]
    rfl

theorem mem_closedRuns {r : Nat × Nat} : r ∈ closedRuns P xs ↔ Closed P xs r.1 r.2 := by
  rw [closedRuns, Finset.mem_filter, Finset.mem_product, Finset.mem_range, Finset.mem_range]
  exact ⟨fun h => h.2, fun h => ⟨⟨h.lt.trans h.bound, h.bound⟩, h⟩⟩

theorem closedRuns_nil : closedRuns P ([] : List α) = ∅ := by simp [closedRuns]

theorem mem_closedRuns_append {r : Nat × Nat} : r ∈ closedRuns P (xs ++ [x]) ↔
    r ∈ closedRuns P xs ∨ (r.2 = xs.length ∧ ¬ P x ∧ Open P xs r.1) := by
  rw [mem_closedRuns, mem_closedRuns]
  constructor
  · intro h
    have hb := h.bound
    rw [List.length_append, List.length_singleton] at hb
    by_cases hj : r.2 = xs.length
    · rw [hj] at h
      exact Or.inr ⟨hj, closed_append_length.mp h⟩
    · exact Or.inl ((closed_append_iff_of_lt (by omega)).mp h)
  · rintro (h | ⟨hj, h⟩)
    · exact (closed_append_iff_of_lt h.bound).mpr h
    · rw [hj]
      exact closed_append_length.mpr h

/-- Only an observation that ends an open run closes one. -/
theorem closedRuns_append_of_none (h : P x ∨ ¬ ∃ i, Open P xs i) :
    closedRuns P (xs ++ [x]) = closedRuns P xs := by
  ext r
  rw [mem_closedRuns_append]
  constructor
  · rintro (hr | ⟨_, hx, ho⟩)
    · exact hr
    · rcases h with hx' | hn
      · exact absurd hx' hx
      · exact absurd ⟨r.1, ho⟩ hn
  · exact Or.inl

theorem closedRuns_append_of_open (hx : ¬ P x) (h : Open P xs i) :
    closedRuns P (xs ++ [x]) = insert (i, xs.length) (closedRuns P xs) := by
  ext r
  rw [mem_closedRuns_append, Finset.mem_insert]
  constructor
  · rintro (hr | ⟨hj, _, ho⟩)
    · exact Or.inr hr
    · exact Or.inl (Prod.ext (open_unique ho h) hj)
  · rintro (rfl | hr)
    · exact Or.inr ⟨rfl, hx, h⟩
    · exact Or.inl hr

theorem not_mem_closedRuns_length : (i, xs.length) ∉ closedRuns P xs := by
  rw [mem_closedRuns]
  exact fun h => absurd h.bound (Nat.lt_irrefl _)

end Wei.Lib.Runs
