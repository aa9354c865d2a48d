import Mathlib.Logic.Relation

/-!
# A loop that ends from inside

The body of an endless loop takes a state and either goes on from a new one or
returns. `run` gives it a number of turns; a measure that every further turn
decreases bounds the turns it needs, and more of them change nothing.
-/
namespace Wei.Lib.Turns

variable {σ ρ : Type*} (turn : σ → σ ⊕ ρ)

/-- The loop with at most so many turns; `none` if it has not returned by then. -/
def run : Nat → σ → Option ρ
  | 0, _ => none
  | fuel + 1, s =>
    match turn s with
    | .inl s' => run fuel s'
    | .inr r => some r

/-- The loop goes on from `s` with `s'`. -/
def Again (s s' : σ) : Prop := turn s = .inl s'

/-- `s'` is the state before some turn of the loop entered at `s`. -/
abbrev Reaches : σ → σ → Prop := Relation.ReflTransGen (Again turn)

variable {turn} {Inv : σ → Prop}

theorem run_again {s s' : σ} (h : turn s = .inl s') (fuel : Nat) :
    run turn (fuel + 1) s = run turn fuel s' := by
  rw [run, h]

theorem run_return {s : σ} {r : ρ} (h : turn s = .inr r) (fuel : Nat) :
    run turn (fuel + 1) s = some r := by
  rw [run, h]

theorem run_congr {s s' : σ} (h : turn s = turn s') (fuel : Nat) :
    run turn fuel s = run turn fuel s' := by
  cases fuel with
  | zero => rfl
  | succ fuel => rw [run, h, ← run]

/-- More turns change nothing once the loop has returned. -/
theorem run_mono {fuel fuel' : Nat} {s : σ} {r : ρ} (h : run turn fuel s = some r)
    (hle : fuel ≤ fuel') : run turn fuel' s = some r := by
  induction fuel generalizing fuel' s with
  | zero => cases h
  | succ fuel ih =>
    obtain ⟨fuel', rfl⟩ : ∃ k, fuel' = k + 1 := ⟨fuel' - 1, by omega⟩
    cases hturn : turn s with
    | inl s' =>
      rw [run_again hturn] at h ⊢
      exact ih h (by omega)
    | inr r' =>
      rw [run_return hturn] at h ⊢
      exact h

/-- An invariant of the turns holds before each of them. -/
theorem reaches_inv (again : ∀ s s', Inv s → turn s = .inl s' → Inv s') {s s' : σ} (h : Inv s)
    (hreaches : Reaches turn s s') : Inv s' := by
  induction hreaches with
  | refl => exact h
  | tail _ hlast ih => exact again _ _ ih hlast

/-- Total correctness: with an invariant, and a measure that every further turn
decreases, the loop returns, and what it returns does not depend on the turns it
is given. -/
theorem run_total (left : σ → Nat) {Post : ρ → Prop}
    (again : ∀ s s', Inv s → turn s = .inl s' → Inv s' ∧ left s' < left s)
    (done : ∀ s r, Inv s → turn s = .inr r → Post r) {s : σ} (h : Inv s) :
    ∃ r, (∀ fuel, left s < fuel → run turn fuel s = some r) ∧ Post r := by
  induction hn : left s using Nat.strongRecOn generalizing s with
  | ind n ih =>
    subst hn
    cases hturn : turn s with
    | inl s' =>
      obtain ⟨hinv, hlt⟩ := again s s' h hturn
      obtain ⟨r, hrun, hpost⟩ := ih (left s') hlt hinv rfl
      refine ⟨r, fun fuel hfuel => ?_, hpost⟩
      cases fuel with
      | zero => omega
      | succ fuel => exact (run_again hturn fuel).trans (hrun fuel (by omega))
    | inr r =>
      refine ⟨r, fun fuel hfuel => ?_, done s r h hturn⟩
      cases fuel with
      | zero => omega
      | succ fuel => exact run_return hturn fuel

end Wei.Lib.Turns
