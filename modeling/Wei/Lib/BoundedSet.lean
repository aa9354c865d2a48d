import Mathlib.Data.Finset.Card

/-!
# Sets of bounded size

A set of at most `n` members. Adding is refused when the set is full or the
environment does not grant it; a refused addition changes nothing.
-/
namespace Wei.Lib

@[ext] structure BoundedSet (κ : Type*) (n : Nat) where
  members : Finset κ
  card_le : members.card ≤ n

namespace BoundedSet

variable {κ : Type*} [DecidableEq κ] {n : Nat} {s : BoundedSet κ n} {k : κ} {granted : Bool}

def empty : BoundedSet κ n := ⟨∅, Nat.zero_le n⟩

/-- Whether an addition goes through. -/
def Admits (s : BoundedSet κ n) (k : κ) (granted : Bool) : Prop :=
  k ∉ s.members ∧ s.members.card < n ∧ granted = true

instance (s : BoundedSet κ n) (k : κ) (granted : Bool) : Decidable (s.Admits k granted) :=
  inferInstanceAs (Decidable (_ ∧ _ ∧ _))

def add (s : BoundedSet κ n) (k : κ) (granted : Bool) : BoundedSet κ n :=
  if h : s.Admits k granted then
    ⟨insert k s.members, by rw [Finset.card_insert_of_notMem h.1]; exact h.2.1⟩
  else s

def remove (s : BoundedSet κ n) (k : κ) : BoundedSet κ n :=
  ⟨s.members.erase k, Finset.card_erase_le.trans s.card_le⟩

theorem add_members (h : s.Admits k granted) : (s.add k granted).members = insert k s.members := by
  rw [add, dif_pos h]

theorem add_refused (h : ¬ s.Admits k granted) : s.add k granted = s := dif_neg h

@[simp] theorem remove_members : (s.remove k).members = s.members.erase k := rfl

theorem remove_of_notMem (h : k ∉ s.members) : s.remove k = s :=
  BoundedSet.ext (Finset.erase_eq_of_notMem h)

end BoundedSet

end Wei.Lib
