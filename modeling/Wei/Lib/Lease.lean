import Mathlib.Data.Finset.Basic
import Mathlib.Data.List.Count
import Mathlib.Logic.Function.Basic

/-!
# Acquired, used, released

A program that holds at most one resource of each kind. Its operations are kept in a
list that can be replayed: a replay stops short at the second resource of a kind, and
at one that is used or released although it is not held. A program state pairs the
operations so far with what the program's variables name.
-/
namespace Wei.Lib.Lease

variable {κ : Type*} [DecidableEq κ]

/-- A resource is named by its kind and its number. -/
inductive Op (κ : Type*) where
  | acquire (k : κ)
  | use (k : κ) (n : Nat)
  | release (k : κ) (n : Nat)

def Op.acquires (k : κ) : Op κ → Bool
  | .acquire k' => decide (k' = k)
  | _ => false

/-- How many of a kind were acquired so far. -/
def acquired (k : κ) (ops : List (Op κ)) : Nat := ops.countP (Op.acquires k)

structure Book (κ : Type*) where
  count : κ → Nat
  held : κ → Option Nat

def Book.step (b : Book κ) : Op κ → Option (Book κ)
  | .acquire k =>
    if b.held k = none then
      some ⟨Function.update b.count k (b.count k + 1), Function.update b.held k (some (b.count k))⟩
    else none
  | .use k n => if b.held k = some n then some b else none
  | .release k n =>
    if b.held k = some n then some { b with held := Function.update b.held k none } else none

def replay (ops : List (Op κ)) : Option (Book κ) :=
  ops.foldlM Book.step ⟨fun _ => 0, fun _ => none⟩

/-- The operations can be replayed, and leave this held. -/
def Holds (ops : List (Op κ)) (held : κ → Option Nat) : Prop :=
  ∃ b, replay ops = some b ∧ b.held = held ∧ ∀ k, b.count k = acquired k ops

theorem holds_nil : Holds ([] : List (Op κ)) fun _ => none := ⟨_, rfl, rfl, fun _ => rfl⟩

theorem Holds.congr {ops : List (Op κ)} {held held' : κ → Option Nat} (h : Holds ops held)
    (hheld : ∀ k, held' k = held k) : Holds ops held' := by
  rw [show held' = held from funext hheld]
  exact h

theorem replay_concat (ops : List (Op κ)) (op : Op κ) :
    replay (ops ++ [op]) = (replay ops).bind fun b => b.step op := by
  rw [replay, List.foldlM_append, replay]
  cases ops.foldlM Book.step (⟨fun _ => 0, fun _ => none⟩ : Book κ) <;> simp

theorem acquired_concat (k : κ) (ops : List (Op κ)) (op : Op κ) :
    acquired k (ops ++ [op]) = acquired k ops + if op.acquires k then 1 else 0 := by
  rw [acquired, List.countP_append, List.countP_singleton, acquired]

theorem Holds.acquire {ops : List (Op κ)} {held : κ → Option Nat} (h : Holds ops held) {k : κ}
    (hk : held k = none) :
    Holds (ops ++ [.acquire k]) (Function.update held k (some (acquired k ops))) := by
  obtain ⟨b, hb, rfl, hcount⟩ := h
  refine ⟨⟨Function.update b.count k (b.count k + 1),
    Function.update b.held k (some (acquired k ops))⟩, ?_, rfl, ?_⟩
  · rw [replay_concat, hb, Option.bind_some, Book.step, if_pos hk, hcount]
  · intro k'
    rw [acquired_concat, ← hcount k']
    by_cases hkk : k' = k
    · subst hkk
      simp [Op.acquires]
    · simp [Op.acquires, hkk, Ne.symm hkk]

theorem Holds.use {ops : List (Op κ)} {held : κ → Option Nat} (h : Holds ops held) {k : κ} {n : Nat}
    (hk : held k = some n) : Holds (ops ++ [.use k n]) held := by
  obtain ⟨b, hb, rfl, hcount⟩ := h
  refine ⟨b, ?_, rfl, fun k' => ?_⟩
  · rw [replay_concat, hb, Option.bind_some, Book.step, if_pos hk]
  · rw [acquired_concat, hcount k']
    rfl

theorem Holds.release {ops : List (Op κ)} {held : κ → Option Nat} (h : Holds ops held) {k : κ}
    {n : Nat} (hk : held k = some n) :
    Holds (ops ++ [.release k n]) (Function.update held k none) := by
  obtain ⟨b, hb, rfl, hcount⟩ := h
  refine ⟨{ b with held := Function.update b.held k none }, ?_, rfl, fun k' => ?_⟩
  · rw [replay_concat, hb, Option.bind_some, Book.step, if_pos hk]
  · rw [acquired_concat]
    exact hcount k'

/-- What a program did and what its variables name. -/
structure Sys (κ : Type*) where
  ops : List (Op κ)
  ptr : κ → Option Nat

namespace Sys

def empty : Sys κ := ⟨[], fun _ => none⟩

def acquire (k : κ) (s : Sys κ) : Sys κ :=
  ⟨s.ops ++ [.acquire k], Function.update s.ptr k (some (acquired k s.ops))⟩

/-- What the variable names is used, be it `NULL`. -/
def use (k : κ) (s : Sys κ) : Sys κ := { s with ops := s.ops ++ [.use k ((s.ptr k).getD 0)] }

/-- It is used if there is one. -/
def touch (k : κ) (s : Sys κ) : Sys κ := if (s.ptr k).isSome then s.use k else s

/-- It is released if there is one, and the variable cleared. -/
def release (k : κ) (s : Sys κ) : Sys κ :=
  match s.ptr k with
  | none => s
  | some n => ⟨s.ops ++ [.release k n], Function.update s.ptr k none⟩

/-- The variable goes, and what it names stays. -/
def lose (k : κ) (s : Sys κ) : Sys κ := { s with ptr := Function.update s.ptr k none }

/-- The program holds what its variables name, and what it has `gone` without releasing. -/
structure Sound (s : Sys κ) (gone : κ → Option Nat) : Prop where
  lost : ∀ k, gone k ≠ none → s.ptr k = none
  holds : Holds s.ops fun k => (s.ptr k).or (gone k)

variable {s : Sys κ} {gone : κ → Option Nat} {k : κ}

theorem sound_empty : (empty : Sys κ).Sound fun _ => none := ⟨fun _ _ => rfl, holds_nil⟩

theorem Sound.held (h : s.Sound gone) (hk : (s.ptr k).isSome) : gone k = none := by
  by_contra hgone
  rw [h.lost k hgone] at hk
  cases hk

theorem Sound.acquire (h : s.Sound gone) (hk : s.ptr k = none) (hgone : gone k = none) :
    (s.acquire k).Sound gone := by
  refine ⟨fun k' hk' => ?_, ?_⟩
  · have hne : k' ≠ k := by
      rintro rfl
      exact hk' hgone
    exact (Function.update_of_ne hne ..).trans (h.lost k' hk')
  · have hfree : (s.ptr k).or (gone k) = none := by rw [hk, hgone]; rfl
    refine (h.holds.acquire hfree).congr fun k' => ?_
    by_cases hkk : k' = k
    · subst hkk
      simp [Sys.acquire]
    · simp [Sys.acquire, hkk]

theorem Sound.use (h : s.Sound gone) (hk : (s.ptr k).isSome) : (s.use k).Sound gone := by
  obtain ⟨n, hn⟩ := Option.isSome_iff_exists.mp hk
  refine ⟨h.lost, h.holds.use ?_⟩
  rw [hn]
  rfl

theorem Sound.touch (h : s.Sound gone) (k : κ) : (s.touch k).Sound gone := by
  rw [Sys.touch]
  split
  next hk => exact h.use hk
  next => exact h

theorem Sound.release (h : s.Sound gone) (k : κ) : (s.release k).Sound gone := by
  rw [Sys.release]
  split
  next => exact h
  next n hk =>
    have hgone : gone k = none := h.held (by rw [hk]; rfl)
    refine ⟨fun k' hk' => ?_, ?_⟩
    · have hne : k' ≠ k := by
        rintro rfl
        exact hk' hgone
      exact (Function.update_of_ne hne ..).trans (h.lost k' hk')
    · have hheld : (s.ptr k).or (gone k) = some n := by rw [hk]; rfl
      refine (h.holds.release hheld).congr fun k' => ?_
      by_cases hkk : k' = k
      · subst hkk
        simp [hgone]
      · simp [hkk]

/-- A variable that is lost leaves its resource behind. -/
theorem Sound.lose (h : s.Sound gone) {n : Nat} (hk : s.ptr k = some n) :
    (s.lose k).Sound (Function.update gone k (some n)) := by
  have hgone : gone k = none := h.held (by rw [hk]; rfl)
  refine ⟨fun k' hk' => ?_, ?_⟩
  · by_cases hkk : k' = k
    · subst hkk
      exact Function.update_self ..
    · rw [Function.update_of_ne hkk] at hk'
      exact (Function.update_of_ne hkk ..).trans (h.lost k' hk')
  · refine h.holds.congr fun k' => ?_
    by_cases hkk : k' = k
    · subst hkk
      simp [Sys.lose, hk]
    · simp [Sys.lose, hkk]

omit [DecidableEq κ] in
@[simp] theorem ptr_touch : (s.touch k).ptr = s.ptr := by
  rw [touch]
  split <;> rfl

theorem ptr_acquire : (s.acquire k).ptr = Function.update s.ptr k (some (acquired k s.ops)) := rfl

@[simp] theorem ptr_release : (s.release k).ptr = Function.update s.ptr k none := by
  rw [release]
  split
  next h => rw [← h, Function.update_eq_self]
  next => rfl

/-- The variables of these kinds name something. -/
structure Owns (s : Sys κ) (gone : κ → Option Nat) (kinds : Finset κ) : Prop where
  sound : s.Sound gone
  owned : ∀ k, (s.ptr k).isSome ↔ k ∈ kinds

variable {kinds : Finset κ}

theorem owns_empty : (empty : Sys κ).Owns (fun _ => none) ∅ := ⟨sound_empty, by simp [empty]⟩

theorem Owns.acquire (h : s.Owns gone kinds) (hk : k ∉ kinds) (hgone : gone k = none) :
    (s.acquire k).Owns gone (insert k kinds) := by
  refine ⟨h.sound.acquire ?_ hgone, fun k' => ?_⟩
  · rw [← Option.not_isSome_iff_eq_none, h.owned]
    exact hk
  · rw [ptr_acquire, Finset.mem_insert, ← h.owned]
    by_cases hkk : k' = k
    · subst hkk
      simp
    · simp [hkk]

theorem Owns.use (h : s.Owns gone kinds) (hk : k ∈ kinds) : (s.use k).Owns gone kinds :=
  ⟨h.sound.use ((h.owned k).mpr hk), h.owned⟩

theorem Owns.touch (h : s.Owns gone kinds) (k : κ) : (s.touch k).Owns gone kinds :=
  ⟨h.sound.touch k, fun k' => by rw [ptr_touch, h.owned]⟩

theorem owned_cleared (h : s.Owns gone kinds) (k' : κ) :
    (Function.update s.ptr k none k').isSome ↔ k' ∈ kinds.erase k := by
  rw [Finset.mem_erase, ← h.owned]
  by_cases hkk : k' = k
  · subst hkk
    simp
  · simp [hkk]

theorem Owns.release (h : s.Owns gone kinds) (k : κ) : (s.release k).Owns gone (kinds.erase k) :=
  ⟨h.sound.release k, fun k' => by rw [ptr_release]; exact owned_cleared h k'⟩

theorem Owns.lose (h : s.Owns gone kinds) (hk : k ∈ kinds) :
    ∃ n, (s.lose k).Owns (Function.update gone k (some n)) (kinds.erase k) := by
  obtain ⟨n, hn⟩ := Option.isSome_iff_exists.mp ((h.owned k).mpr hk)
  exact ⟨n, h.sound.lose hn, owned_cleared h⟩

/-- A program that owns nothing any more holds what it left behind. -/
theorem Owns.holds (h : s.Owns gone ∅) : Holds s.ops gone := by
  refine h.sound.holds.congr fun k => ?_
  have hnone : s.ptr k = none := by
    rw [← Option.not_isSome_iff_eq_none, h.owned]
    exact Finset.notMem_empty k
  rw [hnone, Option.none_or]

end Sys

end Wei.Lib.Lease
