import Mathlib.Data.Finmap
import Mathlib.Data.Fintype.Card
import Mathlib.Order.Lattice.Nat

/-!
# Cells and the table that owns them

A heap of cells of one kind, and a table of pointers into it. An access through an
address that is not live has no result. `Owned` says that every pointer of the table
is live, that no two are alike, and that every other live cell is lost: nothing in the
table leads to it. What the pointers lead to is the view of the table.
-/
namespace Wei.Lib.Ownership

/-- The live cells by their addresses. -/
abbrev Cells (α κ : Type*) := Finmap fun _ : α => κ

/-- Where the allocator puts a cell, by the requests so far and what is live: never
over a live one. -/
structure Placement (α : Type*) where
  place : Nat → Finset α → α
  fresh : ∀ n live, place n live ∉ live

/-- Addresses are numbers: one above all that are live. -/
instance : Inhabited (Placement Nat) where
  default.place _ live := live.sup id + 1
  default.fresh _ live h := by
    have hle : live.sup id + 1 ≤ live.sup id := Finset.le_sup (f := id) h
    omega

section Access

variable {α κ : Type*} [DecidableEq α]

def store (cells : Cells α κ) (a : α) (content : κ) : Option (Cells α κ) :=
  if a ∈ cells then some (cells.insert a content) else none

/-- `free`, which lets `NULL` pass. -/
def free (cells : Cells α κ) : Option α → Option (Cells α κ)
  | none => some cells
  | some a => if a ∈ cells then some (cells.erase a) else none

theorem store_live {cells : Cells α κ} {a : α} (h : a ∈ cells) (content : κ) :
    store cells a content = some (cells.insert a content) := if_pos h

theorem free_live {cells : Cells α κ} {a : α} (h : a ∈ cells) :
    free cells (some a) = some (cells.erase a) := if_pos h

end Access

variable {ι α κ : Type*} [DecidableEq α]

/-- What the pointers of a table lead to. -/
def view (own : ι → Option α) (cells : Cells α κ) (i : ι) : Option κ := (own i).bind cells.lookup

structure Owned (own : ι → Option α) (cells : Cells α κ) (lost : Finset α) : Prop where
  live : ∀ {i a}, own i = some a → a ∈ cells
  inj : ∀ {i j a}, own i = some a → own j = some a → i = j
  kept : ∀ {i a}, own i = some a → a ∉ lost
  lost_live : ∀ {a}, a ∈ lost → a ∈ cells
  all : ∀ {a}, a ∈ cells → a ∈ lost ∨ ∃ i, own i = some a

section Owned

variable {own : ι → Option α} {cells : Cells α κ} {lost : Finset α}

theorem view_none {i : ι} (h : own i = none) : view own cells i = none := by rw [view, h]; rfl

/-- A live pointer leads to a content. -/
theorem Owned.view_some (h : Owned own cells lost) {i : ι} {a : α} (hi : own i = some a) :
    ∃ content, cells.lookup a = some content ∧ view own cells i = some content := by
  obtain ⟨content, hcontent⟩ := Finmap.mem_iff.mp (h.live hi)
  exact ⟨content, hcontent, by rw [view, hi]; exact hcontent⟩

theorem Owned.view_isSome (h : Owned own cells lost) (i : ι) :
    (view own cells i).isSome = (own i).isSome := by
  cases hi : own i with
  | none =>
    rw [view_none hi]
    rfl
  | some a =>
    obtain ⟨content, _, hview⟩ := h.view_some hi
    rw [hview, Option.isSome_some, Option.isSome_some]

/-! ## The accesses -/

variable [DecidableEq ι]

theorem Owned.acquire (h : Owned own cells lost) {i : ι} (hi : own i = none) {a : α}
    (ha : a ∉ cells) (content : κ) :
    Owned (Function.update own i (some a)) (cells.insert a content) lost := by
  have hother : ∀ {j b}, Function.update own i (some a) j = some b →
      (j = i ∧ b = a) ∨ own j = some b := by
    intro j b hj
    by_cases hji : j = i
    · subst hji
      rw [Function.update_self] at hj
      exact Or.inl ⟨rfl, (Option.some.inj hj).symm⟩
    · rw [Function.update_of_ne hji] at hj
      exact Or.inr hj
  constructor
  · intro j b hj
    rw [Finmap.mem_insert]
    rcases hother hj with ⟨_, hb⟩ | hj
    · exact Or.inl hb
    · exact Or.inr (h.live hj)
  · intro j k b hj hk
    rcases hother hj with ⟨hj, hb⟩ | hj <;> rcases hother hk with ⟨hk, hb'⟩ | hk
    · exact hj.trans hk.symm
    · exact absurd (hb ▸ h.live hk) ha
    · exact absurd (hb' ▸ h.live hj) ha
    · exact h.inj hj hk
  · intro j b hj hlost
    rcases hother hj with ⟨_, hb⟩ | hj
    · exact ha (hb ▸ h.lost_live hlost)
    · exact h.kept hj hlost
  · intro b hb
    exact Finmap.mem_insert.mpr (Or.inr (h.lost_live hb))
  · intro b hb
    rcases Finmap.mem_insert.mp hb with rfl | hb
    · exact Or.inr ⟨i, Function.update_self _ _ _⟩
    · refine (h.all hb).imp_right fun ⟨j, hj⟩ => ⟨j, ?_⟩
      have hji : j ≠ i := by
        rintro rfl
        rw [hi] at hj
        cases hj
      rw [Function.update_of_ne hji, hj]

theorem Owned.view_acquire (h : Owned own cells lost) (i : ι) {a : α} (ha : a ∉ cells)
    (content : κ) : view (Function.update own i (some a)) (cells.insert a content) =
      Function.update (view own cells) i (some content) := by
  funext j
  by_cases hji : j = i
  · subst hji
    rw [Function.update_self, view, Function.update_self]
    exact Finmap.lookup_insert _
  · rw [Function.update_of_ne hji, view, Function.update_of_ne hji, view]
    cases hj : own j with
    | none => rfl
    | some b => exact Finmap.lookup_insert_of_ne _ fun hb => ha (hb ▸ h.live hj)

theorem Owned.release (h : Owned own cells lost) {i : ι} {a : α} (hi : own i = some a) :
    Owned (Function.update own i none) (cells.erase a) lost := by
  have hother : ∀ {j b}, Function.update own i none j = some b → own j = some b ∧ b ≠ a := by
    intro j b hj
    have hji : j ≠ i := by
      rintro rfl
      rw [Function.update_self] at hj
      cases hj
    rw [Function.update_of_ne hji] at hj
    exact ⟨hj, fun hb => hji (h.inj hj (hb ▸ hi))⟩
  constructor
  · intro j b hj
    obtain ⟨hj, hb⟩ := hother hj
    exact Finmap.mem_erase.mpr ⟨hb, h.live hj⟩
  · intro j k b hj hk
    exact h.inj (hother hj).1 (hother hk).1
  · intro j b hj
    exact h.kept (hother hj).1
  · intro b hb
    exact Finmap.mem_erase.mpr ⟨fun he => h.kept hi (he ▸ hb), h.lost_live hb⟩
  · intro b hb
    obtain ⟨hne, hb⟩ := Finmap.mem_erase.mp hb
    refine (h.all hb).imp_right fun ⟨j, hj⟩ => ⟨j, ?_⟩
    have hji : j ≠ i := by
      rintro rfl
      exact hne (Option.some.inj (hj.symm.trans hi))
    rw [Function.update_of_ne hji, hj]

theorem Owned.view_release (h : Owned own cells lost) {i : ι} {a : α} (hi : own i = some a) :
    view (Function.update own i none) (cells.erase a) = Function.update (view own cells) i none := by
  funext j
  by_cases hji : j = i
  · subst hji
    rw [Function.update_self, view_none (Function.update_self _ _ _)]
  · rw [Function.update_of_ne hji, view, Function.update_of_ne hji, view]
    cases hj : own j with
    | none => rfl
    | some b => exact Finmap.lookup_erase_ne fun hb => hji (h.inj hj (hb ▸ hi))

omit [DecidableEq ι] in
theorem Owned.store (h : Owned own cells lost) {i : ι} {a : α} (hi : own i = some a)
    (content : κ) : Owned own (cells.insert a content) lost := by
  have hmem : ∀ b, b ∈ cells.insert a content ↔ b ∈ cells := by
    intro b
    rw [Finmap.mem_insert]
    exact or_iff_right_of_imp fun hb => hb ▸ h.live hi
  exact ⟨fun hj => (hmem _).mpr (h.live hj), h.inj, h.kept, fun hb => (hmem _).mpr (h.lost_live hb),
    fun hb => h.all ((hmem _).mp hb)⟩

theorem Owned.view_store (h : Owned own cells lost) {i : ι} {a : α} (hi : own i = some a)
    (content : κ) :
    view own (cells.insert a content) = Function.update (view own cells) i (some content) := by
  funext j
  by_cases hji : j = i
  · subst hji
    rw [Function.update_self, view, hi]
    exact Finmap.lookup_insert _
  · rw [Function.update_of_ne hji, view, view]
    cases hj : own j with
    | none => rfl
    | some b => exact Finmap.lookup_insert_of_ne _ fun hb => hji (h.inj hj (hb ▸ hi))

omit [DecidableEq ι] [DecidableEq α] in
/-- A table that is wiped loses every cell. -/
theorem owned_wiped (cells : Cells α κ) :
    Owned (fun _ : ι => (none : Option α)) cells cells.keys where
  live h := by cases h
  inj h := by cases h
  kept h := by cases h
  lost_live ha := Finmap.mem_keys.mp ha
  all ha := Or.inl (Finmap.mem_keys.mpr ha)

omit [DecidableEq ι] in
/-- The live cells are those in the table and the lost ones. -/
theorem Owned.card [Fintype ι] (h : Owned own cells lost) :
    cells.keys.card = (Finset.univ.filter fun i => (own i).isSome = true).card + lost.card := by
  have hsub : lost ⊆ cells.keys := fun a ha => Finmap.mem_keys.mpr (h.lost_live ha)
  rw [← Finset.card_sdiff_add_card_eq_card hsub, Nat.add_right_cancel_iff]
  symm
  refine Finset.card_bij (fun i hi => (own i).get (Finset.mem_filter.mp hi).2) ?_ ?_ ?_
  · intro i hi
    have hget := (Option.some_get (Finset.mem_filter.mp hi).2).symm
    exact Finset.mem_sdiff.mpr ⟨Finmap.mem_keys.mpr (h.live hget), h.kept hget⟩
  · intro i hi j hj heq
    have hget := (Option.some_get (Finset.mem_filter.mp hi).2).symm
    have hget' := (Option.some_get (Finset.mem_filter.mp hj).2).symm
    exact h.inj hget (heq ▸ hget')
  · intro a ha
    obtain ⟨hlive, hkept⟩ := Finset.mem_sdiff.mp ha
    obtain ⟨i, hi⟩ := (h.all (Finmap.mem_keys.mp hlive)).resolve_left hkept
    refine ⟨i, Finset.mem_filter.mpr ⟨Finset.mem_univ i, by rw [hi]; rfl⟩, ?_⟩
    simp [hi]

end Owned

end Wei.Lib.Ownership
