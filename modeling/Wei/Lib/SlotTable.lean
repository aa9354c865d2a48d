import Mathlib.Data.Fintype.Card
import Mathlib.Data.Finset.Card
import Mathlib.Data.Fintype.Basic
import Mathlib.Logic.Function.Basic

/-!
# Fixed tables of keyed slots

A table is an array of `n` records, each with an in-use mark and a key. A scan
walks it in index order: it stops at the slot that holds the key and otherwise
remembers the first free slot. Read through `lookup`, a table whose in-use keys
are distinct is a partial map with at most `n` keys; the lemmas say what a
write at a scanned slot, a write in place and a pointwise release do to it.
-/
namespace Wei.Lib.SlotTable

/-- A record that can sit in a slot. -/
class Keyed (σ : Type*) (κ : outParam Type*) where
  inUse : σ → Bool
  key : σ → κ

export Keyed (inUse key)

/-- What one walk over the table finds. -/
inductive Scan (n : Nat) where
  | hit (i : Fin n)
  | free (i : Fin n)
  | full
  deriving DecidableEq

variable {σ κ : Type*} [Keyed σ κ] [DecidableEq κ] {n : Nat}

/-- The walk over the remaining indices; `slot` is the first free slot so far. -/
def scanFrom (t : Fin n → σ) (k : κ) : List (Fin n) → Option (Fin n) → Scan n
  | [], some f => .free f
  | [], none => .full
  | i :: is, slot =>
    if inUse (t i) then
      if key (t i) = k then .hit i else scanFrom t k is slot
    else scanFrom t k is (slot.or (some i))

def scan (t : Fin n → σ) (k : κ) : Scan n := scanFrom t k (List.finRange n) none

/-- Slot `i` is in use for key `k`. -/
def Holds (t : Fin n → σ) (k : κ) (i : Fin n) : Prop := inUse (t i) = true ∧ key (t i) = k

/-- No key sits in two slots. -/
def Distinct (t : Fin n → σ) : Prop := ∀ k i j, Holds t k i → Holds t k j → i = j

/-- A slot that a record for `k` may be written to without duplicating `k`. -/
def CanPut (t : Fin n → σ) (k : κ) (i : Fin n) : Prop :=
  Holds t k i ∨ (inUse (t i) = false ∧ ∀ j, ¬ Holds t k j)

/-- The record held for `k`, as the scan finds it. -/
def lookup (t : Fin n → σ) (k : κ) : Option σ :=
  match scan t k with
  | .hit i => some (t i)
  | _ => none

/-- The keys in use. -/
def keys (t : Fin n → σ) : Finset κ :=
  (Finset.univ.filter (fun i => inUse (t i) = true)).image (fun i => key (t i))

/-- The number of slots in use. -/
def inUseCount (t : Fin n → σ) : Nat := (Finset.univ.filter (fun i => inUse (t i) = true)).card

/-- Release every in-use record that `drop` selects, leaving `z i` in slot `i`. -/
def release (drop : σ → Bool) (z t : Fin n → σ) : Fin n → σ :=
  fun i => if inUse (t i) && drop (t i) then z i else t i

/-! ## What the scan finds -/

/-- The outcome of a walk over `is` that starts with `slot` remembered. -/
def ScanSpec (t : Fin n → σ) (k : κ) (is : List (Fin n)) (slot : Option (Fin n)) :
    Scan n → Prop
  | .hit i => Holds t k i
  | .free f => (∀ j ∈ is, ¬ Holds t k j) ∧ (slot = some f ∨ inUse (t f) = false)
  | .full => slot = none ∧ ∀ j ∈ is, inUse (t j) = true ∧ key (t j) ≠ k

theorem scanFrom_spec (t : Fin n → σ) (k : κ) (is : List (Fin n)) (slot : Option (Fin n)) :
    ScanSpec t k is slot (scanFrom t k is slot) := by
  induction is generalizing slot with
  | nil => cases slot <;> simp [scanFrom, ScanSpec]
  | cons i is ih =>
    rw [scanFrom]
    by_cases hu : inUse (t i) = true
    · by_cases hk : key (t i) = k
      · rw [if_pos hu, if_pos hk]
        exact ⟨hu, hk⟩
      · rw [if_pos hu, if_neg hk]
        have h := ih slot
        cases hs : scanFrom t k is slot with
        | hit j => rw [hs] at h; exact h
        | free f =>
          rw [hs] at h
          refine ⟨?_, h.2⟩
          intro j hj
          rcases List.mem_cons.mp hj with rfl | hj
          · exact fun hh => hk hh.2
          · exact h.1 j hj
        | full =>
          rw [hs] at h
          refine ⟨h.1, ?_⟩
          intro j hj
          rcases List.mem_cons.mp hj with rfl | hj
          · exact ⟨hu, hk⟩
          · exact h.2 j hj
    · rw [if_neg hu]
      have h := ih (slot.or (some i))
      cases hs : scanFrom t k is (slot.or (some i)) with
      | hit j => rw [hs] at h; exact h
      | free f =>
        rw [hs] at h
        refine ⟨?_, ?_⟩
        · intro j hj
          rcases List.mem_cons.mp hj with rfl | hj
          · exact fun hh => hu hh.1
          · exact h.1 j hj
        · rcases h.2 with h | h
          · cases slot with
            | none => right; simp at h; subst h; simpa using hu
            | some g => left; simpa using h
          · exact Or.inr h
      | full => rw [hs] at h; cases slot <;> simp [ScanSpec] at h

theorem scan_hit {t : Fin n → σ} {k : κ} {i : Fin n} (h : scan t k = .hit i) : Holds t k i := by
  have hs := scanFrom_spec t k (List.finRange n) none
  rw [show scanFrom t k (List.finRange n) none = .hit i from h] at hs
  exact hs

theorem scan_free {t : Fin n → σ} {k : κ} {i : Fin n} (h : scan t k = .free i) :
    inUse (t i) = false ∧ ∀ j, ¬ Holds t k j := by
  have hs := scanFrom_spec t k (List.finRange n) none
  rw [show scanFrom t k (List.finRange n) none = .free i from h] at hs
  obtain ⟨habsent, hfree⟩ := hs
  exact ⟨by simpa using hfree, fun j => habsent j (List.mem_finRange j)⟩

theorem scan_full {t : Fin n → σ} {k : κ} (h : scan t k = .full) :
    ∀ j, inUse (t j) = true ∧ key (t j) ≠ k := by
  have hs := scanFrom_spec t k (List.finRange n) none
  rw [show scanFrom t k (List.finRange n) none = .full from h] at hs
  exact fun j => hs.2 j (List.mem_finRange j)

/-- The scan passes free slots, so a held key is always found. -/
theorem scanFrom_vacant {t : Fin n → σ} (h : ∀ i, inUse (t i) = false) (k : κ) (is : List (Fin n))
    (f : Fin n) : scanFrom t k is (some f) = .free f := by
  induction is with
  | nil => rfl
  | cons i is ih => simpa [scanFrom, h i] using ih

/-- The scan of a vacant table finds its first slot. -/
theorem scan_vacant {t : Fin n → σ} (h : ∀ i, inUse (t i) = false) (k : κ) {i : Fin n}
    (hi : i.val = 0) : scan t k = .free i := by
  cases n with
  | zero => exact i.elim0
  | succ n =>
    obtain rfl : i = 0 := Fin.ext hi
    simp only [scan, List.finRange_succ, scanFrom, h, Bool.false_eq_true, if_false, Option.none_or]
    exact scanFrom_vacant h k _ 0

theorem scan_of_holds {t : Fin n → σ} (hd : Distinct t) {k : κ} {i : Fin n}
    (h : Holds t k i) : scan t k = .hit i := by
  cases hs : scan t k with
  | hit j => rw [hd k j i (scan_hit hs) h]
  | free f => exact absurd h ((scan_free hs).2 i)
  | full => exact absurd h.2 (scan_full hs i).2

theorem canPut_of_hit {t : Fin n → σ} {k : κ} {i : Fin n} (h : scan t k = .hit i) :
    CanPut t k i := Or.inl (scan_hit h)

theorem canPut_of_free {t : Fin n → σ} {k : κ} {i : Fin n} (h : scan t k = .free i) :
    CanPut t k i := Or.inr (scan_free h)

/-! ## The table as a partial map -/

theorem lookup_of_holds {t : Fin n → σ} (hd : Distinct t) {k : κ} {i : Fin n}
    (h : Holds t k i) : lookup t k = some (t i) := by
  rw [lookup, scan_of_holds hd h]

theorem lookup_of_absent {t : Fin n → σ} {k : κ} (h : ∀ i, ¬ Holds t k i) :
    lookup t k = none := by
  rw [lookup]
  cases hs : scan t k with
  | hit i => exact absurd (scan_hit hs) (h i)
  | free f => rfl
  | full => rfl

theorem holds_of_lookup {t : Fin n → σ} {k : κ} {s : σ} (h : lookup t k = some s) :
    ∃ i, Holds t k i ∧ t i = s := by
  rw [lookup] at h
  cases hs : scan t k with
  | hit i => rw [hs] at h; exact ⟨i, scan_hit hs, Option.some.inj h⟩
  | free f => rw [hs] at h; cases h
  | full => rw [hs] at h; cases h

theorem absent_of_lookup {t : Fin n → σ} (hd : Distinct t) {k : κ} (h : lookup t k = none) :
    ∀ i, ¬ Holds t k i := by
  intro i hi
  rw [lookup_of_holds hd hi] at h
  cases h

theorem key_of_lookup {t : Fin n → σ} {k : κ} {s : σ} (h : lookup t k = some s) :
    inUse s = true ∧ key s = k := by
  obtain ⟨i, hi, rfl⟩ := holds_of_lookup h
  exact hi

omit [DecidableEq κ] in
/-- A slot that is written for `k`: every other slot keeps what it held. -/
theorem holds_update_iff {t : Fin n → σ} {k k' : κ} {i j : Fin n} {s : σ}
    (hu : inUse s = true) (hk : key s = k) :
    Holds (Function.update t i s) k' j ↔ (j = i ∧ k' = k) ∨ (j ≠ i ∧ Holds t k' j) := by
  by_cases hj : j = i
  · subst hj
    constructor
    · exact fun h => Or.inl ⟨rfl, by simpa [Holds, hk] using h.2.symm⟩
    · rintro (⟨_, rfl⟩ | ⟨hne, _⟩)
      · simp [Holds, hu, hk]
      · exact absurd rfl hne
  · simp [Holds, hj]

section Put

variable {t : Fin n → σ} {k : κ} {i : Fin n} {s : σ}

omit [DecidableEq κ] in
theorem distinct_put (hd : Distinct t) (hc : CanPut t k i) (hu : inUse s = true)
    (hk : key s = k) : Distinct (Function.update t i s) := by
  intro k' a b ha hb
  rw [holds_update_iff hu hk] at ha hb
  have hother : ∀ j, j ≠ i → ¬ Holds t k j := by
    intro j hj hh
    rcases hc with hi | hi
    · exact hj (hd k j i hh hi)
    · exact hi.2 j hh
  rcases ha with ⟨rfl, rfl⟩ | ⟨hai, ha⟩
  · rcases hb with ⟨rfl, _⟩ | ⟨hbi, hb⟩
    · rfl
    · exact absurd hb (hother b hbi)
  · rcases hb with ⟨rfl, rfl⟩ | ⟨_, hb⟩
    · exact absurd ha (hother a hai)
    · exact hd k' a b ha hb

theorem lookup_put_self (hd : Distinct t) (hc : CanPut t k i) (hu : inUse s = true)
    (hk : key s = k) : lookup (Function.update t i s) k = some s := by
  have hh : Holds (Function.update t i s) k i := (holds_update_iff hu hk).mpr (Or.inl ⟨rfl, rfl⟩)
  rw [lookup_of_holds (distinct_put hd hc hu hk) hh, Function.update_self]

theorem lookup_put_of_ne (hd : Distinct t) (hc : CanPut t k i) (hu : inUse s = true)
    (hk : key s = k) {k' : κ} (hne : k' ≠ k) :
    lookup (Function.update t i s) k' = lookup t k' := by
  have hd' := distinct_put hd hc hu hk
  cases hl : lookup t k' with
  | some r =>
    obtain ⟨j, hj, rfl⟩ := holds_of_lookup hl
    have hji : j ≠ i := by
      rintro rfl
      rcases hc with hi | hi
      · exact hne (hj.2.symm.trans hi.2)
      · rw [Holds, hi.1] at hj
        exact absurd hj.1 (by simp)
    have hh : Holds (Function.update t i s) k' j := (holds_update_iff hu hk).mpr (Or.inr ⟨hji, hj⟩)
    rw [lookup_of_holds hd' hh, Function.update_of_ne hji]
  | none =>
    apply lookup_of_absent
    intro j hj
    rcases (holds_update_iff hu hk).mp hj with ⟨_, he⟩ | ⟨_, hj⟩
    · exact hne he
    · exact absent_of_lookup hd hl j hj

end Put

section Clear

variable {t : Fin n → σ} {k : κ} {i : Fin n} {s : σ}

omit [DecidableEq κ]

/-- A slot that is set free: every other slot keeps what it held. -/
theorem holds_clear_iff (hu : inUse s = false) {k' : κ} {j : Fin n} :
    Holds (Function.update t i s) k' j ↔ j ≠ i ∧ Holds t k' j := by
  by_cases hj : j = i
  · subst hj
    simp [Holds, hu]
  · simp [Holds, hj]

theorem distinct_clear (hd : Distinct t) (hu : inUse s = false) :
    Distinct (Function.update t i s) := by
  intro k' a b ha hb
  exact hd k' a b ((holds_clear_iff hu).mp ha).2 ((holds_clear_iff hu).mp hb).2

end Clear

section Congr

variable {t t' : Fin n → σ}

omit [DecidableEq κ]

theorem holds_congr (hu : ∀ i, inUse (t' i) = inUse (t i)) (hk : ∀ i, key (t' i) = key (t i))
    {k : κ} {i : Fin n} : Holds t' k i ↔ Holds t k i := by
  rw [Holds, Holds, hu, hk]

theorem distinct_congr (hu : ∀ i, inUse (t' i) = inUse (t i)) (hk : ∀ i, key (t' i) = key (t i))
    (hd : Distinct t) : Distinct t' :=
  fun k i j hi hj => hd k i j ((holds_congr hu hk).mp hi) ((holds_congr hu hk).mp hj)

end Congr

section Release

variable {drop : σ → Bool} {z : Fin n → σ}

omit [DecidableEq κ] in
theorem holds_release_iff (hz : ∀ i, inUse (z i) = false) {t : Fin n → σ} {k : κ} {i : Fin n} :
    Holds (release drop z t) k i ↔ Holds t k i ∧ drop (t i) = false := by
  unfold Holds release
  by_cases hu : inUse (t i) = true
  · by_cases hr : drop (t i) = true
    · simp [hu, hr, hz]
    · simp [hu, hr]
  · simp [hu]

omit [DecidableEq κ] in
theorem distinct_release (hz : ∀ i, inUse (z i) = false) {t : Fin n → σ} (hd : Distinct t) :
    Distinct (release drop z t) := by
  intro k i j hi hj
  exact hd k i j ((holds_release_iff hz).mp hi).1 ((holds_release_iff hz).mp hj).1

theorem lookup_release (hz : ∀ i, inUse (z i) = false) {t : Fin n → σ} (hd : Distinct t)
    (k : κ) : lookup (release drop z t) k = (lookup t k).filter (fun s => !drop s) := by
  cases hl : lookup t k with
  | none =>
    apply lookup_of_absent
    intro i hi
    exact absent_of_lookup hd hl i ((holds_release_iff hz).mp hi).1
  | some r =>
    obtain ⟨i, hi, rfl⟩ := holds_of_lookup hl
    by_cases hr : drop (t i) = true
    · rw [lookup_of_absent, Option.filter_some_neg (by simpa using hr)]
      · intro j hj
        obtain ⟨hj, hdj⟩ := (holds_release_iff hz).mp hj
        rw [hd k j i hj hi, hr] at hdj
        cases hdj
    · have hh : Holds (release drop z t) k i := (holds_release_iff hz).mpr ⟨hi, by simpa using hr⟩
      rw [lookup_of_holds (distinct_release hz hd) hh, Option.filter_some_pos (by simpa using hr)]
      simp [release, hr]

theorem keys_release_subset (hz : ∀ i, inUse (z i) = false) (t : Fin n → σ) :
    keys (release drop z t) ⊆ keys t := by
  intro x hx
  rw [keys, Finset.mem_image] at hx ⊢
  obtain ⟨i, hi, he⟩ := hx
  have hh : Holds (release drop z t) x i := ⟨(Finset.mem_filter.mp hi).2, he⟩
  obtain ⟨hi', _⟩ := (holds_release_iff hz).mp hh
  exact ⟨i, Finset.mem_filter.mpr ⟨Finset.mem_univ i, hi'.1⟩, hi'.2⟩

end Release

/-! ## Counting the slots in use -/

section Count

omit [DecidableEq κ]

theorem inUseCount_le (t : Fin n → σ) : inUseCount t ≤ n := by
  have h := Finset.card_filter_le (Finset.univ : Finset (Fin n)) (fun i => inUse (t i) = true)
  simpa [inUseCount] using h

theorem inUseCount_congr {t t' : Fin n → σ} (h : ∀ i, inUse (t' i) = inUse (t i)) :
    inUseCount t' = inUseCount t := by
  simp only [inUseCount, h]

theorem inUseCount_claim {t : Fin n → σ} {i : Fin n} {s : σ} (hf : inUse (t i) = false)
    (hu : inUse s = true) : inUseCount (Function.update t i s) = inUseCount t + 1 := by
  have hset : Finset.univ.filter (fun j => inUse (Function.update t i s j) = true) =
      insert i (Finset.univ.filter (fun j => inUse (t j) = true)) := by
    ext j
    by_cases hj : j = i
    · subst hj; simp [hu]
    · simp [hj]
  rw [inUseCount, hset, Finset.card_insert_of_notMem (by simp [hf]), inUseCount]

theorem inUseCount_free {t : Fin n → σ} {i : Fin n} {s : σ} (hu : inUse (t i) = true)
    (hf : inUse s = false) : inUseCount (Function.update t i s) + 1 = inUseCount t := by
  have h := inUseCount_claim (t := Function.update t i s) (i := i) (s := t i) (by simp [hf]) hu
  rw [Function.update_idem, Function.update_eq_self] at h
  exact h.symm

theorem inUseCount_lt_iff {t : Fin n → σ} :
    inUseCount t < n ↔ ∃ i, inUse (t i) = false := by
  constructor
  · intro h
    by_contra hno
    have hall : ∀ i, inUse (t i) = true := by
      intro i
      by_contra hi
      exact hno ⟨i, by simpa using hi⟩
    rw [inUseCount, Finset.filter_true_of_mem (fun i _ => hall i)] at h
    simp at h
  · rintro ⟨i, hi⟩
    by_contra hno
    have hle := inUseCount_le t
    have heq : (Finset.univ.filter (fun j => inUse (t j) = true)) = Finset.univ := by
      apply Finset.eq_univ_of_card
      rw [Fintype.card_fin]
      exact le_antisymm hle (not_lt.mp hno)
    have hi' : i ∈ Finset.univ.filter (fun j => inUse (t j) = true) := by rw [heq]; simp
    rw [Finset.mem_filter, hi] at hi'
    exact absurd hi'.2 (by simp)

end Count

/-! ## Capacity -/

theorem mem_keys_iff_holds {t : Fin n → σ} {k : κ} : k ∈ keys t ↔ ∃ i, Holds t k i := by
  simp [keys, Holds]

theorem mem_keys_iff {t : Fin n → σ} (hd : Distinct t) {k : κ} :
    k ∈ keys t ↔ (lookup t k).isSome = true := by
  rw [mem_keys_iff_holds]
  constructor
  · rintro ⟨i, hi⟩
    rw [lookup_of_holds hd hi]
    rfl
  · intro h
    obtain ⟨s, hs⟩ := Option.isSome_iff_exists.mp h
    obtain ⟨i, hi, _⟩ := holds_of_lookup hs
    exact ⟨i, hi⟩

theorem card_keys {t : Fin n → σ} (hd : Distinct t) : (keys t).card = inUseCount t := by
  apply Finset.card_image_of_injOn
  intro i hi j hj he
  simp only [Finset.coe_filter, Finset.mem_univ, true_and, Set.mem_ofPred_eq] at hi hj
  exact hd (key (t i)) i j ⟨hi, rfl⟩ ⟨hj, he.symm⟩

theorem card_keys_le {t : Fin n → σ} (hd : Distinct t) : (keys t).card ≤ n := by
  rw [card_keys hd]
  exact inUseCount_le t

/-- The scan gives up exactly when `n` other keys are in use. -/
theorem scan_full_iff {t : Fin n → σ} (hd : Distinct t) {k : κ} :
    scan t k = .full ↔ k ∉ keys t ∧ (keys t).card = n := by
  rw [card_keys hd]
  have hle := inUseCount_le t
  constructor
  · intro h
    have hall := scan_full h
    refine ⟨?_, ?_⟩
    · rw [mem_keys_iff_holds]
      rintro ⟨i, hi⟩
      exact (hall i).2 hi.2
    · have hnot : ¬ inUseCount t < n := by
        rw [inUseCount_lt_iff]
        rintro ⟨i, hi⟩
        rw [(hall i).1] at hi
        cases hi
      omega
  · rintro ⟨hk, hc⟩
    rw [mem_keys_iff_holds] at hk
    cases hs : scan t k with
    | hit i => exact absurd ⟨i, scan_hit hs⟩ hk
    | full => rfl
    | free f =>
      have hlt := inUseCount_lt_iff.mpr ⟨f, (scan_free hs).1⟩
      omega

/-- A key of a set with at most `n` members finds a slot in a table that
holds members of the set only. -/
theorem scan_ne_full {t : Fin n → σ} (hd : Distinct t) {S : Finset κ} (hS : keys t ⊆ S)
    (hcard : S.card ≤ n) {k : κ} (hk : k ∈ S) : scan t k ≠ .full := by
  intro h
  obtain ⟨hnot, hfull⟩ := (scan_full_iff hd).mp h
  have hsub : keys t ⊆ S.erase k := by
    intro x hx
    exact Finset.mem_erase.mpr ⟨fun he => hnot (he ▸ hx), hS hx⟩
  have hle := Finset.card_le_card hsub
  rw [Finset.card_erase_of_mem hk] at hle
  have hpos := Finset.card_pos.mpr ⟨k, hk⟩
  omega

theorem keys_put {t : Fin n → σ} {k : κ} {i : Fin n} {s : σ} (hc : CanPut t k i)
    (hu : inUse s = true) (hk : key s = k) :
    keys (Function.update t i s) = insert k (keys t) := by
  ext x
  rw [Finset.mem_insert, mem_keys_iff_holds, mem_keys_iff_holds]
  simp only [holds_update_iff hu hk]
  constructor
  · rintro ⟨j, ⟨_, rfl⟩ | ⟨_, hj⟩⟩
    · exact Or.inl rfl
    · exact Or.inr ⟨j, hj⟩
  · rintro (rfl | ⟨j, hj⟩)
    · exact ⟨i, Or.inl ⟨rfl, rfl⟩⟩
    · by_cases hji : j = i
      · subst hji
        rcases hc with hi | hi
        · exact ⟨j, Or.inl ⟨rfl, hj.2.symm.trans hi.2⟩⟩
        · rw [Holds, hi.1] at hj
          exact absurd hj.1 (by simp)
      · exact ⟨j, Or.inr ⟨hji, hj⟩⟩

theorem keys_clear {t : Fin n → σ} (hd : Distinct t) {k : κ} {i : Fin n} {s : σ}
    (h : Holds t k i) (hu : inUse s = false) :
    keys (Function.update t i s) = (keys t).erase k := by
  ext x
  rw [Finset.mem_erase, mem_keys_iff_holds, mem_keys_iff_holds]
  simp only [holds_clear_iff hu]
  constructor
  · rintro ⟨j, hj, hx⟩
    refine ⟨?_, j, hx⟩
    rintro rfl
    exact hj (hd x j i hx h)
  · rintro ⟨hne, j, hx⟩
    refine ⟨j, ?_, hx⟩
    rintro rfl
    exact hne (hx.2.symm.trans h.2)

theorem keys_congr {t t' : Fin n → σ} (hu : ∀ i, inUse (t' i) = inUse (t i))
    (hk : ∀ i, key (t' i) = key (t i)) : keys t' = keys t := by
  ext x
  rw [mem_keys_iff_holds, mem_keys_iff_holds]
  simp only [holds_congr hu hk]

end Wei.Lib.SlotTable
