import Mathlib.Data.List.Induction

/-!
# A store that starts anew when it is full

Things are appended until their sizes reach a limit; the next one finds the store
full, and it is emptied first. What was appended falls into full blocks, which are
gone, and the open block that is kept.
-/
namespace Wei.Lib.Rotation

variable {β : Type*} (size : β → Nat) (most : Nat)

def total : List β → Nat
  | [] => 0
  | x :: xs => size x + total xs

@[simp] theorem total_concat (xs : List β) (x : β) :
    total size (xs ++ [x]) = total size xs + size x := by
  induction xs with
  | nil => exact Nat.add_comm _ _
  | cons y xs ih => rw [List.cons_append, total, ih, total, Nat.add_assoc]

/-- `x` is appended, to an empty store if it was full. -/
def put (kept : List β) (x : β) : List β :=
  if most ≤ total size kept then [x] else kept ++ [x]

/-- What the store holds after `xs`. -/
def kept (xs : List β) : List β := xs.foldl (put size most) []

theorem kept_concat (xs : List β) (x : β) :
    kept size most (xs ++ [x]) = put size most (kept size most xs) x := by
  rw [kept, List.foldl_append]
  rfl

/-- The last element went into a block that was not full. -/
def Open (block : List β) : Prop := total size block.dropLast < most

/-- A block that was closed by its last element. -/
def Full (block : List β) : Prop := Open size most block ∧ most ≤ total size block

variable {size most}

theorem Open.put (h : 0 < most) {block : List β} (x : β) :
    Open size most (put size most block x) := by
  unfold Rotation.put Open
  by_cases hfull : most ≤ total size block
  · rw [if_pos hfull]
    exact h
  · rw [if_neg hfull, List.dropLast_concat]
    omega

theorem kept_open (h : 0 < most) (xs : List β) : Open size most (kept size most xs) := by
  induction xs using List.reverseRecOn with
  | nil => exact h
  | append_singleton xs x _ =>
    rw [kept_concat]
    exact Open.put h x

/-- What was appended falls into full blocks and the one that is kept. -/
theorem kept_blocks (h : 0 < most) (xs : List β) : ∃ gone : List (List β),
    xs = gone.flatten ++ kept size most xs ∧ ∀ block ∈ gone, Full size most block := by
  induction xs using List.reverseRecOn with
  | nil => exact ⟨[], rfl, by simp⟩
  | append_singleton xs x ih =>
    obtain ⟨gone, hxs, hfull⟩ := ih
    rw [kept_concat, put]
    by_cases hnow : most ≤ total size (kept size most xs)
    · refine ⟨gone ++ [kept size most xs], ?_, ?_⟩
      · rw [if_pos hnow, List.flatten_append, List.flatten_singleton, ← hxs]
      · intro block hblock
        rcases List.mem_append.mp hblock with hold | hnew
        · exact hfull block hold
        · rw [List.mem_singleton.mp hnew]
          exact ⟨kept_open h xs, hnow⟩
    · refine ⟨gone, ?_, hfull⟩
      rw [if_neg hnow, ← List.append_assoc, ← hxs]

end Wei.Lib.Rotation
