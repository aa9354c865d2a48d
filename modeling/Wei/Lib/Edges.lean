import Mathlib.Data.List.Destutter

/-!
# The changes of a sequence

What a watcher that starts from `a` and speaks up at every change says of a sequence
is its `destutter'` by inequality. It grows by what the last element adds.
-/
namespace Wei.Lib.Edges

variable {α : Type*} [DecidableEq α]

/-- The watcher ends where the sequence does. -/
theorem getLast?_destutter' (a : α) (l : List α) :
    (l.destutter' (· ≠ ·) a).getLast? = some (l.getLast?.getD a) := by
  induction l generalizing a with
  | nil => rfl
  | cons b l ih =>
    rw [List.getLast?_cons, Option.getD_some]
    by_cases h : a = b
    · subst h
      rw [List.destutter'_cons_neg _ (by simp), ih]
    · rw [List.destutter'_cons_pos _ h, List.getLast?_cons, ih, Option.getD_some]

theorem destutter'_concat (a b : α) (l : List α) :
    (l ++ [b]).destutter' (· ≠ ·) a =
      l.destutter' (· ≠ ·) a ++ if l.getLast?.getD a = b then [] else [b] := by
  induction l generalizing a with
  | nil =>
    by_cases h : a = b
    · simp [h]
    · simp [h]
  | cons c l ih =>
    rw [List.cons_append, List.getLast?_cons, Option.getD_some]
    by_cases h : a = c
    · subst h
      rw [List.destutter'_cons_neg _ (by simp), List.destutter'_cons_neg _ (by simp), ih]
    · rw [List.destutter'_cons_pos _ h, List.destutter'_cons_pos _ h, ih, List.cons_append]

end Wei.Lib.Edges
