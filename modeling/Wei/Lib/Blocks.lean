import Mathlib.Data.List.Induction
import Mathlib.Data.List.TakeWhile

/-!
# The maximal blocks of a list

A block is a maximal stretch of elements that satisfy `p`. `blocks p xs` gives
every block by its first element and the element that ended it, if there is one.
The lemmas say how the blocks change when one element is appended.
-/
namespace Wei.Lib.Blocks

variable {α : Type*} {p : α → Bool}

def blocks (p : α → Bool) : List α → List (α × Option α)
  | [] => []
  | x :: xs =>
    if p x then (x, (xs.dropWhile p).head?) :: blocks p (xs.dropWhile p) else blocks p xs
termination_by xs => xs.length
decreasing_by
  · exact Nat.lt_succ_of_le (List.dropWhile_suffix p).length_le
  · exact Nat.lt_succ_self xs.length

/-- The list ends inside a block. -/
def endsInside (p : α → Bool) (xs : List α) : Bool := xs.getLast?.any p

theorem endsInside_concat (xs : List α) (x : α) : endsInside p (xs ++ [x]) = p x := by
  simp [endsInside]

theorem endsInside_cons_of_ne {x : α} {xs : List α} (h : xs ≠ []) :
    endsInside p (x :: xs) = endsInside p xs := by
  rw [endsInside, endsInside, List.getLast?_cons_of_ne_nil h]

theorem endsInside_dropWhile {xs : List α} (h : xs.dropWhile p ≠ []) :
    endsInside p (xs.dropWhile p) = endsInside p xs := by
  have hsuffix : xs.dropWhile p <:+ xs := List.dropWhile_suffix p
  rw [endsInside, endsInside, List.getLast?_eq_some_getLast h,
    List.getLast?_eq_some_getLast (hsuffix.ne_nil h), hsuffix.getLast h]

theorem endsInside_cons_false {x : α} (hx : p x = false) (xs : List α) :
    endsInside p (x :: xs) = endsInside p xs := by
  cases xs with
  | nil => simp [endsInside, hx]
  | cons y ys => exact endsInside_cons_of_ne (List.cons_ne_nil y ys)

theorem blocks_singleton (p : α → Bool) (x : α) :
    blocks p [x] = if p x then [(x, none)] else [] := by
  simp [blocks]

/-- One more element opens a block, ends one or goes on with it, or is in none. -/
theorem blocks_concat (p : α → Bool) (xs : List α) (x : α) :
    (endsInside p xs = false →
      blocks p (xs ++ [x]) = blocks p xs ++ if p x then [(x, none)] else []) ∧
    (endsInside p xs = true → ∃ bs a, blocks p xs = bs ++ [(a, none)] ∧
      blocks p (xs ++ [x]) = bs ++ [(a, if p x then none else some x)]) := by
  fun_induction blocks p xs with
  | case1 => simp [endsInside, blocks_singleton]
  | case2 y ys hy ih =>
    have hsplit : (ys ++ [x]).dropWhile p =
        if (ys.dropWhile p).isEmpty then [x].dropWhile p else ys.dropWhile p ++ [x] :=
      List.dropWhile_append
    by_cases hrest : ys.dropWhile p = []
    · -- the block of `y` reaches the end
      have hall : ∀ z ∈ ys, p z = true := List.dropWhile_eq_nil_iff.mp hrest
      have hinside : endsInside p (y :: ys) = true := by
        rw [endsInside, List.getLast?_eq_some_getLast (List.cons_ne_nil y ys), Option.any_some]
        rcases List.mem_cons.mp (List.getLast_mem (List.cons_ne_nil y ys)) with h | h
        · rw [h]
          exact hy
        · exact hall _ h
      refine ⟨fun h => absurd hinside (by simp [h]), fun _ => ⟨[], y, ?_, ?_⟩⟩
      · simp [hrest, blocks]
      · rw [List.cons_append, blocks, if_pos hy, hsplit, hrest]
        cases hx : p x <;> simp [hx, blocks]
    · have hsame : endsInside p (y :: ys) = endsInside p (ys.dropWhile p) := by
        have hne : ys ≠ [] := (List.dropWhile_suffix p).ne_nil hrest
        rw [endsInside_cons_of_ne hne, endsInside_dropWhile hrest]
      have hlonger : blocks p (y :: ys ++ [x]) =
          (y, (ys.dropWhile p).head?) :: blocks p (ys.dropWhile p ++ [x]) := by
        obtain ⟨z, zs, hz⟩ := List.exists_cons_of_ne_nil hrest
        rw [List.cons_append, blocks, if_pos hy, hsplit, hz]
        rfl
      rw [hsame, hlonger]
      constructor
      · intro h
        rw [ih.1 h, List.cons_append]
      · intro h
        obtain ⟨bs, a, hbs, hbs'⟩ := ih.2 h
        exact ⟨_ :: bs, a, by rw [hbs, List.cons_append], by rw [hbs', List.cons_append]⟩
  | case3 y ys hy ih =>
    have hy' : p y = false := by simpa using hy
    rw [endsInside_cons_false hy', List.cons_append, blocks, if_neg hy]
    exact ih

/-- A block is open exactly where the list ends inside it. -/
theorem settled (p : α → Bool) (xs : List α) :
    (∀ b ∈ (blocks p xs).dropLast, b.2 ≠ none) ∧
      (endsInside p xs = false → ∀ b ∈ blocks p xs, b.2 ≠ none) := by
  induction xs using List.reverseRecOn with
  | nil => simp [blocks]
  | append_singleton xs x ih =>
    obtain ⟨hdrop, hall⟩ := ih
    obtain ⟨hout, hin⟩ := blocks_concat p xs x
    rw [endsInside_concat]
    cases hi : endsInside p xs with
    | false =>
      rw [hout hi]
      cases hx : p x with
      | false =>
        simp only [Bool.false_eq_true, if_false, List.append_nil]
        exact ⟨hdrop, fun _ => hall hi⟩
      | true =>
        rw [if_pos rfl, List.dropLast_concat]
        exact ⟨hall hi, fun h => absurd h (by simp)⟩
    | true =>
      obtain ⟨bs, a, hbs, hbs'⟩ := hin hi
      rw [hbs, List.dropLast_concat] at hdrop
      rw [hbs', List.dropLast_concat]
      refine ⟨hdrop, fun hx b hb => ?_⟩
      rcases List.mem_append.mp hb with hb | hb
      · exact hdrop b hb
      · rw [List.mem_singleton.mp hb, hx]
        exact Option.some_ne_none x

/-- What opens and what ends a block are elements of the list. -/
theorem mem_of_mem_blocks {xs : List α} {b : α × Option α} (h : b ∈ blocks p xs) :
    b.1 ∈ xs ∧ ∀ x, b.2 = some x → x ∈ xs := by
  fun_induction blocks p xs with
  | case1 => cases h
  | case2 y ys hy ih =>
    have hrest : ∀ z ∈ ys.dropWhile p, z ∈ y :: ys := fun z hz =>
      List.mem_cons_of_mem y ((List.dropWhile_suffix p).subset hz)
    rcases List.mem_cons.mp h with rfl | h
    · exact ⟨List.mem_cons_self, fun x hx => hrest x (List.mem_of_mem_head? hx)⟩
    · exact ⟨hrest _ (ih h).1, fun x hx => hrest x ((ih h).2 x hx)⟩
  | case3 y ys hy ih =>
    exact ⟨List.mem_cons_of_mem y (ih h).1, fun x hx => List.mem_cons_of_mem y ((ih h).2 x hx)⟩

end Wei.Lib.Blocks
