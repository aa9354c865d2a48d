import Mathlib.Data.List.Induction

/-!
# Laws of a trace

A law relates an event to what came before it. `Along p t` says that every event
of the trace `t` satisfies it; events are appended one by one, and a law that
says nothing of an event holds of it.
-/
namespace Wei.Lib

variable {ε : Type*}

/-- Every event of the trace satisfies the law in what came before it. -/
def Along (p : List ε → ε → Prop) (t : List ε) : Prop :=
  ∀ pre e post, t = pre ++ e :: post → p pre e

variable {p q : List ε → ε → Prop} {t : List ε} {e : ε}

theorem along_nil : Along p [] := by
  intro pre e post h
  cases pre <;> cases h

theorem along_concat (h : Along p t) (he : p t e) : Along p (t ++ [e]) := by
  intro pre x post heq
  rcases List.eq_nil_or_concat post with rfl | ⟨post, last, rfl⟩
  · obtain ⟨rfl, hx⟩ := List.append_inj' heq rfl
    obtain rfl := List.singleton_inj.mp hx
    exact he
  · have heq' : t ++ [e] = (pre ++ x :: post) ++ [last] := by simpa using heq
    exact h pre x post (List.append_inj' heq' rfl).1

/-- Events that the law leaves free may come at any time. -/
theorem along_append {es : List ε} (h : Along p t) (hfree : ∀ e ∈ es, ∀ pre, p pre e) :
    Along p (t ++ es) := by
  induction es using List.reverseRecOn with
  | nil => rwa [List.append_nil]
  | append_singleton es e ih =>
    rw [← List.append_assoc]
    exact along_concat (ih fun e he => hfree e (List.mem_append_left _ he)) (hfree e (by simp) _)

/-- A law of the past only holds of every initial part of the trace. -/
theorem Along.of_append {t' : List ε} (h : Along p (t ++ t')) : Along p t := by
  intro pre e post heq
  exact h pre e (post ++ t') (by rw [heq, List.append_assoc, List.cons_append])

end Wei.Lib
