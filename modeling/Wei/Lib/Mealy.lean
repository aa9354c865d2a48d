import Mathlib.Data.List.Induction

/-!
# Runs of a deterministic machine

A machine reads events one by one, changes its state and puts out one value per
event. `final` is the state a run ends in and `outputs` what it put out, in
order. Invariants are proved for one step and hold of every run by
`final_induction`; `final_history` does the same for a property of the state
and the events read so far.
-/
namespace Wei.Lib

structure Mealy (σ ε ω : Type*) where
  step : σ → ε → σ × ω

namespace Mealy

variable {σ ε ω : Type*} (m : Mealy σ ε ω)

def final (s : σ) (es : List ε) : σ := es.foldl (fun s e => (m.step s e).1) s

def outputs : σ → List ε → List ω
  | _, [] => []
  | s, e :: es => (m.step s e).2 :: outputs (m.step s e).1 es

@[simp] theorem final_nil (s : σ) : m.final s [] = s := rfl

@[simp] theorem final_cons (s : σ) (e : ε) (es : List ε) :
    m.final s (e :: es) = m.final (m.step s e).1 es := rfl

theorem final_append (s : σ) (es fs : List ε) :
    m.final s (es ++ fs) = m.final (m.final s es) fs := List.foldl_append

theorem final_concat (s : σ) (es : List ε) (e : ε) :
    m.final s (es ++ [e]) = (m.step (m.final s es) e).1 := by
  rw [final_append, final_cons, final_nil]

theorem outputs_append (s : σ) (es fs : List ε) :
    m.outputs s (es ++ fs) = m.outputs s es ++ m.outputs (m.final s es) fs := by
  induction es generalizing s with
  | nil => rfl
  | cons e es ih => simp [outputs, ih]

theorem outputs_concat (s : σ) (es : List ε) (e : ε) :
    m.outputs s (es ++ [e]) = m.outputs s es ++ [(m.step (m.final s es) e).2] := by
  rw [outputs_append]
  rfl

theorem length_outputs (s : σ) (es : List ε) : (m.outputs s es).length = es.length := by
  induction es generalizing s with
  | nil => rfl
  | cons e es ih => simp [outputs, ih]

/-- A property that holds initially and is kept by every step holds of every run. -/
theorem final_induction {p : σ → Prop} (hstep : ∀ s e, p s → p (m.step s e).1) {s : σ}
    (hs : p s) (es : List ε) : p (m.final s es) := by
  induction es generalizing s with
  | nil => exact hs
  | cons e es ih => exact ih (hstep s e hs)

/-- The same for a property of the events read so far and the state reached. -/
theorem final_history {p : List ε → σ → Prop} {s₀ : σ} (h₀ : p [] s₀)
    (hstep : ∀ es e s, p es s → p (es ++ [e]) (m.step s e).1) (es : List ε) :
    p es (m.final s₀ es) := by
  induction es using List.reverseRecOn with
  | nil => exact h₀
  | append_singleton es e ih =>
    rw [final_concat]
    exact hstep es e _ ih

end Mealy

/-! ## Two event lists that look alike -/

section View

variable {ε ν : Type*} {view : ε → Option ν}

theorem filterMap_concat_none {es : List ε} {e : ε} (h : view e = none) :
    (es ++ [e]).filterMap view = es.filterMap view := by
  rw [List.filterMap_append, List.filterMap_cons_none h, List.filterMap_nil, List.append_nil]

theorem filterMap_concat_some {es : List ε} {e : ε} {v : ν} (h : view e = some v) :
    (es ++ [e]).filterMap view = es.filterMap view ++ [v] := by
  rw [List.filterMap_append, List.filterMap_cons_some h, List.filterMap_nil]

/-- Lists of the same view grow together: by an event out of view on either
side, or by two events that look the same. -/
theorem view_induction (view : ε → Option ν) {p : List ε → List ε → Prop} (nil : p [] [])
    (left : ∀ es fs e, view e = none → p es fs → p (es ++ [e]) fs)
    (right : ∀ es fs f, view f = none → p es fs → p es (fs ++ [f]))
    (both : ∀ es fs e f v, es.filterMap view = fs.filterMap view → view e = some v →
      view f = some v → p es fs → p (es ++ [e]) (fs ++ [f]))
    (es fs : List ε) (h : es.filterMap view = fs.filterMap view) : p es fs := by
  induction es using List.reverseRecOn generalizing fs with
  | nil =>
    induction fs using List.reverseRecOn with
    | nil => exact nil
    | append_singleton fs f ih =>
      have hf : view f = none := by
        cases hv : view f with
        | none => rfl
        | some v => simp [filterMap_concat_some hv] at h
      rw [filterMap_concat_none hf] at h
      exact right [] fs f hf (ih h)
  | append_singleton es e ihe =>
    cases he : view e with
    | none =>
      rw [filterMap_concat_none he] at h
      exact left es fs e he (ihe fs h)
    | some v =>
      induction fs using List.reverseRecOn with
      | nil => simp [filterMap_concat_some he] at h
      | append_singleton fs f ihf =>
        cases hf : view f with
        | none =>
          rw [filterMap_concat_none hf] at h
          exact right _ fs f hf (ihf h)
        | some v' =>
          rw [filterMap_concat_some he, filterMap_concat_some hf] at h
          obtain ⟨hes, hv⟩ := List.append_inj' h rfl
          obtain rfl := List.singleton_inj.mp hv
          exact both es fs e f v hes he hf (ihe fs hes)

end View

end Wei.Lib
