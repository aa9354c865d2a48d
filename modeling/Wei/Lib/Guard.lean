import Mathlib.Data.List.FinRange
import Mathlib.Logic.Function.Basic
import Wei.Lib.Mealy

/-!
# Sections under one guard

Threads share a value and one lock. A call waits for the lock, works on the value
one access at a time while the others do what they like outside it, and gives the
lock back with its result. If every call run alone does what one step of a machine
does, then any interleaving of the accesses is a run of that machine, in the order
in which the lock was given back. A thread may be cancelled anywhere; one that is
cancelled while it holds the lock takes the lock with it.
-/
namespace Wei.Lib.Guard

variable {σ κ π ρ τ : Type*}

/-- The code under the lock: where a call starts, and what one access does at a
point of the code; the call goes on, or is done with a result. -/
structure Code (σ κ π ρ : Type*) where
  entry : κ → π
  access : π → σ → σ × (π ⊕ ρ)

/-- Run alone from a point of the code, a call leaves this value and this result. -/
inductive Exec (c : Code σ κ π ρ) : π → σ → σ → ρ → Prop where
  | done {p : π} {s s' : σ} {r : ρ} (h : c.access p s = (s', .inr r)) : Exec c p s s' r
  | next {p p' : π} {s s₁ s' : σ} {r : ρ} (h : c.access p s = (s₁, .inl p'))
      (rest : Exec c p' s₁ s' r) : Exec c p s s' r

/-- A loop over the first `n` indices, one access a turn, that breaks off at the first
index with the property. -/
theorem exec_walk {c : Code σ κ π ρ} {n : Nat} (p : Fin n → Bool) (turn : Nat → π)
    (hit : Fin n → π) (miss : π) {s s' : σ} {r : ρ}
    (hturn : ∀ i : Fin n, c.access (turn i) s = (s, .inl (if p i then hit i else turn (i + 1))))
    (hend : c.access (turn n) s = (s, .inl miss))
    (h : Exec c (((List.finRange n).find? p).elim miss hit) s s' r) :
    Exec c (turn 0) s s' r := by
  have hfrom : ∀ k i : Nat, i + k = n → (∀ j : Fin n, j.val < i → p j = false) →
      Exec c (turn i) s s' r := by
    intro k
    induction k with
    | zero =>
      intro i hi hbefore
      have hnone : (List.finRange n).find? p = none := by
        refine List.find?_eq_none.mpr fun j _ => ?_
        rw [hbefore j (by omega)]
        exact Bool.false_ne_true
      rw [hnone] at h
      obtain rfl : i = n := by omega
      exact .next hend h
    | succ k ih =>
      intro i hi hbefore
      have hlt : i < n := by omega
      have hstep := hturn ⟨i, hlt⟩
      cases hp : p ⟨i, hlt⟩ with
      | true =>
        have hsome : (List.finRange n).find? p = some ⟨i, hlt⟩ := by
          refine List.find?_eq_some_iff_getElem.mpr ⟨hp, i, by simpa using hlt, by simp, ?_⟩
          intro j hj
          rw [List.getElem_finRange, hbefore _ hj]
          rfl
        rw [hsome] at h
        rw [hp, if_pos rfl] at hstep
        exact .next hstep h
      | false =>
        rw [hp, if_neg Bool.false_ne_true] at hstep
        refine .next hstep (ih (i + 1) (by omega) fun j hj => ?_)
        rcases Nat.lt_succ_iff_lt_or_eq.mp hj with hj | hj
        · exact hbefore j hj
        · rw [show j = ⟨i, hlt⟩ from Fin.ext hj]
          exact hp
  exact hfrom n 0 (Nat.zero_add n) fun j hj => absurd hj (Nat.not_lt_zero _)

/-- Run alone, every call is one step of the machine. -/
def Implements (c : Code σ κ π ρ) (m : Mealy σ κ ρ) : Prop :=
  ∀ k s, Exec c (c.entry k) s (m.step s k).1 (m.step s k).2

/-- Where a thread is. -/
inductive Control (κ π ρ : Type*) where
  | idle
  | waiting (k : κ)
  | inside (k : κ) (p : π)
  | leaving (k : κ) (r : ρ)
  | cancelled

/-- The thread is between lock and unlock. -/
def Control.Holds : Control κ π ρ → Prop
  | .inside _ _ => True
  | .leaving _ _ => True
  | _ => False

/-- The call under way. -/
def Control.pending : Control κ π ρ → List κ
  | .waiting k => [k]
  | .inside k _ => [k]
  | .leaving k _ => [k]
  | _ => []

/-- A call that gave the lock back. -/
structure Done (τ κ ρ : Type*) where
  thread : τ
  call : κ
  result : ρ

structure State (σ κ π ρ τ : Type*) where
  shared : σ
  owner : Option τ
  threads : τ → Control κ π ρ
  /-- The calls in the order in which they were made. -/
  made : List (τ × κ)
  /-- The calls in the order in which they gave the lock back. -/
  log : List (Done τ κ ρ)

def State.init (s : σ) : State σ κ π ρ τ := ⟨s, none, fun _ => .idle, [], []⟩

inductive Label (κ τ : Type*) where
  | call (t : τ) (k : κ)
  | lock (t : τ)
  | access (t : τ)
  | unlock (t : τ)
  | cancel (t : τ)

def Label.thread : Label κ τ → τ
  | .call t _ => t
  | .lock t => t
  | .access t => t
  | .unlock t => t
  | .cancel t => t

section Steps

variable [DecidableEq τ] (c : Code σ κ π ρ)

def State.put (st : State σ κ π ρ τ) (t : τ) (control : Control κ π ρ) : State σ κ π ρ τ :=
  { st with threads := Function.update st.threads t control }

@[simp] theorem put_self (st : State σ κ π ρ τ) (t : τ) (control : Control κ π ρ) :
    (st.put t control).threads t = control := Function.update_self ..

theorem put_of_ne (st : State σ κ π ρ τ) {t u : τ} (control : Control κ π ρ) (h : u ≠ t) :
    (st.put t control).threads u = st.threads u := Function.update_of_ne h ..

@[simp] theorem put_made (st : State σ κ π ρ τ) (t : τ) (control : Control κ π ρ) :
    (st.put t control).made = st.made := rfl
@[simp] theorem put_log (st : State σ κ π ρ τ) (t : τ) (control : Control κ π ρ) :
    (st.put t control).log = st.log := rfl

/-- One step; a label that is not enabled changes nothing. -/
def State.step (st : State σ κ π ρ τ) : Label κ τ → State σ κ π ρ τ
  | .call t k =>
    match st.threads t with
    | .idle => { st.put t (.waiting k) with made := st.made ++ [(t, k)] }
    | _ => st
  | .lock t =>
    match st.threads t, st.owner with
    | .waiting k, none => { st.put t (.inside k (c.entry k)) with owner := some t }
    | _, _ => st
  | .access t =>
    match st.threads t with
    | .inside k p =>
      match c.access p st.shared with
      | (s, .inl p') => { st.put t (.inside k p') with shared := s }
      | (s, .inr r) => { st.put t (.leaving k r) with shared := s }
    | _ => st
  | .unlock t =>
    match st.threads t with
    | .leaving k r => { st.put t .idle with owner := none, log := st.log ++ [⟨t, k, r⟩] }
    | _ => st
  | .cancel t => st.put t .cancelled

def machine : Mealy (State σ κ π ρ τ) (Label κ τ) Unit := ⟨fun st l => (st.step c l, ())⟩

/-- What an enabled step does. -/
inductive Step (st : State σ κ π ρ τ) : State σ κ π ρ τ → Prop where
  | idle : Step st st
  | called (t : τ) (k : κ) (h : st.threads t = .idle) :
      Step st { st.put t (.waiting k) with made := st.made ++ [(t, k)] }
  | locked (t : τ) (k : κ) (h : st.threads t = .waiting k) (hfree : st.owner = none) :
      Step st { st.put t (.inside k (c.entry k)) with owner := some t }
  | accessed (t : τ) (k : κ) (p p' : π) (s : σ) (h : st.threads t = .inside k p)
      (hs : c.access p st.shared = (s, .inl p')) :
      Step st { st.put t (.inside k p') with shared := s }
  | finished (t : τ) (k : κ) (p : π) (s : σ) (r : ρ) (h : st.threads t = .inside k p)
      (hs : c.access p st.shared = (s, .inr r)) :
      Step st { st.put t (.leaving k r) with shared := s }
  | unlocked (t : τ) (k : κ) (r : ρ) (h : st.threads t = .leaving k r) :
      Step st { st.put t .idle with owner := none, log := st.log ++ [⟨t, k, r⟩] }
  | cancelled (t : τ) : Step st (st.put t .cancelled)

theorem step_cases (st : State σ κ π ρ τ) (l : Label κ τ) : Step c st (st.step c l) := by
  cases l with
  | call t k =>
    cases h : st.threads t with
    | idle => simpa only [State.step, h] using Step.called t k h
    | _ => simpa only [State.step, h] using Step.idle
  | lock t =>
    cases h : st.threads t with
    | waiting k =>
      cases hfree : st.owner with
      | none => simpa only [State.step, h, hfree] using Step.locked t k h hfree
      | some u => simpa only [State.step, h, hfree] using Step.idle
    | _ => simpa only [State.step, h] using Step.idle
  | access t =>
    cases h : st.threads t with
    | inside k p =>
      cases hs : c.access p st.shared with
      | mk s o =>
        cases o with
        | inl p' => simpa only [State.step, h, hs] using Step.accessed t k p p' s h hs
        | inr r => simpa only [State.step, h, hs] using Step.finished t k p s r h hs
    | _ => simpa only [State.step, h] using Step.idle
  | unlock t =>
    cases h : st.threads t with
    | leaving k r => simpa only [State.step, h] using Step.unlocked t k r h
    | _ => simpa only [State.step, h] using Step.idle
  | cancel t => exact .cancelled t

end Steps

/-! ## Any interleaving is a run of the machine -/

section Serial

variable {c : Code σ κ π ρ} {m : Mealy σ κ ρ} {s₀ : σ} {st st' : State σ κ π ρ τ}

/-- The value the machine has after the calls that gave the lock back. -/
def State.settled (m : Mealy σ κ ρ) (s₀ : σ) (st : State σ κ π ρ τ) : σ :=
  m.final s₀ (st.log.map Done.call)

/-- The log is a run of the machine; a free lock shows its value, and who holds the
lock is on the way from it to the next. -/
structure Serial (c : Code σ κ π ρ) (m : Mealy σ κ ρ) (s₀ : σ) (st : State σ κ π ρ τ) : Prop where
  results : st.log.map Done.result = m.outputs s₀ (st.log.map Done.call)
  free : st.owner = none → st.shared = st.settled m s₀
  holder : ∀ t, (st.threads t).Holds → st.owner = some t
  owned : ∀ t, st.owner = some t → (st.threads t).Holds ∨ st.threads t = .cancelled
  inside : ∀ t k p, st.threads t = .inside k p →
    Exec c p st.shared (m.step (st.settled m s₀) k).1 (m.step (st.settled m s₀) k).2
  leaving : ∀ t k r, st.threads t = .leaving k r → (st.shared, r) = m.step (st.settled m s₀) k

theorem serial_init (c : Code σ κ π ρ) (m : Mealy σ κ ρ) (s₀ : σ) :
    Serial c m s₀ (State.init s₀ : State σ κ π ρ τ) where
  results := rfl
  free := fun _ => rfl
  holder := fun _ h => h.elim
  owned := fun _ h => by cases h
  inside := fun _ _ _ h => by cases h
  leaving := fun _ _ _ h => by cases h

/-- No two threads are inside at once. -/
theorem Serial.exclusive (h : Serial c m s₀ st) {t u : τ} (ht : (st.threads t).Holds)
    (hu : (st.threads u).Holds) : t = u :=
  Option.some.inj ((h.holder t ht).symm.trans (h.holder u hu))

theorem holds_of_inside {x : Control κ π ρ} {k : κ} {p : π} (h : x = .inside k p) : x.Holds := by
  rw [h]
  trivial

theorem holds_of_leaving {x : Control κ π ρ} {k : κ} {r : ρ} (h : x = .leaving k r) :
    x.Holds := by
  rw [h]
  trivial

variable [DecidableEq τ]

/-- A thread that goes on without the lock, or is cancelled, leaves the rest as it was. -/
theorem Serial.outside (h : Serial c m s₀ st) (t : τ) (control : Control κ π ρ)
    (hcontrol : ¬ control.Holds) (howner : control = .cancelled ∨ st.owner ≠ some t) :
    Serial c m s₀ (st.put t control) where
  results := h.results
  free := h.free
  holder := by
    intro u hu
    by_cases hut : u = t
    · subst hut
      rw [put_self] at hu
      exact absurd hu hcontrol
    · rw [put_of_ne st control hut] at hu
      exact h.holder u hu
  owned := by
    intro u hu
    by_cases hut : u = t
    · subst hut
      rw [put_self]
      exact Or.inr (howner.resolve_right fun hne => hne hu)
    · rw [put_of_ne st control hut]
      exact h.owned u hu
  inside := by
    intro u k p hu
    by_cases hut : u = t
    · subst hut
      exact absurd (holds_of_inside hu) (by rwa [put_self])
    · rw [put_of_ne st control hut] at hu
      exact h.inside u k p hu
  leaving := by
    intro u k r hu
    by_cases hut : u = t
    · subst hut
      exact absurd (holds_of_leaving hu) (by rwa [put_self])
    · rw [put_of_ne st control hut] at hu
      exact h.leaving u k r hu

/-- Only one thread moves the value: the one that holds the lock before or after the step. -/
theorem serial_holder (t : τ) (control : Control κ π ρ)
    (hput : ∀ u, st'.threads u = (st.put t control).threads u)
    (halone : ∀ u, u ≠ t → ¬ (st.threads u).Holds) (howner : st'.owner = some t)
    (hholds : control.Holds) (hlog : st'.log = st.log)
    (hresults : st.log.map Done.result = m.outputs s₀ (st.log.map Done.call))
    (hinside : ∀ k p, control = .inside k p →
      Exec c p st'.shared (m.step (st.settled m s₀) k).1 (m.step (st.settled m s₀) k).2)
    (hleaving : ∀ k r, control = .leaving k r → (st'.shared, r) = m.step (st.settled m s₀) k) :
    Serial c m s₀ st' := by
  have hsettled : st'.settled m s₀ = st.settled m s₀ := by rw [State.settled, hlog, State.settled]
  have hself : st'.threads t = control := by rw [hput, put_self]
  have hother : ∀ u, (st'.threads u).Holds → u = t := by
    intro u hu
    by_contra hut
    rw [hput, put_of_ne st control hut] at hu
    exact halone u hut hu
  constructor
  · rw [hlog]
    exact hresults
  · intro hfree
    rw [howner] at hfree
    cases hfree
  · intro u hu
    rw [hother u hu]
    exact howner
  · intro u hu
    rw [howner] at hu
    obtain rfl := Option.some.inj hu
    rw [hself]
    exact Or.inl hholds
  · intro u k p hu
    obtain rfl := hother u (holds_of_inside hu)
    rw [hsettled]
    exact hinside k p (hself.symm.trans hu)
  · intro u k r hu
    obtain rfl := hother u (holds_of_leaving hu)
    rw [hsettled]
    exact hleaving k r (hself.symm.trans hu)

theorem Serial.step (h : Serial c m s₀ st) (himp : Implements c m) (hs : Step c st st') :
    Serial c m s₀ st' := by
  have halone : ∀ t, (st.threads t).Holds → ∀ u, u ≠ t → ¬ (st.threads u).Holds :=
    fun t ht u hut hu => hut (h.exclusive hu ht)
  cases hs with
  | idle => exact h
  | called t k hidle =>
    have howner : st.owner ≠ some t := by
      intro ho
      rcases h.owned t ho with hholds | hgone
      · rw [hidle] at hholds
        exact hholds
      · rw [hidle] at hgone
        cases hgone
    have hnext := h.outside t (.waiting k) id (Or.inr howner)
    exact ⟨hnext.results, hnext.free, hnext.holder, hnext.owned, hnext.inside, hnext.leaving⟩
  | locked t k hwait hfree =>
    have hnone : ∀ u, u ≠ t → ¬ (st.threads u).Holds := by
      intro u _ hu
      have howner := h.holder u hu
      rw [hfree] at howner
      cases howner
    refine serial_holder t (.inside k (c.entry k)) (fun _ => rfl) hnone rfl trivial rfl
      h.results ?_ (fun _ _ he => by cases he)
    intro k' p' he
    obtain ⟨rfl, rfl⟩ := Control.inside.inj he
    have hshared : st.shared = st.settled m s₀ := h.free hfree
    rw [← hshared]
    exact himp k st.shared
  | accessed t k p p' s hin hacc =>
    have hholds := holds_of_inside hin
    refine serial_holder t (.inside k p') (fun _ => rfl) (halone t hholds) (h.holder t hholds)
      trivial rfl h.results ?_ (fun _ _ he => by cases he)
    intro k' p₁ he
    obtain ⟨rfl, rfl⟩ := Control.inside.inj he
    cases h.inside t k p hin with
    | done hdone => rw [hacc] at hdone; cases hdone
    | next hnext rest =>
      rw [hacc] at hnext
      cases hnext
      exact rest
  | finished t k p s r hin hacc =>
    have hholds := holds_of_inside hin
    refine serial_holder t (.leaving k r) (fun _ => rfl) (halone t hholds) (h.holder t hholds)
      trivial rfl h.results (fun _ _ he => by cases he) ?_
    intro k' r' he
    obtain ⟨rfl, rfl⟩ := Control.leaving.inj he
    cases h.inside t k p hin with
    | done hdone => rw [hacc] at hdone; cases hdone; rfl
    | next hnext rest => rw [hacc] at hnext; cases hnext
  | unlocked t k r hleave =>
    have hholds := holds_of_leaving hleave
    have hstep := h.leaving t k r hleave
    have hnone : ∀ u, ¬ ((st.put t .idle).threads u).Holds := by
      intro u hu
      by_cases hut : u = t
      · subst hut
        rw [put_self] at hu
        exact hu
      · rw [put_of_ne st _ hut] at hu
        exact halone t hholds u hut hu
    constructor
    · rw [List.map_append, List.map_append, List.map_singleton, List.map_singleton,
        Mealy.outputs_concat, h.results]
      exact congrArg (m.outputs s₀ (st.log.map Done.call) ++ [·]) (congrArg Prod.snd hstep)
    · intro _
      rw [State.settled, List.map_append, List.map_singleton, Mealy.final_concat]
      exact congrArg Prod.fst hstep
    · exact fun u hu => absurd hu (hnone u)
    · intro u hu
      cases hu
    · exact fun u _ _ hu => absurd (holds_of_inside hu) (hnone u)
    · exact fun u _ _ hu => absurd (holds_of_leaving hu) (hnone u)
  | cancelled t => exact h.outside t .cancelled id (Or.inl rfl)

/-- Any interleaving of the accesses is a run of the machine. -/
theorem serialises (himp : Implements c m) (s₀ : σ) (ls : List (Label κ τ)) :
    Serial c m s₀ ((machine c).final (State.init s₀) ls) :=
  (machine c).final_induction (fun st l h => h.step himp (step_cases c st l))
    (serial_init c m s₀) ls

/-! ## Assertions at the points of the code -/

/-- `I` holds of the value between two calls and `J` at the points within one. -/
structure Annotated (c : Code σ κ π ρ) (I : σ → Prop) (J : π → σ → Prop) : Prop where
  entry : ∀ k s, I s → J (c.entry k) s
  next : ∀ p s s' p', J p s → c.access p s = (s', .inl p') → J p' s'
  done : ∀ p s s' r, J p s → c.access p s = (s', .inr r) → I s'

structure Asserted (I : σ → Prop) (J : π → σ → Prop) (st : State σ κ π ρ τ) : Prop where
  free : st.owner = none → I st.shared
  inside : ∀ t k p, st.threads t = .inside k p → J p st.shared
  leaving : ∀ t k r, st.threads t = .leaving k r → I st.shared
  always : I st.shared ∨ ∃ p, J p st.shared

section Assertions

variable {I : σ → Prop} {J : π → σ → Prop}

/-- A thread that goes on outside the lock. -/
theorem Asserted.outside (h : Asserted I J st) (t : τ) (control : Control κ π ρ)
    (hcontrol : ¬ control.Holds) : Asserted I J (st.put t control) where
  free := h.free
  inside := by
    intro u k p hu
    by_cases hut : u = t
    · subst hut
      exact absurd (holds_of_inside hu) (by rwa [put_self])
    · rw [put_of_ne st control hut] at hu
      exact h.inside u k p hu
  leaving := by
    intro u k r hu
    by_cases hut : u = t
    · subst hut
      exact absurd (holds_of_leaving hu) (by rwa [put_self])
    · rw [put_of_ne st control hut] at hu
      exact h.leaving u k r hu
  always := h.always

/-- The thread that has the lock moves the value. -/
theorem asserted_holder (t : τ) (control : Control κ π ρ)
    (hput : ∀ u, st'.threads u = (st.put t control).threads u)
    (halone : ∀ u, u ≠ t → ¬ (st.threads u).Holds) (howner : st'.owner = some t)
    (hinside : ∀ k p, control = .inside k p → J p st'.shared)
    (hleaving : ∀ k r, control = .leaving k r → I st'.shared)
    (halways : I st'.shared ∨ ∃ p, J p st'.shared) : Asserted I J st' := by
  have hself : st'.threads t = control := by rw [hput, put_self]
  have hother : ∀ u, (st'.threads u).Holds → u = t := by
    intro u hu
    by_contra hut
    rw [hput, put_of_ne st control hut] at hu
    exact halone u hut hu
  refine ⟨?_, ?_, ?_, halways⟩
  · intro hfree
    rw [howner] at hfree
    cases hfree
  · intro u k p hu
    obtain rfl := hother u (holds_of_inside hu)
    exact hinside k p (hself.symm.trans hu)
  · intro u k r hu
    obtain rfl := hother u (holds_of_leaving hu)
    exact hleaving k r (hself.symm.trans hu)

theorem Asserted.step (h : Asserted I J st) (hserial : Serial c m s₀ st)
    (hann : Annotated c I J) (hs : Step c st st') : Asserted I J st' := by
  have halone : ∀ t, (st.threads t).Holds → ∀ u, u ≠ t → ¬ (st.threads u).Holds :=
    fun t ht u hut hu => hut (hserial.exclusive hu ht)
  cases hs with
  | idle => exact h
  | called t k _ =>
    have hnext := h.outside t (.waiting k) id
    exact ⟨hnext.free, hnext.inside, hnext.leaving, hnext.always⟩
  | locked t k _ hfree =>
    have hnone : ∀ u, u ≠ t → ¬ (st.threads u).Holds := by
      intro u _ hu
      have howner := hserial.holder u hu
      rw [hfree] at howner
      cases howner
    have hentry := hann.entry k st.shared (h.free hfree)
    refine asserted_holder t (.inside k (c.entry k)) (fun _ => rfl) hnone rfl ?_
      (fun _ _ he => by cases he) (Or.inr ⟨_, hentry⟩)
    intro k' p' he
    obtain ⟨rfl, rfl⟩ := Control.inside.inj he
    exact hentry
  | accessed t k p p' s hin hacc =>
    have hholds := holds_of_inside hin
    have hnext := hann.next p _ s p' (h.inside t k p hin) hacc
    refine asserted_holder t (.inside k p') (fun _ => rfl) (halone t hholds)
      (hserial.holder t hholds) ?_ (fun _ _ he => by cases he) (Or.inr ⟨_, hnext⟩)
    intro k' p₁ he
    obtain ⟨rfl, rfl⟩ := Control.inside.inj he
    exact hnext
  | finished t k p s r hin hacc =>
    have hholds := holds_of_inside hin
    have hdone := hann.done p _ s r (h.inside t k p hin) hacc
    exact asserted_holder t (.leaving k r) (fun _ => rfl) (halone t hholds)
      (hserial.holder t hholds) (fun _ _ he => by cases he) (fun _ _ _ => hdone) (Or.inl hdone)
  | unlocked t k r hleave =>
    have hnext := h.outside t .idle id
    exact ⟨fun _ => h.leaving t k r hleave, hnext.inside, hnext.leaving, hnext.always⟩
  | cancelled t => exact h.outside t .cancelled id

/-- The assertions hold at every instant of every interleaving. -/
theorem asserted (himp : Implements c m) (hann : Annotated c I J) {s₀ : σ} (hs₀ : I s₀)
    (ls : List (Label κ τ)) : Asserted I J ((machine c).final (State.init s₀) ls) := by
  have hinit : Asserted I J (State.init s₀ : State σ κ π ρ τ) :=
    ⟨fun _ => hs₀, (fun _ _ _ h => by cases h), (fun _ _ _ h => by cases h), Or.inl hs₀⟩
  have hinv := (machine c).final_induction (s := State.init s₀)
    (p := fun st => Serial c m s₀ st ∧ Asserted I J st)
    (fun st l h => ⟨h.1.step himp (step_cases c st l), h.2.step h.1 hann (step_cases c st l)⟩)
    ⟨serial_init c m s₀, hinit⟩ ls
  exact hinv.2

end Assertions

/-! ## Nothing is lost, and the lock comes back -/

/-- The calls of a thread, in order. -/
def callsOf (t : τ) (calls : List (τ × κ)) : List κ :=
  (calls.filter fun x => decide (x.1 = t)).map Prod.snd

/-- Those of them that are through, in order. -/
def doneBy (t : τ) (log : List (Done τ κ ρ)) : List κ :=
  callsOf t (log.map fun d => (d.thread, d.call))

/-- A thread that was not cancelled has its calls through in the order it made them,
but for the one under way. -/
def InOrder (st : State σ κ π ρ τ) : Prop :=
  ∀ t, st.threads t ≠ .cancelled →
    callsOf t st.made = doneBy t st.log ++ (st.threads t).pending

theorem callsOf_concat (t u : τ) (k : κ) (calls : List (τ × κ)) :
    callsOf t (calls ++ [(u, k)]) = callsOf t calls ++ if u = t then [k] else [] := by
  rw [callsOf, List.filter_append, List.map_append, callsOf]
  by_cases hu : u = t <;> simp [hu]

theorem doneBy_concat (t : τ) (d : Done τ κ ρ) (log : List (Done τ κ ρ)) :
    doneBy t (log ++ [d]) = doneBy t log ++ if d.thread = t then [d.call] else [] := by
  rw [doneBy, List.map_append, List.map_singleton, callsOf_concat, doneBy]

/-- A thread that changes between two points of one call. -/
theorem InOrder.moved (h : InOrder st) {t : τ} {control : Control κ π ρ}
    (hput : ∀ u, st'.threads u = (st.put t control).threads u)
    (hpending : control.pending = (st.threads t).pending) (hbefore : st.threads t ≠ .cancelled)
    (hmade : st'.made = st.made) (hlog : st'.log = st.log) : InOrder st' := by
  intro u hu
  rw [hput] at hu
  rw [hput, hmade, hlog]
  by_cases hut : u = t
  · subst hut
    rw [put_self, hpending]
    exact h u hbefore
  · rw [put_of_ne st control hut] at hu ⊢
    exact h u hu

theorem InOrder.step (h : InOrder st) (hs : Step c st st') : InOrder st' := by
  cases hs with
  | idle => exact h
  | called t k hidle =>
    intro u hu
    dsimp only at hu ⊢
    rw [callsOf_concat]
    by_cases hut : u = t
    · subst hut
      have hbefore := h u (by rw [hidle]; exact fun he => by cases he)
      rw [hidle] at hbefore
      rw [put_self, if_pos rfl, hbefore]
      simp [Control.pending]
    · rw [put_of_ne st _ hut] at hu ⊢
      rw [if_neg fun he => hut he.symm, List.append_nil]
      exact h u hu
  | locked t k hwait _ =>
    exact h.moved (fun _ => rfl) (by rw [hwait]; rfl) (by rw [hwait]; exact fun he => by cases he)
      rfl rfl
  | accessed t k p p' s hin _ =>
    exact h.moved (fun _ => rfl) (by rw [hin]; rfl) (by rw [hin]; exact fun he => by cases he)
      rfl rfl
  | finished t k p s r hin _ =>
    exact h.moved (fun _ => rfl) (by rw [hin]; rfl) (by rw [hin]; exact fun he => by cases he)
      rfl rfl
  | unlocked t k r hleave =>
    intro u hu
    dsimp only at hu ⊢
    rw [doneBy_concat]
    by_cases hut : u = t
    · subst hut
      have hbefore := h u (by rw [hleave]; exact fun he => by cases he)
      rw [hleave] at hbefore
      rw [put_self, if_pos rfl, put_made, hbefore]
      simp [Control.pending]
    · rw [put_of_ne st _ hut] at hu ⊢
      rw [if_neg fun he => hut he.symm, List.append_nil]
      exact h u hu
  | cancelled t =>
    intro u hu
    by_cases hut : u = t
    · subst hut
      rw [put_self] at hu
      exact absurd rfl hu
    · rw [put_of_ne st _ hut] at hu ⊢
      exact h u hu

theorem in_order (c : Code σ κ π ρ) (s₀ : σ) (ls : List (Label κ τ)) :
    InOrder ((machine c).final (State.init s₀) ls) :=
  (machine c).final_induction (fun st l h => h.step (step_cases c st l)) (fun _ _ => rfl) ls

theorem InOrder.through (h : InOrder st) (hthrough : ∀ t, doneBy t st.log <+: callsOf t st.made)
    (hs : Step c st st') (t : τ) : doneBy t st'.log <+: callsOf t st'.made := by
  cases hs with
  | called u k _ =>
    rw [callsOf_concat]
    exact (hthrough t).trans (List.prefix_append _ _)
  | unlocked u k r hleave =>
    rw [doneBy_concat]
    by_cases hut : u = t
    · subst hut
      have hbefore := h u (by rw [hleave]; exact fun he => by cases he)
      rw [hleave] at hbefore
      rw [if_pos rfl, put_made, hbefore]
      exact List.prefix_rfl
    · rw [if_neg hut, List.append_nil]
      exact hthrough t
  | _ => exact hthrough t

/-- Cancelled or not, the calls of a thread come through in the order it made them. -/
theorem through (c : Code σ κ π ρ) (s₀ : σ) (ls : List (Label κ τ)) (t : τ) :
    doneBy t ((machine c).final (State.init s₀) ls).log <+:
      callsOf t ((machine c).final (State.init s₀) ls).made := by
  have hinit : InOrder (State.init s₀ : State σ κ π ρ τ) := fun _ _ => rfl
  have hinv := (machine c).final_induction (s := State.init s₀)
    (p := fun st => InOrder st ∧ ∀ t, doneBy t st.log <+: callsOf t st.made)
    (fun st l h => ⟨h.1.step (step_cases c st l), h.1.through h.2 (step_cases c st l)⟩)
    ⟨hinit, fun _ => List.prefix_rfl⟩ ls
  exact hinv.2 t

/-- What is through was called. -/
theorem mem_made {st : State σ κ π ρ τ} (h : ∀ t, doneBy t st.log <+: callsOf t st.made)
    {d : Done τ κ ρ} (hd : d ∈ st.log) : (d.thread, d.call) ∈ st.made := by
  have hthrough : d.call ∈ doneBy d.thread st.log := by
    refine List.mem_map.mpr ⟨(d.thread, d.call), List.mem_filter.mpr ⟨?_, by simp⟩, rfl⟩
    exact List.mem_map_of_mem hd
  obtain ⟨x, hx, hcall⟩ := List.mem_map.mp ((h d.thread).subset hthrough)
  obtain ⟨hmem, hthread⟩ := List.mem_filter.mp hx
  obtain ⟨u, k⟩ := x
  obtain rfl : u = d.thread := of_decide_eq_true hthread
  obtain rfl : k = d.call := hcall
  exact hmem

/-- The accesses of the thread inside take its call to its end. -/
theorem exec_leaves {t : τ} {k : κ} {p : π} {s s' : σ} {r : ρ} (h : Exec c p s s' r)
    (hin : st.threads t = .inside k p) (hshared : st.shared = s) :
    ∃ n, ((machine c).final st (List.replicate n (.access t))).threads t = .leaving k r ∧
      ((machine c).final st (List.replicate n (.access t))).log = st.log := by
  induction h generalizing st with
  | done hdone =>
    refine ⟨1, ?_, ?_⟩ <;>
      simp [machine, State.step, hin, hshared, hdone, State.put]
  | @next p p' s s₁ s' r hnext _ ih =>
    have hstep : st.step c (.access t) = { st.put t (.inside k p') with shared := s₁ } := by
      simp [State.step, hin, hshared, hnext]
    have hnow : (st.step c (.access t)).threads t = .inside k p' := by
      rw [hstep]
      exact put_self st t _
    have hvalue : (st.step c (.access t)).shared = s₁ := by rw [hstep]
    obtain ⟨n, hleaves, hlog⟩ := ih hnow hvalue
    refine ⟨n + 1, ?_, ?_⟩
    · rw [List.replicate_succ, Mealy.final_cons]
      exact hleaves
    · rw [List.replicate_succ, Mealy.final_cons]
      refine hlog.trans ?_
      rw [hstep]
      rfl

/-- Whoever holds the lock gives it back by steps of its own, unless it was cancelled. -/
theorem Serial.released (h : Serial c m s₀ st) {t : τ} (howner : st.owner = some t)
    (hlive : st.threads t ≠ .cancelled) : ∃ n d,
      ((machine c).final st (List.replicate n (.access t) ++ [.unlock t])).owner = none ∧
      ((machine c).final st (List.replicate n (.access t) ++ [.unlock t])).log = st.log ++ [d] := by
  have hleaves : ∃ n k r, ((machine c).final st (List.replicate n (.access t))).threads t =
      .leaving k r ∧ ((machine c).final st (List.replicate n (.access t))).log = st.log := by
    have hholds := (h.owned t howner).resolve_right hlive
    cases hc : st.threads t with
    | inside k p =>
      obtain ⟨n, hleaves, hlog⟩ := exec_leaves (h.inside t k p hc) hc rfl
      exact ⟨n, k, _, hleaves, hlog⟩
    | leaving k r => exact ⟨0, k, r, hc, rfl⟩
    | idle => rw [hc] at hholds; exact hholds.elim
    | waiting k => rw [hc] at hholds; exact hholds.elim
    | cancelled => exact absurd hc hlive
  obtain ⟨n, k, r, hleaving, hlog⟩ := hleaves
  generalize hst : (machine c).final st (List.replicate n (.access t)) = left at hleaving hlog
  have hstep : left.step c (.unlock t) =
      { left.put t .idle with owner := none, log := left.log ++ [⟨t, k, r⟩] } := by
    simp only [State.step, hleaving]
  have hfinal : (machine c).final st (List.replicate n (.access t) ++ [.unlock t]) =
      left.step c (.unlock t) := by
    rw [Mealy.final_concat, hst]
    rfl
  refine ⟨n, ⟨t, k, r⟩, ?_, ?_⟩
  · rw [hfinal, hstep]
  · rw [hfinal, hstep, hlog]

/-- A free lock and a thread that does nothing else: its call comes through. -/
theorem completes (himp : Implements c m) (hfree : st.owner = none) {t : τ}
    (hidle : st.threads t = .idle) (k : κ) : ∃ n r,
      ((machine c).final st
        (.call t k :: .lock t :: (List.replicate n (.access t) ++ [.unlock t]))).log =
          st.log ++ [⟨t, k, r⟩] := by
  have hcalled : st.step c (.call t k) =
      { st.put t (.waiting k) with made := st.made ++ [(t, k)] } := by
    simp only [State.step, hidle]
  generalize hst : (st.step c (.call t k)).step c (.lock t) = locked
  have hlocked : locked.threads t = .inside k (c.entry k) ∧ locked.shared = st.shared ∧
      locked.log = st.log := by
    rw [← hst, hcalled]
    simp [State.step, hfree, State.put]
  obtain ⟨n, hleaving, hlog⟩ := exec_leaves (himp k st.shared) hlocked.1 hlocked.2.1
  refine ⟨n, (m.step st.shared k).2, ?_⟩
  rw [Mealy.final_cons, Mealy.final_cons]
  show ((machine c).final ((st.step c (.call t k)).step c (.lock t)) _).log = _
  rw [hst, Mealy.final_concat]
  generalize (machine c).final locked (List.replicate n (.access t)) = left at hleaving hlog
  show (left.step c (.unlock t)).log = _
  simp only [State.step, hleaving, hlog, hlocked.2.2]

/-- What the other threads do leaves a thread where it is. -/
theorem threads_frame {t : τ} {ls : List (Label κ τ)} (h : ∀ l ∈ ls, l.thread ≠ t) :
    ((machine c).final st ls).threads t = st.threads t := by
  induction ls generalizing st with
  | nil => rfl
  | cons l ls ih =>
    rw [Mealy.final_cons, ih fun l' hl' => h l' (List.mem_cons_of_mem _ hl')]
    have hne := h l List.mem_cons_self
    show (st.step c l).threads t = _
    cases l with
    | call u k =>
      cases hu : st.threads u <;> simp only [State.step, hu]
      exact put_of_ne st _ hne.symm
    | lock u =>
      cases hu : st.threads u <;> cases ho : st.owner <;> simp only [State.step, hu, ho]
      exact put_of_ne st _ hne.symm
    | access u =>
      cases hu : st.threads u <;> simp only [State.step, hu]
      split <;> exact put_of_ne st _ hne.symm
    | unlock u =>
      cases hu : st.threads u <;> simp only [State.step, hu]
      exact put_of_ne st _ hne.symm
    | cancel u => exact put_of_ne st _ hne.symm

/-- As long as no cancelled thread has the lock, any thread's next call can come through. -/
theorem Serial.passable (h : Serial c m s₀ st) (himp : Implements c m) {t : τ}
    (hidle : st.threads t = .idle) (hlive : ∀ u, st.owner = some u → st.threads u ≠ .cancelled)
    (k : κ) : ∃ ls more r, ((machine c).final st ls).log = st.log ++ more ++ [⟨t, k, r⟩] := by
  cases howner : st.owner with
  | none =>
    obtain ⟨n, r, hlog⟩ := completes himp howner hidle k
    refine ⟨.call t k :: .lock t :: (List.replicate n (.access t) ++ [.unlock t]), [], r, ?_⟩
    rw [List.append_nil]
    exact hlog
  | some u =>
    -- the holder leaves first
    obtain ⟨n, d, hfree, hlog⟩ := h.released howner (hlive u howner)
    have hut : u ≠ t := by
      rintro rfl
      have hholds := (h.owned u howner).resolve_right (hlive u howner)
      rw [hidle] at hholds
      exact hholds
    generalize hls : (List.replicate n (.access u) ++ [.unlock u] : List (Label κ τ)) = ls
      at hfree hlog
    have hidle' : ((machine c).final st ls).threads t = .idle := by
      rw [threads_frame, hidle]
      intro l hl
      rw [← hls] at hl
      rcases List.mem_append.mp hl with hl | hl
      · rw [List.eq_of_mem_replicate hl]
        exact hut
      · rw [List.mem_singleton.mp hl]
        exact hut
    obtain ⟨n', r, hlog'⟩ := completes himp hfree hidle' k
    refine ⟨ls ++ (.call t k :: .lock t :: (List.replicate n' (.access t) ++ [.unlock t])), [d], r,
      ?_⟩
    rw [Mealy.final_append, hlog', hlog]

/-- The lock is held by a thread that was cancelled. -/
def Taken (st : State σ κ π ρ τ) (t : τ) : Prop :=
  st.owner = some t ∧ st.threads t = .cancelled

theorem Serial.taken_step (h : Serial c m s₀ st) {t : τ} (htaken : Taken st t)
    (hs : Step c st st') : Taken st' t ∧ st'.log = st.log ∧ st'.shared = st.shared := by
  obtain ⟨howner, hgone⟩ := htaken
  have hnone : ∀ u, ¬ (st.threads u).Holds := by
    intro u hu
    have huser := h.holder u hu
    rw [howner] at huser
    obtain rfl := Option.some.inj huser
    rw [hgone] at hu
    exact hu
  cases hs with
  | idle => exact ⟨⟨howner, hgone⟩, rfl, rfl⟩
  | called u k hidle =>
    have hne : t ≠ u := by
      rintro rfl
      rw [hgone] at hidle
      cases hidle
    exact ⟨⟨howner, (put_of_ne st _ hne).trans hgone⟩, rfl, rfl⟩
  | locked u k _ hfree =>
    rw [howner] at hfree
    cases hfree
  | accessed u k p p' s hin _ => exact absurd (holds_of_inside hin) (hnone u)
  | finished u k p s r hin _ => exact absurd (holds_of_inside hin) (hnone u)
  | unlocked u k r hleave => exact absurd (holds_of_leaving hleave) (hnone u)
  | cancelled u =>
    refine ⟨⟨howner, ?_⟩, rfl, rfl⟩
    by_cases hut : t = u
    · rw [hut]
      exact put_self st u _
    · exact (put_of_ne st _ hut).trans hgone

/-- A thread cancelled while it held the lock has taken it away: no call gets through
any more, and nothing touches the value again. -/
theorem Serial.stuck (h : Serial c m s₀ st) (himp : Implements c m) {t : τ} (htaken : Taken st t)
    (ls : List (Label κ τ)) : Taken ((machine c).final st ls) t ∧
      ((machine c).final st ls).log = st.log ∧
      ((machine c).final st ls).shared = st.shared := by
  have hinv : Serial c m s₀ ((machine c).final st ls) ∧ Taken ((machine c).final st ls) t ∧
      ((machine c).final st ls).log = st.log ∧
      ((machine c).final st ls).shared = st.shared := by
    refine (machine c).final_induction (s := st) (p := fun st' => Serial c m s₀ st' ∧
      Taken st' t ∧ st'.log = st.log ∧ st'.shared = st.shared) ?_ ⟨h, htaken, rfl, rfl⟩ ls
    rintro st₁ l ⟨hserial, htaken, hlog, hshared⟩
    obtain ⟨htaken', hlog', hshared'⟩ := hserial.taken_step htaken (step_cases c st₁ l)
    exact ⟨hserial.step himp (step_cases c st₁ l), htaken', hlog'.trans hlog,
      hshared'.trans hshared⟩
  exact hinv.2

end Serial

end Wei.Lib.Guard
