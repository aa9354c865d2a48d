import Wei.Life.Roster

/-!
# Sweeps interleaved with other threads

The sweep takes the guard once for every slot and makes its reports between
two slots, without it. Other threads call the roster's entry points at any of
these points. The steps of both, in any order, act on one world. A context is
named by the call that attached it; the names, the numbers of the sweeps and
the log of evaluations are auxiliary and influence nothing else.
-/
namespace Wei.Life

open Wei.Lib Wei.Lib.SlotTable Wei.ConnScorer

/-- A report with the context it is about. -/
structure Sent where
  id : Nat
  report : Report

/-- The locals of `wei_life_eval_station`. -/
structure Sweep where
  now : Int
  /-- The slot whose guarded section comes next. -/
  next : Nat
  /-- What the batch of the slot before still holds. -/
  batch : List Sent

/-- One guarded section that found a context. -/
structure Eval where
  sweep : Nat
  id : Nat
  /-- The context as the detectors read it. -/
  ctx : Ctx
  now : Int

structure World where
  roster : Roster
  sweep : Option Sweep
  delivered : List Sent
  /-- The name of the context in each slot. -/
  ids : Fin maxStations → Nat
  fresh : Nat
  /-- How many sweeps were begun. -/
  started : Nat
  evals : List Eval

def World.init (policy : Option Policy) : World :=
  ⟨Life.init policy, none, [], fun _ => 0, 0, 0, []⟩

inductive Label where
  /-- An entry point called by any thread. -/
  | op (op : Op)
  /-- A sweep begins at a reading of the clock. -/
  | start (now : Int)
  /-- The guarded section at the next slot. -/
  | slot
  /-- The next report of the batch. -/
  | deliver
  | finish

/-- The report still to be made. -/
def World.pending (w : World) : List Sent :=
  match w.sweep with
  | none => []
  | some s => s.batch

def World.call (w : World) (op : Op) : World :=
  let r := apply w.roster op
  { w with
    roster := r
    ids := fun i => if (w.roster.slots i).isNone && (r.slots i).isSome then w.fresh else w.ids i
    fresh := w.fresh + 1 }

def World.startSweep (w : World) (now : Int) : World :=
  { w with sweep := some ⟨now, 0, []⟩, started := w.started + 1 }

/-- What the log gains from the guarded section at `i`. -/
def World.evalAt (w : World) (now : Int) (i : Fin maxStations) : Option Eval :=
  (w.roster.slots i).map fun ctx => ⟨w.started, w.ids i, ctx, now⟩

section Steps

variable {D : Type} [CDouble D] (lq : LinkQty D)

def World.sweepSlot (w : World) (s : Sweep) (i : Fin maxStations) : World :=
  let (r, snapshot) := evalSlot w.roster i s.now
  { w with
    roster := r
    sweep := some ⟨s.now, s.next + 1, (reportsOf lq snapshot).map (Sent.mk (w.ids i))⟩
    evals := w.evals ++ (w.evalAt s.now i).toList }

/-- One step; a label that is not enabled changes nothing. -/
def World.step (w : World) : Label → World
  | .op op => w.call op
  | .start now =>
    match w.sweep with
    | none => w.startSweep now
    | some _ => w
  | .slot =>
    match w.sweep with
    | none => w
    | some s =>
      if h : s.batch = [] ∧ s.next < maxStations then w.sweepSlot lq s ⟨s.next, h.2⟩ else w
  | .deliver =>
    match w.sweep with
    | none => w
    | some s =>
      match s.batch with
      | [] => w
      | x :: rest =>
        { w with delivered := w.delivered ++ [x], sweep := some ⟨s.now, s.next, rest⟩ }
  | .finish =>
    match w.sweep with
    | none => w
    | some s => if s.batch = [] ∧ s.next = maxStations then { w with sweep := none } else w

def world : Mealy World Label Unit := ⟨fun w l => (w.step lq l, ())⟩

/-- The world after an interleaving of steps. -/
abbrev worldAfter (policy : Option Policy) (ls : List Label) : World :=
  (world lq).final (World.init policy) ls

/-- What an enabled step does. -/
inductive Step (w : World) : Label → World → Prop where
  | idle (l : Label) : Step w l w
  | call (op : Op) : Step w (.op op) (w.call op)
  | start (now : Int) (h : w.sweep = none) : Step w (.start now) (w.startSweep now)
  | slot (s : Sweep) (i : Fin maxStations) (h : w.sweep = some s) (hb : s.batch = [])
      (hi : s.next = i.val) : Step w .slot (w.sweepSlot lq s i)
  | deliver (s : Sweep) (x : Sent) (rest : List Sent) (h : w.sweep = some s)
      (hb : s.batch = x :: rest) :
      Step w .deliver
        { w with delivered := w.delivered ++ [x], sweep := some ⟨s.now, s.next, rest⟩ }
  | finish (s : Sweep) (h : w.sweep = some s) (hb : s.batch = []) (hn : s.next = maxStations) :
      Step w .finish { w with sweep := none }

theorem step_cases (w : World) (l : Label) : Step lq w l (w.step lq l) := by
  cases l with
  | op op => exact .call op
  | start now =>
    cases h : w.sweep with
    | none => simpa only [World.step, h] using Step.start now h
    | some s => simpa only [World.step, h] using Step.idle _
  | slot =>
    cases h : w.sweep with
    | none => simpa only [World.step, h] using Step.idle _
    | some s =>
      by_cases hs : s.batch = [] ∧ s.next < maxStations
      · simpa only [World.step, h, dif_pos hs] using Step.slot s ⟨s.next, hs.2⟩ h hs.1 rfl
      · simpa only [World.step, h, dif_neg hs] using Step.idle _
  | deliver =>
    cases h : w.sweep with
    | none => simpa only [World.step, h] using Step.idle _
    | some s =>
      cases hb : s.batch with
      | nil => simpa only [World.step, h, hb] using Step.idle _
      | cons x rest => simpa only [World.step, h, hb] using Step.deliver s x rest h hb
  | finish =>
    cases h : w.sweep with
    | none => simpa only [World.step, h] using Step.idle _
    | some s =>
      by_cases hs : s.batch = [] ∧ s.next = maxStations
      · simpa only [World.step, h, if_pos hs] using Step.finish s h hs.1 hs.2
      · simpa only [World.step, h, if_neg hs] using Step.idle _

theorem sweepSlot_eq (w : World) (s : Sweep) (i : Fin maxStations) :
    w.sweepSlot lq s i =
      { w with
        roster :=
          { w.roster with
            slots := Function.update w.roster.slots i
              (evaluated w.roster.policy s.now (w.roster.slots i)) }
        sweep := some ⟨s.now, s.next + 1, (reportsOf lq
          (snapshot w.roster.policy s.now (w.roster.slots i))).map (Sent.mk (w.ids i))⟩
        evals := w.evals ++ (w.evalAt s.now i).toList } := by
  rw [World.sweepSlot, evalSlot_eq]

theorem step_policy {w w' : World} {l : Label} (h : Step lq w l w') :
    w'.roster.policy = w.roster.policy := by
  cases h with
  | call op => exact apply_policy w.roster op
  | slot s i => rw [sweepSlot_eq]
  | _ => rfl

end Steps

/-! ## The names of the contexts -/

section Names

variable {w : World} {op : Op} {i : Fin maxStations}

/-- A context in slot `i` keeps its name; one that just came gets a new one. -/
theorem call_ids_new (h : w.roster.slots i = none) (h' : (w.call op).roster.slots i ≠ none) :
    (w.call op).ids i = w.fresh := by
  simp [World.call] at h' ⊢
  simp [h, h']

theorem call_ids_old (h : w.roster.slots i ≠ none) : (w.call op).ids i = w.ids i := by
  simp [World.call, Option.isNone_iff_eq_none, h]

/-- The names in use differ, and the log names no context or sweep to come. -/
structure Named (w : World) : Prop where
  wf : WellFormed w.roster
  below : ∀ i, w.roster.slots i ≠ none → w.ids i < w.fresh
  distinct : ∀ i j, w.roster.slots i ≠ none → w.roster.slots j ≠ none → w.ids i = w.ids j → i = j
  past : ∀ ev ∈ w.evals, ev.id < w.fresh ∧ ev.sweep ≤ w.started

theorem Named.call (h : Named w) (op : Op) : Named (w.call op) where
  wf := (h.wf.apply op).1
  below := by
    intro i hi
    show _ < w.fresh + 1
    by_cases hold : w.roster.slots i = none
    · rw [call_ids_new hold hi]
      omega
    · rw [call_ids_old hold]
      have := h.below i hold
      omega
  distinct := by
    intro i j hi hj hids
    by_cases hoi : w.roster.slots i = none
    · by_cases hoj : w.roster.slots j = none
      · obtain ⟨k, hk⟩ := apply_newcomer h.wf op
        rw [hk i hoi hi, hk j hoj hj]
      · rw [call_ids_new hoi hi, call_ids_old hoj] at hids
        exact absurd (h.below j hoj) (by omega)
    · by_cases hoj : w.roster.slots j = none
      · rw [call_ids_old hoi, call_ids_new hoj hj] at hids
        exact absurd (h.below i hoi) (by omega)
      · rw [call_ids_old hoi, call_ids_old hoj] at hids
        exact h.distinct i j hoi hoj hids
  past := by
    intro ev hev
    have hpast := h.past ev hev
    exact ⟨Nat.lt_succ_of_lt hpast.1, hpast.2⟩

/-- The guarded section occupies no slot and frees none. -/
theorem evaluated_ne_none {policy : Policy} {now : Int} {j : Fin maxStations} :
    Function.update w.roster.slots i (evaluated policy now (w.roster.slots i)) j ≠ none ↔
      w.roster.slots j ≠ none := by
  by_cases hj : j = i
  · subst hj
    simp [evaluated]
  · simp [hj]

theorem mem_evalAt {now : Int} {ev : Eval} : ev ∈ (w.evalAt now i).toList ↔
    ∃ ctx, w.roster.slots i = some ctx ∧ ev = ⟨w.started, w.ids i, ctx, now⟩ := by
  unfold World.evalAt
  cases w.roster.slots i <;> simp

variable {D : Type} [CDouble D] (lq : LinkQty D)

theorem Named.step {w' : World} {l : Label} (h : Named w) (hs : Step lq w l w') : Named w' := by
  cases hs with
  | idle => exact h
  | call op => exact h.call op
  | start =>
    exact ⟨h.wf, h.below, h.distinct, fun ev hev =>
      ⟨(h.past ev hev).1, Nat.le_succ_of_le (h.past ev hev).2⟩⟩
  | slot s i =>
    have hwf := h.wf.evalSlot i s.now
    rw [evalSlot_eq] at hwf
    rw [sweepSlot_eq]
    refine ⟨hwf, ?_, ?_, ?_⟩
    · intro j hj
      exact h.below j (evaluated_ne_none.mp hj)
    · intro j k hj hk hids
      exact h.distinct j k (evaluated_ne_none.mp hj) (evaluated_ne_none.mp hk) hids
    · intro ev hev
      rcases List.mem_append.mp hev with hev | hev
      · exact h.past ev hev
      · obtain ⟨ctx, hctx, rfl⟩ := mem_evalAt.mp hev
        exact ⟨h.below i (by simp [hctx]), le_refl _⟩
  | deliver => exact ⟨h.wf, h.below, h.distinct, h.past⟩
  | finish => exact ⟨h.wf, h.below, h.distinct, h.past⟩

end Names

/-! ## How often a sweep evaluates a context -/

def World.evalCount (w : World) (k id : Nat) : Nat :=
  w.evals.countP fun ev => decide (ev.sweep = k ∧ ev.id = id)

section Counts

variable {D : Type} [CDouble D] (lq : LinkQty D) {w w' : World} {l : Label}

theorem count_zero {k id : Nat} (h : ∀ ev ∈ w.evals, ¬ (ev.sweep = k ∧ ev.id = id)) :
    w.evalCount k id = 0 := by
  refine List.countP_eq_zero.mpr ?_
  intro ev hev
  simpa using h ev hev

theorem count_future (h : Named w) (id : Nat) : w.evalCount (w.started + 1) id = 0 :=
  count_zero fun ev hev hk => by have := (h.past ev hev).2; omega

theorem count_fresh (h : Named w) (k : Nat) : w.evalCount k w.fresh = 0 :=
  count_zero fun ev hev hk => by have := (h.past ev hev).1; omega

/-- The section at slot `i` adds one evaluation of the context it finds there. -/
theorem sweepSlot_count (w : World) (s : Sweep) (i : Fin maxStations) (k id : Nat) :
    (w.sweepSlot lq s i).evalCount k id = w.evalCount k id +
      if w.roster.slots i ≠ none ∧ w.started = k ∧ w.ids i = id then 1 else 0 := by
  rw [sweepSlot_eq, World.evalCount, List.countP_append, World.evalAt]
  cases h : w.roster.slots i with
  | none => simp [World.evalCount]
  | some ctx => simp [World.evalCount, List.countP_cons]

/-- No context is evaluated twice in one sweep, and none of those ahead of the
sweep was evaluated in it yet. -/
structure Once (w : World) : Prop where
  once : ∀ k id, w.evalCount k id ≤ 1
  ahead : ∀ s, w.sweep = some s → ∀ i, w.roster.slots i ≠ none → s.next ≤ i.val →
    w.evalCount w.started (w.ids i) = 0

theorem Once.call (h : Once w) (hn : Named w) (op : Op) : Once (w.call op) where
  once := h.once
  ahead := by
    intro s hs i hi hnext
    by_cases hold : w.roster.slots i = none
    · rw [call_ids_new hold hi]
      exact count_fresh hn w.started
    · rw [call_ids_old hold]
      exact h.ahead s hs i hold hnext

theorem Once.slot (h : Once w) (hn : Named w) {s : Sweep} {i : Fin maxStations}
    (hs : w.sweep = some s) (hi : s.next = i.val) : Once (w.sweepSlot lq s i) where
  once := by
    intro k id
    rw [sweepSlot_count]
    split
    next hev =>
      obtain ⟨hslot, rfl, rfl⟩ := hev
      rw [h.ahead s hs i hslot (by omega)]
    next => exact h.once k id
  ahead := by
    intro s' hs' j hj hnext
    rw [sweepSlot_eq] at hs' hj
    obtain rfl := Option.some.inj hs'
    have hj' := evaluated_ne_none.mp hj
    dsimp only at hnext
    have hcount := sweepSlot_count lq w s i w.started (w.ids j)
    rw [if_neg, h.ahead s hs j hj' (by omega)] at hcount
    · rw [sweepSlot_eq] at hcount ⊢
      exact hcount
    · rintro ⟨hslot, _, hids⟩
      rw [hn.distinct i j hslot hj' hids] at hi
      omega

theorem Once.step (h : Once w) (hn : Named w) (hs : Step lq w l w') : Once w' := by
  cases hs with
  | idle => exact h
  | call op => exact h.call hn op
  | start => exact ⟨h.once, fun _ _ i _ _ => count_future hn (w.ids i)⟩
  | slot s i hsome _ hi => exact h.slot lq hn hsome hi
  | deliver s x rest hsome =>
    refine ⟨h.once, ?_⟩
    intro s' hs' i hi hnext
    obtain rfl := Option.some.inj hs'
    exact h.ahead s hsome i hi hnext
  | finish => exact ⟨h.once, by simp⟩

/-- Sweep `k` has evaluated every context named below `bound` that it has passed. -/
structure SweptSince (k bound : Nat) (w : World) : Prop where
  later : k ≤ w.started
  room : bound ≤ w.fresh
  behind : w.started = k → ∀ i, w.roster.slots i ≠ none → w.ids i < bound →
    (∀ s, w.sweep = some s → i.val < s.next) → w.evalCount k (w.ids i) = 1

theorem sweptSince_start (w : World) (now : Int) :
    SweptSince (w.started + 1) w.fresh (w.startSweep now) where
  later := le_refl _
  room := le_refl _
  behind := fun _ i _ _ hpassed => absurd (hpassed _ rfl) (Nat.not_lt_zero i.val)

theorem SweptSince.slot {k bound : Nat} (h : SweptSince k bound w) (ho : Once w) (hn : Named w)
    {s : Sweep} {i : Fin maxStations} (hs : w.sweep = some s) (hi : s.next = i.val) :
    SweptSince k bound (w.sweepSlot lq s i) where
  later := h.later
  room := h.room
  behind := by
    intro hk j hj hbound hpassed
    have hk' : w.started = k := hk
    subst hk'
    have hj' : w.roster.slots j ≠ none := by
      rw [sweepSlot_eq] at hj
      exact evaluated_ne_none.mp hj
    have hlt : j.val < s.next + 1 := hpassed ⟨s.now, s.next + 1,
      (reportsOf lq (evalSlot w.roster i s.now).2).map (Sent.mk (w.ids i))⟩ rfl
    show (w.sweepSlot lq s i).evalCount w.started (w.ids j) = 1
    rw [sweepSlot_count]
    by_cases hji : j = i
    · subst hji
      rw [if_pos ⟨hj', rfl, rfl⟩, ho.ahead s hs j hj' (by omega)]
    · rw [if_neg fun hc => hji (hn.distinct i j hc.1 hj' hc.2.2).symm]
      refine h.behind rfl j hj' hbound ?_
      intro s' hs'
      obtain rfl := Option.some.inj (hs.symm.trans hs')
      have : j.val ≠ i.val := fun he => hji (Fin.ext he)
      omega

theorem SweptSince.step {k bound : Nat} (h : SweptSince k bound w) (ho : Once w) (hn : Named w)
    (hs : Step lq w l w') : SweptSince k bound w' := by
  cases hs with
  | idle => exact h
  | call op =>
    refine ⟨h.later, Nat.le_succ_of_le h.room, ?_⟩
    intro hk i hi hbound hpassed
    by_cases hold : w.roster.slots i = none
    · rw [call_ids_new hold hi] at hbound
      exact absurd h.room (by omega)
    · rw [call_ids_old hold] at hbound ⊢
      exact h.behind hk i hold hbound hpassed
  | start =>
    refine ⟨Nat.le_succ_of_le h.later, h.room, ?_⟩
    intro hk
    have hlater := h.later
    exact absurd hk (by show w.started + 1 ≠ k; omega)
  | slot s i hsome _ hi => exact h.slot lq ho hn hsome hi
  | deliver s x rest hsome =>
    refine ⟨h.later, h.room, fun hk i hi hbound hpassed => h.behind hk i hi hbound ?_⟩
    intro s' hs'
    obtain rfl := Option.some.inj (hsome.symm.trans hs')
    exact hpassed ⟨s.now, s.next, rest⟩ rfl
  | finish s hsome _ hnext =>
    refine ⟨h.later, h.room, fun hk i hi hbound _ => h.behind hk i hi hbound ?_⟩
    intro s' hs'
    obtain rfl := Option.some.inj (hsome.symm.trans hs')
    rw [hnext]
    exact i.isLt

end Counts

/-! ## A sweep without interference -/

section Undisturbed

variable {D : Type} [CDouble D] (lq : LinkQty D)

/-- One slot's section and its reports; a report too many is not enabled. -/
def slotLabels : List Label := .slot :: List.replicate Metric.all.length .deliver

/-- A whole sweep with nothing in between. -/
def sweepLabels (now : Int) : List Label :=
  .start now :: ((List.finRange maxStations).flatMap (fun _ => slotLabels) ++ [.finish])

/-- The sweep has made the reports `reports` and stands before slot `n`. -/
structure At (w : World) (now : Int) (n : Nat) (r : Roster) (reports : List Report) : Prop where
  roster : w.roster = r
  sweep : w.sweep = some ⟨now, n, []⟩
  delivered : w.delivered.map Sent.report = reports

theorem deliver_all {w : World} {now : Int} {n : Nat} {batch : List Sent} {k : Nat}
    (hw : w.sweep = some ⟨now, n, batch⟩) (hk : batch.length ≤ k) :
    At ((world lq).final w (List.replicate k .deliver)) now n w.roster
      (w.delivered.map Sent.report ++ batch.map Sent.report) := by
  induction k generalizing w batch with
  | zero =>
    obtain rfl := List.eq_nil_of_length_eq_zero (Nat.le_zero.mp hk)
    exact ⟨rfl, hw, by simp⟩
  | succ k ih =>
    rw [List.replicate_succ, Mealy.final_cons]
    cases batch with
    | nil =>
      rw [show ((world lq).step w .deliver).1 = w by simp [world, World.step, hw]]
      exact ih hw (Nat.zero_le k)
    | cons x rest =>
      rw [show ((world lq).step w .deliver).1 =
        { w with delivered := w.delivered ++ [x], sweep := some ⟨now, n, rest⟩ } by
          simp [world, World.step, hw]]
      have hrest := ih (w := { w with delivered := w.delivered ++ [x], sweep := some ⟨now, n, rest⟩ })
        rfl (by simpa using hk)
      simpa using hrest

theorem reportsOf_length (r : Roster) (now : Int) (i : Fin maxStations) :
    (reportsOf lq (snapshot r.policy now (r.slots i))).length ≤ Metric.all.length := by
  cases r.slots i with
  | none => exact Nat.zero_le _
  | some ctx => simpa [snapshot, reportsOf] using evalCtx_length ctx r.policy now

/-- A slot passed without interference is one slot of the sequential sweep. -/
theorem slot_undisturbed {w : World} {now : Int} {i : Fin maxStations} {r : Roster}
    {reports : List Report} (h : At w now i.val r reports) :
    At ((world lq).final w slotLabels) now (i.val + 1) (sweepSlot lq now (r, reports) i).1
      (sweepSlot lq now (r, reports) i).2 := by
  obtain ⟨rfl, hsweep, rfl⟩ := h
  have hslot : ((world lq).step w .slot).1 = w.sweepSlot lq ⟨now, i.val, []⟩ i := by
    simp [world, World.step, hsweep]
  have hsome : (w.sweepSlot lq ⟨now, i.val, []⟩ i).sweep = some ⟨now, i.val + 1,
      (reportsOf lq (snapshot w.roster.policy now (w.roster.slots i))).map
        (Sent.mk (w.ids i))⟩ := by
    rw [sweepSlot_eq]
  have hall := deliver_all lq hsome (k := Metric.all.length) (by
    rw [List.length_map]
    exact reportsOf_length lq w.roster now i)
  rw [slotLabels, Mealy.final_cons, hslot, sweepSlot, evalSlot_eq]
  rw [sweepSlot_eq, List.map_map] at hall
  rw [sweepSlot_eq]
  simpa [Function.comp_def] using hall

theorem slots_undisturbed {w : World} {now : Int} {n : Nat} {r : Roster} {reports : List Report}
    (is : List (Fin maxStations)) (his : is.map Fin.val = List.range' n is.length)
    (h : At w now n r reports) :
    At ((world lq).final w (is.flatMap fun _ => slotLabels)) now (n + is.length)
      (is.foldl (sweepSlot lq now) (r, reports)).1
      (is.foldl (sweepSlot lq now) (r, reports)).2 := by
  induction is generalizing w n r reports with
  | nil => exact h
  | cons i is ih =>
    rw [List.map_cons, List.length_cons, List.range'_succ, List.cons.injEq] at his
    obtain ⟨rfl, his⟩ := his
    rw [List.flatMap_cons, Mealy.final_append, List.foldl_cons, List.length_cons]
    have hrest := ih his (slot_undisturbed lq h)
    rwa [show i.val + (is.length + 1) = i.val + 1 + is.length by omega]

/-- A sweep that no other thread interrupts is `wei_life_eval_station` as one call. -/
theorem sweep_undisturbed {w : World} (h : w.sweep = none) (now : Int) :
    ((world lq).final w (sweepLabels now)).roster = (evalStation lq w.roster now).1 ∧
      ((world lq).final w (sweepLabels now)).sweep = none ∧
      ((world lq).final w (sweepLabels now)).delivered.map Sent.report =
        w.delivered.map Sent.report ++ (evalStation lq w.roster now).2 := by
  have hstart : ((world lq).step w (.start now)).1 = w.startSweep now := by
    simp [world, World.step, h]
  have hfirst : At (w.startSweep now) now 0 w.roster (w.delivered.map Sent.report) :=
    ⟨rfl, rfl, rfl⟩
  have hslots := slots_undisturbed lq (List.finRange maxStations)
    (by rw [List.map_coe_finRange_eq_range, List.range_eq_range', List.length_finRange]) hfirst
  rw [sweep_slots lq now _ (List.nodup_finRange _), List.length_finRange, Nat.zero_add] at hslots
  rw [sweepLabels, Mealy.final_cons, hstart, Mealy.final_append, evalStation_eq]
  generalize (world lq).final (w.startSweep now)
    ((List.finRange maxStations).flatMap fun _ => slotLabels) = w' at hslots ⊢
  have hfinish : (world lq).final w' [.finish] = { w' with sweep := none } := by
    simp [world, World.step, hslots.sweep]
  rw [hfinish]
  exact ⟨by simpa using hslots.roster, rfl, hslots.delivered⟩

end Undisturbed

end Wei.Life
