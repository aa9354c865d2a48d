import Wei.Life.World
import Wei.Lib.RealDouble
import Wei.Track.Excursions

/-!
# What the sweeps of an interleaving account for

Every report comes from one evaluation, in the order of the log, and the
evaluations of a context tick each of its trackers once a sweep. So the
reported onsets and durations of a context are those of the maximal runs in
its samples, whatever the other threads do between two slots.
-/
namespace Wei.Life

open Wei.Lib Wei.Lib.SlotTable Wei.ConnScorer

/-! ## From the log to the reports -/

section Reports

variable {D : Type} [CDouble D] (lq : LinkQty D) {w w' : World} {l : Label}

/-- The reports an evaluation leads to. -/
def Eval.reports (policy : Policy) (ev : Eval) : List Sent :=
  (evalCtx ev.ctx policy ev.now).2.map fun x => ⟨ev.id, ⟨x, score lq ev.ctx.sample⟩⟩

/-- Delivered and pending reports are those of the log, in order. -/
def Reported (w : World) : Prop :=
  w.delivered ++ w.pending = w.evals.flatMap (Eval.reports lq w.roster.policy)

theorem Reported.step (h : Reported lq w) (hs : Step lq w l w') : Reported lq w' := by
  unfold Reported at h ⊢
  rw [step_policy lq hs]
  cases hs with
  | idle => exact h
  | call op => exact h
  | start now hnone =>
    rw [show w.pending = [] by rw [World.pending, hnone]] at h
    exact h
  | slot s i hsome hb =>
    rw [show w.pending = [] by rw [World.pending, hsome]; exact hb, List.append_nil] at h
    rw [sweepSlot_eq]
    dsimp only [World.pending]
    rw [List.flatMap_append, h, World.evalAt]
    cases w.roster.slots i with
    | none => rfl
    | some ctx => simp [snapshot, reportsOf, Eval.reports]
  | deliver s x rest hsome hb =>
    rw [show w.pending = x :: rest by rw [World.pending, hsome]; exact hb] at h
    simpa [World.pending] using h
  | finish s hsome hb =>
    rw [show w.pending = [] by rw [World.pending, hsome]; exact hb] at h
    exact h

/-- The excursions reported of one context and metric. -/
def excursionsOf (xs : List Sent) (id : Nat) (metric : Metric) : List Excursion :=
  (xs.filter fun x => decide (x.id = id ∧ x.report.excursion.metric = metric)).map
    fun x => x.report.excursion

theorem excursionsOf_append (xs ys : List Sent) (id : Nat) (metric : Metric) :
    excursionsOf (xs ++ ys) id metric = excursionsOf xs id metric ++ excursionsOf ys id metric := by
  simp [excursionsOf]

theorem excursionsOf_eq_nil {xs : List Sent} {id : Nat} (metric : Metric)
    (h : ∀ x ∈ xs, x.id ≠ id) : excursionsOf xs id metric = [] := by
  rw [excursionsOf, List.filter_eq_nil_iff.mpr, List.map_nil]
  intro x hx
  simp [h x hx]

/-- An evaluation reports what the detectors found, of its own context only. -/
theorem excursionsOf_reports (policy : Policy) (ev : Eval) (id : Nat) (metric : Metric) :
    excursionsOf (ev.reports lq policy) id metric =
      if ev.id = id then (ev.ctx.detect policy ev.now metric).2.toList else [] := by
  by_cases hid : ev.id = id
  · rw [if_pos hid, excursionsOf, Eval.reports, List.filter_map, List.map_map, ← evalCtx_filter]
    simp [Function.comp_def, hid]
  · rw [if_neg hid]
    refine excursionsOf_eq_nil metric ?_
    intro x hx
    obtain ⟨y, _, rfl⟩ := List.mem_map.mp hx
    exact hid

/-- The evaluations of one context. -/
def World.evalsOf (w : World) (id : Nat) : List Eval := w.evals.filter fun ev => decide (ev.id = id)

theorem excursionsOf_log (policy : Policy) (evals : List Eval) (id : Nat) (metric : Metric) :
    excursionsOf (evals.flatMap (Eval.reports lq policy)) id metric =
      (evals.filter fun ev => decide (ev.id = id)).flatMap fun ev =>
        (ev.ctx.detect policy ev.now metric).2.toList := by
  induction evals with
  | nil => rfl
  | cons ev evals ih =>
    rw [List.flatMap_cons, excursionsOf_append, ih, excursionsOf_reports]
    by_cases hid : ev.id = id <;> simp [hid]

end Reports

/-! ## The account of one context -/

section Account

open Track (Sample Timed sustained sustainedTotal)

/-- What the tracker of a metric is ticked with. -/
def Eval.sample (policy : Policy) (metric : Metric) (ev : Eval) : Sample :=
  ⟨metric.value ev.ctx.sample, ev.now, metric.band policy, metric.dwellMs policy⟩

/-- The samples of one context and metric, sweep by sweep. -/
def World.samplesOf (w : World) (id : Nat) (metric : Metric) : List Sample :=
  (w.evalsOf id).map (Eval.sample w.roster.policy metric)

/-- The entry of an evaluation after its tick. -/
def Eval.ticked (policy : Policy) (metric : Metric) (ev : Eval) : Track.Entry :=
  ev.ctx.ticked policy ev.now metric

/-- What was counted against the runs in the samples, and what the trackers hold. -/
structure Account (w : World) : Prop where
  onsets : ∀ id metric, ((w.evalsOf id).map fun ev =>
    (ev.ticked w.roster.policy metric).count.toNat).sum =
      Runs.onsets Sample.Below (w.samplesOf id metric)
  durations : ∀ id metric, ((w.evalsOf id).map fun ev =>
    (ev.ticked w.roster.policy metric).accumulated).sum = sustainedTotal (w.samplesOf id metric)
  timed : ∀ i ctx metric, w.roster.slots i = some ctx →
    Timed (w.samplesOf (w.ids i) metric) (ctx.track metric).startTs
  collected : ∀ i ctx metric, w.roster.slots i = some ctx →
    (ctx.track metric).count = 0 ∧ (ctx.track metric).accumulated = 0
  clock : ∀ s, w.sweep = some s → 0 < s.now

theorem account_init (policy : Option Policy) : Account (World.init policy) := by
  constructor
  · intro id metric
    exact Runs.onsets_nil.symm
  · intro id metric
    show (0 : Int) = sustainedTotal []
    simp [sustainedTotal, Runs.closedRuns_nil]
  · intro i ctx metric h
    cases h
  · intro i ctx metric h
    cases h
  · intro s h
    cases h

variable {w w' : World}

theorem samplesOf_fresh (h : Named w) (metric : Metric) : w.samplesOf w.fresh metric = [] := by
  have hnone : w.evalsOf w.fresh = [] := by
    refine List.filter_eq_nil_iff.mpr ?_
    intro ev hev
    have := (h.past ev hev).1
    simp only [decide_eq_true_eq]
    omega
  rw [World.samplesOf, hnone, List.map_nil]

theorem Account.call (h : Account w) (hn : Named w) (op : Op) : Account (w.call op) := by
  have hsamples : ∀ id metric, (w.call op).samplesOf id metric = w.samplesOf id metric := by
    intro id metric
    show (w.evalsOf id).map (Eval.sample (apply w.roster op).policy metric) = _
    rw [apply_policy, World.samplesOf]
  refine ⟨?_, ?_, ?_, ?_, h.clock⟩
  · intro id metric
    rw [hsamples, ← h.onsets]
    show ((w.evalsOf id).map fun ev =>
      (ev.ticked (apply w.roster op).policy metric).count.toNat).sum = _
    rw [apply_policy]
  · intro id metric
    rw [hsamples, ← h.durations]
    show ((w.evalsOf id).map fun ev =>
      (ev.ticked (apply w.roster op).policy metric).accumulated).sum = _
    rw [apply_policy]
  · intro i ctx' metric hslot
    rw [hsamples]
    rcases apply_carried hn.wf op i ctx' hslot with ⟨ctx, hctx, _, htrack, _⟩ | ⟨hnone, hnew⟩
    · rw [htrack, call_ids_old (by simp [hctx])]
      exact h.timed i ctx metric hctx
    · have hnew' : (w.call op).roster.slots i ≠ none := by
        rw [hslot]
        simp
      rw [hnew, opened_track, call_ids_new hnone hnew', samplesOf_fresh hn]
      exact Track.timed_nil
  · intro i ctx' metric hslot
    rcases apply_carried hn.wf op i ctx' hslot with ⟨ctx, hctx, _, htrack, _⟩ | ⟨_, hnew⟩
    · rw [htrack]
      exact h.collected i ctx metric hctx
    · rw [hnew, opened_track]
      exact ⟨rfl, rfl⟩

/-- The section at a slot without a context changes no part of the account. -/
theorem sweepSlot_none {D : Type} [CDouble D] (lq : LinkQty D) {s : Sweep} {i : Fin maxStations}
    (h : w.roster.slots i = none) :
    w.sweepSlot lq s i = { w with sweep := some ⟨s.now, s.next + 1, []⟩ } := by
  have hkeep : Function.update w.roster.slots i none = w.roster.slots := by
    rw [← h, Function.update_eq_self]
  rw [sweepSlot_eq, World.evalAt, h]
  simp [evaluated, snapshot, reportsOf, hkeep]

section Evaluate

variable {D : Type} [CDouble D] (lq : LinkQty D) {s : Sweep} {i : Fin maxStations} {ctx : Ctx}

theorem sweepSlot_evalsOf (hctx : w.roster.slots i = some ctx) (id : Nat) :
    (w.sweepSlot lq s i).evalsOf id =
      w.evalsOf id ++ if w.ids i = id then [⟨w.started, w.ids i, ctx, s.now⟩] else [] := by
  rw [sweepSlot_eq, World.evalsOf, List.filter_append, World.evalAt, hctx]
  by_cases hid : w.ids i = id <;> simp [hid, World.evalsOf]

theorem sweepSlot_policy : (w.sweepSlot lq s i).roster.policy = w.roster.policy := by
  rw [sweepSlot_eq]

theorem sweepSlot_samplesOf (hctx : w.roster.slots i = some ctx) (id : Nat) (metric : Metric) :
    (w.sweepSlot lq s i).samplesOf id metric = w.samplesOf id metric ++
      if w.ids i = id then
        [Eval.sample w.roster.policy metric ⟨w.started, w.ids i, ctx, s.now⟩]
      else [] := by
  rw [World.samplesOf, sweepSlot_evalsOf lq hctx, sweepSlot_policy, List.map_append, World.samplesOf]
  by_cases hid : w.ids i = id <;> simp [hid]

/-- The tick of one metric, against the samples of the context before it. -/
theorem Account.ticked (h : Account w) (hs : w.sweep = some s) (hctx : w.roster.slots i = some ctx)
    (metric : Metric) :
    Track.TickSpec (w.samplesOf (w.ids i) metric)
      (Eval.sample w.roster.policy metric ⟨w.started, w.ids i, ctx, s.now⟩) (ctx.track metric)
      (ctx.ticked w.roster.policy s.now metric) :=
  Track.tick_spec (h.timed i ctx metric hctx) _ (h.clock s hs)

theorem Account.evaluate_onsets (h : Account w) (hs : w.sweep = some s)
    (hctx : w.roster.slots i = some ctx) (id : Nat) (metric : Metric) :
    (((w.sweepSlot lq s i).evalsOf id).map fun ev =>
      (ev.ticked w.roster.policy metric).count.toNat).sum =
        Runs.onsets Sample.Below ((w.sweepSlot lq s i).samplesOf id metric) := by
  rw [sweepSlot_evalsOf lq hctx, sweepSlot_samplesOf lq hctx]
  by_cases hid : w.ids i = id
  · subst hid
    rw [if_pos rfl, if_pos rfl, List.map_append, List.sum_append, h.onsets]
    have hzero := (h.collected i ctx metric hctx).1
    rcases (h.ticked hs hctx metric).count with ⟨hcount, hruns⟩ | ⟨hcount, hruns⟩
    · rw [hruns]
      simp [Eval.ticked, hcount, hzero]
    · rw [hruns]
      simp [Eval.ticked, hcount, hzero]
  · rw [if_neg hid, if_neg hid, List.append_nil, List.append_nil, h.onsets]

theorem Account.evaluate_durations (h : Account w) (hs : w.sweep = some s)
    (hctx : w.roster.slots i = some ctx) (id : Nat) (metric : Metric) :
    (((w.sweepSlot lq s i).evalsOf id).map fun ev =>
      (ev.ticked w.roster.policy metric).accumulated).sum =
        sustainedTotal ((w.sweepSlot lq s i).samplesOf id metric) := by
  rw [sweepSlot_evalsOf lq hctx, sweepSlot_samplesOf lq hctx]
  by_cases hid : w.ids i = id
  · subst hid
    rw [if_pos rfl, if_pos rfl, List.map_append, List.sum_append, h.durations]
    have hspent := (h.ticked hs hctx metric).accumulated
    rw [(h.collected i ctx metric hctx).2] at hspent
    simp only [List.map_cons, List.map_nil, List.sum_cons, List.sum_nil, Eval.ticked]
    omega
  · rw [if_neg hid, if_neg hid, List.append_nil, List.append_nil, h.durations]

/-- Each slot after the section: the context that was evaluated, or one left alone. -/
theorem sweepSlot_slot (hctx : w.roster.slots i = some ctx) {j : Fin maxStations} {ctx' : Ctx}
    (h : (w.sweepSlot lq s i).roster.slots j = some ctx') :
    (j = i ∧ ctx' = (evalCtx ctx w.roster.policy s.now).1) ∨
      (j ≠ i ∧ w.roster.slots j = some ctx') := by
  rw [sweepSlot_eq] at h
  dsimp only at h
  by_cases hj : j = i
  · subst hj
    rw [Function.update_self, hctx] at h
    exact Or.inl ⟨rfl, (Option.some.inj h).symm⟩
  · rw [Function.update_of_ne hj] at h
    exact Or.inr ⟨hj, h⟩

/-- The section at a slot with a context keeps the account. -/
theorem Account.evaluate (h : Account w) (hn : Named w) (hs : w.sweep = some s)
    (hctx : w.roster.slots i = some ctx) : Account (w.sweepSlot lq s i) where
  onsets := by
    rw [sweepSlot_policy]
    exact h.evaluate_onsets lq hs hctx
  durations := by
    rw [sweepSlot_policy]
    exact h.evaluate_durations lq hs hctx
  timed := by
    intro j ctx' metric hslot
    show Timed ((w.sweepSlot lq s i).samplesOf (w.ids j) metric) _
    rw [sweepSlot_samplesOf lq hctx]
    rcases sweepSlot_slot lq hctx hslot with ⟨rfl, rfl⟩ | ⟨hj, hslot⟩
    · rw [if_pos rfl, evalCtx_track, detect_entry]
      exact (h.ticked hs hctx metric).timed
    · have hne : w.ids i ≠ w.ids j := fun hids =>
        hj (hn.distinct i j (by simp [hctx]) (by simp [hslot]) hids).symm
      rw [if_neg hne, List.append_nil]
      exact h.timed j ctx' metric hslot
  collected := by
    intro j ctx' metric hslot
    rcases sweepSlot_slot lq hctx hslot with ⟨rfl, rfl⟩ | ⟨_, hslot⟩
    · rw [evalCtx_track, detect_entry]
      exact ⟨rfl, rfl⟩
    · exact h.collected j ctx' metric hslot
  clock := by
    intro s' hs'
    rw [sweepSlot_eq] at hs'
    obtain rfl := Option.some.inj hs'
    exact h.clock s hs

theorem Account.step {l : Label} (h : Account w) (hn : Named w) (hs : Step lq w l w')
    (hclock : ∀ now, l = .start now → 0 < now) : Account w' := by
  cases hs with
  | idle => exact h
  | call op => exact h.call hn op
  | start now =>
    refine ⟨h.onsets, h.durations, h.timed, h.collected, ?_⟩
    intro s hs
    obtain rfl := Option.some.inj hs
    exact hclock now rfl
  | slot s i hsome =>
    cases hctx : w.roster.slots i with
    | some ctx => exact h.evaluate lq hn hsome hctx
    | none =>
      rw [sweepSlot_none lq hctx]
      refine ⟨h.onsets, h.durations, h.timed, h.collected, ?_⟩
      intro s' hs'
      obtain rfl := Option.some.inj hs'
      exact h.clock s hsome
  | deliver s x rest hsome =>
    refine ⟨h.onsets, h.durations, h.timed, h.collected, ?_⟩
    intro s' hs'
    obtain rfl := Option.some.inj hs'
    exact h.clock s hsome
  | finish => exact ⟨h.onsets, h.durations, h.timed, h.collected, by simp⟩

end Evaluate

end Account

/-! ## Over every interleaving -/

section Runs

variable {D : Type} [CDouble D] (lq : LinkQty D) (policy : Option Policy)

theorem named_init : Named (World.init policy) where
  wf := wellFormed_init policy
  below := fun _ h => absurd rfl h
  distinct := fun _ _ h => absurd rfl h
  past := by simp [World.init]

theorem once_init : Once (World.init policy) where
  once := by simp [World.init, World.evalCount]
  ahead := by simp [World.init]

theorem named_once_run {w : World} (h : Named w ∧ Once w) (ls : List Label) :
    Named ((world lq).final w ls) ∧ Once ((world lq).final w ls) :=
  (world lq).final_induction (p := fun w => Named w ∧ Once w)
    (fun w l h => ⟨h.1.step lq (step_cases lq w l), h.2.step lq h.1 (step_cases lq w l)⟩) h ls

theorem reported_run (ls : List Label) : Reported lq (worldAfter lq policy ls) :=
  (world lq).final_induction (p := Reported lq)
    (fun w l h => h.step lq (step_cases lq w l))
    (show Reported lq (World.init policy) from rfl) ls

theorem account_run {ls : List Label} (hclock : ∀ now, .start now ∈ ls → 0 < now) :
    Account (worldAfter lq policy ls) := by
  induction ls using List.reverseRecOn with
  | nil => exact account_init policy
  | append_singleton ls l ih =>
    have hbefore := ih fun now h => hclock now (List.mem_append_left _ h)
    have hnamed := (named_once_run lq ⟨named_init policy, once_init policy⟩ ls).1
    rw [show worldAfter lq policy (ls ++ [l]) = (worldAfter lq policy ls).step lq l from
      (world lq).final_concat _ _ _]
    refine hbefore.step lq hnamed (step_cases lq _ l) ?_
    rintro now rfl
    exact hclock now (by simp)

/-- What a world has logged and delivered. -/
structure Exact (w : World) : Prop where
  once : ∀ k id, w.evalCount k id ≤ 1
  carried : ∀ x ∈ w.delivered, ∃ ev ∈ w.evals, x.id = ev.id ∧
    x.report.excursion.mac = ev.ctx.mac ∧
    x.report.excursion ∈ (evalCtx ev.ctx w.roster.policy ev.now).2 ∧
    x.report.connectedScore = score lq ev.ctx.sample
  reported : w.delivered ++ w.pending = w.evals.flatMap (Eval.reports lq w.roster.policy)
  onsets : ∀ id metric, (∀ x ∈ w.pending, x.id ≠ id) →
    ((excursionsOf w.delivered id metric).map fun x => x.onsetCount.toNat).sum =
      Runs.onsets Track.Sample.Below (w.samplesOf id metric)
  durations : ∀ id metric, (∀ x ∈ w.pending, x.id ≠ id) →
    ((excursionsOf w.delivered id metric).map Excursion.durationMs).sum =
      ∑ r ∈ Runs.closedRuns Track.Sample.Below (w.samplesOf id metric),
        Track.sustained (w.samplesOf id metric) r

theorem excursionsOf_delivered {w : World} (h : Reported lq w) {id : Nat} (metric : Metric)
    (hpending : ∀ x ∈ w.pending, x.id ≠ id) :
    excursionsOf w.delivered id metric =
      (w.evalsOf id).flatMap fun ev =>
        (ev.ctx.detect w.roster.policy ev.now metric).2.toList := by
  have hlog := excursionsOf_log lq w.roster.policy w.evals id metric
  rw [← h, excursionsOf_append, excursionsOf_eq_nil metric hpending, List.append_nil] at hlog
  exact hlog

theorem exact_of_invariants {w : World} (ho : Once w) (hr : Reported lq w) (ha : Account w) :
    Exact lq w where
  once := ho.once
  carried := by
    intro x hx
    have hlog : x ∈ w.evals.flatMap (Eval.reports lq w.roster.policy) := by
      rw [← hr]
      exact List.mem_append_left _ hx
    obtain ⟨ev, hev, hx⟩ := List.mem_flatMap.mp hlog
    obtain ⟨y, hy, rfl⟩ := List.mem_map.mp hx
    have hmac := (detect_excursion _ _ _ ((mem_evalCtx _ _ _).mp hy)).1
    exact ⟨ev, hev, rfl, hmac, hy, rfl⟩
  reported := hr
  onsets := by
    intro id metric hpending
    rw [excursionsOf_delivered lq hr metric hpending, ← ha.onsets, List.map_flatMap,
      List.flatMap_def, List.sum_flatten, List.map_map]
    refine congrArg List.sum (List.map_congr_left fun ev _ => ?_)
    exact (detect_sums ev.ctx w.roster.policy ev.now metric).1
  durations := by
    intro id metric hpending
    rw [excursionsOf_delivered lq hr metric hpending]
    refine Eq.trans ?_ (ha.durations id metric)
    rw [List.map_flatMap, List.flatMap_def, List.sum_flatten, List.map_map]
    refine congrArg List.sum (List.map_congr_left fun ev _ => ?_)
    exact (detect_sums ev.ctx w.roster.policy ev.now metric).2

/-- The context named `id` sits in a slot. -/
def World.Attached (w : World) (id : Nat) : Prop := ∃ i, w.roster.slots i ≠ none ∧ w.ids i = id

/-- The last sweep that began has passed every slot. -/
def World.Finished (w : World) : Prop := ∀ s, w.sweep = some s → s.next = maxStations

/-- Of the contexts attached when a sweep begins, it has evaluated each that is
still attached when it has passed every slot. -/
theorem swept_once {w : World} (h : Named w ∧ Once w) (hidle : w.sweep = none) (now : Int)
    (since : List Label) {id : Nat} (hid : w.Attached id)
    (hstarted : ((world lq).final w (.start now :: since)).started = w.started + 1)
    (hfinished : ((world lq).final w (.start now :: since)).Finished)
    (hstill : ((world lq).final w (.start now :: since)).Attached id) :
    ((world lq).final w (.start now :: since)).evalCount (w.started + 1) id = 1 := by
  have hstart : w.step lq (.start now) = w.startSweep now := by rw [World.step, hidle]
  have hbegun := named_once_run lq h [.start now]
  rw [Mealy.final_cons, Mealy.final_nil, show ((world lq).step w (.start now)).1 =
    w.startSweep now from hstart] at hbegun
  rw [Mealy.final_cons, show ((world lq).step w (.start now)).1 = w.startSweep now from hstart]
    at hstarted hfinished hstill ⊢
  have hall := (world lq).final_induction
    (p := fun w' => (Named w' ∧ Once w') ∧ SweptSince (w.started + 1) w.fresh w')
    (fun w' l h' => ⟨⟨h'.1.1.step lq (step_cases lq w' l), h'.1.2.step lq h'.1.1
      (step_cases lq w' l)⟩, h'.2.step lq h'.1.2 h'.1.1 (step_cases lq w' l)⟩)
    ⟨hbegun, sweptSince_start w now⟩ since
  obtain ⟨i, hi, rfl⟩ := hstill
  obtain ⟨j, hj, hij⟩ := hid
  refine hall.2.behind hstarted i hi (hij ▸ h.1.below j hj) ?_
  intro s hs
  rw [hfinished s hs]
  exact i.isLt

/-- Under every interleaving a sweep evaluates each context that stays attached
exactly once, and the reports account for the evaluations. -/
theorem sweeps_lose_nothing (ls : List Label) (hclock : ∀ now, .start now ∈ ls → 0 < now) :
    Exact lq (worldAfter lq policy ls) ∧
      ∀ before now since, ls = before ++ .start now :: since →
        (worldAfter lq policy before).sweep = none →
        (worldAfter lq policy ls).started = (worldAfter lq policy before).started + 1 →
        (worldAfter lq policy ls).Finished →
        ∀ id, (worldAfter lq policy before).Attached id → (worldAfter lq policy ls).Attached id →
          (worldAfter lq policy ls).evalCount (worldAfter lq policy ls).started id = 1 := by
  have hrun := named_once_run lq ⟨named_init policy, once_init policy⟩
  refine ⟨exact_of_invariants lq (hrun ls).2 (reported_run lq policy ls)
    (account_run lq policy hclock), ?_⟩
  rintro before now since rfl hidle hstarted hfinished id hid hstill
  rw [hstarted]
  rw [worldAfter, Mealy.final_append] at hstarted hfinished hstill ⊢
  exact swept_once lq (hrun before) hidle now since hid hstarted hfinished hstill

/-- Two stations are there when the sweep begins. -/
def firstTwo : List Label :=
  [.op (.attach (Vector.replicate 6 1) true), .op (.attach (Vector.replicate 6 2) true)]

/-- Between their two slots the first leaves and a third takes its slot. -/
def disturbed : List Label :=
  [.slot, .deliver, .deliver, .op (.detach (Vector.replicate 6 1)),
    .op (.attach (Vector.replicate 6 3) true), .slot, .deliver, .deliver] ++
    List.replicate (maxStations - 2) .slot ++ [.finish]

/-- The second is evaluated once all the same, and the run of the first below the SNR
floor is not lost with it. -/
theorem sweeps_lose_nothing_disturbed :
    (worldAfter (⟨0, 0⟩ : LinkQty ℝ) none (firstTwo ++ .start 5 :: disturbed)).evalCount 1 1 = 1 ∧
      ((excursionsOf (worldAfter (⟨0, 0⟩ : LinkQty ℝ) none
          (firstTwo ++ .start 5 :: disturbed)).delivered 0 .snr).map
        fun x => x.onsetCount.toNat).sum =
          Runs.onsets Track.Sample.Below
            ((worldAfter (⟨0, 0⟩ : LinkQty ℝ) none
              (firstTwo ++ .start 5 :: disturbed)).samplesOf 0 .snr) := by
  have hexact := sweeps_lose_nothing (⟨0, 0⟩ : LinkQty ℝ) none (firstTwo ++ .start 5 :: disturbed)
    (by simp [firstTwo, disturbed])
  have hidle : (worldAfter (⟨0, 0⟩ : LinkQty ℝ) none
      (firstTwo ++ .start 5 :: disturbed)).sweep = none :=
    Option.isNone_iff_eq_none.mp (by decide +kernel)
  have hstarted : (worldAfter (⟨0, 0⟩ : LinkQty ℝ) none
      (firstTwo ++ .start 5 :: disturbed)).started = 1 := by decide +kernel
  refine ⟨?_, hexact.1.onsets 0 .snr ?_⟩
  · have hcount := hexact.2 firstTwo 5 disturbed rfl rfl hstarted
      (fun s hs => by rw [hidle] at hs; cases hs)
      1 ⟨⟨1, by decide⟩, by decide +kernel, by decide +kernel⟩
      ⟨⟨1, by decide⟩, by decide +kernel, by decide +kernel⟩
    rwa [hstarted] at hcount
  · rw [World.pending, hidle]
    simp

end Runs

end Wei.Life
