import Wei.Lib.Guard
import Wei.Life.Interleaving

/-!
# The roster one access at a time

The code of `wei_life.c` between `pthread_mutex_lock` and `pthread_mutex_unlock`,
turn by turn of its loops and statement by statement, with any number of threads
that take the guard whenever they like. What one of them does to the slots and to
the counter is not atomic, and neither are the detectors; the guard makes it so.
-/
namespace Wei.Life

open Wei.Lib Wei.Lib.SlotTable Wei.ConnScorer

/-- What a thread takes the guard for. -/
inductive Section where
  | attach (mac : Mac) (alloc : Bool)
  | detach (mac : Mac)
  | ingest (mac : Mac) (record : ConnMetric.Record)
  | reeval (mac : Mac)
  /-- `wei_life_eval_station` at one slot. -/
  | eval (i : Fin maxStations) (now : Int)

/-- What it drops the guard with. -/
inductive Outcome where
  | attached (slot : Option (Fin maxStations))
  | done
  | snapshot (snapshot : Option (ConnMetric.Record × List Excursion))

/-- The sections as the roster's functions have them, each in one step. -/
def sections : Mealy Roster Section Outcome where
  step r
    | .attach mac alloc => ((attachStation r mac alloc).1, .attached (attachStation r mac alloc).2)
    | .detach mac => (detachStation r mac, .done)
    | .ingest mac record => (ingestMetric r mac record, .done)
    | .reeval mac => (reevalStation r mac, .done)
    | .eval i now => ((evalSlot r i now).1, .snapshot (evalSlot r i now).2)

/-! ## The code -/

/-- Where a thread is in the code under the guard. -/
inductive Point where
  /-- The loop of `wei_life_slot_of`. -/
  | slotOf (call : Section) (mac : Mac) (i : Nat)
  /-- Behind it: `idx >= 0`, or not. -/
  | found (call : Section) (idx : Fin maxStations)
  | absent (call : Section)
  /-- The loop of `wei_life_attach_station` over the free slots. -/
  | search (mac : Mac) (alloc : Bool) (i : Nat)
  | vacant (mac : Mac) (alloc : Bool) (i : Fin maxStations)
  | full
  /-- `roster->active++` and `roster->active--` -/
  | count (i : Fin maxStations)
  | uncount
  /-- `ctx = roster->slots[i]` -/
  | read (i : Fin maxStations) (now : Int)
  /-- A detector of `wei_life_eval_ctx`, with the batch so far. -/
  | detect (metric : Metric) (i : Fin maxStations) (now : Int) (batch : List Excursion)
  /-- `sample = ctx->sample` -/
  | copy (i : Fin maxStations) (batch : List Excursion)

/-- The detector of a metric under its name in the source. -/
def detector (metric : Metric) (ctx : Ctx) (policy : Policy) (now : Int) : Ctx × Option Excursion :=
  match metric with
  | .snr => evalSnr ctx ctx.sample policy now
  | .loss => evalLoss ctx ctx.sample policy now
  | .phy => evalPhy ctx ctx.sample policy now
  | .chanutil => evalChanutil ctx ctx.sample policy now

/-- The point behind a detector. -/
def behind (metric : Metric) (i : Fin maxStations) (now : Int) (batch : List Excursion) : Point :=
  match metric with
  | .snr => .detect .loss i now batch
  | .loss => .detect .phy i now batch
  | .phy => .detect .chanutil i now batch
  | .chanutil => .copy i batch

def holdsMac (r : Roster) (mac : Mac) (i : Fin maxStations) : Bool :=
  (r.slots i).any fun ctx => decide (ctx.mac = mac)

def Roster.put (r : Roster) (i : Fin maxStations) (slot : Option Ctx) : Roster :=
  { r with slots := Function.update r.slots i slot }

def entry : Section → Point
  | .attach mac alloc => .slotOf (.attach mac alloc) mac 0
  | .detach mac => .slotOf (.detach mac) mac 0
  | .ingest mac record => .slotOf (.ingest mac record) mac 0
  | .reeval mac => .slotOf (.reeval mac) mac 0
  | .eval i now => .read i now

/-- One access to the roster. -/
def access (r : Roster) : Point → Roster × (Point ⊕ Outcome)
  | .slotOf call mac i =>
    if h : i < maxStations then
      (r, .inl (if holdsMac r mac ⟨i, h⟩ then .found call ⟨i, h⟩ else .slotOf call mac (i + 1)))
    else (r, .inl (.absent call))
  | .found (.attach _ _) idx => (r, .inr (.attached (some idx)))
  | .found (.detach _) idx => (r.put idx none, .inl .uncount)
  | .found (.ingest _ record) idx =>
    (r.put idx ((r.slots idx).map fun ctx => { ctx with sample := record }), .inr .done)
  | .found _ _ => (r, .inr .done)
  | .absent (.attach mac alloc) => (r, .inl (.search mac alloc 0))
  | .absent _ => (r, .inr .done)
  | .search mac alloc i =>
    if h : i < maxStations then
      (r, .inl (if (r.slots ⟨i, h⟩).isNone then .vacant mac alloc ⟨i, h⟩
        else .search mac alloc (i + 1)))
    else (r, .inl .full)
  | .vacant mac alloc i =>
    if alloc then (r.put i (some (Ctx.opened mac)), .inl (.count i))
    else (r, .inr (.attached none))
  | .full => (r, .inr (.attached none))
  | .count i => ({ r with active := r.active + 1 }, .inr (.attached (some i)))
  | .uncount => ({ r with active := r.active - 1 }, .inr .done)
  | .read i now =>
    match r.slots i with
    | none => (r, .inr (.snapshot none))
    | some _ => (r, .inl (.detect .snr i now []))
  | .detect metric i now batch =>
    match r.slots i with
    | none => (r, .inr (.snapshot none))
    | some ctx =>
      let (ctx, out) := detector metric ctx r.policy now
      (r.put i (some ctx), .inl (behind metric i now (batch ++ out.toList)))
  | .copy i batch => (r, .inr (.snapshot ((r.slots i).map fun ctx => (ctx.sample, batch))))

def code : Guard.Code Roster Section Point Outcome := ⟨entry, fun p r => access r p⟩

theorem code_access (p : Point) (r : Roster) : code.access p r = access r p := rfl

/-! ## Run alone -/

section Alone

variable (r : Roster)

/-- `wei_life_slot_of` as the loop it is. -/
theorem exec_slotOf (call : Section) (mac : Mac) {r' : Roster} {out : Outcome}
    (h : Guard.Exec code ((slotOf r mac).elim (.absent call) (.found call)) r r' out) :
    Guard.Exec code (.slotOf call mac 0) r r' out := by
  refine Guard.exec_walk (holdsMac r mac) (Point.slotOf call mac) (Point.found call)
    (Point.absent call) (fun i => ?_) ?_ h
  · rw [code_access, access, dif_pos i.isLt]
  · rw [code_access, access, dif_neg (Nat.lt_irrefl _)]

theorem exec_search (mac : Mac) (alloc : Bool) {r' : Roster} {out : Outcome}
    (h : Guard.Exec code ((freeSlot r).elim .full (.vacant mac alloc)) r r' out) :
    Guard.Exec code (.search mac alloc 0) r r' out := by
  refine Guard.exec_walk (fun i => (r.slots i).isNone) (Point.search mac alloc)
    (Point.vacant mac alloc) Point.full (fun i => ?_) ?_ h
  · rw [code_access, access, dif_pos i.isLt]
  · rw [code_access, access, dif_neg (Nat.lt_irrefl _)]

theorem exec_attach (mac : Mac) (alloc : Bool) :
    Guard.Exec code (.slotOf (.attach mac alloc) mac 0) r (attachStation r mac alloc).1
      (.attached (attachStation r mac alloc).2) := by
  refine exec_slotOf r _ mac ?_
  unfold attachStation
  cases slotOf r mac with
  | some i => exact .done rfl
  | none =>
    refine .next rfl (exec_search r mac alloc ?_)
    cases freeSlot r with
    | none => exact .done rfl
    | some i =>
      cases alloc with
      | true => exact .next rfl (.done rfl)
      | false => exact .done rfl

theorem exec_detach (mac : Mac) :
    Guard.Exec code (.slotOf (.detach mac) mac 0) r (detachStation r mac) .done := by
  refine exec_slotOf r _ mac ?_
  unfold detachStation
  cases slotOf r mac with
  | some i => exact .next rfl (.done rfl)
  | none => exact .done rfl

theorem exec_ingest (mac : Mac) (record : ConnMetric.Record) :
    Guard.Exec code (.slotOf (.ingest mac record) mac 0) r (ingestMetric r mac record) .done := by
  refine exec_slotOf r _ mac ?_
  unfold ingestMetric
  cases slotOf r mac <;> exact .done rfl

theorem exec_reeval (mac : Mac) :
    Guard.Exec code (.slotOf (.reeval mac) mac 0) r (reevalStation r mac) .done := by
  refine exec_slotOf r _ mac ?_
  unfold reevalStation
  cases slotOf r mac <;> exact .done rfl

@[simp] theorem put_slot (i : Fin maxStations) (slot : Option Ctx) :
    (r.put i slot).slots i = slot := Function.update_self ..

@[simp] theorem put_policy (i : Fin maxStations) (slot : Option Ctx) :
    (r.put i slot).policy = r.policy := rfl

@[simp] theorem put_put (i : Fin maxStations) (slot slot' : Option Ctx) :
    (r.put i slot).put i slot' = r.put i slot' := by
  simp [Roster.put]

/-- One detector of a context that sits in its slot. -/
theorem access_detect {i : Fin maxStations} {ctx : Ctx} (h : r.slots i = some ctx) (metric : Metric)
    (now : Int) (batch : List Excursion) : access r (.detect metric i now batch) =
      (r.put i (some (detector metric ctx r.policy now).1),
        .inl (behind metric i now (batch ++ (detector metric ctx r.policy now).2.toList))) := by
  rw [access, h]

theorem exec_eval (i : Fin maxStations) (now : Int) :
    Guard.Exec code (.read i now) r (evalSlot r i now).1 (.snapshot (evalSlot r i now).2) := by
  unfold evalSlot
  cases h : r.slots i with
  | none =>
    refine .done ?_
    rw [code_access, access, h]
  | some ctx =>
    have hread : access r (.read i now) = (r, .inl (.detect .snr i now [])) := by rw [access, h]
    refine .next hread (.next (access_detect r h .snr now []) ?_)
    refine .next (access_detect _ (put_slot ..) .loss now _) ?_
    rw [put_put, put_policy]
    refine .next (access_detect _ (put_slot ..) .phy now _) ?_
    rw [put_put, put_policy]
    refine .next (access_detect _ (put_slot ..) .chanutil now _) ?_
    rw [put_put, put_policy]
    refine .done ?_
    show access _ (.copy i _) = _
    rw [access, put_slot]
    rfl

end Alone

/-- Each section, run alone, is the roster's function. -/
theorem code_implements : Guard.Implements code sections := by
  intro call r
  cases call with
  | attach mac alloc => exact exec_attach r mac alloc
  | detach mac => exact exec_detach r mac
  | ingest mac record => exact exec_ingest r mac record
  | reeval mac => exact exec_reeval r mac
  | eval i now => exact exec_eval r i now

/-! ## Any interleaving of the accesses -/

section Threads

variable {τ : Type} [DecidableEq τ]

/-- The roster and its threads after an interleaving of their steps. -/
abbrev threadsAfter (policy : Option Policy) (ls : List (Guard.Label Section τ)) :
    Guard.State Roster Section Point Outcome τ :=
  (Guard.machine code).final (Guard.State.init (init policy)) ls

theorem wellFormed_sections (policy : Option Policy) (calls : List Section) :
    WellFormed (sections.final (init policy) calls) := by
  refine sections.final_induction (p := WellFormed) (fun r call h => ?_) (wellFormed_init policy) calls
  cases call with
  | attach mac alloc => exact (h.attach mac alloc).1
  | detach mac => exact (h.detach mac).1
  | ingest mac record => exact (h.ingest mac record).1
  | reeval mac =>
    show WellFormed (reevalStation r mac)
    rwa [reevalStation_eq]
  | eval i now => exact h.evalSlot i now

/-- However the threads are interleaved, and whichever of them are cancelled: no two
are under the guard at once; the calls that came through did what the roster's
functions do, one at a time, in the order in which they dropped the guard, which for
each thread is the order of its calls; whenever the guard is free the roster is the one
that leaves, with no station twice and the right count; and a thread under the guard
that is not cancelled drops it by steps of its own. -/
theorem roster_sections_serialise (policy : Option Policy) (ls : List (Guard.Label Section τ)) :
    (∀ t u, ((threadsAfter policy ls).threads t).Holds → ((threadsAfter policy ls).threads u).Holds →
      t = u) ∧
    (threadsAfter policy ls).log.map Guard.Done.result =
      sections.outputs (init policy) ((threadsAfter policy ls).log.map Guard.Done.call) ∧
    ((threadsAfter policy ls).owner = none → WellFormed (threadsAfter policy ls).shared ∧
      (threadsAfter policy ls).shared =
        sections.final (init policy) ((threadsAfter policy ls).log.map Guard.Done.call)) ∧
    (∀ t, (threadsAfter policy ls).threads t ≠ .cancelled →
      Guard.callsOf t (threadsAfter policy ls).made =
        Guard.doneBy t (threadsAfter policy ls).log ++ ((threadsAfter policy ls).threads t).pending) ∧
    ∀ t, (threadsAfter policy ls).owner = some t → (threadsAfter policy ls).threads t ≠ .cancelled →
      ∃ n, (threadsAfter policy (ls ++ (List.replicate n (.access t) ++ [.unlock t]))).owner = none := by
  have hserial := Guard.serialises code_implements (init policy) ls
  refine ⟨fun t u => hserial.exclusive, hserial.results, ?_, Guard.in_order code (init policy) ls, ?_⟩
  · intro hfree
    have hshared := hserial.free hfree
    refine ⟨?_, hshared⟩
    rw [hshared]
    exact wellFormed_sections policy _
  · intro t howner hlive
    obtain ⟨n, _, hfree, _⟩ := hserial.released howner hlive
    refine ⟨n, ?_⟩
    rw [threadsAfter, Mealy.final_append]
    exact hfree

end Threads

/-! ## The sweeps among the sections -/

/-- The slot that `wei_life_eval_station` takes the guard for next, with its reading of
the clock; `none` between two calls of it. -/
abbrev Progress := Option (Int × Nat)

def Section.isEval : Section → Bool
  | .eval _ _ => true
  | _ => false

def Progress.after (now : Int) (i : Fin maxStations) : Progress :=
  if i.val + 1 = maxStations then none else some (now, i.val + 1)

/-- The sections of the thread that sweeps come slot by slot; the others are free. -/
def sweepStep (progress : Progress) : Section → Option Progress
  | .eval i now =>
    match progress with
    | none => if i.val = 0 then some (.after now i) else none
    | some (start, next) => if i.val = next ∧ now = start then some (.after now i) else none
  | _ => some progress

/-- The sections are sweeps, each slot after slot, the last one maybe under way. -/
def Sweeps (calls : List Section) : Prop := (calls.foldlM sweepStep none).isSome

theorem foldlM_sweepStep (calls : List Section) (progress : Progress) :
    (calls.filter Section.isEval).foldlM sweepStep progress = calls.foldlM sweepStep progress := by
  induction calls generalizing progress with
  | nil => rfl
  | cons call calls ih =>
    cases call with
    | eval i now =>
      rw [List.filter_cons_of_pos rfl, List.foldlM_cons, List.foldlM_cons]
      exact congrArg (sweepStep progress (.eval i now)).bind (funext ih)
    | _ => exact ih progress

theorem Sweeps.of_prefix {calls calls' : List Section} (h : Sweeps calls) (hp : calls' <+: calls) :
    Sweeps calls' := by
  obtain ⟨rest, rfl⟩ := hp
  rw [Sweeps, List.foldlM_append] at h
  cases hc : calls'.foldlM sweepStep none with
  | none =>
    rw [hc] at h
    cases h
  | some progress =>
    rw [Sweeps, hc]
    rfl

section World

variable {D : Type} [CDouble D] (lq : LinkQty D)

def Outcome.reports : Outcome → List Report
  | .snapshot found => reportsOf lq found
  | _ => []

/-- The steps of the world a section stands for. The reports of a slot are made as soon
as the guard is dropped. -/
def Section.labels (out : Outcome) : Section → List Label
  | .attach mac alloc => [.op (.attach mac alloc)]
  | .detach mac => [.op (.detach mac)]
  | .ingest mac record => [.op (.ingest mac record)]
  | .reeval mac => [.op (.event .connChange mac false)]
  | .eval i now =>
    (if i.val = 0 then [.start now] else []) ++
      (.slot :: List.replicate (Outcome.reports lq out).length .deliver ++
        if i.val + 1 = maxStations then [.finish] else [])

/-- The world shows the roster, the sweep under way and the reports made. -/
structure Mirrors (progress : Progress) (r : Roster) (reports : List Report) (w : World) : Prop where
  roster : w.roster = r
  sweep : w.sweep = progress.map fun x => ⟨x.1, x.2, []⟩
  delivered : w.delivered.map Sent.report = reports

theorem deliver_batch (batch : List Sent) {w : World} {now : Int} {next : Nat}
    (h : w.sweep = some ⟨now, next, batch⟩) :
    (world lq).final w (List.replicate batch.length .deliver) =
      { w with delivered := w.delivered ++ batch, sweep := some ⟨now, next, []⟩ } := by
  induction batch generalizing w with
  | nil =>
    rw [List.append_nil, ← h]
    rfl
  | cons x batch ih =>
    have hstep : w.step lq .deliver =
        { w with delivered := w.delivered ++ [x], sweep := some ⟨now, next, batch⟩ } := by
      simp only [World.step, h]
    rw [List.length_cons, List.replicate_succ, Mealy.final_cons]
    show (world lq).final (w.step lq .deliver) _ = _
    rw [hstep, ih rfl]
    simp

variable {r : Roster} {reports : List Report} {w : World}

/-- A slot with its reports, in the world's steps. -/
theorem Mirrors.slot {i : Fin maxStations} {now : Int} (h : Mirrors (some (now, i.val)) r reports w) :
    Mirrors (some (now, i.val + 1)) (evalSlot r i now).1
      (reports ++ reportsOf lq (evalSlot r i now).2)
      ((world lq).final w (.slot :: List.replicate (reportsOf lq (evalSlot r i now).2).length
        .deliver)) := by
  have hstep : w.step lq .slot = w.sweepSlot lq ⟨now, i.val, []⟩ i := by
    simp only [World.step, h.sweep, Option.map_some, true_and]
    exact dif_pos i.isLt
  have hroster := h.roster
  generalize hbatch : (reportsOf lq (evalSlot r i now).2).map (Sent.mk (w.ids i)) = batch
  have hlen : (reportsOf lq (evalSlot r i now).2).length = batch.length := by
    rw [← hbatch, List.length_map]
  have hsweep : (w.sweepSlot lq ⟨now, i.val, []⟩ i).sweep = some ⟨now, i.val + 1, batch⟩ := by
    rw [← hbatch, ← hroster]
    rfl
  rw [Mealy.final_cons, hlen]
  show Mirrors _ _ _ ((world lq).final (w.step lq .slot) _)
  rw [hstep, deliver_batch lq batch hsweep]
  refine ⟨?_, rfl, ?_⟩
  · rw [← hroster]
    rfl
  · show (w.delivered ++ batch).map Sent.report = _
    rw [List.map_append, h.delivered, ← hbatch, List.map_map]
    simp [Function.comp_def]

theorem Mirrors.op {progress : Progress} (h : Mirrors progress r reports w) (op : Op) :
    Mirrors progress (apply r op) (reports ++ []) ((world lq).final w [.op op]) := by
  refine ⟨?_, h.sweep, ?_⟩
  · rw [← h.roster]
    rfl
  · rw [List.append_nil]
    exact h.delivered

theorem Mirrors.finish {now : Int} (h : Mirrors (some (now, maxStations)) r reports w) :
    Mirrors none r reports (w.step lq .finish) := by
  have hstep : w.step lq .finish = { w with sweep := none } := by
    simp only [World.step, h.sweep, Option.map_some, true_and, if_true]
  rw [hstep]
  exact ⟨h.roster, rfl, h.delivered⟩

/-- One section, and the world's steps for it. -/
theorem Mirrors.step {progress progress' : Progress} (h : Mirrors progress r reports w)
    {call : Section} (hstep : sweepStep progress call = some progress') :
    Mirrors progress' (sections.step r call).1
      (reports ++ Outcome.reports lq (sections.step r call).2)
      ((world lq).final w (call.labels lq (sections.step r call).2)) := by
  cases call with
  | attach mac alloc =>
    obtain rfl := Option.some.inj hstep
    exact h.op lq (.attach mac alloc)
  | detach mac =>
    obtain rfl := Option.some.inj hstep
    exact h.op lq (.detach mac)
  | ingest mac record =>
    obtain rfl := Option.some.inj hstep
    exact h.op lq (.ingest mac record)
  | reeval mac =>
    obtain rfl := Option.some.inj hstep
    exact h.op lq (.event .connChange mac false)
  | eval i now =>
    have hbegun : Mirrors (some (now, i.val)) r reports
        ((world lq).final w (if i.val = 0 then [.start now] else [])) ∧
        progress' = .after now i := by
      cases progress with
      | none =>
        by_cases hi : i.val = 0
        · rw [sweepStep, if_pos hi] at hstep
          refine ⟨?_, (Option.some.inj hstep).symm⟩
          have hstart : w.step lq (.start now) = w.startSweep now := by
            simp only [World.step, h.sweep, Option.map_none]
          rw [if_pos hi, Mealy.final_cons, Mealy.final_nil, hi]
          show Mirrors _ _ _ (w.step lq (.start now))
          rw [hstart]
          exact ⟨h.roster, rfl, h.delivered⟩
        · rw [sweepStep, if_neg hi] at hstep
          cases hstep
      | some x =>
        obtain ⟨start, next⟩ := x
        by_cases hi : i.val = next ∧ now = start
        · rw [sweepStep, if_pos hi] at hstep
          obtain ⟨rfl, rfl⟩ := hi
          refine ⟨?_, (Option.some.inj hstep).symm⟩
          by_cases hzero : i.val = 0
          · have hstart : w.step lq (.start now) = w := by
              simp only [World.step, h.sweep, Option.map_some]
            rw [if_pos hzero, Mealy.final_cons, Mealy.final_nil]
            show Mirrors _ _ _ (w.step lq (.start now))
            rwa [hstart]
          · rwa [if_neg hzero]
        · rw [sweepStep, if_neg hi] at hstep
          cases hstep
    obtain ⟨hbegun, rfl⟩ := hbegun
    have hslot := hbegun.slot lq
    rw [Section.labels, Mealy.final_append, Mealy.final_append]
    by_cases hlast : i.val + 1 = maxStations
    · rw [Progress.after, if_pos hlast, if_pos hlast, Mealy.final_cons, Mealy.final_nil]
      rw [hlast] at hslot
      exact hslot.finish lq
    · rw [Progress.after, if_neg hlast, if_neg hlast]
      exact hslot

variable (policy : Option Policy)

/-- The steps of the world for the sections that came through. -/
def labelsOf {τ : Type} (log : List (Guard.Done τ Section Outcome)) : List Label :=
  log.flatMap fun d => d.call.labels lq d.result

theorem mirrors_run {τ : Type} (log : List (Guard.Done τ Section Outcome)) {progress : Progress}
    (hresults : log.map Guard.Done.result =
      sections.outputs (init policy) (log.map Guard.Done.call))
    (hsweeps : (log.map Guard.Done.call).foldlM sweepStep none = some progress) :
    Mirrors progress (sections.final (init policy) (log.map Guard.Done.call))
      (log.flatMap fun d => Outcome.reports lq d.result)
      (worldAfter lq policy (labelsOf lq log)) := by
  induction log using List.reverseRecOn generalizing progress with
  | nil =>
    obtain rfl := Option.some.inj hsweeps
    exact ⟨rfl, rfl, rfl⟩
  | append_singleton log d ih =>
    rw [List.map_append, List.map_append, List.map_singleton, List.map_singleton,
      Mealy.outputs_concat] at hresults
    obtain ⟨hbefore, hlast⟩ := List.append_inj' hresults rfl
    rw [List.map_append, List.map_singleton, List.foldlM_append] at hsweeps
    cases hprogress : (log.map Guard.Done.call).foldlM sweepStep none with
    | none =>
      rw [hprogress] at hsweeps
      cases hsweeps
    | some before =>
      have hstep : sweepStep before d.call = some progress := by
        simpa [hprogress] using hsweeps
      have hmirrors := (ih hbefore hprogress).step lq hstep
      rw [← List.singleton_inj.mp hlast] at hmirrors
      rw [labelsOf, List.flatMap_append, List.flatMap_append, List.map_append, List.map_singleton,
        Mealy.final_concat, worldAfter, Mealy.final_append, List.flatMap_singleton,
        List.flatMap_singleton]
      exact hmirrors

theorem mem_start_labelsOf {τ : Type} {log : List (Guard.Done τ Section Outcome)} {now : Int}
    (h : .start now ∈ labelsOf lq log) : ∃ d ∈ log, ∃ i, d.call = .eval i now := by
  obtain ⟨d, hd, hmem⟩ := List.mem_flatMap.mp h
  refine ⟨d, hd, ?_⟩
  cases hcall : d.call with
  | eval i now' =>
    rw [hcall, Section.labels] at hmem
    by_cases hi : i.val = 0 <;> by_cases hlast : i.val + 1 = maxStations <;>
      simp_all
  | _ =>
    rw [hcall] at hmem
    simp [Section.labels] at hmem

variable {τ : Type} [DecidableEq τ]

/-- Only the one thread sweeps. -/
theorem doneBy_isEval (t : τ) (log : List (Guard.Done τ Section Outcome))
    (h : ∀ d ∈ log, d.call.isEval → d.thread = t) :
    (Guard.doneBy t log).filter Section.isEval =
      (log.map Guard.Done.call).filter Section.isEval := by
  induction log using List.reverseRecOn with
  | nil => rfl
  | append_singleton log d ih =>
    rw [Guard.doneBy_concat, List.map_append, List.filter_append, List.filter_append,
      ih fun d' hd' => h d' (List.mem_append_left _ hd'), List.map_singleton]
    by_cases hd : d.thread = t
    · rw [if_pos hd]
    · rw [if_neg hd]
      have heval : d.call.isEval = false := by
        by_contra hne
        exact hd (h d (by simp) (by simpa using hne))
      simp [heval]

/-- When one thread sweeps, slot after slot at positive times, and the others do what they
like: the reports its snapshots lead to are those that a world of atomic sections has
delivered, in the same order, and that world has evaluated each context at most once a
sweep and reported just the runs below the bands. The roster, whenever the guard is free, is the
world's. -/
theorem threads_refine_world (ls : List (Guard.Label Section τ)) (t : τ)
    (hone : ∀ u i now, (u, .eval i now) ∈ (threadsAfter policy ls).made → u = t ∧ 0 < now)
    (hsweeps : Sweeps (Guard.callsOf t (threadsAfter policy ls).made)) :
    Exact lq (worldAfter lq policy (labelsOf lq (threadsAfter policy ls).log)) ∧
      (worldAfter lq policy (labelsOf lq (threadsAfter policy ls).log)).pending = [] ∧
      (worldAfter lq policy (labelsOf lq (threadsAfter policy ls).log)).delivered.map Sent.report =
        (threadsAfter policy ls).log.flatMap (fun d => Outcome.reports lq d.result) ∧
      ((threadsAfter policy ls).owner = none →
        (worldAfter lq policy (labelsOf lq (threadsAfter policy ls).log)).roster =
          (threadsAfter policy ls).shared) := by
  have hserial := Guard.serialises code_implements (init policy) ls
  have hthrough := Guard.through code (init policy) ls
  have hmade : ∀ d ∈ (threadsAfter policy ls).log,
      (d.thread, d.call) ∈ (threadsAfter policy ls).made := fun d hd => Guard.mem_made hthrough hd
  -- the log has the sweeps of the one thread, the last of them maybe cut short
  have hlog : Sweeps ((threadsAfter policy ls).log.map Guard.Done.call) := by
    have hevals := doneBy_isEval t (threadsAfter policy ls).log ?_
    · have hdone := hsweeps.of_prefix (hthrough t)
      rw [Sweeps, ← foldlM_sweepStep] at hdone
      rw [Sweeps, ← foldlM_sweepStep, ← hevals]
      exact hdone
    · intro d hd heval
      have hmem := hmade d hd
      cases hcall : d.call with
      | eval i now =>
        rw [hcall] at hmem
        exact (hone _ _ _ hmem).1
      | _ =>
        rw [hcall] at heval
        cases heval
  obtain ⟨progress, hprogress⟩ := Option.isSome_iff_exists.mp hlog
  have hmirrors := mirrors_run lq policy _ hserial.results hprogress
  have hclock : ∀ now, .start now ∈ labelsOf lq (threadsAfter policy ls).log → 0 < now := by
    intro now hmem
    obtain ⟨d, hd, i, hcall⟩ := mem_start_labelsOf lq hmem
    have hcalled := hmade d hd
    rw [hcall] at hcalled
    exact (hone _ _ _ hcalled).2
  refine ⟨?_, ?_, hmirrors.delivered, ?_⟩
  · exact exact_of_invariants lq (named_once_run lq ⟨named_init policy, once_init policy⟩ _).2
      (reported_run lq policy _) (account_run lq policy hclock)
  · rw [World.pending, hmirrors.sweep]
    cases progress <;> rfl
  · intro hfree
    rw [hmirrors.roster]
    exact (hserial.free hfree).symm

/-- Thread `true` waits for the guard while thread `false` attaches a station; thread
`false` waits to detach it while thread `true` reads its slot. -/
def contended : List (Guard.Label Section Bool) :=
  [.call false (.attach (Vector.replicate 6 1) true), .lock false, .access false,
    .call true (.eval ⟨0, by decide⟩ 5), .lock true] ++
    List.replicate (maxStations + 5) (.access false) ++
    [.lock true, .unlock false, .lock true, .access true,
      .call false (.detach (Vector.replicate 6 1)), .lock false, .access false] ++
    List.replicate 5 (.access true) ++ [.unlock true]

set_option maxRecDepth 4000 in
theorem contended_made : (threadsAfter none contended).made =
    [(false, .attach (Vector.replicate 6 1) true), (true, .eval ⟨0, by decide⟩ 5),
      (false, .detach (Vector.replicate 6 1))] := rfl

set_option maxRecDepth 4000 in
theorem contended_results : (threadsAfter none contended).log.map Guard.Done.result =
    [.attached (some ⟨0, by decide⟩), .snapshot (some (ConnMetric.Record.zero,
      [⟨Vector.replicate 6 1, .snr, 1, 0⟩, ⟨Vector.replicate 6 1, .phy, 1, 0⟩]))] := rfl

/-- The station's zero sample is below two bands. -/
theorem threads_refine_world_contended :
    (worldAfter (⟨0, 0⟩ : LinkQty ℝ) none
      (labelsOf (⟨0, 0⟩ : LinkQty ℝ) (threadsAfter none contended).log)).delivered.map Sent.report =
        [⟨⟨Vector.replicate 6 1, .snr, 1, 0⟩, score (⟨0, 0⟩ : LinkQty ℝ) ConnMetric.Record.zero⟩,
          ⟨⟨Vector.replicate 6 1, .phy, 1, 0⟩,
            score (⟨0, 0⟩ : LinkQty ℝ) ConnMetric.Record.zero⟩] := by
  have hreports := (threads_refine_world (⟨0, 0⟩ : LinkQty ℝ) none contended true
    (fun u i now hmem => by rw [contended_made] at hmem; simp_all)
    (by rw [contended_made]; rfl)).2.2.1
  rw [hreports, ← List.flatMap_map Guard.Done.result, contended_results]
  rfl

end World

end Wei.Life
