import Wei.Infer.Timed
import Wei.Perfreport.Cadence

/-!
# The engine and its reports

A tick of the engine makes one call of `wei_perfreport_publish_tick` for every
client it scores. The calls read nothing of the engine and the engine reads
nothing of their outcome, so a tick is the engine's tick followed by its calls.
The environment a tick meets is given for every client it may report.
-/
namespace Wei.Daemon

open Wei.Lib Wei.Lib.SlotTable Wei.ConnScorer
open Infer (Engine Policy Scored)
open Perfreport (Call Outcome)
open Track (maxClients)

variable {D : Type} [CDouble D]

structure World (D : Type) where
  engine : Engine D
  report : Perfreport.State

inductive Event where
  | stage (mac : Mac) (rec : ConnMetric.Record) (now : Int)
  | tick (now : Int) (env : Mac → Perfreport.Env)

/-- What the engine sees of an event. -/
def Event.infer : Event → Infer.Event
  | .stage mac rec now => .stage mac rec now
  | .tick now _ => .tick now

/-- The call a tick makes for a client it scored. -/
def callOf (env : Mac → Perfreport.Env) (s : Scored) : Call :=
  ⟨s.mac, s.result, s.metrics, env s.mac⟩

/-- The calls an event makes, with what each led to. -/
def machine (lq : LinkQty D) : Mealy (World D) Event (List (Call × Outcome)) where
  step w
    | .stage mac rec now => (⟨Infer.stageRecord w.engine mac rec now, w.report⟩, [])
    | .tick now env =>
      let (engine, out) := Infer.tick lq w.engine now
      let calls := out.map (callOf env)
      (⟨engine, Perfreport.machine.final w.report calls⟩,
        calls.zip (Perfreport.machine.outputs w.report calls))

def start (policy : Policy) : World D := ⟨Infer.create policy, Perfreport.State.init⟩

abbrev after (lq : LinkQty D) (policy : Policy) (es : List Event) : World D :=
  (machine lq).final (start policy) es

/-- The calls of one event. -/
def callsOf (lq : LinkQty D) (eng : Engine D) : Event → List Call
  | .stage _ _ _ => []
  | .tick now env => (Infer.tick lq eng now).2.map (callOf env)

/-- All publish calls of a run, in order. -/
def publishCalls (lq : LinkQty D) (policy : Policy) (es : List Event) : List Call :=
  ((machine lq).outputs (start policy) es).flatten.map (·.1)

section Runs

variable (lq : LinkQty D) (policy : Policy)

theorem step_engine (w : World D) (e : Event) :
    ((machine lq).step w e).1.engine = ((Infer.machine lq).step w.engine e.infer).1 := by
  cases e <;> rfl

theorem step_report (w : World D) (e : Event) :
    ((machine lq).step w e).1.report = Perfreport.machine.final w.report (callsOf lq w.engine e) := by
  cases e <;> rfl

theorem step_calls (w : World D) (e : Event) :
    ((machine lq).step w e).2 = (callsOf lq w.engine e).zip
      (Perfreport.machine.outputs w.report (callsOf lq w.engine e)) := by
  cases e <;> rfl

theorem after_concat (es : List Event) (e : Event) :
    (after lq policy (es ++ [e]) : World D) = ((machine lq).step (after lq policy es) e).1 :=
  (machine lq).final_concat _ _ _

theorem engine_after (es : List Event) :
    (after lq policy es : World D).engine = Infer.after lq policy (es.map Event.infer) := by
  induction es using List.reverseRecOn with
  | nil => rfl
  | append_singleton es e ih =>
    rw [after_concat, step_engine, ih, List.map_append, List.map_singleton, Infer.after_concat]

theorem publishCalls_concat (es : List Event) (e : Event) :
    publishCalls lq policy (es ++ [e]) = publishCalls lq policy es ++
      callsOf lq (after lq policy es : World D).engine e := by
  rw [publishCalls, Mealy.outputs_concat, List.flatten_append, List.map_append, ← publishCalls,
    List.flatten_cons, List.flatten_nil, List.append_nil, step_calls, List.map_fst_zip]
  rw [Mealy.length_outputs]

theorem report_after (es : List Event) :
    (after lq policy es : World D).report = Perfreport.after (publishCalls lq policy es) := by
  induction es using List.reverseRecOn with
  | nil => rfl
  | append_singleton es e ih =>
    rw [after_concat, step_report, ih, publishCalls_concat, Perfreport.after, Perfreport.after,
      Mealy.final_append]

/-- A run reports only MACs that it staged records for. -/
theorem callMacs_subset (es : List Event) :
    Perfreport.callMacs (publishCalls lq policy es) ⊆ Infer.macs (es.map Event.infer) := by
  induction es using List.reverseRecOn with
  | nil => simp [publishCalls, Mealy.outputs, Perfreport.callMacs]
  | append_singleton es e ih =>
    intro mac hm
    rw [publishCalls_concat] at hm
    obtain ⟨c, hc, hmac⟩ := Perfreport.mem_callMacs.mp hm
    rw [List.map_append]
    apply Infer.macs_subset_append
    rcases List.mem_append.mp hc with hc | hc
    · exact ih (Perfreport.mem_callMacs.mpr ⟨c, hc, hmac⟩)
    · cases e with
      | stage _ _ _ => cases hc
      | tick now env =>
        obtain ⟨s, hs, rfl⟩ := List.mem_map.mp hc
        rw [engine_after] at hs
        exact Infer.scoredAt_subset_macs lq policy _ now
          (Infer.mem_scoredAt.mpr ⟨s, hs, hmac⟩)

/-- The calls of a run over few clients all find a slot. -/
theorem granted_of_few {es : List Event}
    (hfew : (Infer.macs (es.map Event.infer)).card ≤ maxClients) {pre post : List Call} {c : Call}
    (hcalls : publishCalls lq policy es = pre ++ c :: post) :
    Perfreport.Granted c.mac pre := by
  have hin : c.mac ∈ Perfreport.callMacs (pre ++ [c]) :=
    Perfreport.mem_callMacs.mpr ⟨c, by simp, rfl⟩
  rw [← Perfreport.granted_self, ← Perfreport.granted_append hin post, List.append_assoc]
  change Perfreport.Granted c.mac (pre ++ c :: post)
  rw [← hcalls]
  refine Perfreport.granted_of_few ((Finset.card_le_card (callMacs_subset lq policy es)).trans hfew)
    (Perfreport.mem_callMacs.mpr ⟨c, ?_, rfl⟩)
  rw [hcalls]
  simp

theorem findOrAdd_iff (pre : List Call) (mac : Mac) :
    (Perfreport.stateFindOrAdd (Perfreport.after pre).tbl mac).2 ≠ none ↔
      Perfreport.Granted mac pre := by
  rw [← (Perfreport.slots_after pre).room_iff]
  unfold Perfreport.stateFindOrAdd
  cases scan (Perfreport.after pre).tbl mac <;> simp

end Runs

/-! ## Who is shut out of reporting -/

section Churn

/-- A run of the engine with one environment throughout. -/
def Event.ofInfer (env : Perfreport.Env) : Infer.Event → Event
  | .stage mac rec now => .stage mac rec now
  | .tick now => .tick now fun _ => env

theorem infer_ofInfer (env : Perfreport.Env) (es : List Infer.Event) :
    (es.map (Event.ofInfer env)).map Event.infer = es := by
  rw [List.map_map]
  refine (List.map_congr_left fun e _ => ?_).trans (List.map_id es)
  cases e <;> rfl

theorem callMacs_tick (lq : LinkQty D) (eng : Engine D) (now : Int) (env : Mac → Perfreport.Env) :
    Perfreport.callMacs (callsOf lq eng (.tick now env)) = Infer.scoredAt lq eng now := by
  rw [Perfreport.callMacs, callsOf, List.map_map, Infer.scoredAt]
  rfl

/-- The crowd up to the tick that scores it and lets it go. -/
def crowdRun (env : Perfreport.Env) : List Event :=
  Infer.crowd.map (Event.ofInfer env) ++ [.tick 40001 fun _ => env]

/-- The newcomer is staged and scored after that. -/
def churn (env : Perfreport.Env) : List Event :=
  crowdRun env ++ [.stage (Infer.churnMac maxClients) ConnMetric.Record.zero 40002] ++
    [.tick 40002 fun _ => env]

variable (lq : LinkQty D) (policy : Policy) (env : Perfreport.Env)

theorem infer_crowdRun : (crowdRun env).map Event.infer = Infer.crowd ++ [.tick 40001] := by
  rw [crowdRun, List.map_append, infer_ofInfer]
  rfl

theorem crowd_called {n : Nat} (hn : n < maxClients) :
    Infer.churnMac n ∈ Perfreport.callMacs (publishCalls lq policy (crowdRun env)) := by
  have hscored := Infer.crowd_scored lq policy hn 40001
  rw [← callMacs_tick lq _ 40001 fun _ => env] at hscored
  obtain ⟨c, hc, hmac⟩ := Perfreport.mem_callMacs.mp hscored
  rw [crowdRun, publishCalls_concat, engine_after, infer_ofInfer]
  exact Perfreport.mem_callMacs.mpr ⟨c, List.mem_append_right _ hc, hmac⟩

theorem newcomer_not_called :
    Infer.churnMac maxClients ∉ Perfreport.callMacs (publishCalls lq policy (crowdRun env)) := by
  intro hm
  have hin := callMacs_subset lq policy _ hm
  rw [infer_crowdRun] at hin
  obtain ⟨e, he, hmac⟩ := Infer.mem_macs.mp hin
  rcases List.mem_append.mp he with he | he
  · unfold Infer.crowd at he
    obtain ⟨m, hm, rfl⟩ := List.mem_map.mp he
    obtain ⟨n, hn, rfl⟩ := List.mem_map.mp hm
    have hlt := List.mem_range.mp hn
    have heq := Infer.churnMac_injOn (Set.mem_Iic.mpr hlt.le) (Set.mem_Iic.mpr le_rfl)
      (Option.some.inj hmac)
    omega
  · rw [List.mem_singleton.mp he] at hmac
    cases hmac

/-- The call for the newcomer, and why it is not granted a slot. -/
theorem newcomer_call : ∃ pre c post, publishCalls lq policy (churn env) = pre ++ c :: post ∧
    c.mac = Infer.churnMac maxClients ∧ ¬ Perfreport.Granted c.mac pre := by
  have hscored := Infer.newcomer_scored (D := D) lq policy 40002
  rw [← callMacs_tick lq _ 40002 fun _ => env] at hscored
  obtain ⟨c, hc, hmac⟩ := Perfreport.mem_callMacs.mp hscored
  obtain ⟨a, b, hab⟩ := List.append_of_mem hc
  have hinfer : (crowdRun env ++ [Event.stage (Infer.churnMac maxClients)
      ConnMetric.Record.zero 40002]).map Event.infer = Infer.newcomer := by
    rw [List.map_append, infer_crowdRun, Infer.newcomer]
    rfl
  have hsplit : publishCalls lq policy (churn env) =
      (publishCalls lq policy (crowdRun env) ++ a) ++ c :: b := by
    rw [churn, publishCalls_concat, engine_after, hinfer, hab, publishCalls_concat]
    simp [callsOf]
  refine ⟨_, c, b, hsplit, hmac, ?_⟩
  have hnot : ∀ d ∈ publishCalls lq policy (crowdRun env), decide (d.mac ≠ c.mac) = true := by
    intro d hd
    rw [hmac]
    exact decide_eq_true fun he =>
      newcomer_not_called lq policy env (Perfreport.mem_callMacs.mpr ⟨d, hd, he⟩)
  rw [Perfreport.Granted, List.takeWhile_append_of_pos hnot, not_lt]
  have hsub : (Finset.range maxClients).image Infer.churnMac ⊆ Perfreport.callMacs
      (publishCalls lq policy (crowdRun env) ++
        a.takeWhile fun d => decide (d.mac ≠ c.mac)) := by
    intro mac hm
    obtain ⟨n, hn, rfl⟩ := Finset.mem_image.mp hm
    obtain ⟨d, hd, hdm⟩ := Perfreport.mem_callMacs.mp
      (crowd_called lq policy env (Finset.mem_range.mp hn))
    exact Perfreport.mem_callMacs.mpr ⟨d, List.mem_append_left _ hd, hdm⟩
  have hcard : ((Finset.range maxClients).image Infer.churnMac).card = maxClients := by
    rw [Finset.card_image_of_injOn, Finset.card_range]
    refine Infer.churnMac_injOn.mono fun n hn => ?_
    rw [Finset.mem_coe, Finset.mem_range] at hn
    exact hn.le
  rw [← hcard]
  exact Finset.card_le_card hsub

end Churn

/-- Which calls of a run are served, and what serving means. A client keeps the
slot it was granted, so only the MACs called before its first call count. -/
theorem served_iff (lq : LinkQty D) (policy : Policy) (es : List Event) {pre post : List Call}
    {c : Call} (hcalls : publishCalls lq policy es = pre ++ c :: post) :
    ((Perfreport.stateFindOrAdd (Perfreport.after pre).tbl c.mac).2 ≠ none ↔
      (Perfreport.callMacs (pre.takeWhile fun d => decide (d.mac ≠ c.mac))).card < maxClients) ∧
    ((Perfreport.stateFindOrAdd (Perfreport.after pre).tbl c.mac).2 ≠ none →
      ((Perfreport.outcome pre c).attempted = true ↔ c.env.enabled = true ∧
        3 ≤ Perfreport.enabledCalls c.mac pre ∧
        c.result.verdict ≠ Perfreport.lastPublished c.mac pre)) ∧
    ((Perfreport.stateFindOrAdd (Perfreport.after pre).tbl c.mac).2 = none →
      Perfreport.machine.step (Perfreport.after pre) c = (Perfreport.after pre, .tableFull)) ∧
    ((Infer.macs (es.map Event.infer)).card ≤ maxClients →
      (Perfreport.stateFindOrAdd (Perfreport.after pre).tbl c.mac).2 ≠ none) := by
  have hiff := findOrAdd_iff pre c.mac
  refine ⟨hiff, ?_, ?_, ?_⟩
  · exact fun hne => Perfreport.attempted_iff (hiff.mp hne)
  · intro hnone
    apply Perfreport.step_full
    unfold Perfreport.stateFindOrAdd at hnone
    cases hs : scan (Perfreport.after pre).tbl c.mac with
    | full => rfl
    | hit i => rw [hs] at hnone; cases hnone
    | free i => rw [hs] at hnone; cases hnone
  · exact fun hfew => hiff.mpr (granted_of_few lq policy hfew hcalls)

/-- The newcomer's call is shut out. -/
theorem newcomer_not_served :
    ¬ ∀ pre c post, publishCalls ⟨0, 0⟩ ⟨25, 10000, 0, 1, 0⟩ (D := ℝ)
        (churn Perfreport.degradedCall.env) = pre ++ c :: post →
      (Perfreport.stateFindOrAdd (Perfreport.after pre).tbl c.mac).2 ≠ none := by
  intro h
  obtain ⟨pre, c, post, hcalls, _, hng⟩ :=
    newcomer_call (D := ℝ) ⟨0, 0⟩ ⟨25, 10000, 0, 1, 0⟩ Perfreport.degradedCall.env
  exact hng ((findOrAdd_iff pre c.mac).mp (h pre c post hcalls))

theorem served_iff_newcomer :
    ∃ pre c post, publishCalls ⟨0, 0⟩ ⟨25, 10000, 0, 1, 0⟩ (D := ℝ)
        (churn Perfreport.degradedCall.env) = pre ++ c :: post ∧
      ((Perfreport.stateFindOrAdd (Perfreport.after pre).tbl c.mac).2 ≠ none ↔
        (Perfreport.callMacs (pre.takeWhile fun d => decide (d.mac ≠ c.mac))).card < maxClients) := by
  obtain ⟨pre, c, post, hcalls, _, _⟩ :=
    newcomer_call (D := ℝ) ⟨0, 0⟩ ⟨25, 10000, 0, 1, 0⟩ Perfreport.degradedCall.env
  exact ⟨pre, c, post, hcalls, (served_iff (D := ℝ) ⟨0, 0⟩ ⟨25, 10000, 0, 1, 0⟩ _ hcalls).1⟩

end Wei.Daemon
