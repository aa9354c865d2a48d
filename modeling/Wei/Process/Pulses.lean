import Wei.Infer.VerdictExact
import Wei.Process.Run

/-!
# A daemon that hears from one client before every tick

Each iteration of the loop receives a frame of one entry and then ticks. However the
entries of an active client go on, every tick publishes the client once; the fourth
publish is the first that can fire an event, and fires one if the client is degraded.
-/
namespace Wei.Process

open Wei.Lib Wei.ConnScorer
open Infer (Beat Scored beats)

noncomputable section

variable {lq : LinkQty ℝ}

/-- The loop in front of the `n`-th pulse. -/
def pulseLoop (n : Nat) : Poll.Loop :=
  ⟨⟨some 3, Poll.tickDefaultMs, true, true, statsSocketPath⟩, 5200 + 5000 * n, false⟩

def pulseFiring (n : Nat) : Poll.Firing := ⟨5200 + 5000 * n, Poll.tickDefaultMs⟩

def pulses (es : List Entry) : List Input := es.mapIdx fun n e => .turn (pulse n e)

/-- The stage call of the `n`-th entry. -/
def pulseCall (n : Nat) (e : Entry) : Wire.StageCall :=
  Wire.stageCall Wire.packedLayout stagedAt n e

def recordOf (e : Entry) : ConnMetric.Record := Wire.mapRecord (Wire.packedLayout.decode e)

/-- What the engine gets of the `n`-th pulse. -/
def beatOf (n : Nat) (e : Entry) : Beat := ⟨recordOf e, stagedAt n, 5200 + 5000 * n⟩

/-- The publish of a scored client, with everything outside granting it. -/
def publishOf (s : Scored) : Perfreport.Call :=
  ⟨s.mac, s.result, s.metrics, Perfreport.degradedCall.env⟩

theorem pulse_iterate (n : Nat) (e : Entry) :
    (Poll.iterate (pulseLoop n) (pulse n e).iter).1 = pulseLoop (n + 1) ∧
      (Poll.iterate (pulseLoop n) (pulse n e).iter).2.calls =
        [.datagram (frameOf e), .tick (pulseFiring n)] := by
  have hcheck : Poll.checkTick (pulseLoop n) (pulse n e).iter =
      (⟨(pulseLoop n).ctx, 5200 + 5000 * n + 5000, false⟩, [.tick (pulseFiring n)]) :=
    if_pos (Int.le_refl _)
  have hiterate : Poll.iterate (pulseLoop n) (pulse n e).iter =
      ((Poll.checkTick (pulseLoop n) (pulse n e).iter).1,
        ⟨some (Poll.timeout (pulseLoop n).nextTick (pulse n e).iter.top), [frameOf e],
          .datagram (frameOf e) :: (Poll.checkTick (pulseLoop n) (pulse n e).iter).2⟩) := rfl
  have hnext : (5200 : Int) + 5000 * n + 5000 = 5200 + 5000 * ((n + 1 : Nat) : Int) := by omega
  rw [hiterate, hcheck]
  exact ⟨congrArg (fun next => (⟨(pulseLoop n).ctx, next, false⟩ : Poll.Loop)) hnext, rfl⟩

/-- The engine with the entry of a pulse staged. -/
def pulseStaged (eng : Infer.Engine ℝ) (n : Nat) (e : Entry) : Infer.Engine ℝ :=
  Infer.stageRecord eng (pulseCall n e).mac (pulseCall n e).metrics (pulseCall n e).now

/-- The process after the `n`-th pulse, the tick of which scored `s` alone. -/
def pulseNext (lq : LinkQty ℝ) (st : State ℝ) (n : Nat) (e : Entry) (s : Scored) : State ℝ where
  loop := pulseLoop (n + 1)
  receiver := ⟨(Infer.tick lq (pulseStaged st.receiver.engine n e) (5200 + 5000 * n)).1,
    st.receiver.calls ++ [pulseCall n e]⟩
  report := (Perfreport.machine.step st.report (publishOf s)).1
  rfc := st.rfc
  bus := st.bus
  trace := st.trace ++ [.datagram (frameOf e), .stage (pulseCall n e)] ++
    [.tick (pulseFiring n) (5200 + 5000 * n)] ++
    [.publish (publishOf s) (Perfreport.machine.step st.report (publishOf s)).2]

/-- The datagram of a pulse is one stage call. -/
theorem onDatagram_pulse {st : State ℝ} {n : Nat} (hcalls : st.receiver.calls.length = n)
    (e : Entry) :
    onDatagram .little Wire.packedLayout stagedAt st (frameOf e) = some { st with
      receiver := ⟨pulseStaged st.receiver.engine n e, st.receiver.calls ++ [pulseCall n e]⟩
      trace := st.trace ++ [.datagram (frameOf e), .stage (pulseCall n e)] } := by
  have hframe := Wire.onDatagram_frame .little Wire.packedLayout stagedAt st.receiver [e]
    (by rw [List.length_singleton]; decide)
  have hstaged : Wire.staged Wire.packedLayout stagedAt st.receiver [e] =
      ⟨pulseStaged st.receiver.engine n e, st.receiver.calls ++ [pulseCall n e]⟩ := by
    subst hcalls
    rfl
  rw [onDatagram, show (frameOf e).bytes = Wire.frame .little [e] from rfl, hframe, hstaged]
  simp

theorem turn_pulse {st : State ℝ} {n : Nat} (hloop : st.loop = pulseLoop n)
    (hcalls : st.receiver.calls.length = n) (henabled : st.rfc.connperfEnabled = true)
    (hhandle : (Bus.busHandle st.bus).isSome = true) {e : Entry} {s : Scored}
    (hscored : (Infer.tick lq (pulseStaged st.receiver.engine n e) (5200 + 5000 * n)).2 = [s]) :
    turn lq .little Wire.packedLayout stagedAt Rfc.textLib st (pulse n e) =
      some (pulseNext lq st n e s) := by
  obtain ⟨hnext, htwo⟩ := pulse_iterate n e
  have hcall : (⟨s.mac, s.result, s.metrics, ⟨st.rfc.connperfEnabled, (Bus.busHandle st.bus).isSome,
      true, true, Perfreport.degradedCall.env.json, .success⟩⟩ : Perfreport.Call) = publishOf s := by
    rw [henabled, hhandle]
    rfl
  have hdatagram := @onDatagram_pulse { st with loop := pulseLoop (n + 1) } n hcalls e
  rw [turn, hloop]
  dsimp only
  rw [htwo, hnext, List.foldlM_cons, callback, hdatagram]
  refine congrArg some ?_
  rw [show (pulse n e).now = 5200 + 5000 * n from rfl, onTick]
  dsimp only
  rw [hscored, List.foldl_cons, List.foldl_nil, publish]
  dsimp only [pulse, List.foldl_nil]
  rw [hcall]
  rfl

/-- Where the pulses of one client lead. -/
structure Pulsed (lq : LinkQty ℝ) (mac : Mac) (es : List Entry) (st : State ℝ) : Prop where
  loop : st.loop = pulseLoop es.length
  received : st.receiver.calls.length = es.length
  engine : st.receiver.engine =
    Infer.after lq Infer.wireDefaultPolicy (beats mac (es.mapIdx beatOf))
  infer : st.trace.filterMap Mark.infer = beats mac (es.mapIdx beatOf)
  report : st.report = Perfreport.after (st.trace.filterMap Mark.call)
  enabled : st.rfc.connperfEnabled = true
  handle : (Bus.busHandle st.bus).isSome = true
  count : (st.trace.filterMap Mark.call).length = es.length
  calls : ∀ c ∈ st.trace.filterMap Mark.call,
    c.mac = mac ∧ c.env = Perfreport.degradedCall.env

theorem pulsed_booted (lq : LinkQty ℝ) (mac : Mac) : Pulsed lq mac [] booted where
  loop := rfl
  received := rfl
  engine := rfl
  infer := rfl
  report := rfl
  enabled := rfl
  handle := rfl
  count := rfl
  calls := by simp [booted]

/-- An entry of the client, and a record that passes the gate. -/
structure Active (mac : Mac) (e : Entry) : Prop where
  mac : (Wire.packedLayout.decode e).cliMacAddress = mac
  active : (Wire.packedLayout.decode e).cliActive = true

theorem Active.fresh {mac : Mac} {e : Entry} (h : Active mac e) (n : Nat) :
    (beatOf n e).Fresh where
  usable := by
    simp [beatOf, recordOf, Wire.mapRecord, ConnMetric.Record.usable, h.active]
  recent := show (5200 + 5000 * n : Int) - (5150 + 5000 * n) ≤ 30000 by omega

theorem fresh_beats {mac : Mac} {es : List Entry} (h : ∀ e ∈ es, Active mac e) :
    ∀ b ∈ es.mapIdx beatOf, b.Fresh := by
  intro b hb
  obtain ⟨i, hi, rfl⟩ := List.mem_mapIdx.mp hb
  exact (h _ (List.getElem_mem hi)).fresh i

theorem mapIdx_beatOf_concat (es : List Entry) (e : Entry) :
    (es ++ [e]).mapIdx beatOf = es.mapIdx beatOf ++ [beatOf es.length e] := List.mapIdx_concat

theorem pulseNext_calls (lq : LinkQty ℝ) (st : State ℝ) (n : Nat) (e : Entry) (s : Scored) :
    (pulseNext lq st n e s).trace.filterMap Mark.call =
      st.trace.filterMap Mark.call ++ [publishOf s] := by
  simp only [pulseNext, List.filterMap_append, List.append_assoc]
  rfl

/-- One more pulse publishes the client once, for what its tick made of it. -/
theorem Pulsed.next {mac : Mac} {es : List Entry} {st : State ℝ} (h : Pulsed lq mac es st)
    (hes : ∀ e ∈ es, Active mac e) {e : Entry} (he : Active mac e) :
    ∃ s, turn lq .little Wire.packedLayout stagedAt Rfc.textLib st (pulse es.length e) =
        some (pulseNext lq st es.length e s) ∧
      Pulsed lq mac (es ++ [e]) (pulseNext lq st es.length e s) ∧
      s ∈ (Infer.tick lq (Infer.after lq Infer.wireDefaultPolicy
        (beats mac (es.mapIdx beatOf) ++ [(beatOf es.length e).stage mac]))
          (beatOf es.length e).now).2 ∧ s.mac = mac := by
  obtain ⟨s, hscored, hmac, hmetrics⟩ := Infer.beats_alone lq
    Infer.wireDefaultPolicy mac (fresh_beats hes) (he.fresh es.length)
  have hengine : pulseStaged st.receiver.engine es.length e =
      Infer.after lq Infer.wireDefaultPolicy
        (beats mac (es.mapIdx beatOf) ++ [(beatOf es.length e).stage mac]) := by
    rw [Infer.after_concat, pulseStaged, h.engine, show (pulseCall es.length e).mac = mac from he.mac]
    rfl
  have hstaged : (pulseCall es.length e).mac = mac := he.mac
  refine ⟨s, turn_pulse h.loop h.received h.enabled h.handle (by rw [hengine]; exact hscored), ?_,
    by rw [hscored]; exact List.mem_singleton_self s, hmac⟩
  have hcalls := pulseNext_calls lq st es.length e s
  constructor
  · rw [List.length_append]
    rfl
  · simp [pulseNext, h.received]
  · rw [mapIdx_beatOf_concat, Infer.beats_concat, Infer.after_concat, ← hengine]
    rfl
  · rw [mapIdx_beatOf_concat, Infer.beats_concat, ← h.infer, ← hstaged]
    simp [pulseNext, Mark.infer, Beat.stage, beatOf]
    rfl
  · rw [hcalls, Perfreport.after_concat, ← h.report]
    rfl
  · exact h.enabled
  · exact h.handle
  · rw [hcalls, List.length_append, h.count, List.length_append]
    rfl
  · rw [hcalls]
    intro c hc
    rcases List.mem_append.mp hc with hc | hc
    · exact h.calls c hc
    · obtain rfl := List.mem_singleton.mp hc
      exact ⟨hmac, rfl⟩

theorem run_concat (st : State ℝ) (ins : List Input) (input : Input) :
    run lq .little Wire.packedLayout stagedAt Rfc.textLib st (ins ++ [input]) =
      (run lq .little Wire.packedLayout stagedAt Rfc.textLib st ins).bind
        fun st => step lq .little Wire.packedLayout stagedAt Rfc.textLib st input := by
  rw [run, List.foldlM_append]
  cases hrun : ins.foldlM (step lq .little Wire.packedLayout stagedAt Rfc.textLib) st with
  | none => simp [run, hrun]
  | some st' => simp [run, hrun]

theorem pulses_concat (es : List Entry) (e : Entry) :
    pulses (es ++ [e]) = pulses es ++ [.turn (pulse es.length e)] := List.mapIdx_concat

/-- The pulses of an active client run, whatever the entries say. -/
theorem pulses_run (lq : LinkQty ℝ) {mac : Mac} {es : List Entry} (h : ∀ e ∈ es, Active mac e) :
    ∃ st, run lq .little Wire.packedLayout stagedAt Rfc.textLib booted (pulses es) = some st ∧
      Pulsed lq mac es st := by
  induction es using List.reverseRecOn with
  | nil => exact ⟨booted, rfl, pulsed_booted lq mac⟩
  | append_singleton es e ih =>
    have hes : ∀ e ∈ es, Active mac e := fun c hc => h c (List.mem_append_left _ hc)
    obtain ⟨st, hrun, hpulsed⟩ := ih hes
    obtain ⟨s, hturn, hnext, _⟩ := hpulsed.next hes (h e (by simp))
    refine ⟨_, ?_, hnext⟩
    rw [pulses_concat, run_concat, hrun]
    exact hturn

/-- The fourth publish is past the warm-up and fires an event if it shows a
degraded client: nothing was published before. -/
theorem Pulsed.fires {mac : Mac} {es : List Entry} {st : State ℝ} (h : Pulsed lq mac es st)
    (hfour : es.length = 3) {s : Scored} (hmac : s.mac = mac)
    (hdegraded : s.result.verdict = .degraded) :
    ∃ event, (Perfreport.machine.step st.report (publishOf s)).2 = .published event := by
  have hthree : (st.trace.filterMap Mark.call).length = 3 := h.count.trans hfour
  obtain ⟨event, hevent⟩ := Perfreport.fourth_published h.calls hthree
    (show (publishOf s).mac = mac from hmac) rfl hdegraded
  refine ⟨event, ?_⟩
  rw [h.report]
  exact hevent

/-! ## A client whose rate swings -/

/-- A client at 300 Mbps. -/
def fastEntry : Entry := Wire.busyEntry

/-- The same client at 6 Mbps. -/
def slowEntry : Entry :=
  #v[2, 0, 0, 0, 0, 1, 1, 140, 30, 0, 0, 0, 6, 0, 0, 0, 232, 3, 0, 0, 10, 0, 0, 0]

def swinger : Mac := #v[2, 0, 0, 0, 0, 1]

/-- Three readings at 300, 6 and 300 Mbps; the fourth will be at 6 again. -/
def swings : List Entry := [fastEntry, slowEntry, fastEntry]

theorem active_swings : ∀ e ∈ swings ++ [slowEntry], Active swinger e := by
  intro e he
  have hall : ∀ e ∈ swings ++ [slowEntry], (Wire.packedLayout.decode e).cliMacAddress = swinger ∧
      (Wire.packedLayout.decode e).cliActive = true := by decide
  exact ⟨(hall e he).1, (hall e he).2⟩

theorem swings_rates : Infer.rateVariance
    ((swings.mapIdx beatOf ++ [beatOf 3 slowEntry]).map Beat.metrics) = 21609 := by
  rw [Infer.rateVariance_eq]
  decide

theorem swings_paced : Infer.Paced (swings.mapIdx beatOf ++ [beatOf 3 slowEntry]) := by
  constructor <;> decide

theorem swings_whole : Infer.WholeRates
    ((swings.mapIdx beatOf ++ [beatOf 3 slowEntry]).map Beat.metrics) := by
  rw [Infer.WholeRates]
  decide

/-- The fourth pulse finds the client degraded. -/
theorem swings_degraded {s : Scored}
    (hs : s ∈ (Infer.tick lq (Infer.after lq Infer.wireDefaultPolicy
      (beats swinger (swings.mapIdx beatOf) ++ [(beatOf 3 slowEntry).stage swinger]))
        (beatOf 3 slowEntry).now).2) (hmac : s.mac = swinger) : s.result.verdict = .degraded := by
  have hfresh := fresh_beats active_swings
  rw [mapIdx_beatOf_concat] at hfresh
  exact Infer.beats_degraded (by decide) swings_paced hfresh swings_whole
    (by rw [swings_rates]; decide) hs hmac

/-- Four pulses, the last of which fires an event. -/
theorem swings_run (lq : LinkQty ℝ) : ∃ st s event,
    run lq .little Wire.packedLayout stagedAt Rfc.textLib booted (pulses (swings ++ [slowEntry])) =
        some (pulseNext lq st 3 slowEntry s) ∧
      s.mac = swinger ∧ s.result.verdict = .degraded ∧
      (Perfreport.machine.step st.report (publishOf s)).2 = .published event := by
  have hactive : ∀ e ∈ swings, Active swinger e :=
    fun e he => active_swings e (List.mem_append_left _ he)
  obtain ⟨st, hrun, hpulsed⟩ := pulses_run lq hactive
  obtain ⟨s, hturn, _, hs, hmac⟩ := hpulsed.next hactive
    (active_swings slowEntry (List.mem_append_right _ (List.mem_singleton_self _)))
  have hdegraded := swings_degraded hs hmac
  obtain ⟨event, hevent⟩ := hpulsed.fires rfl hmac hdegraded
  refine ⟨st, s, event, ?_, hmac, hdegraded, hevent⟩
  rw [pulses_concat, run_concat, hrun]
  exact hturn

end

end Wei.Process
