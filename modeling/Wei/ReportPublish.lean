import Wei.Bus
import Wei.Lib.Edges
import Wei.Perfreport.Complete
import Wei.Rfc

/-!
# The record of every interval

`wei_report_publish.c` fires one record for each enabled call through the event that
`wei_perfreport.c` fires when a verdict changes. Both are gated by the same enable and
meet the same bus.
-/
namespace Wei.ReportPublish

open Wei.Lib
open Infer (Result Verdict)
open Perfreport (BusError reportEvent)

/-- `WEI_CONNPERF_DM_ENABLE` -/
def enableElement : String := "Device.WiFi.X_RDK_ConnPerf.Enable"

/-- `wei_report_record_t` -/
structure Record where
  clientMac : Mac
  score : UInt8
  verdict : Verdict
  reportTsMs : Int
  deriving DecidableEq

/-- `sizeof(wei_report_record_t)`, with `int64_t` aligned to eight bytes. -/
def recordSize : Nat := 24

/-- The fields of `raw_data_t` that are set, with the record `bytes` points to. -/
structure Payload where
  dataType : Bus.DataType
  bytes : Record
  rawDataLen : Nat
  deriving DecidableEq

/-- One call of the publish function. -/
structure Event where
  name : String
  payload : Payload
  deriving DecidableEq

/-- What a call meets outside this file. -/
structure Env where
  rfc : Rfc.State
  /-- `weid_bus_handle() != NULL` -/
  handle : Bool
  /-- `get_bus_descriptor() != NULL` -/
  descriptor : Bool
  /-- `bus_event_publish_fn != NULL` -/
  publishFn : Bool
  publishRc : BusError
  /-- `CLOCK_REALTIME`, in milliseconds. -/
  realtime : Int

/-- `wei_report_enabled` -/
def reportEnabled (s : Rfc.State) : Bool :=
  match Rfc.enableGet s (some enableElement) (some .other) with
  | (some (.boolean b), .success) => b
  | _ => false

/-- `wei_report_stamp_time` -/
def stampTime (record : Record) (realtime : Int) : Record :=
  { record with reportTsMs := realtime }

/-- `wei_report_marshal` -/
def marshal (clientMac : Mac) (result : Result) (realtime : Int) : Payload :=
  ⟨.bytes, stampTime ⟨clientMac, result.score, result.verdict, 0⟩ realtime, recordSize⟩

/-- `wei_report_fire`, with the events handed to the bus. -/
def fire (env : Env) (payload : Payload) : List Event × BusError :=
  if env.handle = false then ([], .invalidInput)
  else if env.descriptor = false ∨ env.publishFn = false then ([], .general)
  else ([⟨reportEvent, payload⟩], env.publishRc)

/-- `wei_report_should_emit`, which admits every interval. -/
def shouldEmit (_ : Result) : Bool := true

/-- `wei_report_publish_tick`; `none` for a `NULL` argument. -/
def publishTick (clientMac : Option Mac) (result : Option Result) (env : Env) :
    List Event × BusError :=
  match clientMac, result with
  | some clientMac, some result =>
    if reportEnabled env.rfc = false then ([], .success)
    else if shouldEmit result = false then ([], .success)
    else if env.handle = false then ([], .general)
    else fire env (marshal clientMac result env.realtime)
  | _, _ => ([], .invalidInput)

/-! ## One interval of one client -/

/-- The arguments of both publishers, and what they meet. -/
structure Interval where
  mac : Mac
  result : Result
  metrics : ConnMetric.Record
  env : Env
  json : Perfreport.JsonEnv
  /-- What the publish function returns for the document. -/
  documentRc : BusError

namespace Interval

/-- The call of `wei_perfreport_publish_tick`. -/
def call (i : Interval) : Perfreport.Call :=
  ⟨i.mac, i.result, i.metrics, ⟨i.env.rfc.connperfEnabled, i.env.handle, i.env.descriptor,
    i.env.publishFn, i.json, i.documentRc⟩⟩

/-- What `wei_report_publish_tick` hands to the bus. -/
def fired (i : Interval) : List Event := (publishTick (some i.mac) (some i.result) i.env).1

def event (i : Interval) : Event :=
  ⟨reportEvent, ⟨.bytes, ⟨i.mac, i.result.score, i.result.verdict, i.env.realtime⟩, recordSize⟩⟩

/-- The bus is there to publish on. -/
def Ready (i : Interval) : Prop :=
  i.env.handle = true ∧ i.env.descriptor = true ∧ i.env.publishFn = true

theorem fired_ready {i : Interval} (henabled : i.env.rfc.connperfEnabled = true) (h : i.Ready) :
    i.fired = [i.event] := by
  obtain ⟨hhandle, hdescriptor, hpublish⟩ := h
  simp [fired, publishTick, reportEnabled, Rfc.enableGet, shouldEmit, fire, marshal, stampTime,
    event, henabled, hhandle, hdescriptor, hpublish]

theorem fired_disabled {i : Interval} (h : i.env.rfc.connperfEnabled = false) : i.fired = [] := by
  simp [fired, publishTick, reportEnabled, Rfc.enableGet, h]

end Interval

/-- The verdicts sent for a client, one for each record. -/
def sentVerdicts (mac : Mac) (is : List Interval) : List Verdict :=
  (is.filter fun i => decide (i.mac = mac)).flatMap fun i =>
    i.fired.map fun event => event.payload.bytes.verdict

theorem sentVerdicts_other {mac : Mac} (is : List Interval) {i : Interval} (h : i.mac ≠ mac) :
    sentVerdicts mac (is ++ [i]) = sentVerdicts mac is := by
  simp [sentVerdicts, List.filter_append, h]

theorem sentVerdicts_concat (is : List Interval) (i : Interval) :
    sentVerdicts i.mac (is ++ [i]) =
      sentVerdicts i.mac is ++ i.fired.map fun event => event.payload.bytes.verdict := by
  simp [sentVerdicts, List.filter_append]

/-! ## Both over a run -/

/-- Whenever the client is enabled the bus is there, and no report of it fails. -/
structure Works (mac : Mac) (is : List Interval) : Prop where
  ready : ∀ i ∈ is, i.mac = mac → i.env.rfc.connperfEnabled = true → i.Ready
  succeeds : ∀ pre i post, is = pre ++ i :: post → i.mac = mac →
    (Perfreport.outcome (pre.map Interval.call) i.call).attempted = true →
      (Perfreport.outcome (pre.map Interval.call) i.call).succeeded = true

theorem Works.of_concat {mac : Mac} {is : List Interval} {i : Interval} (h : Works mac (is ++ [i])) :
    Works mac is where
  ready j hj := h.ready j (List.mem_append_left _ hj)
  succeeds pre j post hsplit := h.succeeds pre j (post ++ [i]) (by rw [hsplit]; simp)

/-- Every enabled call sends one record. -/
theorem length_sentVerdicts {mac : Mac} {is : List Interval} (h : Works mac is) :
    (sentVerdicts mac is).length = Perfreport.enabledCalls mac (is.map Interval.call) := by
  induction is using List.reverseRecOn with
  | nil => rfl
  | append_singleton is i ih =>
    rw [List.map_append, List.map_singleton, Perfreport.enabledCalls_concat, ← ih h.of_concat]
    by_cases hm : i.mac = mac
    · subst hm
      rw [sentVerdicts_concat, List.length_append]
      cases hen : i.env.rfc.connperfEnabled with
      | false => simp [Interval.fired_disabled hen, Interval.call, hen]
      | true =>
        have hready := h.ready i (by simp) rfl hen
        simp [Interval.fired_ready hen hready, Interval.call, hen]
    · rw [sentVerdicts_other is hm, if_neg fun hn => hm hn.1, Nat.add_zero]

theorem granted_of_concat {mac : Mac} {calls : List Perfreport.Call} {c : Perfreport.Call}
    (h : Perfreport.Granted mac (calls ++ [c])) : Perfreport.Granted mac calls := by
  refine lt_of_le_of_lt (Finset.card_le_card fun m hm => ?_) h
  obtain ⟨d, hd, hmac⟩ := Perfreport.mem_callMacs.mp hm
  refine Perfreport.mem_callMacs.mpr ⟨d, ?_, hmac⟩
  rw [List.takeWhile_append]
  split
  · exact List.mem_append_left _ (List.takeWhile_subset _ hd)
  · exact hd

/-- Past the warm-up of three, the reports of a client are the changes of its records. -/
theorem published_changes {mac : Mac} {is : List Interval}
    (hg : Perfreport.Granted mac (is.map Interval.call)) (h : Works mac is) :
    .smooth :: Perfreport.publishedVerdicts mac (is.map Interval.call) =
      ((sentVerdicts mac is).drop 3).destutter' (· ≠ ·) .smooth := by
  induction is using List.reverseRecOn with
  | nil => rfl
  | append_singleton is i ih =>
    have hsplit : (is ++ [i]).map Interval.call = is.map Interval.call ++ [i.call] := by
      rw [List.map_append, List.map_singleton]
    rw [hsplit] at hg ⊢
    have hprev := ih (granted_of_concat hg) h.of_concat
    rw [Perfreport.publishedVerdicts_concat]
    by_cases hm : i.mac = mac
    · subst hm
      have hattempt := Perfreport.attempted_iff ((Perfreport.granted_self _ i.call).mp hg)
      have hlength := length_sentVerdicts h.of_concat
      have hsucceeded : (Perfreport.outcome (is.map Interval.call) i.call).succeeded = true ↔
          (Perfreport.outcome (is.map Interval.call) i.call).attempted = true :=
        ⟨Perfreport.attempted_of_succeeded, h.succeeds is i [] rfl rfl⟩
      have hlast : (Perfreport.lastPublished i.mac (is.map Interval.call)) =
          ((sentVerdicts i.mac is).drop 3).getLast?.getD .smooth := by
        have hends := Edges.getLast?_destutter' .smooth ((sentVerdicts i.mac is).drop 3)
        rw [← hprev, List.getLast?_cons] at hends
        exact Option.some.inj hends
      rw [sentVerdicts_concat]
      cases hen : i.env.rfc.connperfEnabled with
      | false =>
        have hquiet : ¬ (Perfreport.outcome (is.map Interval.call) i.call).succeeded = true := by
          rw [hsucceeded, hattempt]
          simp [Interval.call, hen]
        rw [Interval.fired_disabled hen, if_neg fun hn => hquiet hn.2]
        simpa using hprev
      | true =>
        rw [Interval.fired_ready hen (h.ready i (by simp) rfl hen), List.map_singleton]
        by_cases hwarm : 3 ≤ (sentVerdicts i.mac is).length
        · have hnews : (Perfreport.outcome (is.map Interval.call) i.call).succeeded = true ↔
              i.result.verdict ≠ Perfreport.lastPublished i.mac (is.map Interval.call) := by
            rw [hsucceeded, hattempt]
            exact ⟨fun hn => hn.2.2, fun hn => ⟨hen, hlength ▸ hwarm, hn⟩⟩
          rw [List.drop_append_of_le_length hwarm, Edges.destutter'_concat, ← hprev, ← hlast,
            ← List.cons_append, show i.event.payload.bytes.verdict = i.result.verdict from rfl]
          congr 1
          by_cases hv : i.result.verdict = Perfreport.lastPublished i.mac (is.map Interval.call)
          · rw [if_neg fun hn => hnews.mp hn.2 hv, if_pos hv.symm]
          · rw [if_pos ⟨rfl, hnews.mpr hv⟩, if_neg fun hn => hv hn.symm]
            rfl
        · have hquiet : ¬ (Perfreport.outcome (is.map Interval.call) i.call).succeeded = true := by
            rw [hsucceeded, hattempt]
            exact fun hn => hwarm (hlength.symm ▸ hn.2.1)
          rw [if_neg fun hn => hquiet hn.2, List.append_nil, hprev,
            List.drop_eq_nil_of_le (by omega), List.drop_eq_nil_of_le (by simp; omega)]
    · rw [sentVerdicts_other is hm, if_neg fun hn => hm hn.1, List.append_nil, hprev]

/-! ## The two event streams -/

/-- An event of the other path found the bus ready. -/
theorem publish_ready {buf : Option Perfreport.Buffer} {i : Interval} {event : Perfreport.Event}
    (h : event ∈ (Perfreport.publish buf i.mac i.result i.metrics i.call.env).2.fired) :
    i.Ready := by
  unfold Perfreport.publish at h
  split at h
  · cases h
  · rename_i hready
    simp only [not_or, Bool.not_eq_false] at hready
    exact hready

/-- A call that got past the gates was enabled, and so were three before it. -/
theorem gate_of_attempted {calls : List Perfreport.Call} {c : Perfreport.Call}
    (h : (Perfreport.outcome calls c).attempted = true) :
    c.env.enabled = true ∧ 3 ≤ Perfreport.enabledCalls c.mac calls := by
  by_cases hroom : SlotTable.scan (Perfreport.after calls).tbl c.mac = .full
  · rw [Perfreport.outcome, Perfreport.step_full hroom] at h
    cases h
  · have hgranted := ((Perfreport.slots_after calls).room_iff c.mac).mp hroom
    obtain ⟨henabled, hwarm, _⟩ := (Perfreport.attempted_iff hgranted).mp h
    exact ⟨henabled, hwarm⟩

theorem fired_both {calls : List Perfreport.Call} {i : Interval} {event : Perfreport.Event}
    (h : event ∈ (Perfreport.outcome calls i.call).fired) :
    Perfreport.Carries i.call event ∧ i.fired = [i.event] := by
  have henabled := (gate_of_attempted (Perfreport.fired_attempted (List.ne_nil_of_mem h))).1
  by_cases hroom : SlotTable.scan (Perfreport.after calls).tbl i.call.mac = .full
  · rw [Perfreport.outcome, Perfreport.step_full hroom] at h
    cases h
  · rw [Perfreport.outcome,
      (Perfreport.step_spec (Perfreport.slots_after calls).distinct hroom).outcome] at h
    refine ⟨Perfreport.clientStep_carries h, Interval.fired_ready henabled ?_⟩
    unfold Perfreport.clientStep at h
    split at h
    · cases h
    · exact publish_ready h

/-- Over any run of both publishers: where the edge-triggered one fires, the other sends
the record of the same client and result; and for a client whose events come through, the
verdicts reported from `smooth` on are the changes of its records past the first three. -/
theorem two_publishers_agree (is : List Interval) :
    (∀ pre i post, is = pre ++ i :: post →
      ∀ event ∈ (Perfreport.outcome (pre.map Interval.call) i.call).fired,
        Perfreport.Carries i.call event ∧ i.fired = [i.event]) ∧
    ∀ mac, Perfreport.Granted mac (is.map Interval.call) → Works mac is →
      .smooth :: Perfreport.publishedVerdicts mac (is.map Interval.call) =
        ((sentVerdicts mac is).drop 3).destutter' (· ≠ ·) .smooth :=
  ⟨fun _ _ _ _ _ hevent => fired_both hevent, fun _ hg hw => published_changes hg hw⟩

/-- The interval whose call is `c`. -/
def intervalOf (c : Perfreport.Call) : Interval :=
  ⟨c.mac, c.result, c.metrics, ⟨⟨c.env.enabled, none⟩, c.env.handle, c.env.descriptor,
    c.env.publishFn, .success, 0⟩, c.env.json, c.env.publishRc⟩

/-- Three intervals of a degraded client, and one more. -/
def degradedIntervals : List Interval :=
  List.replicate 3 (intervalOf Perfreport.degradedCall) ++ [intervalOf Perfreport.truncatedCall]

theorem works_degraded : Works Perfreport.degradedCall.mac degradedIntervals where
  ready i hi _ _ := by
    have hall : ∀ i ∈ degradedIntervals,
        i.env.handle = true ∧ i.env.descriptor = true ∧ i.env.publishFn = true := by decide
    exact hall i hi
  succeeds pre i post hsplit _ hattempted := by
    have hlen : 3 + 1 = pre.length + (post.length + 1) := by
      simpa [degradedIntervals] using congrArg List.length hsplit
    by_cases hpre : pre.length = 3
    · obtain ⟨rfl, hlast⟩ := List.append_inj hsplit (by simpa using hpre.symm)
      obtain ⟨rfl, _⟩ := List.cons.inj hlast
      change (Perfreport.outcome (List.replicate 3 Perfreport.degradedCall)
        Perfreport.truncatedCall).succeeded = true
      rw [Perfreport.truncated_outcome]
      rfl
    · -- the warm-up takes the first three
      have hwarm := (gate_of_attempted hattempted).2
      have hcount := List.countP_le_length (p := fun c : Perfreport.Call =>
        decide (c.mac = i.call.mac) && c.env.enabled) (l := pre.map Interval.call)
      rw [List.length_map] at hcount
      rw [Perfreport.enabledCalls] at hwarm
      omega

theorem two_publishers_agree_degraded :
    (∃ event, event ∈ (Perfreport.outcome (List.replicate 3 Perfreport.degradedCall)
        Perfreport.truncatedCall).fired ∧
      Perfreport.Carries Perfreport.truncatedCall event ∧
      (intervalOf Perfreport.truncatedCall).fired = [(intervalOf Perfreport.truncatedCall).event]) ∧
    .smooth :: Perfreport.publishedVerdicts Perfreport.degradedCall.mac
        (degradedIntervals.map Interval.call) = [.smooth, .degraded] := by
  have hfired := Perfreport.truncated_outcome
  refine ⟨⟨⟨reportEvent, Perfreport.truncatedCall.built, "report", 7⟩, ?_, ?_⟩, ?_⟩
  · rw [hfired]
    exact List.mem_singleton_self _
  · refine (two_publishers_agree degradedIntervals).1 (List.replicate 3 (intervalOf
      Perfreport.degradedCall)) (intervalOf Perfreport.truncatedCall) [] rfl _ ?_
    change _ ∈ (Perfreport.outcome (List.replicate 3 Perfreport.degradedCall)
      Perfreport.truncatedCall).fired
    rw [hfired]
    exact List.mem_singleton_self _
  · exact (two_publishers_agree degradedIntervals).2 _
      (Perfreport.granted_of_few (by decide) (by decide)) works_degraded

end Wei.ReportPublish
