import Wei.Perfreport.RoundTrip
import Wei.Process.Provenance

/-!
# From the socket to the bus

What a subscriber reads back from a published report, in terms of the frames that
came in on the socket.
-/
namespace Wei.Process

open Wei.Lib Wei.ConnScorer

section Subscriber

variable {D : Type} [CDouble D]
variable (lq : LinkQty D) (order : ByteOrder) (layout : Wire.Layout) (clock : Nat → Int)
variable (lib : Rfc.CJson)

/-- The report of an entry and what was made of it. -/
def reportOf (entry : Wire.StatsArg) (result : Infer.Result) (time : String) :
    Perfreport.Report where
  clientMac := entry.cliMacAddress
  reportTime := time
  score := result.score
  verdict := result.verdict
  dominant := result.dominant
  snrDb := Int32.ofInt entry.cliSnr
  phyRateKbps := UInt32.ofInt entry.cliLastDataUplinkRate * 1000
  pktErrPct := result.pktErrPct
  chanUtilPct := UInt8.ofInt (max 0 (min 100 entry.channelUtilization))
  activityState := .active
  status := .ok

theorem Origin.content {pre : List Mark} {c : Perfreport.Call} {chunk : Vector UInt8 layout.size}
    (h : Origin lq order layout pre c chunk) :
    c.content = reportOf (layout.decode chunk) c.result c.env.json.formattedTime ∧
      (layout.decode chunk).cliActive = true := by
  have husable := h.usable
  rw [ConnMetric.Record.usable, Bool.and_eq_true, decide_eq_true_eq, decide_eq_true_eq] at husable
  obtain ⟨hactive, hok⟩ := husable
  have hclamp : ∀ n : Int, (if n < 0 then 0 else if 100 < n then 100 else n) = max 0 (min 100 n) := by
    intro n
    split_ifs <;> omega
  constructor
  · rw [Perfreport.Call.content, reportOf, hactive, hok, h.mac, h.metrics, ← hclamp]
    rfl
  · rw [h.metrics, Wire.mapRecord] at hactive
    by_contra hidle
    rw [if_neg hidle] at hactive
    cases hactive

variable {st₀ st : State D}

/-- Whatever arrived, an event reads back at the other end exactly if every insertion of
its call succeeded; then it shows the last entry received for a client that was active,
and what the engine made of it at the tick before. -/
theorem report_reads_back {env : BootEnv} (hboot : boot lib env = some st₀) {ins : List Input}
    (hrun : run lq order layout clock lib st₀ ins = some st) {pre post : List Mark}
    {c : Perfreport.Call} {out : Perfreport.Outcome}
    (htrace : st.trace = pre ++ .publish c out :: post) :
    ∃ chunk, Origin lq order layout pre c chunk ∧ (layout.decode chunk).cliActive = true ∧
      ∀ event ∈ out.fired, ∀ r, Perfreport.readReport event.doc = some r ↔
        Perfreport.AllAdded c ∧
          r = reportOf (layout.decode chunk) c.result c.env.json.formattedTime := by
  obtain ⟨hlaw, chunk, horigin⟩ := publish_origin lq order layout clock lib hboot hrun htrace
  obtain ⟨hcontent, hactive⟩ := horigin.content
  refine ⟨chunk, horigin, hactive, fun event hevent r => ?_⟩
  rw [hlaw.outcome] at hevent
  obtain ⟨hcarries, _⟩ := fired_gate hevent
  rw [hcarries.doc, Perfreport.readReport_built, hcontent, eq_comm (a := r)]

end Subscriber

section Witness

/-- What the event of the fourth pulse reads back as. -/
theorem report_reads_back_swings : ∃ st pre c event chunk,
    run ⟨0, 0⟩ .little Wire.packedLayout stagedAt Rfc.textLib booted
        (pulses (swings ++ [slowEntry])) = some st ∧
      st.trace = pre ++ [.publish c (.published event)] ∧
      Origin (⟨0, 0⟩ : LinkQty ℝ) .little Wire.packedLayout pre c chunk ∧
      Perfreport.readReport event.doc =
        some (reportOf (Wire.packedLayout.decode chunk) c.result c.env.json.formattedTime) := by
  obtain ⟨st, s, event, hrun, hmac, hdegraded, hevent⟩ := swings_run ⟨0, 0⟩
  have htrace : (pulseNext ⟨0, 0⟩ st 3 slowEntry s).trace = _ ++ [.publish (publishOf s) _] := rfl
  rw [hevent] at htrace
  obtain ⟨chunk, horigin, _, hread⟩ := report_reads_back ⟨0, 0⟩ .little Wire.packedLayout
    stagedAt Rfc.textLib boot_ready hrun htrace
  refine ⟨_, _, publishOf s, event, chunk, hrun, htrace, horigin, ?_⟩
  exact (hread event (List.mem_singleton_self event) _).mpr ⟨fun _ _ => rfl, rfl⟩

end Witness

end Wei.Process
