import Wei.Infer.Tenure
import Wei.Perfreport.Complete
import Wei.Process.Pulses

/-!
# Where a report comes from

A tick scores a client with the record it staged last, and the receiver stages
what it decoded from the frames that came in. So a report shows the last entry
received for its client, and nothing that did not come in as an entry is ever
published.
-/
namespace Wei.Process

open Wei.Lib Wei.ConnScorer

section Origin

variable {D : Type} [CDouble D]
variable (lq : LinkQty D) (order : ByteOrder) (layout : Wire.Layout) (clock : Nat → Int)
variable (lib : Rfc.CJson)

/-- The entry received last for a client. -/
def lastEntry (t : List Mark) (mac : Mac) : Option Wire.StatsArg :=
  ((entries order layout t).map layout.decode).reverse.find?
    fun entry => decide (entry.cliMacAddress = mac)

/-- What the engine was last given for a client is its last stage call. -/
theorem lastStaged_eq (t : List Mark) (mac : Mac) :
    Infer.lastStaged mac (t.filterMap Mark.infer) =
      ((t.filterMap Mark.staged).reverse.find? fun call => decide (call.mac = mac)).map
        fun call => ⟨call.metrics, call.now⟩ := by
  induction t using List.reverseRecOn with
  | nil => rfl
  | append_singleton t m ih =>
    cases m with
    | stage call =>
      rw [filterMap_concat_some (show (Mark.stage call).infer = some _ from rfl),
        filterMap_concat_some (show (Mark.stage call).staged = some call from rfl),
        Infer.lastStaged_stage, List.reverse_append, List.reverse_singleton, List.singleton_append,
        List.find?_cons, ih]
      by_cases hm : call.mac = mac <;> simp [hm]
    | tick firing now =>
      rw [filterMap_concat_some (show (Mark.tick firing now).infer = some _ from rfl),
        filterMap_concat_none (show (Mark.tick firing now).staged = none from rfl),
        Infer.lastStaged_tick, ih]
    | datagram d =>
      rw [filterMap_concat_none (show (Mark.datagram d).infer = none from rfl),
        filterMap_concat_none (show (Mark.datagram d).staged = none from rfl), ih]
    | set s =>
      rw [filterMap_concat_none (show (Mark.set s).infer = none from rfl),
        filterMap_concat_none (show (Mark.set s).staged = none from rfl), ih]
    | publish c out =>
      rw [filterMap_concat_none (show (Mark.publish c out).infer = none from rfl),
        filterMap_concat_none (show (Mark.publish c out).staged = none from rfl), ih]

/-- The record of the last stage call is that of the last entry. -/
theorem find_stageCalls (n : Nat) (chunks : List (Vector UInt8 layout.size)) (mac : Mac) :
    ((Wire.stageCalls layout clock n chunks).reverse.find? fun call => decide (call.mac = mac)).map
        Wire.StageCall.metrics =
      ((chunks.map layout.decode).reverse.find? fun entry =>
        decide (entry.cliMacAddress = mac)).map Wire.mapRecord := by
  induction chunks using List.reverseRecOn with
  | nil => rfl
  | append_singleton chunks chunk ih =>
    rw [Wire.stageCalls_append, List.reverse_append, List.map_append, List.reverse_append]
    simp only [Wire.stageCalls, List.mapIdx_cons, List.mapIdx_nil, List.reverse_singleton,
      List.singleton_append, List.map_singleton, List.find?_cons] at ih ⊢
    by_cases hm : (layout.decode chunk).cliMacAddress = mac
    · simp [Wire.stageCall, hm]
    · simpa [Wire.stageCall, hm] using ih

/-- A tick leaves the entries as they are, and so do the publishes behind it. -/
theorem entries_tick {before quiet : List Mark} {firing : Poll.Firing} {now : Int}
    (hquiet : ∀ m ∈ quiet, m.Quiet) :
    entries order layout (before ++ .tick firing now :: quiet) = entries order layout before := by
  have hnone : quiet.filterMap Mark.datagram? = [] := by
    refine List.filterMap_eq_nil_iff.mpr fun m hm => ?_
    obtain ⟨hcallback, _⟩ := hquiet m hm
    cases m with
    | datagram d => cases hcallback
    | _ => rfl
  rw [entries, List.filterMap_append, List.filterMap_cons_none rfl, hnone, List.append_nil]

theorem mem_entries {t : List Mark} {chunk : Vector UInt8 layout.size}
    (h : chunk ∈ entries order layout t) :
    ∃ d, .datagram d ∈ t ∧ chunk ∈ Wire.chunksOf order layout d.bytes := by
  obtain ⟨d, hd, hchunk⟩ := List.mem_flatMap.mp h
  obtain ⟨m, hm, hmd⟩ := List.mem_filterMap.mp hd
  cases m with
  | datagram d' =>
    obtain rfl := Option.some.inj hmd
    exact ⟨d', hm, hchunk⟩
  | _ => cases hmd

variable {st₀ st : State D}

/-- The engine scores a client with the record of its last entry. -/
theorem scored_lastEntry {before : List Mark}
    (hstaged : before.filterMap Mark.staged =
      Wire.stageCalls layout clock 0 (entries order layout before))
    {now : Int} {s : Infer.Scored} (hs : s ∈ (Infer.tick lq (engineAfter lq before) now).2) :
    ∃ entry, lastEntry order layout before s.mac = some entry ∧
      s.metrics = Wire.mapRecord entry ∧ s.metrics.usable = true := by
  obtain ⟨row, _, _, hrow, hmetrics, husable, _⟩ := Infer.tick_scored lq _ _ hs
  have hlast := Infer.lastStaged_of_held lq _ hrow
  rw [lastStaged_eq, hstaged, Option.map_eq_some_iff] at hlast
  obtain ⟨call, hcall, hstagedRow⟩ := hlast
  have hfind := find_stageCalls layout clock 0 (entries order layout before) s.mac
  rw [hcall, Option.map_some] at hfind
  obtain ⟨entry, hentry, hmap⟩ := Option.map_eq_some_iff.mp hfind.symm
  refine ⟨entry, hentry, ?_, hmetrics ▸ husable⟩
  rw [hmap, ← hmetrics]
  exact (congrArg Infer.Staged.record hstagedRow).symm

/-- An event was let through the gate of its call, and carries its document. -/
theorem fired_gate {calls : List Perfreport.Call} {c : Perfreport.Call}
    {event : Perfreport.Event} (h : event ∈ (Perfreport.outcome calls c).fired) :
    Perfreport.Carries c event ∧ c.env.enabled = true ∧
      3 ≤ Perfreport.enabledCalls c.mac calls ∧
      c.result.verdict ≠ Perfreport.lastPublished c.mac calls := by
  refine ⟨?_, Perfreport.attempted_gate (Perfreport.fired_attempted (List.ne_nil_of_mem h))⟩
  by_cases hroom : SlotTable.scan (Perfreport.after calls).tbl c.mac = .full
  · rw [Perfreport.outcome, Perfreport.step_full hroom] at h
    cases h
  · have hspec := Perfreport.step_spec (Perfreport.slots_after calls).distinct hroom
    rw [Perfreport.outcome, hspec.outcome] at h
    exact Perfreport.clientStep_carries h

/-- Where the publish of a call comes from: the entry received last for its client,
and the tick that scored it. -/
structure Origin (pre : List Mark) (c : Perfreport.Call)
    (chunk : Vector UInt8 layout.size) : Prop where
  received : ∃ d, .datagram d ∈ pre ∧ chunk ∈ Wire.chunksOf order layout d.bytes ∧
    d.bytes = Wire.frame order (Wire.chunksOf order layout d.bytes)
  last : lastEntry order layout pre c.mac = some (layout.decode chunk)
  metrics : c.metrics = Wire.mapRecord (layout.decode chunk)
  usable : c.metrics.usable = true
  scored : ∃ before firing now quiet, pre = before ++ .tick firing now :: quiet ∧
    (∀ m ∈ quiet, m.Quiet) ∧ ∃ s ∈ (Infer.tick lq (engineAfter lq before) now).2,
      s.mac = c.mac ∧ s.result = c.result ∧ s.metrics = c.metrics

theorem Origin.mac {pre : List Mark} {c : Perfreport.Call} {chunk : Vector UInt8 layout.size}
    (h : Origin lq order layout pre c chunk) : c.mac = (layout.decode chunk).cliMacAddress := by
  have hfound := List.find?_some h.last
  exact (of_decide_eq_true hfound).symm

theorem publish_origin {env : BootEnv} (hboot : boot lib env = some st₀) {ins : List Input}
    (hrun : run lq order layout clock lib st₀ ins = some st) {pre post : List Mark}
    {c : Perfreport.Call} {out : Perfreport.Outcome}
    (htrace : st.trace = pre ++ .publish c out :: post) :
    PublishLaw lq lib st₀ pre c out ∧ ∃ chunk, Origin lq order layout pre c chunk := by
  obtain ⟨st', hrun', hsettled, _⟩ :=
    run_settled lq order layout clock lib (boot_settled lq order layout clock lib hboot) ins
  obtain rfl := Option.some.inj (hrun'.symm.trans hrun)
  have hlaw : PublishLaw lq lib st₀ pre c out := hsettled.law pre (.publish c out) post htrace
  refine ⟨hlaw, ?_⟩
  obtain ⟨before, firing, now, quiet, rest, hpre, hquiet, hrows⟩ := hlaw.scored
  obtain ⟨s, hs, hrow⟩ := List.mem_map.mp
    (hrows ▸ List.mem_append_right _ List.mem_cons_self)
  obtain ⟨hmac, hresult, hmetrics⟩ := Row.mk.inj hrow
  have htick := hsettled.law before (.tick firing now) (quiet ++ .publish c out :: post)
    (by rw [htrace, hpre, List.append_assoc, List.cons_append])
  obtain ⟨entry, hentry, hrecord, husable⟩ := scored_lastEntry lq order layout clock htick hs
  have hlast : lastEntry order layout pre c.mac = some entry := by
    rw [lastEntry, hpre, entries_tick order layout hquiet, ← hmac]
    exact hentry
  obtain ⟨chunk, hchunk, rfl⟩ := List.mem_map.mp (List.mem_reverse.mp (List.mem_of_find?_eq_some hlast))
  obtain ⟨d, hd, hmem⟩ := mem_entries order layout hchunk
  exact ⟨chunk, {
    received := ⟨d, hd, hmem, Wire.eq_frame_of_chunksOf order layout (List.ne_nil_of_mem hmem)⟩
    last := hlast
    metrics := by rw [← hmetrics, hrecord]
    usable := hmetrics ▸ husable
    scored := ⟨before, firing, now, quiet, hpre, hquiet, s, hs, hmac, hresult, hmetrics⟩ }⟩

/-- Whatever arrives on the socket, a publish reports a client with the last entry
that came in for it, in a well-formed frame; and it fires an event only while the
enable of record is set, past the warm-up, for a verdict that is news. -/
theorem report_provenance {env : BootEnv} (hboot : boot lib env = some st₀) {ins : List Input}
    (hrun : run lq order layout clock lib st₀ ins = some st) {pre post : List Mark}
    {c : Perfreport.Call} {out : Perfreport.Outcome}
    (htrace : st.trace = pre ++ .publish c out :: post) :
    (∃ d chunk, .datagram d ∈ pre ∧ chunk ∈ Wire.chunksOf order layout d.bytes ∧
      d.bytes = Wire.frame order (Wire.chunksOf order layout d.bytes) ∧
      lastEntry order layout pre c.mac = some (layout.decode chunk) ∧
      c.mac = (layout.decode chunk).cliMacAddress ∧
      c.metrics = Wire.mapRecord (layout.decode chunk)) ∧
    ∀ event ∈ out.fired, Perfreport.Carries c event ∧
      (rfcAfter lib (Rfc.load lib ⟨false, env.file⟩) pre).connperfEnabled = true ∧
      3 ≤ Perfreport.enabledCalls c.mac (pre.filterMap Mark.call) ∧
      c.result.verdict ≠ Perfreport.lastPublished c.mac (pre.filterMap Mark.call) := by
  obtain ⟨hlaw, chunk, horigin⟩ := publish_origin lq order layout clock lib hboot hrun htrace
  obtain ⟨fd, bus, rfl, _⟩ := boot_eq lib hboot
  constructor
  · obtain ⟨d, hd, hmem, hframe⟩ := horigin.received
    exact ⟨d, chunk, hd, hmem, hframe, horigin.last, horigin.mac, horigin.metrics⟩
  · intro event hevent
    rw [hlaw.outcome] at hevent
    obtain ⟨hcarries, henabled, hgate⟩ := fired_gate hevent
    exact ⟨hcarries, hlaw.enabled.symm.trans henabled, hgate⟩

end Origin

section Witness

/-- The fourth pulse reports the last entry of the client, by an event past the warm-up. -/
theorem report_provenance_swings : ∃ st pre c event,
    run ⟨0, 0⟩ .little Wire.packedLayout stagedAt Rfc.textLib booted
        (pulses (swings ++ [slowEntry])) = some st ∧
      st.trace = pre ++ [.publish c (.published event)] ∧ c.mac = swinger ∧
      c.result.verdict = .degraded ∧
      (∃ chunk, lastEntry .little Wire.packedLayout pre c.mac =
          some (Wire.packedLayout.decode chunk) ∧
        c.metrics = Wire.mapRecord (Wire.packedLayout.decode chunk)) ∧
      Perfreport.Carries c event ∧
      3 ≤ Perfreport.enabledCalls c.mac (pre.filterMap Mark.call) ∧
      c.result.verdict ≠ Perfreport.lastPublished c.mac (pre.filterMap Mark.call) := by
  obtain ⟨st, s, event, hrun, hmac, hdegraded, hevent⟩ := swings_run ⟨0, 0⟩
  have htrace : (pulseNext ⟨0, 0⟩ st 3 slowEntry s).trace = _ ++ [.publish (publishOf s) _] := rfl
  rw [hevent] at htrace
  obtain ⟨⟨_, chunk, _, _, _, hlast, _, hmetrics⟩, hfired⟩ := report_provenance ⟨0, 0⟩ .little
    Wire.packedLayout stagedAt Rfc.textLib boot_ready hrun htrace
  obtain ⟨hcarries, _, hwarm, hnews⟩ := hfired event (List.mem_singleton_self event)
  exact ⟨_, _, publishOf s, event, hrun, htrace, hmac, hdegraded, ⟨chunk, hlast, hmetrics⟩,
    hcarries, hwarm, hnews⟩

end Witness

end Wei.Process
