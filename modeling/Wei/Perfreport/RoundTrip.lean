import Wei.Lib.Codec
import Wei.Perfreport.Complete

/-!
# A published report reads back

The reader of the other end: it takes the members of a document by their names and
accepts what `wei_perfreport_build_json` writes, and nothing else. So a document is
read exactly if it is complete, and then as the client it was built from.
-/
namespace Wei.Perfreport

open Wei.Lib
open Infer (Result Verdict Contributor)

/-- What a report says of its client. -/
structure Report where
  clientMac : Mac
  reportTime : String
  score : UInt8
  verdict : Verdict
  dominant : Contributor
  snrDb : Int32
  phyRateKbps : UInt32
  pktErrPct : UInt8
  chanUtilPct : UInt8
  activityState : ConnMetric.State
  status : ConnMetric.Status
  deriving DecidableEq

/-- What the call has to report. -/
def Call.content (c : Call) : Report where
  clientMac := c.mac
  reportTime := c.env.json.formattedTime
  score := c.result.score
  verdict := c.result.verdict
  dominant := c.result.dominant
  snrDb := c.metrics.linkSnrDb
  phyRateKbps := c.metrics.phyRateKbps
  pktErrPct := c.result.pktErrPct
  chanUtilPct := c.metrics.chanUtilPct
  activityState := c.metrics.activityState
  status := c.metrics.status

/-! ## The fields -/

/-- A string member. -/
def strCodec : Codec String Value where
  write := .str
  read
    | .str s => some s
    | .num _ => none
  read_iff s v := by cases v <;> simp [eq_comm]

/-- A number member. -/
def numCodec : Codec Int Value where
  write := .num
  read
    | .num n => some n
    | .str _ => none
  read_iff n v := by cases v <;> simp [eq_comm]

def uint8Codec : Codec UInt8 Int :=
  .ofInverse (fun b => b.toNat) (fun n => UInt8.ofNat n.toNat) (by simp)

def uint32Codec : Codec UInt32 Int :=
  .ofInverse (fun b => b.toNat) (fun n => UInt32.ofNat n.toNat) (by simp)

def int32Codec : Codec Int32 Int := .ofInverse Int32.toInt Int32.ofInt (by simp)

def verdictCodec : Codec Verdict String :=
  .named [.smooth, .degraded] verdictName (fun v => by cases v <;> decide)
    (fun v w h => by cases v <;> cases w <;> first | rfl | simp [verdictName] at h)

def contributorCodec : Codec Contributor String :=
  .named [.none, .snr, .phy, .pktErr, .chanUtil] contributorName (fun v => by cases v <;> decide)
    (fun v w h => by cases v <;> cases w <;> first | rfl | simp [contributorName] at h)

def activityCodec : Codec ConnMetric.State Int :=
  .named [.active, .idle, .sleeping] ConnMetric.State.code (fun v => by cases v <;> decide)
    (fun v w h => by cases v <;> cases w <;> first | rfl | simp [ConnMetric.State.code] at h)

def statusCodec : Codec ConnMetric.Status Int :=
  .named [.ok, .noClientData, .stale, .scoreSuppressed] ConnMetric.Status.code
    (fun v => by cases v <;> decide)
    (fun v w h => by cases v <;> cases w <;> first | rfl | simp [ConnMetric.Status.code] at h)

/-! ## The address -/

def hexDigit : Codec (Fin 16) Char :=
  .named (List.finRange 16) (fun d => Nat.digitChar d) List.mem_finRange (by decide)

/-- A byte by its halves. -/
def halves : Codec UInt8 (Fin 16 × Fin 16) :=
  .ofInverse
    (fun b => (⟨b.toNat / 16, by have := b.toNat_lt; omega⟩, ⟨b.toNat % 16, by omega⟩))
    (fun d => UInt8.ofNat (16 * d.1 + d.2))
    (fun b => by
      have hsum : 16 * (b.toNat / 16) + b.toNat % 16 = b.toNat := Nat.div_add_mod _ _
      simp [hsum])

/-- The two digits of a byte. -/
def byteCodec : Codec UInt8 (Char × Char) := halves.trans (hexDigit.prod hexDigit)

theorem toList_hexByte (b : UInt8) :
    (hexByte b).toList = [(byteCodec.write b).1, (byteCodec.write b).2] := by
  simp [hexByte, byteCodec, Codec.trans, Codec.prod, hexDigit, Codec.named, halves,
    Codec.ofInverse]

theorem toList_macString (mac : Mac) :
    (macString mac).toList = byteCodec.writeList ':' mac.toList := by
  rw [macString, String.toList_intercalate, List.map_map, Codec.writeList]
  congr 1
  exact List.map_congr_left fun b _ => toList_hexByte b

/-- Six bytes in twos, set apart by colons. -/
def macCodec : Codec Mac String where
  write := macString
  read s := (byteCodec.readList ':' s.toList).bind fun l =>
    if h : l.length = 6 then some ⟨l.toArray, by simpa using h⟩ else none
  read_iff mac s := by
    rw [Option.bind_eq_some_iff]
    constructor
    · intro ⟨l, hread, hmac⟩
      obtain ⟨_, hwrite⟩ := (byteCodec.readList_iff ':' l s.toList).mp hread
      split at hmac
      · obtain rfl := Option.some.inj hmac
        refine String.toList_inj.mp ?_
        rw [toList_macString]
        exact hwrite
      · cases hmac
    · intro h
      subst h
      have hlen : mac.toList.length = 6 := mac.length_toList
      refine ⟨mac.toList, ?_, ?_⟩
      · rw [Codec.readList_iff, toList_macString]
        exact ⟨List.ne_nil_of_length_pos (by omega), rfl⟩
      · rw [dif_pos hlen]
        rfl

/-! ## The document -/

/-- The members of a report, as they are written. -/
def Report.members (r : Report) : Doc :=
  [("client_mac", (macCodec.trans strCodec).write r.clientMac),
    ("report_time", strCodec.write r.reportTime),
    ("score", (uint8Codec.trans numCodec).write r.score),
    ("verdict", (verdictCodec.trans strCodec).write r.verdict),
    ("dominant", (contributorCodec.trans strCodec).write r.dominant),
    ("snr_db", (int32Codec.trans numCodec).write r.snrDb),
    ("phy_rate_kbps", (uint32Codec.trans numCodec).write r.phyRateKbps),
    ("pkt_err_pct", (uint8Codec.trans numCodec).write r.pktErrPct),
    ("chan_util_pct", (uint8Codec.trans numCodec).write r.chanUtilPct),
    ("activity_state", (activityCodec.trans numCodec).write r.activityState),
    ("status", (statusCodec.trans numCodec).write r.status)]

/-- They are those of the source. -/
theorem members_content (c : Call) : c.content.members = c.report := rfl

def readMember {α : Type} (c : Codec α Value) (name : String) (doc : Doc) : Option α :=
  (doc.lookup name).bind c.read

theorem readMember_iff {α : Type} (c : Codec α Value) (name : String) (doc : Doc) (a : α) :
    readMember c name doc = some a ↔ doc.lookup name = some (c.write a) := by
  rw [readMember, Option.bind_eq_some_iff]
  constructor
  · intro ⟨v, hv, hread⟩
    rw [hv, (c.read_iff a v).mp hread]
  · intro h
    exact ⟨c.write a, h, c.read_write a⟩

/-- A document as a report, if it is one. -/
def readReport (doc : Doc) : Option Report := do
  let clientMac ← readMember (macCodec.trans strCodec) "client_mac" doc
  let reportTime ← readMember strCodec "report_time" doc
  let score ← readMember (uint8Codec.trans numCodec) "score" doc
  let verdict ← readMember (verdictCodec.trans strCodec) "verdict" doc
  let dominant ← readMember (contributorCodec.trans strCodec) "dominant" doc
  let snrDb ← readMember (int32Codec.trans numCodec) "snr_db" doc
  let phyRateKbps ← readMember (uint32Codec.trans numCodec) "phy_rate_kbps" doc
  let pktErrPct ← readMember (uint8Codec.trans numCodec) "pkt_err_pct" doc
  let chanUtilPct ← readMember (uint8Codec.trans numCodec) "chan_util_pct" doc
  let activityState ← readMember (activityCodec.trans numCodec) "activity_state" doc
  let status ← readMember (statusCodec.trans numCodec) "status" doc
  return ⟨clientMac, reportTime, score, verdict, dominant, snrDb, phyRateKbps, pktErrPct,
    chanUtilPct, activityState, status⟩

/-- A document is read as a report exactly if it has every member of it. -/
theorem readReport_iff (doc : Doc) (r : Report) :
    readReport doc = some r ↔ ∀ m ∈ r.members, doc.lookup m.1 = some m.2 := by
  simp only [readReport, Option.bind_eq_bind, Option.bind_eq_some_iff, readMember_iff,
    Report.members, List.forall_mem_cons]
  constructor
  · rintro ⟨mac, hmac, time, htime, score, hscore, verdict, hverdict, dominant, hdominant, snr, hsnr,
      phy, hphy, pkt, hpkt, chan, hchan, activity, hactivity, status, hstatus, hr⟩
    obtain rfl := Option.some.inj hr
    exact ⟨hmac, htime, hscore, hverdict, hdominant, hsnr, hphy, hpkt, hchan, hactivity, hstatus,
      fun _ h => by cases h⟩
  · rintro ⟨hmac, htime, hscore, hverdict, hdominant, hsnr, hphy, hpkt, hchan, hactivity, hstatus, _⟩
    exact ⟨_, hmac, _, htime, _, hscore, _, hverdict, _, hdominant, _, hsnr, _, hphy, _, hpkt, _,
      hchan, _, hactivity, _, hstatus, rfl⟩

/-- The document of a call reads back as what the call says if every insertion
succeeded, and else not at all. -/
theorem readReport_built (c : Call) (r : Report) :
    readReport c.built = some r ↔ AllAdded c ∧ c.content = r := by
  constructor
  · intro h
    -- every member read was added, under the name of one of the call's own
    have hmembers := (readReport_iff c.built r).mp h
    have hmem : ∀ m ∈ r.members, m ∈ c.report ∧ c.env.json.addMember m.1 = true := by
      intro m hm
      obtain ⟨before, behind, heq, _⟩ := List.lookup_eq_some_iff.mp (hmembers m hm)
      have hbuilt : m ∈ c.built := heq ▸ List.mem_append_right _ List.mem_cons_self
      rw [built_eq] at hbuilt
      exact List.mem_filter.mp hbuilt
    have hnames : c.report.map Prod.fst = r.members.map Prod.fst := rfl
    have hadded : AllAdded c := by
      intro m hm
      obtain ⟨m', hm', hname⟩ := List.mem_map.mp (hnames ▸ List.mem_map_of_mem hm)
      exact hname ▸ (hmem m' hm').2
    refine ⟨hadded, ?_⟩
    have hread := (readReport_iff c.built c.content).mpr
      (members_content c ▸ (built_complete_iff c).mpr hadded)
    exact Option.some.inj (hread.symm.trans h)
  · intro ⟨hadded, hr⟩
    subst hr
    exact (readReport_iff c.built c.content).mpr (members_content c ▸ (built_complete_iff c).mpr hadded)

example : readReport degradedCall.built = some degradedCall.content := by decide +kernel

end Wei.Perfreport
