import Mathlib.Data.String.Defs
import Wei.Infer.Client

/-!
# The report document

How `wei_perfreport.c` marshals one scored client. cJSON is outside this
repository: what it did at one call is part of that call's environment. An
allocation inside cJSON may fail at each member that is added, which then is
missing from the document, and `cJSON_PrintPreallocated` is any function of
the document and the capacity it is given.
-/
namespace Wei.Perfreport

open Infer (Result Verdict Contributor)

inductive Value where
  | str (s : String)
  | num (n : Int)
  deriving DecidableEq

/-- A cJSON object: its members in the order they were added. -/
abbrev Doc := List (String × Value)

/-- What the library and the allocator did while one report was built. -/
structure JsonEnv where
  createObject : Bool
  /-- Whether the call that adds this member allocates what it needs. -/
  addMember : String → Bool
  /-- The text `get_formatted_time` wrote. -/
  formattedTime : String
  /-- Whether an allocation or a reallocation to this size succeeds. -/
  alloc : Nat → Bool
  printPreallocated : Doc → Nat → Option String

/-- `wei_perfreport_verdict_name` -/
def verdictName : Verdict → String
  | .smooth => "smooth"
  | .degraded => "degraded"

/-- `wei_perfreport_contributor_name` -/
def contributorName : Contributor → String
  | .none => "none"
  | .snr => "snr"
  | .phy => "phy_rate"
  | .pktErr => "pkt_err"
  | .chanUtil => "chan_util"

/-- The two digits of `%02x`. -/
def hexByte (b : UInt8) : String :=
  String.ofList [Nat.digitChar (b.toNat / 16), Nat.digitChar (b.toNat % 16)]

def macString (mac : Mac) : String := ":".intercalate (mac.toList.map hexByte)

/-! ## The reused buffer -/

/-- `WEI_PERFREPORT_JSON_BUF_INIT` and `WEI_PERFREPORT_JSON_BUF_MAX` -/
def bufInit : Nat := 512
def bufMax : Nat := 2048

/-- A block of memory with its recorded capacity; the code never holds an empty one. -/
structure Buffer where
  cap : Nat
  cap_pos : 0 < cap
  deriving DecidableEq

/-- The capacity asked for when the document did not fit. -/
def Buffer.next (b : Buffer) : Buffer where
  cap := if bufMax < b.cap * 2 then bufMax else b.cap * 2
  cap_pos := by
    have h := b.cap_pos
    split
    · decide
    · omega

theorem Buffer.cap_lt_next {b : Buffer} (h : b.cap < bufMax) : b.cap < b.next.cap := by
  have hpos := b.cap_pos
  unfold Buffer.next
  dsimp only
  split
  · exact h
  · omega

/-- The loop of `wei_perfreport_json_serialize` once a block is held. -/
def jsonSerializeLoop (env : JsonEnv) (doc : Doc) (buf : Buffer) : Buffer × Option String :=
  match env.printPreallocated doc buf.cap with
  | some text => (buf, some text)
  | none =>
    if _h : bufMax ≤ buf.cap then (buf, none)
    else if env.alloc buf.next.cap = false then (buf, none)
    else jsonSerializeLoop env doc buf.next
  termination_by bufMax - buf.cap
  decreasing_by
    have hlt := Buffer.cap_lt_next (b := buf) (by omega)
    omega

/-- `wei_perfreport_json_serialize` -/
def jsonSerialize (env : JsonEnv) (doc : Doc) (buf : Option Buffer) :
    Option Buffer × Option String :=
  match buf with
  | some buf =>
    let (buf, text) := jsonSerializeLoop env doc buf
    (some buf, text)
  | none =>
    if env.alloc bufInit = false then (none, none)
    else
      let (buf, text) := jsonSerializeLoop env doc ⟨bufInit, by decide⟩
      (some buf, text)

/-! ## The document -/

/-- The members that are added, in order. -/
def members (env : JsonEnv) (mac : Mac) (result : Result) (metrics : ConnMetric.Record) : Doc :=
  [("client_mac", .str (macString mac)),
    ("report_time", .str env.formattedTime),
    ("score", .num result.score.toNat),
    ("verdict", .str (verdictName result.verdict)),
    ("dominant", .str (contributorName result.dominant)),
    ("snr_db", .num metrics.linkSnrDb.toInt),
    ("phy_rate_kbps", .num metrics.phyRateKbps.toNat),
    ("pkt_err_pct", .num result.pktErrPct.toNat),
    ("chan_util_pct", .num metrics.chanUtilPct.toNat),
    ("activity_state", .num metrics.activityState.code),
    ("status", .num metrics.status.code)]

/-- `cJSON_AddStringToObject` and `cJSON_AddNumberToObject`, whose result is ignored. -/
def addToObject (env : JsonEnv) (doc : Doc) (member : String × Value) : Doc :=
  if env.addMember member.1 then doc ++ [member] else doc

theorem foldl_addToObject (env : JsonEnv) (ms doc : Doc) :
    ms.foldl (addToObject env) doc = doc ++ ms.filter fun m => env.addMember m.1 := by
  induction ms generalizing doc with
  | nil => rw [List.foldl_nil, List.filter_nil, List.append_nil]
  | cons m ms ih =>
    rw [List.foldl_cons, ih, addToObject]
    cases h : env.addMember m.1 with
    | false => simp [h]
    | true => simp [h]

/-- `wei_perfreport_build_json`, with the document the text was printed from. -/
def buildJson (env : JsonEnv) (mac : Mac) (result : Result) (metrics : ConnMetric.Record)
    (buf : Option Buffer) : Option Buffer × Option (Doc × String) :=
  if env.createObject = false then (buf, none)
  else
    let doc := (members env mac result metrics).foldl (addToObject env) []
    let (buf, text) := jsonSerialize env doc buf
    (buf, text.map (doc, ·))

end Wei.Perfreport
