import Wei.Lib.Mealy
import Wei.Perfreport.Json

/-!
# The per-interval publish

The cadence table of `wei_perfreport.c` and its entry `wei_perfreport_publish_tick`.
Everything a call meets outside this file (the pillar enable, the bus, cJSON)
is the environment of that call.
-/
namespace Wei.Perfreport

open Wei.Lib Wei.Lib.SlotTable
open Infer (Result Verdict)
open Track (maxClients)

/-- `WEI_PERFREPORT_WARMUP_INTERVALS` -/
def warmupIntervals : UInt16 := 3

/-- `WEI_CONNPERF_DM_REPORT_EVENT` -/
def reportEvent : String := "Device.WiFi.X_RDK_ConnPerf.Report"

/-- `wei_perfreport_client_state_t` -/
structure ClientState where
  mac : Mac
  inUse : Bool
  lastEmittedClass : Verdict
  warmupTicksSeen : UInt16
  deriving DecidableEq

def ClientState.zero : ClientState := ⟨Vector.replicate 6 0, false, .smooth, 0⟩

/-- The zero-seeded slot of a client seen for the first time. -/
def ClientState.admitted (mac : Mac) : ClientState :=
  { ClientState.zero with mac := mac, inUse := true }

instance : Keyed ClientState Mac := ⟨ClientState.inUse, ClientState.mac⟩

/-- The file's static data: the cadence table and the reused buffer. -/
structure State where
  tbl : Fin maxClients → ClientState
  buf : Option Buffer

def State.init : State := ⟨fun _ => ClientState.zero, none⟩

/-- `wei_perfreport_state_find_or_add` -/
def stateFindOrAdd (tbl : Fin maxClients → ClientState) (mac : Mac) :
    (Fin maxClients → ClientState) × Option (Fin maxClients) :=
  match scan tbl mac with
  | .hit i => (tbl, some i)
  | .free i => (Function.update tbl i (ClientState.admitted mac), some i)
  | .full => (tbl, none)

/-- `wei_perfreport_should_emit` -/
def shouldEmit (enabled : Bool) (state : ClientState) (currentClass : Verdict) :
    ClientState × Bool :=
  if enabled = false then (state, false)
  else if state.warmupTicksSeen < warmupIntervals then
    ({ state with warmupTicksSeen := state.warmupTicksSeen + 1 }, false)
  else if currentClass = state.lastEmittedClass then (state, false)
  else (state, true)

/-- `bus_error_t`: the codes this file names, and all others. -/
inductive BusError where
  | success
  | general
  | invalidInput
  | other (code : Nat)
  deriving DecidableEq

/-- What a call meets outside this file. -/
structure Env where
  /-- `weid_rfc_connperf_enabled()` -/
  enabled : Bool
  /-- `weid_bus_handle() != NULL` -/
  handle : Bool
  /-- `get_bus_descriptor() != NULL` -/
  descriptor : Bool
  /-- `desc->bus_event_publish_fn != NULL` -/
  publishFn : Bool
  json : JsonEnv
  /-- What the publish function returns. -/
  publishRc : BusError

/-- One call of the publish function. -/
structure Event where
  name : String
  /-- The document `text` was printed from. -/
  doc : Doc
  text : String
  /-- `raw_data_len`, the terminating NUL included. -/
  rawDataLen : UInt32

/-- The path a call takes to its return. -/
inductive Outcome where
  | tableFull
  | suppressed
  | busNotReady
  | jsonFailed
  | publishFailed (event : Event) (rc : BusError)
  | published (event : Event)

/-- The value returned. -/
def Outcome.rc : Outcome → BusError
  | .tableFull => .success
  | .suppressed => .success
  | .busNotReady => .general
  | .jsonFailed => .general
  | .publishFailed _ rc => rc
  | .published _ => .success

/-- The events handed to the bus, in order. -/
def Outcome.fired : Outcome → List Event
  | .publishFailed event _ => [event]
  | .published event => [event]
  | _ => []

/-- The gates let the call through to a publish. -/
def Outcome.attempted : Outcome → Bool
  | .tableFull => false
  | .suppressed => false
  | _ => true

def Outcome.succeeded : Outcome → Bool
  | .published _ => true
  | _ => false

/-- The part of `wei_perfreport_publish_tick` behind the gates. -/
def publish (buf : Option Buffer) (mac : Mac) (result : Result) (metrics : ConnMetric.Record)
    (env : Env) : Option Buffer × Outcome :=
  if env.handle = false ∨ env.descriptor = false ∨ env.publishFn = false then (buf, .busNotReady)
  else
    match buildJson env.json mac result metrics buf with
    | (buf, none) => (buf, .jsonFailed)
    | (buf, some (doc, text)) =>
      let event := ⟨reportEvent, doc, text, UInt32.ofNat (text.utf8ByteSize + 1)⟩
      if env.publishRc ≠ .success then (buf, .publishFailed event env.publishRc)
      else (buf, .published event)

/-- `wei_perfreport_publish_tick` -/
def publishTick (st : State) (mac : Mac) (result : Result) (metrics : ConnMetric.Record)
    (env : Env) : State × Outcome :=
  match stateFindOrAdd st.tbl mac with
  | (tbl, none) => ({ st with tbl := tbl }, .tableFull)
  | (tbl, some i) =>
    match shouldEmit env.enabled (tbl i) result.verdict with
    | (state, false) => ({ st with tbl := Function.update tbl i state }, .suppressed)
    | (state, true) =>
      let (buf, out) := publish st.buf mac result metrics env
      let state := if out.succeeded then { state with lastEmittedClass := result.verdict } else state
      (⟨Function.update tbl i state, buf⟩, out)

/-- One call with its arguments and environment. -/
structure Call where
  mac : Mac
  result : Result
  metrics : ConnMetric.Record
  env : Env

def machine : Mealy State Call Outcome :=
  ⟨fun st c => publishTick st c.mac c.result c.metrics c.env⟩

/-- The static data after a sequence of calls. -/
abbrev after (calls : List Call) : State := machine.final State.init calls

/-- What the call made after `calls` does. -/
abbrev outcome (calls : List Call) (c : Call) : Outcome := (machine.step (after calls) c).2

def callMacs (calls : List Call) : Finset Mac := (calls.map Call.mac).toFinset

end Wei.Perfreport
