import Mathlib.Data.Finset.Dedup
import Wei.Lib.Mealy
import Wei.Infer.Client

/-!
# The inference engine

The membership map of `wei_infer.c` and the two entries that change it:
`wei_infer_stage_record` and `wei_infer_tick`. The clock reading each entry
takes is an argument. A tick calls `wei_perfreport_publish_tick` once per scored
client and reads nothing back, so its publish calls are an output here, in the
order they are made.
-/
namespace Wei.Infer

open Wei.Lib Wei.Lib.SlotTable Wei.ConnScorer
open Track (maxClients)

variable {D : Type} [CDouble D]

/-- `wei_infer_slot_t` -/
structure Slot (D : Type) where
  mac : Mac
  inUse : Bool
  lastSeen : Int
  state : Client D

def Slot.zero : Slot D := ⟨Vector.replicate 6 0, false, 0, Client.zero⟩

instance : Keyed (Slot D) Mac := ⟨Slot.inUse, Slot.mac⟩

/-- `wei_infer_map_t` -/
structure Map (D : Type) where
  slots : Fin maxClients → Slot D
  count : UInt8

/-- `struct wei_infer_engine` -/
structure Engine (D : Type) where
  map : Map D
  tracker : Track.Table
  policy : Policy
  snapshot : Fin maxClients → ConnMetric.Record
  result : Fin maxClients → Result
  ledger : Fin maxClients → EpisodeLog

/-- `wei_infer_create` with an allocation that succeeds -/
def create (policy : Policy) : Engine D where
  map := ⟨fun _ => Slot.zero, 0⟩
  tracker := Track.init
  policy := policy
  snapshot := fun _ => ConnMetric.Record.zero
  result := fun _ => Result.zero
  ledger := fun _ => EpisodeLog.zero

/-- `wei_infer_stage_record` -/
def stageRecord (eng : Engine D) (mac : Mac) (rec : ConnMetric.Record) (now : Int) : Engine D :=
  match scan eng.map.slots mac with
  | .hit i =>
    { eng with
      map.slots := Function.update eng.map.slots i { eng.map.slots i with lastSeen := now }
      snapshot := Function.update eng.snapshot i rec }
  | .full => eng
  | .free i =>
    { eng with
      map.slots := Function.update eng.map.slots i
        { eng.map.slots i with mac := mac, inUse := true, lastSeen := now }
      map.count := if eng.map.count.toNat < maxClients then eng.map.count + 1 else eng.map.count
      snapshot := Function.update eng.snapshot i rec }

/-- One publish call of a tick, and what `wei_track_get` returned for its client. -/
structure Scored where
  mac : Mac
  entry : Option (Fin maxClients)
  result : Result
  metrics : ConnMetric.Record
  deriving DecidableEq

/-- What the sweep does with a scored client after the tracker was consulted. -/
def concludeScore (policy : Policy) (st : Client D) (rec : ConnMetric.Record) (out : Result)
    (log : EpisodeLog) (now : Int) : Client D × Result × EpisodeLog :=
  let (st, out) := flagLatencyRisk policy st out
  let out := flagVideoDegrade policy out
  let out := if out.verdict = .degraded then { out with dominant := attributeMetric st rec } else out
  (st, out, ledgerUpdate log out.verdict now)

/-- One turn of the sweep of `wei_infer_tick`. -/
def sweepSlot (lq : LinkQty D) (now : Int) (acc : Engine D × List Scored) (i : Fin maxClients) :
    Engine D × List Scored :=
  let eng := acc.1
  let slot := eng.map.slots i
  if slot.inUse = false then acc
  else
    match scoreClient lq slot.state (eng.snapshot i) with
    | none => acc
    | some (st, out) =>
      let (tracker, entry, out) := flagInstability eng.policy eng.tracker slot.mac st out now
      let (st, out, log) := concludeScore eng.policy st (eng.snapshot i) out (eng.ledger i) now
      ({ eng with
          map.slots := Function.update eng.map.slots i { slot with state := st }
          tracker := tracker
          result := Function.update eng.result i out
          ledger := Function.update eng.ledger i log },
        acc.2 ++ [⟨slot.mac, entry, out, eng.snapshot i⟩])

@[irreducible] def sweep (lq : LinkQty D) (now : Int) (eng : Engine D) : Engine D × List Scored :=
  (List.finRange maxClients).foldl (sweepSlot lq now) (eng, [])

/-- The test `wei_infer_map_reap` makes on an in-use slot. -/
def Slot.absent (now : Int) (slot : Slot D) : Bool :=
  decide (Track.absenceDefaultMs < now - slot.lastSeen)

/-- One turn of `wei_infer_map_reap`. -/
def mapReapSlot (now : Int) (eng : Engine D) (i : Fin maxClients) : Engine D :=
  if (eng.map.slots i).inUse && (eng.map.slots i).absent now then
    { eng with
      map.slots := Function.update eng.map.slots i Slot.zero
      map.count := if 0 < eng.map.count then eng.map.count - 1 else eng.map.count
      ledger := Function.update eng.ledger i EpisodeLog.zero }
  else eng

/-- `wei_infer_map_reap` -/
@[irreducible] def mapReap (now : Int) (eng : Engine D) : Engine D :=
  (List.finRange maxClients).foldl (mapReapSlot now) eng

/-- `wei_infer_tick` -/
def tick (lq : LinkQty D) (eng : Engine D) (now : Int) : Engine D × List Scored :=
  let (eng, out) := sweep lq now eng
  let eng := { eng with tracker := Track.reap eng.tracker now Track.absenceDefaultMs }
  (mapReap now eng, out)

/-- One call into the engine, with the clock reading it takes. -/
inductive Event where
  | stage (mac : Mac) (rec : ConnMetric.Record) (now : Int)
  | tick (now : Int)

def Event.now : Event → Int
  | .stage _ _ now => now
  | .tick now => now

/-- The MAC an event stages a record for. -/
def Event.mac? : Event → Option Mac
  | .stage mac _ _ => some mac
  | .tick _ => none

def machine (lq : LinkQty D) : Mealy (Engine D) Event (List Scored) where
  step eng
    | .stage mac rec now => (stageRecord eng mac rec now, [])
    | .tick now => tick lq eng now

/-- The engine after a sequence of calls. -/
abbrev after (lq : LinkQty D) (policy : Policy) (es : List Event) : Engine D :=
  (machine lq).final (create policy) es

/-- Clock readings of one run: positive and never going back. -/
structure ClockOk (es : List Event) : Prop where
  pos : ∀ e ∈ es, 0 < e.now
  mono : es.Pairwise (fun e f => e.now ≤ f.now)

/-- The MACs that a sequence of calls stages records for. -/
def macs (es : List Event) : Finset Mac := (es.filterMap Event.mac?).toFinset

/-- `mac` holds a slot of the membership map. -/
def Member (eng : Engine D) (mac : Mac) : Prop := ∃ i, Holds eng.map.slots mac i

end Wei.Infer
