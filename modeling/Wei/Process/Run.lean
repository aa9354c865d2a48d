import Wei.Bus
import Wei.Infer.Run
import Wei.Lib.Along
import Wei.Perfreport.Cadence
import Wei.Poll
import Wei.Rfc

/-!
# The daemon as one process

`weid_daemon.c` and the two callbacks of `weid_wire.c`. The receive thread runs
the poll loop; a datagram goes to the engine, a tick scores it and publishes,
gated by the enable of record, through the handle of the bus. The bus calls
`wei_connperf_enable_set` on a thread of its own, at any point between two of
the loop's callbacks or between two publishes of a tick. The process keeps a
trace of what was called; the trace influences nothing.
-/
namespace Wei.Process

open Wei.Lib Wei.ConnScorer
open Infer (Policy Scored)

/-- One call of `wei_connperf_enable_set`, with what it meets. -/
structure EnableSet where
  name : Option String
  data : Option Rfc.RawData
  env : Rfc.SetEnv

/-- What one publish meets outside the daemon. -/
structure PublishEnv where
  /-- The sets that land before its gate is read. -/
  sets : List EnableSet
  descriptor : Bool
  publishFn : Bool
  json : Perfreport.JsonEnv
  publishRc : Perfreport.BusError

/-- What a call of the process leaves in its trace. -/
inductive Mark where
  | datagram (d : Poll.Datagram)
  | stage (call : Wire.StageCall)
  /-- `weid_on_tick`: the firing of the loop, and the reading `wei_infer_tick` takes. -/
  | tick (firing : Poll.Firing) (now : Int)
  | set (s : EnableSet)
  | publish (c : Perfreport.Call) (out : Perfreport.Outcome)

structure State (D : Type) where
  loop : Poll.Loop
  receiver : Wire.Receiver D
  report : Perfreport.State
  rfc : Rfc.State
  bus : Bus.State
  trace : List Mark

/-- One `recv`; the callbacks of the daemon never retune the loop. -/
inductive Recv where
  | data (d : Poll.Datagram)
  | interrupted
  | failed

def Recv.poll : Recv → Poll.Recv
  | .data d => .data d []
  | .interrupted => .interrupted
  | .failed => .failed

/-- What one iteration of the loop meets, its tick included. -/
structure Turn where
  top : Int
  poll : Poll.PollOutcome
  recvs : List Recv
  drained : Int
  revive : Poll.Revive
  /-- The reading `wei_infer_tick` takes. -/
  now : Int
  env : Mac → PublishEnv

def Turn.iter (t : Turn) : Poll.Iter :=
  ⟨t.top, t.poll, t.recvs.map Recv.poll, t.drained, t.revive, []⟩

inductive Input where
  | turn (t : Turn)
  | set (s : EnableSet)

def Input.iter? : Input → Option Poll.Iter
  | .turn t => some t.iter
  | .set _ => none

/-! ## Start -/

/-- `LQ_STATS_SOCKET_PATH` -/
def statsSocketPath : String := "/tmp/linkquality_stats.sock"

structure BootEnv where
  /-- The file of the enable of record. -/
  file : Option (List UInt8)
  bus : Bus.OpenEnv
  engineAlloc : Bool
  sock : Poll.SockEnv
  pollAlloc : Bool
  /-- The reading `wei_poll_run` is entered at. -/
  entered : Int

section Daemon

variable {D : Type} [CDouble D]
variable (lq : LinkQty D) (order : ByteOrder) (layout : Wire.Layout) (clock : Nat → Int)
variable (lib : Rfc.CJson)

/-- `main` up to the loop, and `weid_wire_init`; `none` when the daemon gives up. -/
def boot (env : BootEnv) : Option (State D) :=
  let rfc := Rfc.load lib ⟨false, env.file⟩
  match Bus.busOpen .init env.bus with
  | (bus, .success) =>
    if env.engineAlloc = false then none
    else
      match Poll.create statsSocketPath true true env.sock env.pollAlloc with
      | none => none
      | some ctx =>
        some ⟨.enter ctx env.entered, ⟨Infer.create Infer.wireDefaultPolicy, []⟩, .init, rfc, bus, []⟩
  | _ => none

/-! ## The callbacks -/

/-- `weid_on_datagram`; `none` if it read outside its buffer. -/
def onDatagram (st : State D) (d : Poll.Datagram) : Option (State D) := do
  let rx ← Wire.onDatagram order layout clock st.receiver d.bytes
  return { st with
    receiver := rx
    trace := st.trace ++
      .datagram d :: (rx.calls.drop st.receiver.calls.length).map .stage }

def setEnable (rfc : Rfc.State) (s : EnableSet) : Rfc.State :=
  (Rfc.enableSet lib rfc s.name s.data s.env).1

def onSet (st : State D) (s : EnableSet) : State D :=
  { st with rfc := setEnable lib st.rfc s, trace := st.trace ++ [.set s] }

/-- The call of `wei_perfreport_publish_tick` for a scored client. -/
def publish (env : Mac → PublishEnv) (st : State D) (s : Scored) : State D :=
  let env := env s.mac
  let st := env.sets.foldl (onSet lib) st
  let c : Perfreport.Call := ⟨s.mac, s.result, s.metrics,
    ⟨st.rfc.connperfEnabled, (Bus.busHandle st.bus).isSome, env.descriptor, env.publishFn, env.json,
      env.publishRc⟩⟩
  let (report, out) := Perfreport.machine.step st.report c
  { st with report := report, trace := st.trace ++ [.publish c out] }

/-- `weid_on_tick` -/
def onTick (st : State D) (firing : Poll.Firing) (now : Int) (env : Mac → PublishEnv) : State D :=
  let (eng, out) := Infer.tick lq st.receiver.engine now
  out.foldl (publish lib env)
    { st with
      receiver := ⟨eng, st.receiver.calls⟩
      trace := st.trace ++ [.tick firing now] }

def callback (t : Turn) (st : State D) : Poll.Callback → Option (State D)
  | .datagram d => onDatagram order layout clock st d
  | .tick firing => some (onTick lq lib st firing t.now t.env)

/-! ## Runs -/

/-- One iteration of the receive thread. -/
def turn (st : State D) (t : Turn) : Option (State D) :=
  let (loop, obs) := Poll.iterate st.loop t.iter
  obs.calls.foldlM (callback lq order layout clock lib t) { st with loop := loop }

def step (st : State D) : Input → Option (State D)
  | .turn t => turn lq order layout clock lib st t
  | .set s => some (onSet lib st s)

def run (st : State D) (ins : List Input) : Option (State D) :=
  ins.foldlM (step lq order layout clock lib) st

end Daemon

/-! ## What each part sees of the trace -/

def Mark.callback : Mark → Option Poll.Callback
  | .datagram d => some (.datagram d)
  | .tick firing _ => some (.tick firing)
  | _ => none

def Mark.datagram? : Mark → Option Poll.Datagram
  | .datagram d => some d
  | _ => none

def Mark.infer : Mark → Option Infer.Event
  | .stage call => some (.stage call.mac call.metrics call.now)
  | .tick _ now => some (.tick now)
  | _ => none

def Mark.staged : Mark → Option Wire.StageCall
  | .stage call => some call
  | _ => none

def Mark.call : Mark → Option Perfreport.Call
  | .publish c _ => some c
  | _ => none

def Mark.enable : Mark → Option EnableSet
  | .set s => some s
  | _ => none

/-- What a publish reports of its client. -/
structure Row where
  mac : Mac
  result : Infer.Result
  metrics : ConnMetric.Record

def rowOf (s : Scored) : Row := ⟨s.mac, s.result, s.metrics⟩

def Mark.row : Mark → Option Row
  | .publish c _ => some ⟨c.mac, c.result, c.metrics⟩
  | _ => none

/-- A set or a publish: nothing the loop or the engine sees. -/
def Mark.Quiet (m : Mark) : Prop := m.callback = none ∧ m.infer = none

section Parts

variable {D : Type} [CDouble D]
variable (lq : LinkQty D) (order : ByteOrder) (layout : Wire.Layout) (clock : Nat → Int)
variable (lib : Rfc.CJson)

/-- The engine after what it saw of a trace. -/
abbrev engineAfter (t : List Mark) : Infer.Engine D :=
  Infer.after lq Infer.wireDefaultPolicy (t.filterMap Mark.infer)

/-- The enable of record after the sets of a trace. -/
abbrev rfcAfter (rfc : Rfc.State) (t : List Mark) : Rfc.State :=
  (t.filterMap Mark.enable).foldl (setEnable lib) rfc

/-- The entries of the datagrams of a trace, in wire order. -/
abbrev entries (t : List Mark) : List (Vector UInt8 layout.size) :=
  (t.filterMap Mark.datagram?).flatMap fun d => Wire.chunksOf order layout d.bytes

theorem engineAfter_quiet (t : List Mark) {m : Mark} (h : m.infer = none) :
    engineAfter (D := D) lq (t ++ [m]) = engineAfter lq t := by
  rw [engineAfter, filterMap_concat_none h]

theorem entries_quiet (t : List Mark) {m : Mark} (h : m.datagram? = none) :
    entries order layout (t ++ [m]) = entries order layout t := by
  rw [entries, filterMap_concat_none h]

theorem rfcAfter_quiet (rfc : Rfc.State) (t : List Mark) {m : Mark} (h : m.enable = none) :
    rfcAfter lib rfc (t ++ [m]) = rfcAfter lib rfc t := by
  rw [rfcAfter, filterMap_concat_none h]

theorem rfcAfter_set (rfc : Rfc.State) (t : List Mark) (s : EnableSet) :
    rfcAfter lib rfc (t ++ [.set s]) = setEnable lib (rfcAfter lib rfc t) s := by
  rw [rfcAfter, filterMap_concat_some (show (Mark.set s).enable = some s from rfl), List.foldl_append]
  rfl

/-- Every part of the process is where its own share of the trace takes it. -/
structure Parts (st₀ st : State D) : Prop where
  engine : st.receiver.engine = engineAfter lq st.trace
  staged : st.trace.filterMap Mark.staged = st.receiver.calls
  decoded : st.receiver.calls = Wire.stageCalls layout clock 0 (entries order layout st.trace)
  report : st.report = Perfreport.after (st.trace.filterMap Mark.call)
  rfc : st.rfc = rfcAfter lib st₀.rfc st.trace
  bus : st.bus = st₀.bus

/-- What holds of a publish at the time it is made. -/
structure PublishLaw (st₀ : State D) (pre : List Mark) (c : Perfreport.Call)
    (out : Perfreport.Outcome) : Prop where
  enabled : c.env.enabled = (rfcAfter lib st₀.rfc pre).connperfEnabled
  handle : c.env.handle = (Bus.busHandle st₀.bus).isSome
  outcome : out = Perfreport.outcome (pre.filterMap Mark.call) c
  /-- Of the clients its tick scored, it reports the next one. -/
  scored : ∃ before firing now quiet rest, pre = before ++ .tick firing now :: quiet ∧
    (∀ m ∈ quiet, m.Quiet) ∧ (Infer.tick lq (engineAfter lq before) now).2.map rowOf =
      quiet.filterMap Mark.row ++ ⟨c.mac, c.result, c.metrics⟩ :: rest

/-- What holds of a mark at the time it is left; a tick finds every entry staged. -/
def Law (st₀ : State D) (pre : List Mark) : Mark → Prop
  | .publish c out => PublishLaw lq lib st₀ pre c out
  | .tick _ _ => pre.filterMap Mark.staged = Wire.stageCalls layout clock 0 (entries order layout pre)
  | _ => True

structure Inv (st₀ st : State D) : Prop where
  parts : Parts lq order layout clock lib st₀ st
  law : Along (Law lq order layout clock lib st₀) st.trace

end Parts

/-! ## One callback -/

section Steps

variable {D : Type}
variable (lq : LinkQty D) (order : ByteOrder) (layout : Wire.Layout) (clock : Nat → Int)
variable (lib : Rfc.CJson)
variable {st₀ st st' st'' : State D}

/-- What a set or a publish leaves alone, and the rows it publishes. -/
structure Grows (st st' : State D) (rows : List Row) : Prop where
  loop : st'.loop = st.loop
  receiver : st'.receiver = st.receiver
  trace : ∃ ms, st'.trace = st.trace ++ ms ∧ (∀ m ∈ ms, m.Quiet) ∧ ms.filterMap Mark.row = rows

theorem Grows.refl (st : State D) : Grows st st [] :=
  ⟨rfl, rfl, [], by simp⟩

theorem Grows.trans {rows rows' : List Row} (h : Grows st st' rows) (h' : Grows st' st'' rows') :
    Grows st st'' (rows ++ rows') := by
  obtain ⟨ms, hms, hquiet, hrows⟩ := h.trace
  obtain ⟨ms', hms', hquiet', hrows'⟩ := h'.trace
  refine ⟨h'.loop.trans h.loop, h'.receiver.trans h.receiver, ms ++ ms', ?_, ?_, ?_⟩
  · rw [hms', hms, List.append_assoc]
  · exact List.forall_mem_append.mpr ⟨hquiet, hquiet'⟩
  · rw [List.filterMap_append, hrows, hrows']

theorem onSet_grows (st : State D) (s : EnableSet) : Grows st (onSet lib st s) [] := by
  refine ⟨rfl, rfl, [.set s], rfl, fun m hm => ?_, rfl⟩
  obtain rfl := List.mem_singleton.mp hm
  exact ⟨rfl, rfl⟩

theorem onSets_grows (st : State D) (sets : List EnableSet) :
    Grows st (sets.foldl (onSet lib) st) [] := by
  induction sets generalizing st with
  | nil => exact .refl st
  | cons s sets ih => exact (onSet_grows lib st s).trans (ih (onSet lib st s))

theorem publish_grows (env : Mac → PublishEnv) (st : State D) (s : Scored) :
    Grows st (publish lib env st s) [rowOf s] := by
  refine (onSets_grows lib st (env s.mac).sets).trans
    ⟨rfl, rfl, [.publish _ _], rfl, fun m hm => ?_, rfl⟩
  obtain rfl := List.mem_singleton.mp hm
  exact ⟨rfl, rfl⟩

theorem publishes_grows (env : Mac → PublishEnv) (st : State D) (out : List Scored) :
    Grows st (out.foldl (publish lib env) st) (out.map rowOf) := by
  induction out generalizing st with
  | nil => exact .refl st
  | cons s out ih => exact (publish_grows lib env st s).trans (ih (publish lib env st s))

variable [CDouble D]

theorem onSet_inv (h : Inv lq order layout clock lib st₀ st) (s : EnableSet) :
    Inv lq order layout clock lib st₀ (onSet lib st s) := by
  have hparts := h.parts
  refine ⟨?_, along_concat h.law trivial⟩
  constructor
  · exact hparts.engine.trans (engineAfter_quiet lq st.trace rfl).symm
  · exact (filterMap_concat_none rfl).trans hparts.staged
  · rw [show entries order layout (onSet lib st s).trace = entries order layout st.trace from
      entries_quiet order layout st.trace rfl]
    exact hparts.decoded
  · rw [show (onSet lib st s).trace.filterMap Mark.call = st.trace.filterMap Mark.call from
      filterMap_concat_none rfl]
    exact hparts.report
  · exact (congrArg (setEnable lib · s) hparts.rfc).trans (rfcAfter_set lib st₀.rfc st.trace s).symm
  · exact hparts.bus

theorem onSets_inv (h : Inv lq order layout clock lib st₀ st) (sets : List EnableSet) :
    Inv lq order layout clock lib st₀ (sets.foldl (onSet lib) st) := by
  induction sets generalizing st with
  | nil => exact h
  | cons s sets ih => exact ih (onSet_inv lq order layout clock lib h s)

/-- Of the clients that the last tick of the trace scored, these are left to publish. -/
def Scores (st : State D) (out : List Scored) : Prop :=
  ∃ before firing now quiet, st.trace = before ++ .tick firing now :: quiet ∧
    (∀ m ∈ quiet, m.Quiet) ∧ (Infer.tick lq (engineAfter lq before) now).2.map rowOf =
      quiet.filterMap Mark.row ++ out.map rowOf

theorem Scores.grow (published : List Scored) {out : List Scored} (h : Scores lq st (published ++ out))
    (hgrows : Grows st st' (published.map rowOf)) : Scores lq st' out := by
  obtain ⟨before, firing, now, quiet, htrace, hquiet, hout⟩ := h
  obtain ⟨ms, hms, hmsquiet, hrows⟩ := hgrows.trace
  refine ⟨before, firing, now, quiet ++ ms, ?_, List.forall_mem_append.mpr ⟨hquiet, hmsquiet⟩, ?_⟩
  · rw [hms, htrace, List.append_assoc, List.cons_append]
  · rw [hout, List.filterMap_append, hrows, List.map_append, List.append_assoc]

theorem publish_inv (h : Inv lq order layout clock lib st₀ st) (env : Mac → PublishEnv) {s : Scored}
    {out : List Scored} (hs : Scores lq st (s :: out)) :
    Inv lq order layout clock lib st₀ (publish lib env st s) := by
  have hsets := onSets_inv lq order layout clock lib h (env s.mac).sets
  have hscores : Scores lq _ (s :: out) :=
    Scores.grow lq [] hs (onSets_grows lib st (env s.mac).sets)
  unfold publish
  dsimp only
  generalize (env s.mac).sets.foldl (onSet lib) st = mid at hsets hscores ⊢
  generalize hc : (⟨s.mac, s.result, s.metrics, _⟩ : Perfreport.Call) = c
  have hrow : rowOf s = ⟨c.mac, c.result, c.metrics⟩ := by
    rw [← hc]
    rfl
  have hparts := hsets.parts
  obtain ⟨before, firing, now, quiet, htrace, hquiet, hout⟩ := hscores
  have hlaw : PublishLaw lq lib st₀ mid.trace c (Perfreport.machine.step mid.report c).2 := by
    refine ⟨?_, ?_, ?_, before, firing, now, quiet, out.map rowOf, htrace, hquiet, ?_⟩
    · rw [← hc, ← hparts.rfc]
    · rw [← hc, ← hparts.bus]
    · rw [hparts.report]
    · rw [hout, List.map_cons, hrow]
  refine ⟨?_, along_concat hsets.law hlaw⟩
  constructor
  · exact hparts.engine.trans (engineAfter_quiet lq mid.trace rfl).symm
  · exact (filterMap_concat_none rfl).trans hparts.staged
  · dsimp only
    rw [entries_quiet order layout mid.trace rfl]
    exact hparts.decoded
  · dsimp only
    rw [filterMap_concat_some (show (Mark.publish c _).call = some c from rfl),
      Perfreport.after_concat, ← hparts.report]
  · exact hparts.rfc.trans (rfcAfter_quiet lib st₀.rfc mid.trace rfl).symm
  · exact hparts.bus

theorem publishes_inv (h : Inv lq order layout clock lib st₀ st) (env : Mac → PublishEnv)
    {out : List Scored} (hs : Scores lq st out) :
    Inv lq order layout clock lib st₀ (out.foldl (publish lib env) st) := by
  induction out generalizing st with
  | nil => exact h
  | cons s out ih =>
    exact ih (publish_inv lq order layout clock lib h env hs)
      (Scores.grow lq [s] hs (publish_grows lib env st s))

/-- Between two callbacks every client a tick scored was published once, in order. -/
structure Settled (st₀ st : State D) : Prop extends Inv lq order layout clock lib st₀ st where
  rows : st.trace.filterMap Mark.row =
    ((Infer.machine lq).outputs (Infer.create (D := D) Infer.wireDefaultPolicy)
      (st.trace.filterMap Mark.infer)).flatten.map rowOf

/-- What a callback leaves alone, and the mark it leaves. -/
structure Called (st st' : State D) (cb : Poll.Callback) : Prop where
  loop : st'.loop = st.loop
  trace : ∃ ms, st'.trace = st.trace ++ ms ∧ ms.filterMap Mark.callback = [cb]

theorem onSet_settled (h : Settled lq order layout clock lib st₀ st) (s : EnableSet) :
    Settled lq order layout clock lib st₀ (onSet lib st s) := by
  refine ⟨onSet_inv lq order layout clock lib h.toInv s, ?_⟩
  have hrow : (onSet lib st s).trace.filterMap Mark.row = st.trace.filterMap Mark.row :=
    filterMap_concat_none rfl
  have hinfer : (onSet lib st s).trace.filterMap Mark.infer = st.trace.filterMap Mark.infer :=
    filterMap_concat_none rfl
  rw [hrow, hinfer]
  exact h.rows

/-- The mark of a datagram and those of the stage calls it leads to. -/
def datagramMarks (d : Poll.Datagram) (calls : List Wire.StageCall) : List Mark :=
  .datagram d :: calls.map .stage

def stageEvent (call : Wire.StageCall) : Infer.Event := .stage call.mac call.metrics call.now

theorem datagramMarks_view {β : Type} {view : Mark → Option β} (d : Poll.Datagram)
    (calls : List Wire.StageCall) (h : ∀ call, view (.stage call) = none) :
    (datagramMarks d calls).filterMap view = (view (.datagram d)).toList := by
  have hnone : (calls.map Mark.stage).filterMap view = [] := by
    rw [List.filterMap_map, List.filterMap_eq_nil_iff]
    exact fun call _ => h call
  cases hd : view (.datagram d) with
  | none => rw [datagramMarks, List.filterMap_cons_none hd, hnone]; rfl
  | some b => rw [datagramMarks, List.filterMap_cons_some hd, hnone]; rfl

theorem datagramMarks_infer (d : Poll.Datagram) (calls : List Wire.StageCall) :
    (datagramMarks d calls).filterMap Mark.infer = calls.map stageEvent := by
  rw [datagramMarks, List.filterMap_cons_none rfl, List.filterMap_map, ← List.filterMap_eq_map]
  rfl

theorem datagramMarks_staged (d : Poll.Datagram) (calls : List Wire.StageCall) :
    (datagramMarks d calls).filterMap Mark.staged = calls := by
  rw [datagramMarks, List.filterMap_cons_none rfl, List.filterMap_map]
  exact List.filterMap_some

/-- Stage calls give no output. -/
theorem outputs_stages (eng : Infer.Engine D) (calls : List Wire.StageCall) :
    ((Infer.machine lq).outputs eng (calls.map stageEvent)).flatten = [] := by
  induction calls generalizing eng with
  | nil => rfl
  | cons call calls ih => exact ih _

theorem onDatagram_settled (h : Settled lq order layout clock lib st₀ st) (d : Poll.Datagram) :
    ∃ st', onDatagram order layout clock st d = some st' ∧
      Settled lq order layout clock lib st₀ st' ∧ Called st st' (.datagram d) := by
  have hparts := h.parts
  generalize hchunks : Wire.chunksOf order layout d.bytes = chunks
  generalize hcalls : Wire.stageCalls layout clock st.receiver.calls.length chunks = calls
  refine ⟨⟨st.loop, ⟨Wire.stageAll st.receiver.engine calls, st.receiver.calls ++ calls⟩, st.report,
    st.rfc, st.bus, st.trace ++ datagramMarks d calls⟩, ?_, ⟨⟨?_, ?_⟩, ?_⟩, rfl, _, rfl, ?_⟩
  · rw [onDatagram, Wire.onDatagram_chunks, hchunks]
    simp [Wire.staged, hcalls, datagramMarks]
  · constructor
    · rw [engineAfter, List.filterMap_append, datagramMarks_infer, Infer.after, Mealy.final_append,
        Wire.stageAll_eq_final lq, hparts.engine]
      rfl
    · rw [List.filterMap_append, datagramMarks_staged, hparts.staged]
    · dsimp only
      rw [entries, List.filterMap_append, List.flatMap_append,
        datagramMarks_view d calls fun _ => rfl, Wire.stageCalls_append, ← hparts.decoded]
      have hlen := congrArg List.length hparts.decoded
      rw [Wire.length_stageCalls] at hlen
      rw [Nat.zero_add, ← hlen, ← hcalls, ← hchunks]
      simp [Mark.datagram?]
    · dsimp only
      rw [List.filterMap_append, datagramMarks_view d calls fun _ => rfl, hparts.report]
      simp [Mark.call]
    · dsimp only
      rw [rfcAfter, List.filterMap_append, datagramMarks_view d calls fun _ => rfl, hparts.rfc]
      simp [Mark.enable]
    · exact hparts.bus
  · refine along_append h.law fun m hm pre => ?_
    rcases List.mem_cons.mp hm with rfl | hm
    · trivial
    · obtain ⟨call, _, rfl⟩ := List.mem_map.mp hm
      trivial
  · dsimp only
    rw [List.filterMap_append, List.filterMap_append, datagramMarks_view d calls fun _ => rfl,
      datagramMarks_infer, Mealy.outputs_append, List.flatten_append, outputs_stages, h.rows]
    simp [Mark.row]
  · rw [datagramMarks_view d calls fun _ => rfl]
    rfl

theorem onTick_settled (h : Settled lq order layout clock lib st₀ st) (firing : Poll.Firing)
    (now : Int) (env : Mac → PublishEnv) :
    Settled lq order layout clock lib st₀ (onTick lq lib st firing now env) ∧
      Called st (onTick lq lib st firing now env) (.tick firing) := by
  have hparts := h.parts
  have hticked : (st.trace ++ [Mark.tick firing now]).filterMap Mark.infer =
      st.trace.filterMap Mark.infer ++ [.tick now] := filterMap_concat_some rfl
  have hscores : ∀ st' : State D, st'.trace = st.trace ++ [.tick firing now] →
      Scores lq st' (Infer.tick lq st.receiver.engine now).2 := by
    intro st' htrace
    refine ⟨st.trace, firing, now, [], htrace, by simp, ?_⟩
    rw [hparts.engine]
    rfl
  unfold onTick
  dsimp only
  generalize hmid : (⟨st.loop, _, st.report, st.rfc, st.bus, _⟩ : State D) = mid
  have htrace : mid.trace = st.trace ++ [.tick firing now] := by rw [← hmid]
  have hinv : Inv lq order layout clock lib st₀ mid := by
    subst hmid
    refine ⟨?_, along_concat h.law (hparts.staged.trans hparts.decoded)⟩
    constructor
    · rw [engineAfter, hticked, Infer.after, Mealy.final_concat, hparts.engine]
      rfl
    · exact (filterMap_concat_none rfl).trans hparts.staged
    · dsimp only
      rw [entries_quiet order layout st.trace rfl]
      exact hparts.decoded
    · dsimp only
      rw [filterMap_concat_none rfl]
      exact hparts.report
    · exact hparts.rfc.trans (rfcAfter_quiet lib st₀.rfc st.trace rfl).symm
    · exact hparts.bus
  have hall := publishes_inv lq order layout clock lib hinv env (hscores mid htrace)
  have hgrows := publishes_grows lib env mid (Infer.tick lq st.receiver.engine now).2
  obtain ⟨ms, hms, hquiet, hrows⟩ := hgrows.trace
  have hsilent : ms.filterMap Mark.infer = [] :=
    List.filterMap_eq_nil_iff.mpr fun m hm => (hquiet m hm).2
  have huncalled : ms.filterMap Mark.callback = [] :=
    List.filterMap_eq_nil_iff.mpr fun m hm => (hquiet m hm).1
  refine ⟨⟨hall, ?_⟩, ?_, [Mark.tick firing now] ++ ms, ?_, ?_⟩
  · have hinfer : (mid.trace ++ ms).filterMap Mark.infer =
        st.trace.filterMap Mark.infer ++ [.tick now] := by
      rw [List.filterMap_append, hsilent, List.append_nil, htrace, hticked]
    have hpublished : (mid.trace ++ ms).filterMap Mark.row =
        st.trace.filterMap Mark.row ++ (Infer.tick lq st.receiver.engine now).2.map rowOf := by
      rw [List.filterMap_append, hrows, htrace, filterMap_concat_none rfl]
    rw [hms, hinfer, hpublished, Mealy.outputs_concat, List.flatten_append, List.map_append, h.rows,
      hparts.engine]
    simp only [List.flatten_cons, List.flatten_nil, List.append_nil]
    rfl
  · rw [hgrows.loop, ← hmid]
  · rw [hms, htrace, List.append_assoc]
  · rw [List.filterMap_append, huncalled]
    rfl

theorem callbacks_settled (t : Turn) (calls : List Poll.Callback)
    (h : Settled lq order layout clock lib st₀ st) :
    ∃ st', calls.foldlM (callback lq order layout clock lib t) st = some st' ∧
      Settled lq order layout clock lib st₀ st' ∧ st'.loop = st.loop ∧
      st'.trace.filterMap Mark.callback = st.trace.filterMap Mark.callback ++ calls := by
  induction calls generalizing st with
  | nil => exact ⟨st, rfl, h, rfl, by simp⟩
  | cons cb calls ih =>
    have hone : ∃ st', callback lq order layout clock lib t st cb = some st' ∧
        Settled lq order layout clock lib st₀ st' ∧ Called st st' cb := by
      cases cb with
      | datagram d => exact onDatagram_settled lq order layout clock lib h d
      | tick firing =>
        obtain ⟨hset, hcalled⟩ := onTick_settled lq order layout clock lib h firing t.now t.env
        exact ⟨_, rfl, hset, hcalled⟩
    obtain ⟨mid, hmid, hset, hloop, ms, hms, hcb⟩ := hone
    obtain ⟨st', hrest, hset', hloop', htrace⟩ := ih hset
    refine ⟨st', ?_, hset', hloop'.trans hloop, ?_⟩
    · rw [List.foldlM_cons, hmid]
      exact hrest
    · rw [htrace, hms, List.filterMap_append, hcb, List.append_assoc, List.singleton_append]

end Steps

/-! ## Runs of the process -/

section Runs

variable {D : Type} [CDouble D]
variable (lq : LinkQty D) (order : ByteOrder) (layout : Wire.Layout) (clock : Nat → Int)
variable (lib : Rfc.CJson)
variable {st₀ st : State D}

theorem boot_eq {env : BootEnv} (h : boot lib env = some st₀) :
    ∃ fd bus, st₀ = ⟨.enter ⟨some fd, Poll.tickDefaultMs, true, true, statsSocketPath⟩ env.entered,
      ⟨Infer.create Infer.wireDefaultPolicy, []⟩, .init, Rfc.load lib ⟨false, env.file⟩, bus, []⟩ ∧
      Bus.busOpen .init env.bus = (bus, .success) := by
  unfold boot at h
  dsimp only at h
  split at h
  · next bus hbus =>
    split at h
    · cases h
    · unfold Poll.create at h
      cases hsock : Poll.sockOpen statsSocketPath env.sock with
      | none => rw [hsock] at h; cases h
      | some fd =>
        rw [hsock] at h
        cases hp : env.pollAlloc with
        | false => rw [hp] at h; cases h
        | true =>
          rw [hp] at h
          exact ⟨fd, bus, (Option.some.inj h).symm, hbus⟩
  · cases h

theorem boot_settled {env : BootEnv} (h : boot lib env = some st₀) :
    Settled lq order layout clock lib st₀ st₀ := by
  obtain ⟨fd, bus, rfl, _⟩ := boot_eq lib h
  refine ⟨⟨?_, along_nil⟩, rfl⟩
  constructor <;> rfl

theorem turn_settled (h : Settled lq order layout clock lib st₀ st) (t : Turn) :
    ∃ st', turn lq order layout clock lib st t = some st' ∧
      Settled lq order layout clock lib st₀ st' ∧ st'.loop = (Poll.iterate st.loop t.iter).1 ∧
      st'.trace.filterMap Mark.callback =
        st.trace.filterMap Mark.callback ++ (Poll.iterate st.loop t.iter).2.calls := by
  have hentered : Settled lq order layout clock lib st₀
      { st with loop := (Poll.iterate st.loop t.iter).1 } :=
    ⟨⟨⟨h.parts.engine, h.parts.staged, h.parts.decoded, h.parts.report, h.parts.rfc, h.parts.bus⟩,
      h.law⟩, h.rows⟩
  exact callbacks_settled lq order layout clock lib t (Poll.iterate st.loop t.iter).2.calls hentered

theorem run_settled (h : Settled lq order layout clock lib st₀ st) (ins : List Input) :
    ∃ st', run lq order layout clock lib st ins = some st' ∧
      Settled lq order layout clock lib st₀ st' ∧
      st'.loop = Poll.machine.final st.loop (ins.filterMap Input.iter?) ∧
      st'.trace.filterMap Mark.callback = st.trace.filterMap Mark.callback ++
        (Poll.machine.outputs st.loop (ins.filterMap Input.iter?)).flatMap (·.calls) := by
  induction ins generalizing st with
  | nil => exact ⟨st, rfl, h, rfl, by simp [Mealy.outputs]⟩
  | cons input ins ih =>
    cases input with
    | set s =>
      have hset := onSet_settled lq order layout clock lib h s
      obtain ⟨st', hrun, hsettled, hloop, htrace⟩ := ih hset
      refine ⟨st', hrun, hsettled, hloop, htrace.trans ?_⟩
      have hcb : (onSet lib st s).trace.filterMap Mark.callback =
          st.trace.filterMap Mark.callback := filterMap_concat_none rfl
      rw [hcb]
      rfl
    | turn t =>
      obtain ⟨mid, hturn, hmid, hloop, htrace⟩ := turn_settled lq order layout clock lib h t
      obtain ⟨st', hrun, hsettled, hloop', htrace'⟩ := ih hmid
      rw [hloop] at hloop' htrace'
      refine ⟨st', ?_, hsettled, hloop', ?_⟩
      · rw [run, List.foldlM_cons, step, hturn]
        exact hrun
      · rw [htrace', htrace, List.append_assoc]
        rfl

/-- The daemon that came up never reads outside a datagram, and every run of it is
the run of its parts, each on its own share of one trace: the loop calls back as
`wei_poll_run` does, the engine stages the entries of the frames that came in and
is ticked when the loop fires, each tick publishes exactly the clients it scored,
and every publish is gated by the enable of record as it stands at that moment. -/
theorem process_composes {env : BootEnv} (hboot : boot lib env = some st₀) (ins : List Input) :
    ∃ st, run lq order layout clock lib st₀ ins = some st ∧
      st.loop = Poll.machine.final st₀.loop (ins.filterMap Input.iter?) ∧
      st.trace.filterMap Mark.callback =
        (Poll.machine.outputs st₀.loop (ins.filterMap Input.iter?)).flatMap (·.calls) ∧
      st.trace.filterMap Mark.staged =
        Wire.stageCalls layout clock 0 (entries order layout st.trace) ∧
      st.receiver.engine = engineAfter lq st.trace ∧
      st.trace.filterMap Mark.row =
        ((Infer.machine lq).outputs (Infer.create (D := D) Infer.wireDefaultPolicy)
          (st.trace.filterMap Mark.infer)).flatten.map rowOf ∧
      st.report = Perfreport.after (st.trace.filterMap Mark.call) ∧
      st.rfc = rfcAfter lib (Rfc.load lib ⟨false, env.file⟩) st.trace ∧
      ∀ pre c out post, st.trace = pre ++ .publish c out :: post →
        PublishLaw lq lib st₀ pre c out := by
  obtain ⟨st, hrun, hsettled, hloop, htrace⟩ :=
    run_settled lq order layout clock lib (boot_settled lq order layout clock lib hboot) ins
  obtain ⟨fd, bus, rfl, _⟩ := boot_eq lib hboot
  have hparts := hsettled.parts
  refine ⟨st, hrun, hloop, htrace, ?_, hparts.engine, hsettled.rows, hparts.report, hparts.rfc, ?_⟩
  · rw [hparts.staged, hparts.decoded]
  · exact fun pre c out post h => hsettled.law pre (.publish c out) post h

end Runs

section Witness

/-- Everything the daemon asks of the system on its way up is granted, and an earlier
run left the enable set. -/
def ready : BootEnv :=
  ⟨some (Rfc.enableText true),
    ⟨some ⟨true, true, true⟩, .success, some ⟨true, true, true⟩, .success⟩, true,
    ⟨some 3, true, true⟩, true, 200⟩

noncomputable def booted : State ℝ :=
  ⟨.enter ⟨some 3, Poll.tickDefaultMs, true, true, statsSocketPath⟩ 200,
    ⟨Infer.create Infer.wireDefaultPolicy, []⟩, .init, ⟨true, some (Rfc.enableText true)⟩,
    (Bus.busOpen .init ready.bus).1, []⟩

theorem load_enableText : Rfc.load Rfc.textLib ⟨false, some (Rfc.enableText true)⟩ =
    ⟨true, some (Rfc.enableText true)⟩ := by
  decide +kernel

theorem boot_ready : boot Rfc.textLib ready = some booted := by
  rw [boot, ready, load_enableText]
  rfl

/-- The bytes of one entry. -/
abbrev Entry : Type := Vector UInt8 Wire.packedLayout.size

/-- A little-endian frame of one entry. -/
def frameOf (entry : Entry) : Poll.Datagram :=
  ⟨Wire.frame .little [entry], by
    rw [Wire.length_frame, List.length_singleton]
    decide⟩

/-- The `n`-th of the iterations that receive a frame of one entry and then tick. -/
def pulse (n : Nat) (entry : Entry) : Turn :=
  ⟨5100 + 5000 * n, .ready ⟨false, false, false, true⟩, [.data (frameOf entry)], 5200 + 5000 * n,
    ⟨true, ⟨some 3, true, true⟩⟩, 5200 + 5000 * n,
    fun _ => ⟨[], true, true, Perfreport.degradedCall.env.json, .success⟩⟩

/-- The reading that a record is staged at. -/
def stagedAt (n : Nat) : Int := 5150 + 5000 * n

theorem process_composes_first :
    ∃ st, run ⟨0, 0⟩ .little Wire.packedLayout stagedAt Rfc.textLib booted
        [.turn (pulse 0 Wire.busyEntry)] = some st ∧
      st.trace.filterMap Mark.callback =
        [.datagram (frameOf Wire.busyEntry), .tick ⟨5200, Poll.tickDefaultMs⟩] ∧
      st.trace.filterMap Mark.staged =
        Wire.stageCalls Wire.packedLayout stagedAt 0
          (entries .little Wire.packedLayout st.trace) := by
  obtain ⟨st, hrun, _, hcallback, hstaged, _⟩ := process_composes ⟨0, 0⟩ .little Wire.packedLayout
    stagedAt Rfc.textLib boot_ready [.turn (pulse 0 Wire.busyEntry)]
  exact ⟨st, hrun, hcallback, hstaged⟩

end Witness

end Wei.Process
