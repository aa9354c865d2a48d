import Mathlib.Data.List.Chain
import Wei.Lib.Mealy
import Wei.Wire

/-!
# The poll loop

`wei_poll.c`: one thread waits for datagrams until the next deadline, drains
the socket, and ticks when the deadline is reached. Clock readings, the outcome
of every system call and the periods the callbacks retune to come from outside;
an `Iter` holds all that one iteration of the loop meets.
-/
namespace Wei.Poll

open Wei.Lib
open Wire (dgramMax)

/-- `WEI_TICK_DEFAULT_MS` -/
def tickDefaultMs : UInt32 := 5000

/-- `sizeof(addr.sun_path)` -/
def sunPathSize : Nat := 108

/-- `wei_poll_ctx_t`; of the callbacks only whether they are set. -/
structure Ctx where
  /-- `none` for a negative descriptor. -/
  fd : Option Nat
  tickMs : UInt32
  onDatagram : Bool
  onTick : Bool
  sockPath : String

/-- What `recv` stored in the buffer. -/
structure Datagram where
  bytes : List UInt8
  fits : bytes.length ≤ dgramMax
  deriving DecidableEq

/-- One call of `recv`, with the periods `on_datagram` retunes to when it is called. -/
inductive Recv where
  | data (d : Datagram) (periods : List UInt32)
  | interrupted
  | failed

/-- The call as the receiver sees it. -/
def Recv.result : Recv → Wire.RecvResult
  | .data d _ => .datagram d.bytes
  | .interrupted => .interrupted
  | .failed => .failed

def Recv.datagram? : Recv → Option Datagram
  | .data d _ => some d
  | _ => none

def Recv.ok : Recv → Bool
  | .failed => false
  | _ => true

/-- The datagrams that `recv` returned before it first failed. -/
def received (rs : List Recv) : List Datagram := (rs.takeWhile Recv.ok).filterMap Recv.datagram?

/-- The system calls of `wei_sock_open`. -/
structure SockEnv where
  socket : Option Nat
  nonblock : Bool
  bind : Bool

/-- `wei_sock_open` -/
def sockOpen (sockPath : String) (env : SockEnv) : Option Nat :=
  if sunPathSize ≤ sockPath.utf8ByteSize then none
  else if env.nonblock && env.bind then env.socket
  else none

/-- `wei_poll_create` -/
def create (sockPath : String) (onDatagram onTick : Bool) (env : SockEnv) (alloc : Bool) :
    Option Ctx :=
  match sockOpen sockPath env with
  | none => none
  | some fd => if alloc then some ⟨some fd, tickDefaultMs, onDatagram, onTick, sockPath⟩ else none

/-- `wei_poll_retune` -/
def retune (ctx : Ctx) (periodMs : UInt32) : Ctx × Int :=
  if periodMs = 0 then (ctx, -1) else ({ ctx with tickMs := periodMs }, 0)

/-- The retunes of one callback, in order. -/
def retunes (ctx : Ctx) (periods : List UInt32) : Ctx :=
  periods.foldl (fun ctx p => (retune ctx p).1) ctx

/-- What a drain leaves: the context, what it took off the socket, what it handed on. -/
structure Drained where
  ctx : Ctx
  dequeued : List Datagram
  delivered : List Datagram

/-- `wei_sock_drain`; when the outcomes run out the socket is empty. -/
def sockDrain (ctx : Ctx) : List Recv → Drained
  | [] => ⟨ctx, [], []⟩
  | .interrupted :: rs => sockDrain ctx rs
  | .failed :: _ => ⟨ctx, [], []⟩
  | .data d periods :: rs =>
    if d.bytes ≠ [] ∧ ctx.onDatagram then
      let r := sockDrain (retunes ctx periods) rs
      ⟨r.ctx, d :: r.dequeued, d :: r.delivered⟩
    else
      let r := sockDrain ctx rs
      ⟨r.ctx, d :: r.dequeued, r.delivered⟩

/-- What `wei_poll_revive_socket` meets. -/
structure Revive where
  /-- `stat` succeeds on the path and finds a socket. -/
  isSocket : Bool
  sock : SockEnv

/-- `wei_poll_revive_socket` -/
def reviveSocket (ctx : Ctx) (env : Revive) : Ctx × Int :=
  if env.isSocket then (ctx, 0)
  else
    match sockOpen ctx.sockPath env.sock with
    | none => ({ ctx with fd := none }, -1)
    | some fd => ({ ctx with fd := some fd }, 0)

structure Revents where
  err : Bool
  hup : Bool
  nval : Bool
  pollin : Bool

inductive PollOutcome where
  | interrupted
  | failed
  | ready (revents : Revents)

structure Iter where
  /-- The reading at the top of the loop. -/
  top : Int
  poll : PollOutcome
  recvs : List Recv
  /-- The reading after draining. -/
  drained : Int
  revive : Revive
  /-- The periods `on_tick` retunes to when it is called. -/
  periods : List UInt32

/-- The local state of `wei_poll_run`. -/
structure Loop where
  ctx : Ctx
  nextTick : Int
  returned : Bool

/-- A call of `on_tick`: the reading that let it through, and the period the
deadline is armed with after it. -/
structure Firing where
  reading : Int
  period : UInt32
  deriving DecidableEq

inductive Callback where
  | datagram (d : Datagram)
  | tick (f : Firing)
  deriving DecidableEq

/-- What an iteration does, its callbacks in order. -/
structure Obs where
  /-- The wait handed to `poll`. -/
  timeout : Option Int32
  dequeued : List Datagram
  calls : List Callback

def Callback.firing : Callback → Option Firing
  | .tick f => some f
  | .datagram _ => none

@[simp] theorem firing_datagram (d : Datagram) : (Callback.datagram d).firing = none := rfl

@[simp] theorem firing_tick (f : Firing) : (Callback.tick f).firing = some f := rfl

/-- The calls of `on_tick` in an iteration. -/
def Obs.firings (o : Obs) : List Firing := o.calls.filterMap Callback.firing

/-- `(int)wait` -/
def timeout (nextTick now : Int) : Int32 :=
  Int32.ofInt (if nextTick - now < 0 then 0 else nextTick - now)

/-- The end of an iteration, from the second reading on. -/
def checkTick (l : Loop) (it : Iter) : Loop × List Callback :=
  if l.nextTick ≤ it.drained then
    let ctx := (reviveSocket l.ctx it.revive).1
    if ctx.onTick then
      let ctx := retunes ctx it.periods
      ({ l with ctx := ctx, nextTick := it.drained + ctx.tickMs.toNat },
        [.tick ⟨it.drained, ctx.tickMs⟩])
    else ({ l with ctx := ctx, nextTick := it.drained + ctx.tickMs.toNat }, [])
  else (l, [])

/-- What `poll` can report: nothing about a negative descriptor. -/
def Revents.of (fd : Option Nat) (r : Revents) : Revents :=
  if fd.isSome then r else ⟨false, false, false, false⟩

/-- The part of an iteration behind a successful `poll`. -/
def serve (l : Loop) (it : Iter) (r : Revents) : Loop × List Datagram × List Callback :=
  if r.err || r.hup || r.nval then ({ l with returned := true }, [], [])
  else
    let d := if r.pollin then sockDrain l.ctx it.recvs else ⟨l.ctx, [], []⟩
    let (l, ticks) := checkTick { l with ctx := d.ctx } it
    (l, d.dequeued, d.delivered.map .datagram ++ ticks)

/-- One iteration of `wei_poll_run`. -/
def iterate (l : Loop) (it : Iter) : Loop × Obs :=
  if l.returned then (l, ⟨none, [], []⟩)
  else
    let wait := timeout l.nextTick it.top
    match it.poll with
    | .interrupted => (l, ⟨some wait, [], []⟩)
    | .failed => ({ l with returned := true }, ⟨some wait, [], []⟩)
    | .ready r =>
      let (l, dequeued, calls) := serve l it (r.of l.ctx.fd)
      (l, ⟨some wait, dequeued, calls⟩)

def machine : Mealy Loop Iter Obs := ⟨iterate⟩

/-- `wei_poll_run` before its first iteration, entered at a reading. -/
def Loop.enter (ctx : Ctx) (reading : Int) : Loop := ⟨ctx, reading + ctx.tickMs.toNat, false⟩

/-- The loop after some iterations, for a context retuned before it was entered. -/
abbrev after (ctx : Ctx) (periods : List UInt32) (reading : Int) (its : List Iter) : Loop :=
  machine.final (.enter (retunes ctx periods) reading) its

/-- All calls of `on_tick` in a run, in order. -/
def firings (ctx : Ctx) (periods : List UInt32) (reading : Int) (its : List Iter) : List Firing :=
  (machine.outputs (.enter (retunes ctx periods) reading) its).flatMap Obs.firings

/-! ## Draining -/

@[simp] theorem retune_onDatagram (ctx : Ctx) (p : UInt32) :
    (retune ctx p).1.onDatagram = ctx.onDatagram := by
  unfold retune
  split <;> rfl

@[simp] theorem retunes_onDatagram (ctx : Ctx) (periods : List UInt32) :
    (retunes ctx periods).onDatagram = ctx.onDatagram := by
  induction periods generalizing ctx with
  | nil => rfl
  | cons p ps ih => exact (ih (retune ctx p).1).trans (retune_onDatagram ctx p)

/-- A drain takes off the socket what `recv` returns until it fails. -/
theorem sockDrain_dequeued (ctx : Ctx) (rs : List Recv) :
    (sockDrain ctx rs).dequeued = received rs := by
  induction rs generalizing ctx with
  | nil => rfl
  | cons r rs ih =>
    cases r with
    | interrupted => exact ih ctx
    | failed => rfl
    | data d periods =>
      have hreceived : received (.data d periods :: rs) = d :: received rs := rfl
      rw [sockDrain, hreceived]
      split
      · exact congrArg (d :: ·) (ih (retunes ctx periods))
      · exact congrArg (d :: ·) (ih ctx)

/-- Every non-empty datagram taken off the socket is handed on once, in order. -/
theorem sockDrain_delivered (ctx : Ctx) (rs : List Recv) :
    (sockDrain ctx rs).delivered =
      if ctx.onDatagram then (sockDrain ctx rs).dequeued.filter (·.bytes ≠ []) else [] := by
  induction rs generalizing ctx with
  | nil => simp [sockDrain]
  | cons r rs ih =>
    cases r with
    | interrupted => exact ih ctx
    | failed => simp [sockDrain]
    | data d periods =>
      by_cases h : d.bytes ≠ [] ∧ ctx.onDatagram
      · simp [sockDrain, h, ih (retunes ctx periods)]
      · rw [sockDrain, if_neg h]
        dsimp only
        rw [ih ctx]
        by_cases hon : ctx.onDatagram = true
        · have hd : d.bytes = [] := by_contra fun hd => h ⟨hd, hon⟩
          simp [hon, hd]
        · simp [hon]

/-! ## One iteration -/

/-- The end of an iteration either leaves the deadline or, once it is reached,
fires and arms it again. -/
theorem checkTick_cases (l : Loop) (it : Iter) :
    checkTick l it = (l, []) ∨
      l.nextTick ≤ it.drained ∧
        (checkTick l it).1.nextTick = it.drained + (checkTick l it).1.ctx.tickMs.toNat ∧
        ((checkTick l it).2 = [] ∨
          (checkTick l it).2 = [.tick ⟨it.drained, (checkTick l it).1.ctx.tickMs⟩]) := by
  unfold checkTick
  by_cases hdue : l.nextTick ≤ it.drained
  · right
    rw [if_pos hdue]
    dsimp only
    split <;> simp [hdue]
  · exact Or.inl (if_neg hdue)

/-- The ways through an iteration. -/
inductive IterStep (l : Loop) (it : Iter) : Loop × Obs → Prop where
  | ended (h : l.returned = true) : IterStep l it (l, ⟨none, [], []⟩)
  | interrupted (wait : Option Int32) (h : it.poll = .interrupted) :
      IterStep l it (l, ⟨wait, [], []⟩)
  | stopped (wait : Option Int32) (h : it.poll ≠ .interrupted) :
      IterStep l it ({ l with returned := true }, ⟨wait, [], []⟩)
  | served (wait : Option Int32) (ctx : Ctx) (dequeued delivered : List Datagram)
      (h : it.poll ≠ .interrupted) (hctx : ctx = l.ctx ∨ ctx = (sockDrain l.ctx it.recvs).ctx)
      (hd : delivered = if l.ctx.onDatagram then dequeued.filter (·.bytes ≠ []) else []) :
      IterStep l it ((checkTick { l with ctx := ctx } it).1,
        ⟨wait, dequeued, delivered.map .datagram ++ (checkTick { l with ctx := ctx } it).2⟩)

theorem iter_step (l : Loop) (it : Iter) : IterStep l it (iterate l it) := by
  unfold iterate
  split
  next h => exact .ended h
  next =>
    cases hp : it.poll with
    | interrupted => exact .interrupted _ hp
    | failed => exact .stopped _ (by simp [hp])
    | ready r =>
      have hne : it.poll ≠ .interrupted := by simp [hp]
      dsimp only [serve]
      split
      · exact .stopped _ hne
      · cases (r.of l.ctx.fd).pollin with
        | true => exact .served _ _ _ _ hne (Or.inr rfl) (sockDrain_delivered l.ctx it.recvs)
        | false => exact .served _ _ _ _ hne (Or.inl rfl) (by simp)

@[simp] theorem filterMap_datagrams (ds : List Datagram) :
    ds.filterMap (Callback.firing ∘ Callback.datagram) = [] := by
  simp [Function.comp_def]

theorem iterate_timeout {l : Loop} {it : Iter} {wait : Int32}
    (h : (iterate l it).2.timeout = some wait) : wait = timeout l.nextTick it.top := by
  unfold iterate at h
  split at h
  · cases h
  · cases hp : it.poll <;> simp only [hp, Option.some.injEq] at h <;> exact h.symm

/-- The iteration gets to `wei_sock_drain`. -/
def Loop.drains (l : Loop) (it : Iter) : Bool :=
  !l.returned && match it.poll with
    | .ready r =>
      let r := r.of l.ctx.fd
      !(r.err || r.hup || r.nval) && r.pollin
    | _ => false

theorem iterate_dequeued (l : Loop) (it : Iter) :
    (iterate l it).2.dequeued = if l.drains it then received it.recvs else [] := by
  unfold iterate Loop.drains
  cases hl : l.returned with
  | true => rfl
  | false =>
    cases hp : it.poll with
    | interrupted => rfl
    | failed => rfl
    | ready r =>
      simp only [serve, Bool.false_eq_true, if_false, Bool.not_false, Bool.true_and]
      cases hbad : (r.of l.ctx.fd).err || (r.of l.ctx.fd).hup || (r.of l.ctx.fd).nval with
      | true => rfl
      | false => cases hin : (r.of l.ctx.fd).pollin <;> simp [sockDrain_dequeued]

/-- What an iteration may do to the deadline and in what order it calls back. -/
structure Cadence (l : Loop) (it : Iter) (l' : Loop) (o : Obs) : Prop where
  once : o.firings.length ≤ 1
  due : ∀ f ∈ o.firings, f.reading = it.drained ∧ l.nextTick ≤ it.drained
  rearmed : ∀ f ∈ o.firings, f.period = l'.ctx.tickMs ∧ l'.nextTick = f.reading + f.period.toNat
  kept : it.poll = .interrupted → l' = l ∧ o.calls = []
  dequeued : o.dequeued = if l.drains it then received it.recvs else []
  delivered : o.calls =
    (if l.ctx.onDatagram then o.dequeued.filter (·.bytes ≠ []) else []).map .datagram ++
      o.firings.map .tick

theorem iterate_cadence (l : Loop) (it : Iter) :
    Cadence l it (iterate l it).1 (iterate l it).2 := by
  have hdequeued := iterate_dequeued l it
  have hstep := iter_step l it
  generalize iterate l it = r at hstep hdequeued ⊢
  cases hstep with
  | ended =>
    refine ⟨?_, ?_, ?_, ?_, hdequeued, ?_⟩ <;> simp [Obs.firings]
  | interrupted =>
    refine ⟨?_, ?_, ?_, ?_, hdequeued, ?_⟩ <;> simp [Obs.firings]
  | stopped _ h =>
    refine ⟨?_, ?_, ?_, ?_, hdequeued, ?_⟩ <;> simp [Obs.firings, h]
  | served _ ctx dequeued delivered h _ hd =>
    subst hd
    rcases checkTick_cases { l with ctx := ctx } it with hc | ⟨hdue, hnext, hc | hc⟩
    · rw [hc]
      refine ⟨?_, ?_, ?_, ?_, hdequeued, ?_⟩ <;> simp [Obs.firings, h]
    · rw [hc]
      refine ⟨?_, ?_, ?_, ?_, hdequeued, ?_⟩ <;> simp [Obs.firings, h]
    · rw [hc]
      refine ⟨?_, ?_, ?_, ?_, hdequeued, ?_⟩ <;> simp [Obs.firings, h, hdue, hnext]

section Handler

variable {D : Type} (order : ByteOrder) (layout : Wire.Layout)
variable (clock : Nat → Int)

theorem deliver_bytes (rx : Wire.Receiver D) (d : Datagram) :
    Wire.deliver order layout clock rx d.bytes =
      if d.bytes ≠ [] then Wire.onDatagram order layout clock rx d.bytes else some rx := by
  have hrecv : Wire.recv d.bytes = d.bytes := List.take_of_length_le d.fits
  rw [Wire.deliver, hrecv]
  simp only [List.length_pos_iff]

/-- The drain as the receiver models it handles the non-empty ones among what `recv`
returned, in order. -/
theorem sockDrain_handled (rx : Wire.Receiver D) (rs : List Recv) :
    Wire.sockDrain order layout clock rx (rs.map Recv.result) =
      ((received rs).filter (·.bytes ≠ [])).foldlM
        (fun rx d => Wire.onDatagram order layout clock rx d.bytes) rx := by
  induction rs generalizing rx with
  | nil => rfl
  | cons r rs ih =>
    cases r with
    | interrupted => exact ih rx
    | failed => rfl
    | data d periods =>
      have hreceived : received (.data d periods :: rs) = d :: received rs := rfl
      rw [List.map_cons, Recv.result, Wire.sockDrain, deliver_bytes, hreceived]
      by_cases hd : d.bytes = []
      · rw [if_neg (not_not.mpr hd), List.filter_cons_of_neg (by simpa using hd)]
        exact ih rx
      · rw [if_pos hd, List.filter_cons_of_pos (by simpa using hd), List.foldlM_cons]
        congr 1
        funext rx
        exact ih rx

/-- What a callback means to the receiver. -/
def Callback.handle (rx : Wire.Receiver D) : Callback → Option (Wire.Receiver D)
  | .datagram d => Wire.onDatagram order layout clock rx d.bytes
  | .tick _ => some rx

/-- With `weid_on_datagram` for its callback, an iteration that drains takes the receiver
where its own `wei_sock_drain` does, on what `recv` came back with. -/
theorem iterate_handled {l : Loop} (hon : l.ctx.onDatagram = true) (it : Iter)
    (rx : Wire.Receiver D) :
    (iterate l it).2.calls.foldlM (Callback.handle order layout clock) rx =
      if l.drains it then Wire.sockDrain order layout clock rx (it.recvs.map Recv.result)
      else some rx := by
  have hcad := iterate_cadence l it
  have hticks : ∀ (fs : List Firing) (rx : Wire.Receiver D),
      (fs.map Callback.tick).foldlM (Callback.handle order layout clock) rx = some rx := by
    intro fs
    induction fs with
    | nil => exact fun _ => rfl
    | cons f fs ih => exact ih
  rw [hcad.delivered, if_pos hon, hcad.dequeued, List.foldlM_append, List.foldlM_map]
  simp only [hticks, Option.bind_eq_bind, Option.bind_fun_some]
  split
  · rw [sockDrain_handled]
    rfl
  · rfl

end Handler

/-- The deadline only moves forward. -/
theorem iterate_nextTick_le (l : Loop) (it : Iter) : l.nextTick ≤ (iterate l it).1.nextTick := by
  have hstep := iter_step l it
  generalize iterate l it = r at hstep ⊢
  cases hstep with
  | ended => exact Int.le_refl l.nextTick
  | interrupted => exact Int.le_refl l.nextTick
  | stopped => exact Int.le_refl l.nextTick
  | served _ ctx =>
    rcases checkTick_cases { l with ctx := ctx } it with hc | ⟨hdue, hnext, _⟩
    · exact Int.le_of_eq (by rw [hc])
    · dsimp only at hdue ⊢
      omega

/-! ## Runs -/

section Runs

variable (ctx : Ctx) (periods : List UInt32) (reading : Int)

/-- `g` comes no sooner than the period armed at `f` allows. -/
def Firing.Spaced (f g : Firing) : Prop := f.reading + (f.period.toNat : Int) ≤ g.reading

theorem firings_concat (its : List Iter) (it : Iter) :
    firings ctx periods reading (its ++ [it]) = firings ctx periods reading its ++
      (iterate (after ctx periods reading its) it).2.firings := by
  rw [firings, Mealy.outputs_concat, List.flatMap_append, List.flatMap_singleton]
  rfl

/-- The deadline lies a full period behind the last firing. -/
theorem spaced (its : List Iter) :
    (firings ctx periods reading its).IsChain Firing.Spaced ∧
      ∀ f ∈ (firings ctx periods reading its).getLast?,
        f.reading + (f.period.toNat : Int) ≤ (after ctx periods reading its).nextTick := by
  induction its using List.reverseRecOn with
  | nil => simp [firings, Mealy.outputs]
  | append_singleton its it ih =>
    obtain ⟨hchain, hlast⟩ := ih
    have hcad := iterate_cadence (after ctx periods reading its) it
    have hle := iterate_nextTick_le (after ctx periods reading its) it
    rw [firings_concat, show after ctx periods reading (its ++ [it]) =
      (iterate (after ctx periods reading its) it).1 from machine.final_concat _ _ _]
    -- an iteration fires at most once
    cases hf : (iterate (after ctx periods reading its) it).2.firings with
    | nil =>
      rw [List.append_nil]
      exact ⟨hchain, fun f h => Int.le_trans (hlast f h) hle⟩
    | cons g gs =>
      obtain rfl : gs = [] := by
        have honce := hcad.once
        rw [hf, List.length_cons] at honce
        exact List.eq_nil_of_length_eq_zero (by omega)
      have hg : g ∈ (iterate (after ctx periods reading its) it).2.firings := by simp [hf]
      obtain ⟨hreading, hdue⟩ := hcad.due g hg
      refine ⟨?_, ?_⟩
      · refine List.isChain_append.mpr ⟨hchain, by simp, ?_⟩
        intro f hf' g' hg'
        obtain rfl : g = g' := by simpa using hg'
        exact Int.le_trans (hlast f hf') (hreading ▸ hdue)
      · intro f hf'
        obtain rfl : g = f := by simpa using hf'
        exact Int.le_of_eq (hcad.rearmed g hg).2.symm

/-- Cadence of the loop, over every run. -/
theorem poll_loop_cadence (its : List Iter) :
    (firings ctx periods reading its).IsChain Firing.Spaced ∧
      ∀ seen it, seen ++ [it] <+: its →
        Cadence (after ctx periods reading seen) it
          (iterate (after ctx periods reading seen) it).1
          (iterate (after ctx periods reading seen) it).2 :=
  ⟨(spaced ctx periods reading its).1, fun _ it _ => iterate_cadence _ it⟩

end Runs

/-- A context of `wei_poll_create`. -/
def created : Ctx := ⟨some 3, tickDefaultMs, true, true, "/tmp/weid.sock"⟩

/-- An iteration over a readable socket that reaches the deadline. -/
def readable (top drained : Int) (recvs : List Recv) (periods : List UInt32) : Iter :=
  ⟨top, .ready ⟨false, false, false, true⟩, recvs, drained, ⟨true, ⟨some 3, true, true⟩⟩, periods⟩

/-- Two datagrams with an empty one and a signal between them, and one behind a failure. -/
def mixed : List Recv :=
  [.data ⟨[1], by decide⟩ [], .data ⟨[], by decide⟩ [], .interrupted, .data ⟨[2], by decide⟩ [],
    .failed, .data ⟨[3], by decide⟩ []]

/-- The first tick retunes the loop to seven seconds; the next comes no sooner. -/
theorem poll_loop_cadence_mixed :
    (firings created [] 100 [readable 100 5100 mixed [7000], readable 5200 12100 [] []]).IsChain
        Firing.Spaced ∧
      firings created [] 100 [readable 100 5100 mixed [7000], readable 5200 12100 [] []] =
        [⟨5100, 7000⟩, ⟨12100, 7000⟩] ∧
      (iterate (after created [] 100 []) (readable 100 5100 mixed [7000])).2.calls =
        [.datagram ⟨[1], by decide⟩, .datagram ⟨[2], by decide⟩, .tick ⟨5100, 7000⟩] := by
  have hcadence := poll_loop_cadence created [] 100
    [readable 100 5100 mixed [7000], readable 5200 12100 [] []]
  have hfirst := hcadence.2 [] (readable 100 5100 mixed [7000]) (by simp)
  refine ⟨hcadence.1, by decide, ?_⟩
  rw [hfirst.delivered, hfirst.dequeued]
  decide

/-! ## The wait handed to `poll` -/

/-- `INT_MAX` -/
def intMax : Nat := 2147483647

def Recv.periods : Recv → List UInt32
  | .data _ periods => periods
  | _ => []

/-- Every period an iteration may retune to. -/
def Iter.retuned (it : Iter) : List UInt32 := it.recvs.flatMap Recv.periods ++ it.periods

theorem retunes_le {ctx : Ctx} {periods : List UInt32} (hctx : ctx.tickMs.toNat ≤ intMax)
    (hp : ∀ p ∈ periods, p.toNat ≤ intMax) : (retunes ctx periods).tickMs.toNat ≤ intMax := by
  induction periods generalizing ctx with
  | nil => exact hctx
  | cons p ps ih =>
    have hfirst : (retune ctx p).1.tickMs.toNat ≤ intMax := by
      unfold retune
      split
      · exact hctx
      · exact hp p (List.mem_cons_self ..)
    exact ih hfirst fun q hq => hp q (List.mem_cons_of_mem _ hq)

theorem sockDrain_le {ctx : Ctx} {rs : List Recv} (hctx : ctx.tickMs.toNat ≤ intMax)
    (hp : ∀ p ∈ rs.flatMap Recv.periods, p.toNat ≤ intMax) :
    (sockDrain ctx rs).ctx.tickMs.toNat ≤ intMax := by
  induction rs generalizing ctx with
  | nil => exact hctx
  | cons r rs ih =>
    simp only [List.flatMap_cons, List.mem_append] at hp
    have hrest : ∀ p ∈ rs.flatMap Recv.periods, p.toNat ≤ intMax := fun p h => hp p (Or.inr h)
    cases r with
    | interrupted => exact ih hctx hrest
    | failed => exact hctx
    | data d periods =>
      unfold sockDrain
      split
      · exact ih (retunes_le hctx fun p h => hp p (Or.inl h)) hrest
      · exact ih hctx hrest

@[simp] theorem reviveSocket_tickMs (ctx : Ctx) (env : Revive) :
    (reviveSocket ctx env).1.tickMs = ctx.tickMs := by
  unfold reviveSocket
  split
  · rfl
  · split <;> rfl

/-- The period fits an `int` and the deadline is no further off than that. -/
structure Armed (l : Loop) (now : Int) : Prop where
  period : l.ctx.tickMs.toNat ≤ intMax
  deadline : l.nextTick ≤ now + intMax

theorem checkTick_armed {l : Loop} {it : Iter} {now : Int} (h : Armed l now)
    (hnow : now ≤ it.drained) (hp : ∀ p ∈ it.periods, p.toNat ≤ intMax) :
    Armed (checkTick l it).1 it.drained := by
  have hrevived : (reviveSocket l.ctx it.revive).1.tickMs.toNat ≤ intMax := by
    rw [reviveSocket_tickMs]
    exact h.period
  have hretuned := retunes_le hrevived hp
  have hdeadline := h.deadline
  unfold checkTick
  split
  · dsimp only
    split
    · exact ⟨hretuned, by dsimp only; omega⟩
    · exact ⟨hrevived, by dsimp only; omega⟩
  · exact ⟨h.period, by dsimp only; omega⟩

theorem iterate_armed {l : Loop} {it : Iter} {now : Int} (h : Armed l now) (htop : now ≤ it.top)
    (hdrained : it.top ≤ it.drained) (hp : ∀ p ∈ it.retuned, p.toNat ≤ intMax) :
    Armed (iterate l it).1 it.drained := by
  have hlater : Armed l it.drained := ⟨h.period, by have := h.deadline; omega⟩
  simp only [Iter.retuned, List.mem_append] at hp
  have hstep := iter_step l it
  generalize iterate l it = r at hstep ⊢
  cases hstep with
  | ended => exact hlater
  | interrupted => exact hlater
  | stopped => exact ⟨hlater.period, hlater.deadline⟩
  | served _ ctx _ _ _ hctx =>
    have hperiod : ctx.tickMs.toNat ≤ intMax := by
      rcases hctx with rfl | rfl
      · exact h.period
      · exact sockDrain_le h.period fun p hmem => hp p (Or.inl hmem)
    exact checkTick_armed (l := { l with ctx := ctx }) ⟨hperiod, hlater.deadline⟩ (Int.le_refl _)
      fun p hmem => hp p (Or.inr hmem)

/-- The readings of a run in the order they are taken. -/
def readings (reading : Int) (its : List Iter) : List Int :=
  reading :: its.flatMap fun it => [it.top, it.drained]

theorem timeout_eq {l : Loop} {now top : Int} (h : Armed l now) (htop : now ≤ top) :
    (timeout l.nextTick top).toInt = max 0 (l.nextTick - top) := by
  have hdeadline := h.deadline
  have hmax : (intMax : Int) = 2147483647 := rfl
  unfold timeout
  rw [Int32.toInt_ofInt_of_le]
  all_goals split <;> omega

/-- What holds of the loop and its latest reading, and outlasts an iteration,
holds in every run whose clock never goes back. -/
theorem clocked {P : Loop → Int → Prop} {l : Loop} {now : Int} {seen : List Iter} {it : Iter}
    (hstep : ∀ l now, ∀ it ∈ seen, P l now → now ≤ it.top → it.top ≤ it.drained →
      P (iterate l it).1 it.drained)
    (h : P l now) (hclock : (readings now (seen ++ [it])).IsChain (· ≤ ·)) :
    ∃ last, last ≤ it.top ∧ P (machine.final l seen) last := by
  induction seen generalizing l now with
  | nil =>
    simp only [readings, List.nil_append, List.flatMap_cons, List.cons_append,
      List.isChain_cons_cons] at hclock
    exact ⟨now, hclock.1, h⟩
  | cons first seen ih =>
    simp only [readings, List.flatMap_cons, List.cons_append, List.nil_append,
      List.isChain_cons_cons] at hclock
    obtain ⟨htop, hdrained, hrest⟩ := hclock
    have hfirst := hstep l now first List.mem_cons_self h htop hdrained
    exact ih (fun l now it hit => hstep l now it (List.mem_cons_of_mem first hit)) hfirst hrest

/-- With clock readings that never go back and periods that fit an `int`, the
loop waits exactly to its deadline: `poll` gets no negative wait, which would
block it for good. -/
theorem wait_exact {l : Loop} {now : Int} {seen : List Iter} {it : Iter} (h : Armed l now)
    (hclock : (readings now (seen ++ [it])).IsChain (· ≤ ·))
    (hp : ∀ it ∈ seen, ∀ p ∈ it.retuned, p.toNat ≤ intMax) :
    (timeout (machine.final l seen).nextTick it.top).toInt =
      max 0 ((machine.final l seen).nextTick - it.top) := by
  obtain ⟨last, hlast, harmed⟩ := clocked (P := Armed)
    (fun _ _ it hit h htop hdrained => iterate_armed h htop hdrained (hp it hit)) h hclock
  exact timeout_eq harmed hlast

/-- `poll` neither blocks for good nor past the deadline. -/
def Faithful (wait : Int32) (nextTick top : Int) : Prop :=
  0 ≤ wait.toInt ∧ wait.toInt ≤ max 0 (nextTick - top)

instance (wait : Int32) (nextTick top : Int) : Decidable (Faithful wait nextTick top) :=
  inferInstanceAs (Decidable (_ ∧ _))

/-- Whatever the period, a reading arms a deadline less than 2^32 ms away. -/
theorem iterate_deadline {l : Loop} {it : Iter} {now : Int} (h : l.nextTick < now + 4294967296)
    (htop : now ≤ it.top) (hdrained : it.top ≤ it.drained) :
    (iterate l it).1.nextTick < it.drained + 4294967296 := by
  have hstep := iter_step l it
  generalize iterate l it = r at hstep ⊢
  cases hstep with
  | ended => dsimp only; omega
  | interrupted => dsimp only; omega
  | stopped => dsimp only; omega
  | served _ ctx =>
    rcases checkTick_cases { l with ctx := ctx } it with hc | ⟨_, hnext, _⟩
    · rw [hc]
      dsimp only
      omega
    · have hperiod := (checkTick { l with ctx := ctx } it).1.ctx.tickMs.toNat_lt
      dsimp only at hnext ⊢
      omega

/-- The cast of the wait to `int` turns negative from 2^31 on. -/
theorem timeout_faithful_iff {nextTick top : Int} (h : nextTick < top + 4294967296) :
    Faithful (timeout nextTick top) nextTick top ↔ nextTick - top ≤ intMax := by
  have hmax : (intMax : Int) = 2147483647 := rfl
  unfold Faithful timeout
  by_cases hfits : nextTick - top ≤ intMax
  · have hval : (Int32.ofInt (if nextTick - top < 0 then 0 else nextTick - top)).toInt =
        if nextTick - top < 0 then 0 else nextTick - top := by
      rw [Int32.toInt_ofInt_of_le]
      all_goals split <;> omega
    refine iff_of_true ?_ hfits
    rw [hval]
    split <;> omega
  · have hval : (Int32.ofInt (nextTick - top)).toInt = nextTick - top - 4294967296 := by
      have hsize : Int32.size = 4294967296 := rfl
      rw [Int32.toInt_ofInt, hsize, Int.bmod_def]
      omega
    refine iff_of_false ?_ hfits
    rw [if_neg (by omega), hval]
    omega

/-- The wait of an iteration is faithful exactly while the deadline is an `int`
away; periods that fit an `int` keep it so. -/
theorem wait_faithful_iff {ctx : Ctx} {periods : List UInt32} {reading : Int} {seen : List Iter}
    {it : Iter} (hclock : (readings reading (seen ++ [it])).IsChain (· ≤ ·)) {wait : Int32}
    (hwait : (iterate (after ctx periods reading seen) it).2.timeout = some wait) :
    (Faithful wait (after ctx periods reading seen).nextTick it.top ↔
        (after ctx periods reading seen).nextTick - it.top ≤ intMax) ∧
      ((retunes ctx periods).tickMs.toNat ≤ intMax →
        (∀ it ∈ seen, ∀ p ∈ it.retuned, p.toNat ≤ intMax) →
        Faithful wait (after ctx periods reading seen).nextTick it.top) := by
  have hvalue := iterate_timeout hwait
  subst hvalue
  constructor
  · have hperiod := (retunes ctx periods).tickMs.toNat_lt
    have hentered : (Loop.enter (retunes ctx periods) reading).nextTick < reading + 4294967296 := by
      dsimp only [Loop.enter]
      omega
    obtain ⟨last, hlast, hdeadline⟩ := clocked (P := fun l now => l.nextTick < now + 4294967296)
      (fun _ _ _ _ h htop hdrained => iterate_deadline h htop hdrained) hentered hclock
    exact timeout_faithful_iff (Int.lt_of_lt_of_le hdeadline (Int.add_le_add_right hlast _))
  · intro hfirst hp
    have hentered : Armed (.enter (retunes ctx periods) reading) reading :=
      ⟨hfirst, by dsimp only [Loop.enter]; omega⟩
    rw [Faithful, wait_exact hentered hclock hp]
    exact ⟨Int.le_max_left _ _, Int.le_refl _⟩

/-- An iteration over an idle socket whose wait a signal cuts short. -/
def idle (top : Int) : Iter :=
  ⟨top, .interrupted, [], top, ⟨true, ⟨some 3, true, true⟩⟩, []⟩

theorem wait_faithful_iff_idle :
    Faithful 5000 (after created [] 100 []).nextTick 100 :=
  (@wait_faithful_iff created [] 100 [] (idle 100) (by simp [readings, idle]) 5000 rfl).2
    (by decide) (by simp)

/-- Retuned to 2^31 ms, the loop hands `poll` a negative wait at once. -/
theorem retuned_blocks :
    (iterate (after created [2147483648] 100 []) (idle 100)).2.timeout = some (-2147483648) ∧
      ¬ Faithful (-2147483648) (after created [2147483648] 100 []).nextTick 100 :=
  ⟨rfl, by decide⟩

end Wei.Poll
