import Wei.Lib.Lease
import Wei.Process.Run

/-!
# From start to exit

What `main` acquires on its way to the loop, what the loop closes and opens again, and
what is released on every way out. The body thread is cancelled at one of the calls
where a cancellation takes effect; whatever it was doing there is left as it is.
-/
namespace Wei.Process.Lifecycle

open Wei.Lib Wei.Lib.Lease
open Perfreport (BusError)

inductive Kind where
  /-- What `bus_open_fn` opened. -/
  | session
  /-- The block of `wei_infer_create`. -/
  | engine
  /-- The block of `wei_poll_create`. -/
  | context
  | socket
  | thread
  deriving DecidableEq

/-! ## Start -/

/-- `wei_sock_open` -/
def sockOpen (sockPath : String) (env : Poll.SockEnv) (s : Sys Kind) : Sys Kind × Option Nat :=
  if Poll.sunPathSize ≤ sockPath.utf8ByteSize then (s, none)
  else
    match env.socket with
    | none => (s, none)
    | some fd =>
      let s := s.acquire .socket
      if env.nonblock = false then (s.release .socket, none)
      else if env.bind = false then (s.release .socket, none)
      else (s, some fd)

/-- `wei_poll_create` -/
def pollCreate (sockPath : String) (env : Poll.SockEnv) (alloc : Bool) (s : Sys Kind) :
    Sys Kind × Option Poll.Ctx :=
  match sockOpen sockPath env s with
  | (s, none) => (s, none)
  | (s, some fd) =>
    if alloc then (s.acquire .context, some ⟨some fd, Poll.tickDefaultMs, true, true, sockPath⟩)
    else (s.release .socket, none)

/-- `weid_wire_init` -/
def wireInit (engineAlloc : Bool) (env : Poll.SockEnv) (pollAlloc : Bool) (s : Sys Kind) :
    Sys Kind × Option Poll.Ctx :=
  if engineAlloc = false then (s, none)
  else
    match pollCreate statsSocketPath env pollAlloc (s.acquire .engine) with
    | (s, none) => (s.release .engine, none)
    | (s, some ctx) => (s, some ctx)

/-- `weid_bus_open` of a daemon that just started. -/
def busOpen (env : Bus.OpenEnv) (s : Sys Kind) : Sys Kind × BusError :=
  match env.desc with
  | none => (s, .general)
  | some d =>
    if d.openFn = false ∨ d.closeFn = false then (s, .general)
    else if env.openRc ≠ .success then (s, env.openRc)
    else
      let s := s.acquire .session
      let rc := (Bus.dmlRegister (Bus.openSession .init) (some 0) env.regDesc env.regRc).2
      if rc ≠ .success then (s.release .session, rc) else (s, .success)

/-! ## The ways out -/

/-- `wei_poll_stop` -/
def pollStop (s : Sys Kind) : Sys Kind :=
  if (s.ptr .context).isNone then s else (s.release .socket).release .context

/-- `weid_wire_deinit` -/
def wireDeinit (s : Sys Kind) : Sys Kind := (pollStop s).release .engine

/-- `weid_bus_close` -/
def busClose (desc : Option Bus.Descriptor) (s : Sys Kind) : Sys Kind :=
  if (s.ptr .session).isNone then s
  else
    match desc with
    | none => s.lose .session
    | some d => if d.closeFn then s.release .session else s.lose .session

/-! ## The loop -/

/-- The body thread: what the process holds, and the loop. -/
structure Body where
  sys : Sys Kind
  loop : Poll.Loop

/-- `wei_sock_drain`: the receives, and the engine for what is not empty. -/
def drain (s : Sys Kind) : List Poll.Recv → Sys Kind
  | [] => s.touch .socket
  | .interrupted :: rs => drain (s.touch .socket) rs
  | .failed :: _ => s.touch .socket
  | .data d _ :: rs =>
    drain (if d.bytes = [] then s.touch .socket else (s.touch .socket).use .engine) rs

/-- `wei_poll_revive_socket` -/
def revive (sockPath : String) (env : Poll.Revive) (s : Sys Kind) : Sys Kind :=
  if env.isSocket then s else (sockOpen sockPath env.sock (s.release .socket)).1

/-- The iteration gets past `poll`, with these events. -/
def events (l : Poll.Loop) (it : Poll.Iter) : Option Poll.Revents :=
  match it.poll with
  | .ready r =>
    let r := r.of l.ctx.fd
    if r.err || r.hup || r.nval then none else some r
  | _ => none

/-- Up to the second reading of the clock. -/
def Body.served (b : Body) (it : Poll.Iter) (r : Poll.Revents) : Sys Kind :=
  let s := (b.sys.use .context).touch .socket
  if r.pollin then drain s it.recvs else s

/-- One iteration of `wei_poll_run`. -/
def Body.turn (b : Body) (it : Poll.Iter) : Body :=
  if b.loop.returned then b
  else
    { loop := (Poll.iterate b.loop it).1
      sys :=
        match events b.loop it with
        | none => (b.sys.use .context).touch .socket
        | some r =>
          let s := b.served it r
          if b.loop.nextTick ≤ it.drained then
            (revive b.loop.ctx.sockPath it.revive s).use .engine
          else s }

/-- Where the cancellation takes effect. -/
inductive CancelPoint where
  | poll
  /-- After some of the receives. -/
  | recv (after : Nat)
  /-- `close(ctx->fd)` in `wei_poll_revive_socket` -/
  | reviveClose
  /-- `close(fd)` in `wei_sock_open` -/
  | openClose

/-- The revival would close the old socket and fail to open a new one. -/
def failsOpen (l : Poll.Loop) (it : Poll.Iter) : Bool :=
  (events l it).isSome && decide (l.nextTick ≤ it.drained) && !it.revive.isSocket &&
    decide (l.ctx.sockPath.utf8ByteSize < Poll.sunPathSize) && it.revive.sock.socket.isSome &&
    !(it.revive.sock.nonblock && it.revive.sock.bind)

/-- What the process holds when the body is cancelled in this iteration; if the point
is not on its way, that is at the `poll` of the next one. -/
def Body.cancelled (b : Body) (it : Poll.Iter) : CancelPoint → Sys Kind
  | .poll => b.sys
  | .recv n =>
    if b.loop.returned then b.sys
    else
      match events b.loop it with
      | none => (b.turn it).sys
      | some r =>
        if r.pollin then drain ((b.sys.use .context).touch .socket) (it.recvs.take n)
        else (b.turn it).sys
  | .reviveClose =>
    if b.loop.returned then b.sys
    else
      match events b.loop it with
      | none => (b.turn it).sys
      | some r =>
        if b.loop.nextTick ≤ it.drained ∧ it.revive.isSocket = false ∧ b.loop.ctx.fd.isSome then
          b.served it r
        else (b.turn it).sys
  | .openClose =>
    if b.loop.returned then b.sys
    else
      match events b.loop it with
      | none => (b.turn it).sys
      | some r =>
        if failsOpen b.loop it then (((b.served it r).release .socket).acquire .socket).lose .socket
        else (b.turn it).sys

/-! ## `main` -/

/-- What the process meets. -/
structure Env where
  sigmask : Bool
  bus : Bus.OpenEnv
  engineAlloc : Bool
  sock : Poll.SockEnv
  pollAlloc : Bool
  /-- `pthread_create` -/
  thread : Bool
  /-- The reading `wei_poll_run` is entered at. -/
  entered : Int
  iters : List Poll.Iter
  /-- The iteration the cancellation finds the body in. -/
  last : Poll.Iter
  point : CancelPoint
  /-- What `get_bus_descriptor` returns to `weid_bus_close`. -/
  closeDesc : Option Bus.Descriptor

/-- The body thread when it is cancelled. -/
def Env.body (env : Env) (s : Sys Kind) (ctx : Poll.Ctx) : Body :=
  env.iters.foldl Body.turn ⟨s, .enter ctx env.entered⟩

/-- `main`, with its exit code. -/
def main (env : Env) : Sys Kind × Int :=
  if env.sigmask = false then (.empty, 1)
  else
    match busOpen env.bus .empty with
    | (s, .success) =>
      match wireInit env.engineAlloc env.sock env.pollAlloc s with
      | (s, none) => (busClose env.closeDesc s, 1)
      | (s, some ctx) =>
        if env.thread = false then (busClose env.closeDesc (wireDeinit s), 1)
        else
          let s := (env.body (s.acquire .thread) ctx).cancelled env.last env.point
          (busClose env.closeDesc (wireDeinit (s.release .thread)), 0)
    | (s, _) => (s, 1)

/-! ## The parts keep account -/

section Parts

variable {s : Sys Kind} {gone : Kind → Option Nat} {kinds : Finset Kind}

theorem sockOpen_result (sockPath : String) (env : Poll.SockEnv) (s : Sys Kind) :
    (sockOpen sockPath env s).2 = Poll.sockOpen sockPath env := by
  unfold sockOpen Poll.sockOpen
  by_cases hpath : Poll.sunPathSize ≤ sockPath.utf8ByteSize
  · rw [if_pos hpath, if_pos hpath]
  · rw [if_neg hpath, if_neg hpath]
    cases env.socket <;> cases env.nonblock <;> cases env.bind <;> rfl

theorem sockOpen_owns (sockPath : String) (env : Poll.SockEnv) (h : s.Owns gone kinds)
    (hk : .socket ∉ kinds) (hgone : gone .socket = none) :
    (sockOpen sockPath env s).1.Owns gone
      (if (Poll.sockOpen sockPath env).isSome then insert .socket kinds else kinds) := by
  have hacquired := h.acquire hk hgone
  have hreleased := hacquired.release .socket
  rw [Finset.erase_insert hk] at hreleased
  unfold sockOpen Poll.sockOpen
  by_cases hpath : Poll.sunPathSize ≤ sockPath.utf8ByteSize
  · rw [if_pos hpath, if_pos hpath]
    exact h
  · rw [if_neg hpath, if_neg hpath]
    cases env.socket with
    | none => cases env.nonblock <;> cases env.bind <;> exact h
    | some fd =>
      cases env.nonblock with
      | false => exact hreleased
      | true =>
        cases env.bind with
        | false => exact hreleased
        | true => exact hacquired

theorem pollCreate_result (sockPath : String) (env : Poll.SockEnv) (alloc : Bool) (s : Sys Kind) :
    (pollCreate sockPath env alloc s).2 = Poll.create sockPath true true env alloc := by
  have hsock := sockOpen_result sockPath env s
  unfold pollCreate Poll.create
  cases hopen : sockOpen sockPath env s with
  | mk s' fd =>
    rw [hopen] at hsock
    rw [← hsock]
    cases fd <;> cases alloc <;> rfl

theorem busOpen_result (env : Bus.OpenEnv) (s : Sys Kind) :
    (busOpen env s).2 = (Bus.busOpen .init env).2 := by
  unfold busOpen Bus.busOpen
  rw [if_neg (c := Bus.State.init.opened = true) Bool.false_ne_true]
  cases env.desc with
  | none => rfl
  | some d =>
    dsimp only
    by_cases hfn : d.openFn = false ∨ d.closeFn = false
    · rw [if_pos hfn, if_pos hfn]
    · rw [if_neg hfn, if_neg hfn]
      by_cases hrc : env.openRc = .success
      · have hhandle : (Bus.openSession .init).handle = 0 := rfl
        rw [if_neg (not_not_intro hrc), if_neg (not_not_intro hrc), Bus.registerOrClose, hhandle]
        by_cases hreg : (Bus.dmlRegister (Bus.openSession .init) (some 0) env.regDesc
          env.regRc).2 = BusError.success
        · dsimp only
          rw [if_neg (not_not_intro hreg), if_neg (not_not_intro hreg)]
        · dsimp only
          rw [if_pos hreg, if_pos hreg]
      · rw [if_pos hrc, if_pos hrc]

theorem pollCreate_owns (sockPath : String) (env : Poll.SockEnv) (alloc : Bool)
    (h : s.Owns gone kinds) (hs : .socket ∉ kinds) (hc : .context ∉ kinds)
    (hgone : gone .socket = none ∧ gone .context = none) :
    (pollCreate sockPath env alloc s).1.Owns gone
      (if (pollCreate sockPath env alloc s).2.isSome then insert .context (insert .socket kinds)
        else kinds) := by
  have hopened := sockOpen_owns sockPath env h hs hgone.1
  rw [← sockOpen_result sockPath env s] at hopened
  unfold pollCreate
  cases hopen : sockOpen sockPath env s with
  | mk s' fd =>
    rw [hopen] at hopened
    cases fd with
    | none => exact hopened
    | some fd =>
      cases alloc with
      | true => exact hopened.acquire (by simpa using hc) hgone.2
      | false =>
        have hreleased := hopened.release .socket
        rw [Option.isSome_some, if_pos rfl, Finset.erase_insert hs] at hreleased
        exact hreleased

/-- What `weid_wire_init` holds when it succeeds. -/
def wired (kinds : Finset Kind) : Finset Kind :=
  insert .context (insert .socket (insert .engine kinds))

theorem wireInit_owns (engineAlloc : Bool) (env : Poll.SockEnv) (pollAlloc : Bool)
    (h : s.Owns gone kinds) (hfree : .engine ∉ kinds ∧ .context ∉ kinds ∧ .socket ∉ kinds)
    (hgone : gone .engine = none ∧ gone .context = none ∧ gone .socket = none) :
    (wireInit engineAlloc env pollAlloc s).1.Owns gone
      (if (wireInit engineAlloc env pollAlloc s).2.isSome then wired kinds else kinds) := by
  unfold wireInit
  cases engineAlloc with
  | false => exact h
  | true =>
    rw [if_neg Bool.true_eq_false.mp]
    have hcreated := pollCreate_owns statsSocketPath env pollAlloc (h.acquire hfree.1 hgone.1)
      (by simpa using hfree.2.2) (by simpa using hfree.2.1) ⟨hgone.2.2, hgone.2.1⟩
    cases hcreate : pollCreate statsSocketPath env pollAlloc (s.acquire .engine) with
    | mk s' ctx =>
      rw [hcreate] at hcreated
      cases ctx with
      | some ctx => exact hcreated
      | none =>
        have hreleased := hcreated.release .engine
        rw [Option.isSome_none, if_neg Bool.false_ne_true, Finset.erase_insert hfree.1] at hreleased
        exact hreleased

theorem wireInit_result (engineAlloc : Bool) (env : Poll.SockEnv) (pollAlloc : Bool)
    (s : Sys Kind) : (wireInit engineAlloc env pollAlloc s).2 =
      if engineAlloc then Poll.create statsSocketPath true true env pollAlloc else none := by
  unfold wireInit
  cases engineAlloc with
  | false => rfl
  | true =>
    rw [if_neg Bool.true_eq_false.mp, if_pos rfl, ← pollCreate_result _ _ _ (s.acquire .engine)]
    cases pollCreate statsSocketPath env pollAlloc (s.acquire .engine) with
    | mk s' ctx => cases ctx <;> rfl

theorem busOpen_owns (env : Bus.OpenEnv) (h : s.Owns gone kinds) (hk : .session ∉ kinds)
    (hgone : gone .session = none) :
    (busOpen env s).1.Owns gone (insert .session kinds) ∧ (busOpen env s).2 = .success ∨
      (busOpen env s).1.Owns gone kinds ∧ (busOpen env s).2 ≠ .success := by
  have hopened := h.acquire hk hgone
  have hreleased := hopened.release .session
  rw [Finset.erase_insert hk] at hreleased
  unfold busOpen
  cases env.desc with
  | none => exact Or.inr ⟨h, fun he => by cases he⟩
  | some d =>
    dsimp only
    by_cases hfn : d.openFn = false ∨ d.closeFn = false
    · rw [if_pos hfn]
      exact Or.inr ⟨h, fun he => by cases he⟩
    · rw [if_neg hfn]
      by_cases hrc : env.openRc = .success
      · rw [if_neg (not_not_intro hrc)]
        by_cases hreg : (Bus.dmlRegister (Bus.openSession .init) (some 0) env.regDesc
          env.regRc).2 = BusError.success
        · rw [if_neg (not_not_intro hreg)]
          exact Or.inl ⟨hopened, rfl⟩
        · rw [if_pos hreg]
          exact Or.inr ⟨hreleased, hreg⟩
      · rw [if_pos hrc]
        exact Or.inr ⟨h, hrc⟩

theorem not_isNone {o : Option Nat} (h : o.isSome) : ¬ o.isNone := by
  cases o with
  | none => cases h
  | some n => exact Bool.false_ne_true

theorem wireDeinit_owns (h : s.Owns gone kinds) (hk : .context ∈ kinds) :
    (wireDeinit s).Owns gone (((kinds.erase .socket).erase .context).erase .engine) := by
  have hsome := (h.owned .context).mpr hk
  rw [wireDeinit, pollStop, if_neg (not_isNone hsome)]
  exact ((h.release .socket).release .context).release .engine

/-- The session is left open for want of `bus_close_fn`. -/
def keepsSession (desc : Option Bus.Descriptor) : Bool := !desc.any fun d => d.closeFn

theorem busClose_owns (desc : Option Bus.Descriptor) (h : s.Owns gone kinds)
    (hk : .session ∈ kinds) (hgone : gone .session = none) :
    ∃ gone', (busClose desc s).Owns gone' (kinds.erase .session) ∧
      (∀ k, k ≠ .session → gone' k = gone k) ∧
      (gone' .session).isSome = keepsSession desc := by
  have hsome := (h.owned .session).mpr hk
  obtain ⟨n, hlost⟩ := h.lose hk
  have hframe : ∀ k, k ≠ .session → Function.update gone .session (some n) k = gone k :=
    fun k hk => Function.update_of_ne hk ..
  have hreleased := h.release .session
  unfold busClose
  rw [if_neg (not_isNone hsome)]
  cases desc with
  | none => exact ⟨_, hlost, hframe, by simp [keepsSession]⟩
  | some d =>
    cases hclose : d.closeFn with
    | false => exact ⟨_, by simpa [hclose] using hlost, hframe, by simp [keepsSession, hclose]⟩
    | true =>
      exact ⟨gone, by simpa [hclose] using hreleased, fun _ _ => rfl,
        by simp [keepsSession, hclose, hgone]⟩

end Parts

/-! ## The loop keeps account -/

section Loop

/-- What the body works with beside the socket. -/
def base : Finset Kind := {.session, .engine, .context, .thread}

/-- The kinds held between two iterations. -/
def running (socket : Bool) : Finset Kind := if socket then insert .socket base else base

theorem running_of_base {k : Kind} (h : k ∈ base) (socket : Bool) : k ∈ running socket := by
  cases socket with
  | false => exact h
  | true => exact Finset.mem_insert_of_mem h

theorem erase_running (socket : Bool) : (running socket).erase .socket = base := by
  cases socket <;> decide

variable {s : Sys Kind} {gone : Kind → Option Nat} {kinds : Finset Kind}

theorem drain_owns (h : s.Owns gone kinds) (hk : .engine ∈ kinds) (rs : List Poll.Recv) :
    (drain s rs).Owns gone kinds := by
  induction rs generalizing s with
  | nil => exact h.touch .socket
  | cons r rs ih =>
    cases r with
    | interrupted => exact ih (h.touch .socket)
    | failed => exact h.touch .socket
    | data d periods =>
      rw [drain]
      split
      · exact ih (h.touch .socket)
      · exact ih ((h.touch .socket).use hk)

theorem retunes_socket (ctx : Poll.Ctx) (periods : List UInt32) :
    (Poll.retunes ctx periods).fd = ctx.fd ∧
      (Poll.retunes ctx periods).sockPath = ctx.sockPath := by
  induction periods generalizing ctx with
  | nil => exact ⟨rfl, rfl⟩
  | cons p ps ih =>
    have hretune : (Poll.retune ctx p).1.fd = ctx.fd ∧
        (Poll.retune ctx p).1.sockPath = ctx.sockPath := by
      unfold Poll.retune
      split <;> exact ⟨rfl, rfl⟩
    rw [← hretune.1, ← hretune.2]
    exact ih (Poll.retune ctx p).1

theorem sockDrain_socket (ctx : Poll.Ctx) (rs : List Poll.Recv) :
    (Poll.sockDrain ctx rs).ctx.fd = ctx.fd ∧
      (Poll.sockDrain ctx rs).ctx.sockPath = ctx.sockPath := by
  induction rs generalizing ctx with
  | nil => exact ⟨rfl, rfl⟩
  | cons r rs ih =>
    cases r with
    | interrupted => exact ih ctx
    | failed => exact ⟨rfl, rfl⟩
    | data d periods =>
      rw [Poll.sockDrain]
      split
      · rw [← (retunes_socket ctx periods).1, ← (retunes_socket ctx periods).2]
        exact ih _
      · exact ih ctx

/-- What a revival makes of the descriptor. -/
def revived (ctx : Poll.Ctx) (env : Poll.Revive) : Option Nat :=
  if env.isSocket then ctx.fd else Poll.sockOpen ctx.sockPath env.sock

theorem reviveSocket_fd (ctx : Poll.Ctx) (env : Poll.Revive) :
    (Poll.reviveSocket ctx env).1.fd = revived ctx env := by
  unfold Poll.reviveSocket revived
  cases env.isSocket with
  | true => rfl
  | false =>
    cases h : Poll.sockOpen ctx.sockPath env.sock <;> simp

theorem checkTick_socket (l : Poll.Loop) (it : Poll.Iter) :
    (Poll.checkTick l it).1.ctx.fd =
      if l.nextTick ≤ it.drained then revived l.ctx it.revive else l.ctx.fd := by
  unfold Poll.checkTick
  split
  · dsimp only
    rw [← reviveSocket_fd]
    split
    · exact (retunes_socket _ _).1
    · rfl
  · rfl

theorem serve_fd (l : Poll.Loop) (it : Poll.Iter) (r : Poll.Revents) :
    (Poll.serve l it r).1.ctx.fd =
      if ¬ (r.err || r.hup || r.nval) = true ∧ l.nextTick ≤ it.drained then
        revived l.ctx it.revive
      else l.ctx.fd := by
  unfold Poll.serve
  by_cases hbad : (r.err || r.hup || r.nval) = true
  · rw [if_pos hbad, if_neg fun h => h.1 hbad]
  · have hctx : (if r.pollin = true then Poll.sockDrain l.ctx it.recvs
        else ⟨l.ctx, [], []⟩).ctx.fd = l.ctx.fd ∧
        (if r.pollin = true then Poll.sockDrain l.ctx it.recvs
        else ⟨l.ctx, [], []⟩).ctx.sockPath = l.ctx.sockPath := by
      split
      · exact sockDrain_socket _ _
      · exact ⟨rfl, rfl⟩
    rw [if_neg hbad]
    dsimp only
    rw [checkTick_socket]
    simp [revived, hctx, hbad]

/-- The descriptor after an iteration. -/
theorem turn_fd {b : Body} {it : Poll.Iter} (hrun : b.loop.returned = false) :
    (b.turn it).loop.ctx.fd =
      if (events b.loop it).isSome ∧ b.loop.nextTick ≤ it.drained then revived b.loop.ctx it.revive
      else b.loop.ctx.fd := by
  have hloop : (b.turn it).loop = (Poll.iterate b.loop it).1 := by
    rw [Body.turn, if_neg (by simp [hrun])]
  rw [hloop, Poll.iterate, if_neg (by simp [hrun])]
  cases hpoll : it.poll with
  | interrupted => simp [events, hpoll]
  | failed => simp [events, hpoll]
  | ready r =>
    dsimp only
    rw [serve_fd]
    by_cases hbad : ((r.of b.loop.ctx.fd).err || (r.of b.loop.ctx.fd).hup ||
      (r.of b.loop.ctx.fd).nval) = true
    · have hevents : events b.loop it = none := by
        rw [events, hpoll]
        exact if_pos hbad
      rw [hevents, if_neg fun h => h.1 hbad]
      simp
    · have hevents : events b.loop it = some (r.of b.loop.ctx.fd) := by
        rw [events, hpoll]
        exact if_neg hbad
      rw [hevents]
      simp [hbad]

/-- Between two iterations. -/
def Body.Owns (b : Body) : Prop :=
  b.sys.Owns (fun _ => none) (running b.loop.ctx.fd.isSome)

theorem revive_owns (ctx : Poll.Ctx) (env : Poll.Revive)
    (h : s.Owns (fun _ => none) (running ctx.fd.isSome)) :
    (revive ctx.sockPath env s).Owns (fun _ => none) (running (revived ctx env).isSome) := by
  unfold revive revived
  cases env.isSocket with
  | true => exact h
  | false =>
    have hclosed := h.release .socket
    rw [erase_running] at hclosed
    exact sockOpen_owns ctx.sockPath env.sock hclosed (by decide) rfl

theorem served_owns {b : Body} (h : b.Owns) (it : Poll.Iter) (r : Poll.Revents) :
    (b.served it r).Owns (fun _ => none) (running b.loop.ctx.fd.isSome) := by
  have hpolled := (Sys.Owns.use h (running_of_base (k := .context) (by decide) _)).touch .socket
  unfold Body.served
  split
  · exact drain_owns hpolled (running_of_base (by decide) _) it.recvs
  · exact hpolled

/-- One iteration. -/
theorem turn_owns {b : Body} (h : b.Owns) (it : Poll.Iter) : (b.turn it).Owns := by
  by_cases hrun : b.loop.returned = true
  · rwa [Body.turn, if_pos hrun]
  · rw [Bool.not_eq_true] at hrun
    have hpolled := (Sys.Owns.use h (running_of_base (k := .context) (by decide) _)).touch .socket
    unfold Body.Owns
    rw [turn_fd hrun, Body.turn, if_neg (by simp [hrun])]
    cases hevents : events b.loop it with
    | none =>
      simp only [Option.isSome_none, Bool.false_eq_true, false_and, if_false]
      exact hpolled
    | some r =>
      simp only [Option.isSome_some, true_and]
      by_cases hdue : b.loop.nextTick ≤ it.drained
      · rw [if_pos hdue, if_pos hdue]
        exact (revive_owns _ it.revive (served_owns h it r)).use (running_of_base (by decide) _)
      · rw [if_neg hdue, if_neg hdue]
        exact served_owns h it r

theorem turns_owns {b : Body} (h : b.Owns) (its : List Poll.Iter) :
    (its.foldl Body.turn b).Owns := by
  induction its generalizing b with
  | nil => exact h
  | cons it its ih => exact ih (turn_owns h it)

/-- The cancellation strands the socket that could not be set up. -/
def strands (l : Poll.Loop) (it : Poll.Iter) : CancelPoint → Bool
  | .openClose => !l.returned && failsOpen l it
  | _ => false

/-- A socket that was opened in a revival, and is not known when its opening fails. -/
theorem stranded_owns {b : Body} (h : b.Owns) (it : Poll.Iter) (r : Poll.Revents) :
    ∃ n, ((((b.served it r).release .socket).acquire .socket).lose .socket).Owns
      (Function.update (fun _ => none) .socket (some n)) (running false) := by
  have hclosed := (served_owns h it r).release .socket
  rw [erase_running] at hclosed
  have hopened := hclosed.acquire (k := .socket) (by decide) rfl
  exact hopened.lose (Finset.mem_insert_self _ _)

/-- Wherever the body is cancelled, only the socket may be stranded. -/
theorem cancelled_owns {b : Body} (h : b.Owns) (it : Poll.Iter) (point : CancelPoint) :
    ∃ gone socket, (b.cancelled it point).Owns gone (running socket) ∧
      (∀ k, k ≠ .socket → gone k = none) ∧ (gone .socket).isSome = strands b.loop it point := by
  have hkept : ∀ (s : Sys Kind) (socket : Bool), s.Owns (fun _ => none) (running socket) →
      strands b.loop it point = false → ∃ gone socket, s.Owns gone (running socket) ∧
        (∀ k, k ≠ .socket → gone k = none) ∧ (gone .socket).isSome = strands b.loop it point :=
    fun s socket hs hno => ⟨_, socket, hs, fun _ _ => rfl, by rw [hno]; rfl⟩
  have hpolled := (Sys.Owns.use h (running_of_base (k := .context) (by decide) _)).touch .socket
  unfold Body.cancelled
  cases point with
  | poll => exact hkept _ _ h rfl
  | recv n =>
    dsimp only
    split
    · exact hkept _ _ h rfl
    · split
      · exact hkept _ _ (turn_owns h it) rfl
      · split
        · exact hkept _ _ (drain_owns hpolled (running_of_base (by decide) _) _) rfl
        · exact hkept _ _ (turn_owns h it) rfl
  | reviveClose =>
    dsimp only
    split
    · exact hkept _ _ h rfl
    · split
      · exact hkept _ _ (turn_owns h it) rfl
      next r _ =>
        split
        · exact hkept _ _ (served_owns h it r) rfl
        · exact hkept _ _ (turn_owns h it) rfl
  | openClose =>
    dsimp only
    split
    next hrun => exact hkept _ _ h (by rw [strands, hrun]; rfl)
    next hrun =>
      rw [Bool.not_eq_true] at hrun
      split
      next hevents =>
        refine hkept _ _ (turn_owns h it) ?_
        rw [strands, failsOpen, hevents, hrun]
        rfl
      next r _ =>
        split
        next hfails =>
          obtain ⟨n, hstranded⟩ := stranded_owns h it r
          refine ⟨_, _, hstranded, fun k hk => Function.update_of_ne hk .., ?_⟩
          rw [Function.update_self, strands, hrun, hfails]
          rfl
        next hfails =>
          rw [Bool.not_eq_true] at hfails
          refine hkept _ _ (turn_owns h it) ?_
          rw [strands, hfails, Bool.and_false]

end Loop

/-! ## Every way through `main` -/

section Exit

/-- Every step of the start succeeds. -/
def Env.Starts (env : Env) : Prop :=
  env.sigmask = true ∧ (Bus.busOpen .init env.bus).2 = .success ∧ env.engineAlloc = true ∧
    (Poll.create statsSocketPath true true env.sock env.pollAlloc).isSome ∧ env.thread = true

/-- The bus was opened. -/
def Env.Opens (env : Env) : Prop :=
  env.sigmask = true ∧ (Bus.busOpen .init env.bus).2 = .success

/-- The daemon starts, and is cancelled while a socket it opened is not yet known. -/
def Env.Strands (env : Env) : Prop :=
  env.Starts ∧ ∃ ctx, Poll.create statsSocketPath true true env.sock env.pollAlloc = some ctx ∧
    strands (Poll.machine.final (.enter ctx env.entered) env.iters) env.last env.point = true

theorem turn_loop (b : Body) (it : Poll.Iter) :
    (b.turn it).loop = (Poll.iterate b.loop it).1 := by
  unfold Body.turn Poll.iterate
  split <;> rfl

theorem body_loop (b : Body) (its : List Poll.Iter) :
    (its.foldl Body.turn b).loop = Poll.machine.final b.loop its := by
  induction its generalizing b with
  | nil => rfl
  | cons it its ih =>
    rw [List.foldl_cons, ih, turn_loop]
    rfl

/-- The bus is closed last: what is left is what was stranded, and the session if it cannot
be closed. -/
theorem exit_holds {s : Sys Kind} {gone : Kind → Option Nat} (desc : Option Bus.Descriptor)
    (h : s.Owns gone {.session}) (hgone : gone .session = none) :
    ∃ gone', Holds (busClose desc s).ops gone' ∧ (∀ k, k ≠ .session → gone' k = gone k) ∧
      (gone' .session).isSome = keepsSession desc := by
  obtain ⟨gone', howns, hframe, hsession⟩ :=
    busClose_owns desc h (Finset.mem_singleton_self _) hgone
  rw [show ({.session} : Finset Kind).erase .session = ∅ by decide] at howns
  exact ⟨gone', howns.holds, hframe, hsession⟩

/-- What is left at the exit, and the exit code. -/
structure Env.Exits (env : Env) (out : Sys Kind × Int) (gone : Kind → Option Nat) : Prop where
  holds : Holds out.1.ops gone
  session : (gone .session).isSome ↔ env.Opens ∧ keepsSession env.closeDesc = true
  socket : (gone .socket).isSome ↔ env.Strands
  rest : ∀ k, k ≠ .session → k ≠ .socket → gone k = none
  code : out.2 = 0 ∧ env.Starts ∨ out.2 = 1 ∧ ¬ env.Starts

variable {env : Env} {s : Sys Kind}

/-- Nothing was opened. -/
theorem exits_unopened (h : s.Owns (fun _ => none) ∅) (hopens : ¬ env.Opens) :
    env.Exits (s, 1) fun _ => none where
  holds := h.holds
  session := iff_of_false Bool.false_ne_true fun he => hopens he.1
  socket := iff_of_false Bool.false_ne_true fun he => hopens ⟨he.1.1, he.1.2.1⟩
  rest := fun _ _ _ => rfl
  code := Or.inr ⟨rfl, fun hstarts => hopens ⟨hstarts.1, hstarts.2.1⟩⟩

/-- The bus was opened, and a later step failed. -/
theorem exits_unstarted (h : s.Owns (fun _ => none) {.session}) (hopens : env.Opens)
    (hstarts : ¬ env.Starts) : ∃ gone, env.Exits (busClose env.closeDesc s, 1) gone := by
  obtain ⟨gone, hholds, hframe, hsession⟩ := exit_holds env.closeDesc h rfl
  refine ⟨gone, hholds, ?_, ?_, fun k hk _ => hframe k hk, Or.inr ⟨rfl, hstarts⟩⟩
  · rw [hsession]
    exact ⟨fun he => ⟨hopens, he⟩, fun he => he.2⟩
  · rw [hframe .socket (by decide)]
    exact iff_of_false Bool.false_ne_true fun he => hstarts he.1

theorem released_running (socket : Bool) :
    ((((running socket).erase .thread).erase .socket).erase .context).erase .engine =
      {.session} := by
  cases socket <;> decide

/-- The daemon ran until it was cancelled. -/
theorem exits_started {ctx : Poll.Ctx} (hstarts : env.Starts)
    (hctx : Poll.create statsSocketPath true true env.sock env.pollAlloc = some ctx)
    (h : s.Owns (fun _ => none) (insert .thread (wired {.session}))) :
    ∃ gone, env.Exits (busClose env.closeDesc
      (wireDeinit (((env.body s ctx).cancelled env.last env.point).release .thread)), 0) gone := by
  have hfd : ctx.fd.isSome = true := by
    unfold Poll.create at hctx
    cases hopen : Poll.sockOpen statsSocketPath env.sock with
    | none =>
      rw [hopen] at hctx
      cases hctx
    | some fd =>
      rw [hopen] at hctx
      cases halloc : env.pollAlloc with
      | false =>
        rw [halloc] at hctx
        cases hctx
      | true =>
        rw [halloc] at hctx
        rw [← Option.some.inj hctx]
        rfl
  have hbody : Body.Owns ⟨s, .enter ctx env.entered⟩ := by
    have hkinds : insert .thread (wired {.session}) = running true := by decide
    show s.Owns _ (running ctx.fd.isSome)
    rw [hfd, ← hkinds]
    exact h
  have hloop : (env.body s ctx).loop = Poll.machine.final (.enter ctx env.entered) env.iters :=
    body_loop _ _
  obtain ⟨gone, socket, howns, hrest, hsocket⟩ :=
    cancelled_owns (turns_owns hbody env.iters) env.last env.point
  have hdeinit := wireDeinit_owns (howns.release .thread)
    (Finset.mem_erase.mpr ⟨by decide, running_of_base (by decide) socket⟩)
  rw [released_running] at hdeinit
  obtain ⟨gone', hholds, hframe, hsession⟩ :=
    exit_holds env.closeDesc hdeinit (hrest .session (by decide))
  refine ⟨gone', hholds, ?_, ?_, ?_, Or.inl ⟨rfl, hstarts⟩⟩
  · rw [hsession]
    exact ⟨fun he => ⟨⟨hstarts.1, hstarts.2.1⟩, he⟩, fun he => he.2⟩
  · rw [hframe .socket (by decide), hsocket]
    show strands (env.body s ctx).loop env.last env.point = true ↔ _
    rw [hloop]
    refine ⟨fun he => ⟨hstarts, ctx, hctx, he⟩, ?_⟩
    rintro ⟨_, ctx', hctx', he⟩
    rwa [← Option.some.inj (hctx'.symm.trans hctx)]
  · intro k hk hks
    rw [hframe k hk, hrest k hks]

/-- On every way through `main` nothing is used or released that is not held, no kind is
held twice at once, and at the exit everything is released but for two things: a session
whose `bus_close_fn` is missing, and a socket whose opening was cancelled at the `close`
that would have undone it. The exit code is 0 just when every step of the start
succeeded. -/
theorem lifecycle_exact (env : Env) : ∃ gone, env.Exits (main env) gone := by
  unfold main
  cases hmask : env.sigmask with
  | false =>
    refine ⟨_, exits_unopened Sys.owns_empty fun hopens => ?_⟩
    rw [Env.Opens, hmask] at hopens
    cases hopens.1
  | true =>
    have hrc := busOpen_result env.bus .empty
    have hbus := busOpen_owns env.bus (s := Sys.empty) Sys.owns_empty (by decide) rfl
    cases hopen : busOpen env.bus .empty with
    | mk s rc =>
      rw [hopen] at hrc hbus
      dsimp only at hrc hbus
      rcases hbus with ⟨howns, rfl⟩ | ⟨howns, hfail⟩
      · have hopens : env.Opens := ⟨hmask, hrc.symm⟩
        have hresult := wireInit_result env.engineAlloc env.sock env.pollAlloc s
        have hwired := wireInit_owns env.engineAlloc env.sock env.pollAlloc howns (by decide)
          ⟨rfl, rfl, rfl⟩
        dsimp only
        rw [if_neg Bool.true_eq_false.mp]
        cases hwire : wireInit env.engineAlloc env.sock env.pollAlloc s with
        | mk s' ctx =>
          rw [hwire] at hresult hwired
          cases ctx with
          | none =>
            refine exits_unstarted hwired hopens fun hstarts => ?_
            rw [hstarts.2.2.1, if_pos rfl] at hresult
            have hsome := hstarts.2.2.2.1
            rw [← hresult] at hsome
            cases hsome
          | some ctx =>
            have halloc : env.engineAlloc = true := by
              by_contra hno
              rw [if_neg hno] at hresult
              cases hresult
            rw [halloc, if_pos rfl] at hresult
            replace hwired : s'.Owns (fun _ => none) (wired {.session}) := hwired
            dsimp only
            cases hthread : env.thread with
            | false =>
              have hdeinit := wireDeinit_owns hwired (Finset.mem_insert_self _ _)
              rw [show (((wired {.session}).erase .socket).erase .context).erase .engine =
                {.session} by decide] at hdeinit
              rw [if_pos rfl]
              refine exits_unstarted hdeinit hopens fun hstarts => ?_
              exact Bool.false_ne_true (hthread.symm.trans hstarts.2.2.2.2)
            | true =>
              rw [if_neg Bool.true_eq_false.mp]
              refine exits_started ⟨hmask, hrc.symm, halloc, ?_, hthread⟩ hresult.symm ?_
              · rw [← hresult]
                rfl
              · exact hwired.acquire (by decide) rfl
      · dsimp only
        rw [if_neg Bool.true_eq_false.mp]
        have hopens : ¬ env.Opens := fun hopens => hfail (hrc.trans hopens.2)
        cases rc with
        | success => exact absurd rfl hfail
        | _ => exact ⟨_, exits_unopened howns hopens⟩

end Exit

end Wei.Process.Lifecycle
