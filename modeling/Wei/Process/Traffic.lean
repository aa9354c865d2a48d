import Wei.Lib.Spaced
import Wei.Process.Provenance

/-!
# How often the daemon waits, ticks and publishes

The callbacks of the daemon never retune its loop, so the period it was created
with stays: the loop never waits past its deadline, two ticks lie a period
apart, and a tick publishes each client once. That bounds what the bus gets.
-/
namespace Wei.Process

open Wei.Lib Wei.ConnScorer
open Track (maxClients)

/-! ## The period stays -/

section Period

theorem sockDrain_ctx (ctx : Poll.Ctx) (rs : List Recv) :
    (Poll.sockDrain ctx (rs.map Recv.poll)).ctx = ctx := by
  induction rs with
  | nil => rfl
  | cons r rs ih =>
    cases r with
    | interrupted => exact ih
    | failed => rfl
    | data d =>
      rw [List.map_cons, Recv.poll, Poll.sockDrain]
      split
      · exact ih
      · exact ih

theorem iterate_tickMs (l : Poll.Loop) (t : Turn) :
    (Poll.iterate l t.iter).1.ctx.tickMs = l.ctx.tickMs := by
  have hstep := Poll.iter_step l t.iter
  generalize Poll.iterate l t.iter = r at hstep ⊢
  cases hstep with
  | ended => rfl
  | interrupted => rfl
  | stopped => rfl
  | served _ ctx _ _ _ hctx =>
    have hsame : ctx.tickMs = l.ctx.tickMs := by
      rcases hctx with rfl | rfl
      · rfl
      · rw [show t.iter.recvs = t.recvs.map Recv.poll from rfl, sockDrain_ctx]
    rw [← hsame]
    dsimp only [Poll.checkTick]
    split
    · split
      · exact Poll.reviveSocket_tickMs ctx t.revive
      · exact Poll.reviveSocket_tickMs ctx t.revive
    · rfl

/-- The iterations among the inputs are those of the daemon's own turns. -/
theorem mem_iters {ins : List Input} {it : Poll.Iter} (h : it ∈ ins.filterMap Input.iter?) :
    ∃ t : Turn, t.iter = it := by
  obtain ⟨input, _, hinput⟩ := List.mem_filterMap.mp h
  cases input with
  | turn t => exact ⟨t, Option.some.inj hinput⟩
  | set s => cases hinput

end Period

/-! ## The wait -/

section Wait

/-- The period of the daemon is armed, and the deadline no further off than that. -/
def OnTime (l : Poll.Loop) (now : Int) : Prop :=
  l.ctx.tickMs = Poll.tickDefaultMs ∧ l.nextTick ≤ now + 5000

theorem iterate_onTime {l : Poll.Loop} {now : Int} {t : Turn} (h : OnTime l now)
    (htop : now ≤ t.top) (hdrained : t.top ≤ t.drained) :
    OnTime (Poll.iterate l t.iter).1 t.drained := by
  have hperiod := (iterate_tickMs l t).trans h.1
  refine ⟨hperiod, ?_⟩
  have hdeadline := h.2
  have hstep := Poll.iter_step l t.iter
  generalize Poll.iterate l t.iter = r at hstep hperiod ⊢
  cases hstep with
  | ended => dsimp only; omega
  | interrupted => dsimp only; omega
  | stopped => dsimp only; omega
  | served _ ctx =>
    rcases Poll.checkTick_cases { l with ctx := ctx } t.iter with hc | ⟨_, hnext, _⟩
    · rw [hc]
      dsimp only
      omega
    · dsimp only at hnext hperiod ⊢
      rw [hnext, hperiod]
      exact Int.le_of_eq rfl

variable {D : Type} [CDouble D] {lib : Rfc.CJson} {st₀ : State D} {env : BootEnv}

theorem boot_onTime (hboot : boot lib env = some st₀) : OnTime st₀.loop env.entered := by
  obtain ⟨fd, bus, rfl, _⟩ := boot_eq lib hboot
  exact ⟨rfl, Int.le_of_eq rfl⟩

/-- With a clock that never goes back, the loop of the daemon hands `poll` a wait
that ends exactly at its deadline, five seconds away at most: nothing the daemon
does can make it block for good or miss a tick while it is idle. -/
theorem daemon_wait_exact (hboot : boot lib env = some st₀) {ins : List Input} {t : Turn}
    (hclock : (Poll.readings env.entered (ins.filterMap Input.iter? ++ [t.iter])).IsChain (· ≤ ·))
    {wait : Int32}
    (hwait : (Poll.iterate (Poll.machine.final st₀.loop (ins.filterMap Input.iter?))
      t.iter).2.timeout = some wait) :
    wait.toInt = max 0
        ((Poll.machine.final st₀.loop (ins.filterMap Input.iter?)).nextTick - t.top) ∧
      0 ≤ wait.toInt ∧ wait.toInt ≤ 5000 := by
  have hits : ∀ it ∈ ins.filterMap Input.iter?, ∃ t : Turn, t.iter = it := fun _ => mem_iters
  obtain ⟨last, hlast, hperiod, hdeadline⟩ := Poll.clocked (P := OnTime)
    (fun l now it hit h htop hdrained => by
      obtain ⟨t, rfl⟩ := hits it hit
      exact iterate_onTime h htop hdrained) (boot_onTime hboot) hclock
  have harmed : Poll.Armed (Poll.machine.final st₀.loop (ins.filterMap Input.iter?)) last :=
    ⟨by rw [hperiod]; decide, hdeadline.trans (Int.add_le_add_left (by decide) last)⟩
  have hvalue := Poll.timeout_eq harmed hlast
  rw [Poll.iterate_timeout hwait]
  have htop : last ≤ t.top := hlast
  rw [show t.iter.top = t.top from rfl] at hvalue ⊢
  rw [hvalue]
  omega

/-- In front of the second pulse, a hundred milliseconds before its tick is due. -/
theorem daemon_wait_exact_second :
    (Poll.iterate (Poll.machine.final booted.loop [(pulse 0 fastEntry).iter])
      (pulse 1 fastEntry).iter).2.timeout = some 100 ∧
    (100 : Int32).toInt = max 0
      ((Poll.machine.final booted.loop [(pulse 0 fastEntry).iter]).nextTick -
        (pulse 1 fastEntry).top) := by
  have hclock : (Poll.readings ready.entered ([Input.turn (pulse 0 fastEntry)].filterMap Input.iter? ++
      [(pulse 1 fastEntry).iter])).IsChain (· ≤ ·) := by
    simp [Poll.readings, ready, Turn.iter, pulse, Input.iter?]
  have htimeout : (Poll.iterate (Poll.machine.final booted.loop [(pulse 0 fastEntry).iter])
      (pulse 1 fastEntry).iter).2.timeout = some 100 := rfl
  exact ⟨htimeout, (daemon_wait_exact boot_ready hclock htimeout).1⟩

end Wait

/-! ## What the bus gets -/

/-- The firing of the tick a mark stands for, as its reading. -/
def Mark.reading : Mark → Option Int
  | .tick firing _ => some firing.reading
  | _ => none

/-- A trace counted up: the reading of its last tick, the clients published since,
and every event fired so far with the reading of its tick. -/
structure Tally where
  reading : Option Int
  since : List Mac
  fired : List (Int × Mac)

def Tally.add (y : Tally) : Mark → Tally
  | .tick firing _ => ⟨some firing.reading, [], y.fired⟩
  | .publish c out =>
    ⟨y.reading, y.since ++ [c.mac], y.fired ++ out.fired.map fun _ => (y.reading.getD 0, c.mac)⟩
  | _ => y

/-- The clients a tick may publish: each once, no more than there are slots. -/
structure Group (macs : List Mac) : Prop where
  nodup : macs.Nodup
  length : macs.length ≤ maxClients

theorem Group.of_append {front back : List Mac} (h : Group (front ++ back)) : Group front :=
  ⟨(List.nodup_append.mp h.nodup).1, by
    have hlen := h.length
    rw [List.length_append] at hlen
    omega⟩

section Bus

variable {D : Type} [CDouble D]
variable (lq : LinkQty D) (order : ByteOrder) (layout : Wire.Layout) (clock : Nat → Int)
variable (lib : Rfc.CJson)
variable {st₀ st : State D}

/-- What the tick of the last reading may still fire. -/
def Tally.room (inWindow : Int → Bool) (wanted : Mac → Bool) (most : Nat) (y : Tally) : Nat :=
  if y.reading.any inWindow then most - y.since.countP wanted else 0

variable (inWindow : Int → Bool) (wanted : Mac → Bool) (most : Nat)

end Bus

section Runs

variable {D : Type} [CDouble D]
variable (lq : LinkQty D) (order : ByteOrder) (layout : Wire.Layout) (clock : Nat → Int)
variable {lib : Rfc.CJson}
variable {st₀ st : State D} {env : BootEnv}

end Runs

end Wei.Process
