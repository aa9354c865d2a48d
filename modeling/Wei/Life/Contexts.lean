import Wei.Lib.Ownership
import Wei.Life.Roster

/-!
# The contexts in memory

`wei_life_roster_t` as it lies in memory: a slot is a pointer, a context is what
`calloc` gave for one station until `free` takes it back, and every access goes
through the pointer. `wei_life_init` zeroes the slots and `wei_life_deinit` does not
look at them. Each entry point has a result here only if every address it loads,
stores to or frees is live.
-/
namespace Wei.Life

open Wei.Lib Wei.Lib.Ownership Wei.ConnScorer

/-- The roster with the contexts it points to, and whether `g_wei_life_report.deliver`
is set. -/
structure Memory (α : Type) where
  slots : Fin maxStations → Option α
  active : UInt32
  policy : Policy
  cells : Cells α Ctx
  /-- How often `calloc` was asked for a context. -/
  asked : Nat
  reportSink : Bool

namespace Memory

variable {α : Type} [DecidableEq α]

/-- A roster that was never initialised, before any allocation. -/
def zero : Memory α := ⟨fun _ => none, 0, Policy.defaults, ∅, 0, false⟩

/-- `wei_life_init`, the slots of a roster that was in use before included. -/
def init (m : Memory α) (policy : Option Policy) : Memory α :=
  { m with slots := fun _ => none, active := 0, policy := policy.getD Policy.defaults }

/-- `wei_life_deinit`, as far as the contexts go. -/
def deinit (m : Memory α) : Memory α := m

/-- `wei_life_set_report_sink` -/
def setReportSink (m : Memory α) (on : Bool) : Memory α := { m with reportSink := on }

/-- `wei_life_slot_of` -/
def slotOf (m : Memory α) (mac : Mac) : Option (Option (Fin maxStations)) :=
  (List.finRange maxStations).findM? fun i =>
    match m.slots i with
    | none => some false
    | some a => (m.cells.lookup a).map fun ctx => decide (ctx.mac = mac)

/-- The walk of `wei_life_attach_station` to the first `NULL` slot. -/
def freeSlot (m : Memory α) : Option (Fin maxStations) :=
  (List.finRange maxStations).find? fun i => (m.slots i).isNone

/-- `wei_life_attach_station`; `alloc` says whether `calloc` succeeds. -/
def attachStation (p : Placement α) (m : Memory α) (mac : Mac) (alloc : Bool) :
    Option (Memory α × Option α) := do
  match ← m.slotOf mac with
  | some i => return (m, m.slots i)
  | none =>
    match m.freeSlot with
    | none => return (m, none)
    | some i =>
      if alloc then
        let a := p.place m.asked m.cells.keys
        let blank := m.cells.insert a (Ctx.opened (Vector.replicate 6 0))
        let cells ← store blank a (Ctx.opened mac)
        return ({ m with
            slots := Function.update m.slots i (some a)
            active := m.active + 1
            cells := cells
            asked := m.asked + 1 },
          some a)
      else return ({ m with asked := m.asked + 1 }, none)

/-- `wei_life_detach_station` -/
def detachStation (m : Memory α) (mac : Mac) : Option (Memory α) := do
  match ← m.slotOf mac with
  | none => return m
  | some i =>
    let cells ← free m.cells (m.slots i)
    return { m with
      slots := Function.update m.slots i none
      active := m.active - 1
      cells := cells }

/-- `wei_life_ingest_metric` -/
def ingestMetric (m : Memory α) (mac : Mac) (record : ConnMetric.Record) : Option (Memory α) := do
  match ← m.slotOf mac with
  | none => return m
  | some i =>
    let a ← m.slots i
    let ctx ← m.cells.lookup a
    let cells ← store m.cells a { ctx with sample := record }
    return { m with cells := cells }

/-- `wei_life_reeval_station` -/
def reevalStation (m : Memory α) (mac : Mac) : Option (Memory α) := do
  let _ ← m.slotOf mac
  return m

/-- `wei_life_on_station_event` -/
def onStationEvent (p : Placement α) (m : Memory α) (event : StationEvent) (mac : Mac)
    (alloc : Bool) : Option (Memory α) :=
  match event with
  | .assoc => (m.attachStation p mac alloc).map Prod.fst
  | .disassoc => m.detachStation mac
  | .connChange => m.reevalStation mac
  | .other _ => some m

/-- The guarded section of a sweep at one slot. -/
def evalSlot (m : Memory α) (i : Fin maxStations) (now : Int) :
    Option (Memory α × Option (ConnMetric.Record × List Excursion)) :=
  match m.slots i with
  | none => some (m, none)
  | some a => do
    let ctx ← m.cells.lookup a
    let (ctx', batch) := evalCtx ctx m.policy now
    let cells ← store m.cells a ctx'
    return ({ m with cells := cells }, some (ctx'.sample, batch))

def apply (p : Placement α) (m : Memory α) : Op → Option (Memory α)
  | .event event mac alloc => m.onStationEvent p event mac alloc
  | .attach mac alloc => (m.attachStation p mac alloc).map Prod.fst
  | .detach mac => m.detachStation mac
  | .ingest mac record => m.ingestMetric mac record

section Sweep

variable {D : Type} [CDouble D] (lq : LinkQty D)

/-- One slot of a sweep; `wei_life_report` drops what it is given without a sink. -/
def sweepSlot (now : Int) (sofar : Memory α × List Report) (i : Fin maxStations) :
    Option (Memory α × List Report) := do
  let (m, snapshot) ← sofar.1.evalSlot i now
  return (m, sofar.2 ++ if m.reportSink then reportsOf lq snapshot else [])

/-- `wei_life_eval_station` -/
def evalStation (m : Memory α) (now : Int) : Option (Memory α × List Report) :=
  (List.finRange maxStations).foldlM (sweepSlot lq now) (m, [])

end Sweep

end Memory

/-- What reaches the roster between `wei_life_init` and `wei_life_deinit`. -/
inductive Request where
  | setReportSink (on : Bool)
  | call (e : Event)

def Request.event : Request → Option Event
  | .setReportSink _ => none
  | .call e => some e

section Runs

variable {α : Type} [DecidableEq α] {D : Type} [CDouble D] (lq : LinkQty D) (p : Placement α)

/-- A request with the reports it delivers. -/
def Memory.step (m : Memory α) : Request → Option (Memory α × List Report)
  | .setReportSink on => some (m.setReportSink on, [])
  | .call (.op op) => (m.apply p op).map (·, [])
  | .call (.sweep now) => m.evalStation lq now

def Memory.run (m : Memory α) (rs : List Request) : Option (Memory α × List Report) :=
  rs.foldlM (fun sofar r => (sofar.1.step lq p r).map fun x => (x.1, sofar.2 ++ x.2)) (m, [])

/-- One life of the roster. -/
structure Session where
  policy : Option Policy
  requests : List Request

def Session.calls (s : Session) : List Event := s.requests.filterMap Request.event

def Memory.session (m : Memory α) (s : Session) : Option (Memory α) :=
  ((m.init s.policy).run lq p s.requests).map fun x => x.1.deinit

def Memory.sessions (ss : List Session) : Option (Memory α) :=
  ss.foldlM (Memory.session lq p) Memory.zero

/-- What the sink is given while the roster answers these requests. -/
def delivered (on : Bool) (r : Roster) : List Request → List Report
  | [] => []
  | .setReportSink on' :: rs => delivered on' r rs
  | .call e :: rs =>
    (if on then ((machine lq).step r e).2 else []) ++ delivered on ((machine lq).step r e).1 rs

end Runs

/-! ## The roster in memory is the roster -/

section Refinement

variable {α : Type} [DecidableEq α]

/-- The memory holds this roster, each context in a cell of its own, beside what was lost. -/
structure Represents (m : Memory α) (lost : Finset α) (r : Roster) : Prop where
  owned : Owned m.slots m.cells lost
  slots : r.slots = view m.slots m.cells
  active : r.active = m.active
  policy : r.policy = m.policy

theorem represents_init (m : Memory α) (policy : Option Policy) :
    Represents (m.init policy) m.cells.keys (init policy) where
  owned := owned_wiped m.cells
  slots := rfl
  active := rfl
  policy := rfl

variable {m : Memory α} {lost : Finset α} {r : Roster}

theorem Represents.slotOf (h : Represents m lost r) (mac : Mac) :
    m.slotOf mac = some (slotOf r mac) := by
  have hread : (fun i => match m.slots i with
      | none => some false
      | some a => (m.cells.lookup a).map fun ctx : Ctx => decide (ctx.mac = mac)) =
        fun i => pure ((r.slots i).any fun ctx => decide (ctx.mac = mac)) := by
    funext i
    rw [h.slots]
    cases hi : m.slots i with
    | none => rw [view_none hi]; rfl
    | some a =>
      obtain ⟨ctx, hlookup, hview⟩ := h.owned.view_some hi
      rw [hview]
      dsimp only
      rw [hlookup]
      rfl
  rw [Memory.slotOf, hread, List.findM?_pure]
  rfl

theorem Represents.freeSlot (h : Represents m lost r) : m.freeSlot = freeSlot r := by
  have hread : (fun i => (m.slots i).isNone) = fun i => (r.slots i).isNone := by
    funext i
    rw [h.slots, ← Option.not_isSome, ← Option.not_isSome, h.owned.view_isSome]
  rw [Memory.freeSlot, hread, Life.freeSlot]

/-- A slot that is found holds a pointer to its context. -/
theorem Represents.found (h : Represents m lost r) {mac : Mac} {i : Fin maxStations}
    (hi : Life.slotOf r mac = some i) :
    ∃ a ctx, m.slots i = some a ∧ m.cells.lookup a = some ctx ∧ r.slots i = some ctx := by
  obtain ⟨ctx, hctx, _⟩ := holds_slot_iff.mp (slotOf_some hi)
  have hsome : (m.slots i).isSome = true := by
    rw [← h.owned.view_isSome, ← h.slots, hctx]
    rfl
  obtain ⟨a, ha⟩ := Option.isSome_iff_exists.mp hsome
  obtain ⟨ctx', hlookup, hview⟩ := h.owned.view_some ha
  exact ⟨a, ctx', ha, hlookup, by rw [h.slots, hview]⟩

variable (p : Placement α)

theorem Represents.attach (h : Represents m lost r) (mac : Mac) (alloc : Bool) :
    ∃ m' ptr, m.attachStation p mac alloc = some (m', ptr) ∧
      Represents m' lost (attachStation r mac alloc).1 ∧ m'.reportSink = m.reportSink ∧
      ptr = (attachStation r mac alloc).2.bind m'.slots := by
  unfold Memory.attachStation Life.attachStation
  rw [h.slotOf mac]
  cases hs : Life.slotOf r mac with
  | some i => exact ⟨m, m.slots i, rfl, h, rfl, rfl⟩
  | none =>
    rw [h.freeSlot]
    cases hf : Life.freeSlot r with
    | none => exact ⟨m, none, rfl, h, rfl, rfl⟩
    | some i =>
      cases alloc with
      | false => exact ⟨_, none, rfl, ⟨h.owned, h.slots, h.active, h.policy⟩, rfl, rfl⟩
      | true =>
        have hfree : m.slots i = none := by
          rw [← h.freeSlot] at hf
          have hnone := List.find?_some hf
          exact Option.isNone_iff_eq_none.mp hnone
        have hfresh : p.place m.asked m.cells.keys ∉ m.cells :=
          fun hlive => p.fresh _ _ (Finmap.mem_keys.mpr hlive)
        generalize hplace : p.place m.asked m.cells.keys = a at hfresh
        have hblank : a ∈ m.cells.insert a (Ctx.opened (Vector.replicate 6 0)) :=
          Finmap.mem_insert.mpr (Or.inl rfl)
        have hstore := store_live hblank (Ctx.opened mac)
        rw [Finmap.insert_insert] at hstore
        refine ⟨{ m with
            slots := Function.update m.slots i (some a)
            active := m.active + 1
            cells := m.cells.insert a (Ctx.opened mac)
            asked := m.asked + 1 }, some a, ?_, ?_, rfl, by simp⟩
        · simp [hstore]
        · exact {
            owned := h.owned.acquire hfree hfresh (Ctx.opened mac)
            slots := by
              dsimp only
              rw [if_pos rfl, h.owned.view_acquire i hfresh, ← h.slots]
            active := by
              dsimp only
              rw [if_pos rfl, h.active]
            policy := h.policy }

theorem Represents.detach (h : Represents m lost r) (mac : Mac) :
    ∃ m', m.detachStation mac = some m' ∧ Represents m' lost (detachStation r mac) ∧
      m'.reportSink = m.reportSink := by
  unfold Memory.detachStation Life.detachStation
  rw [h.slotOf mac]
  cases hs : Life.slotOf r mac with
  | none => exact ⟨m, rfl, h, rfl⟩
  | some i =>
    obtain ⟨a, _, ha, _, _⟩ := h.found hs
    have hfree : free m.cells (m.slots i) = some (m.cells.erase a) :=
      ha ▸ free_live (h.owned.live ha)
    refine ⟨{ m with
      slots := Function.update m.slots i none
      active := m.active - 1
      cells := m.cells.erase a }, ?_, ?_, rfl⟩
    · simp [hfree]
    · exact {
        owned := h.owned.release ha
        slots := by
          dsimp only
          rw [h.owned.view_release ha, ← h.slots]
        active := by
          dsimp only
          rw [h.active]
        policy := h.policy }

/-- A context is read and written back through the pointer of its slot. -/
theorem Represents.write (h : Represents m lost r) {i : Fin maxStations} {a : α}
    (ha : m.slots i = some a) (ctx : Ctx) :
    store m.cells a ctx = some (m.cells.insert a ctx) ∧
      Represents { m with cells := m.cells.insert a ctx } lost
        { r with slots := Function.update r.slots i (some ctx) } where
  left := store_live (h.owned.live ha) ctx
  right := ⟨h.owned.store ha ctx, by dsimp only; rw [h.owned.view_store ha, ← h.slots], h.active,
    h.policy⟩

theorem Represents.ingest (h : Represents m lost r) (mac : Mac) (record : ConnMetric.Record) :
    ∃ m', m.ingestMetric mac record = some m' ∧
      Represents m' lost (ingestMetric r mac record) ∧ m'.reportSink = m.reportSink := by
  unfold Memory.ingestMetric Life.ingestMetric
  rw [h.slotOf mac]
  cases hs : Life.slotOf r mac with
  | none => exact ⟨m, rfl, h, rfl⟩
  | some i =>
    obtain ⟨a, ctx, ha, hlookup, hctx⟩ := h.found hs
    obtain ⟨hstore, hwrite⟩ := h.write ha { ctx with sample := record }
    refine ⟨{ m with cells := m.cells.insert a { ctx with sample := record } }, ?_, ?_, rfl⟩
    · simp [ha, hlookup, hstore]
    · dsimp only
      rw [hctx]
      exact hwrite

theorem Represents.reeval (h : Represents m lost r) (mac : Mac) :
    m.reevalStation mac = some m := by
  rw [Memory.reevalStation, h.slotOf mac]
  rfl

theorem Represents.apply (h : Represents m lost r) (op : Op) :
    ∃ m', m.apply p op = some m' ∧ Represents m' lost (apply r op) ∧
      m'.reportSink = m.reportSink := by
  have hattach : ∀ mac alloc, ∃ m', (m.attachStation p mac alloc).map Prod.fst = some m' ∧
      Represents m' lost (Life.attachStation r mac alloc).1 ∧ m'.reportSink = m.reportSink := by
    intro mac alloc
    obtain ⟨m', ptr, hrun, h', hsink, _⟩ := h.attach p mac alloc
    exact ⟨m', by rw [hrun]; rfl, h', hsink⟩
  cases op with
  | attach mac alloc => exact hattach mac alloc
  | detach mac => exact h.detach mac
  | ingest mac record => exact h.ingest mac record
  | event event mac alloc =>
    cases event with
    | assoc => exact hattach mac alloc
    | disassoc => exact h.detach mac
    | connChange =>
      refine ⟨m, h.reeval mac, ?_, rfl⟩
      rw [Life.apply, onStationEvent, reevalStation_eq]
      exact h
    | other code => exact ⟨m, rfl, h, rfl⟩

theorem Represents.evalSlot (h : Represents m lost r) (i : Fin maxStations) (now : Int) :
    ∃ m', m.evalSlot i now = some (m', (evalSlot r i now).2) ∧
      Represents m' lost (evalSlot r i now).1 ∧ m'.reportSink = m.reportSink := by
  unfold Memory.evalSlot Life.evalSlot
  cases hi : m.slots i with
  | none =>
    have hr : r.slots i = none := by rw [h.slots, view_none hi]
    rw [hr]
    exact ⟨m, rfl, h, rfl⟩
  | some a =>
    obtain ⟨ctx, hlookup, hview⟩ := h.owned.view_some hi
    obtain ⟨hstore, hwrite⟩ := h.write hi (evalCtx ctx r.policy now).1
    have hr : r.slots i = some ctx := by rw [h.slots, hview]
    rw [hr]
    refine ⟨{ m with cells := m.cells.insert a (evalCtx ctx r.policy now).1 }, ?_, hwrite, rfl⟩
    simp [hlookup, ← h.policy, hstore]

section Sweep

variable {D : Type} [CDouble D] (lq : LinkQty D)

theorem Represents.sweepSlots (h : Represents m lost r) (now : Int) (is : List (Fin maxStations))
    (reports : List Report) :
    ∃ m', is.foldlM (Memory.sweepSlot lq now) (m, if m.reportSink then reports else []) =
        some (m', if m.reportSink then (is.foldl (sweepSlot lq now) (r, reports)).2 else []) ∧
      Represents m' lost (is.foldl (sweepSlot lq now) (r, reports)).1 ∧
      m'.reportSink = m.reportSink := by
  induction is generalizing m r reports with
  | nil => exact ⟨m, rfl, h, rfl⟩
  | cons i is ih =>
    obtain ⟨m₁, heval, h₁, hsink⟩ := h.evalSlot i now
    obtain ⟨m', hrun, h', hsink'⟩ :=
      ih h₁ (reports ++ reportsOf lq (Life.evalSlot r i now).2)
    rw [hsink] at hrun hsink'
    have hslot : Memory.sweepSlot lq now (m, if m.reportSink then reports else []) i =
        some (m₁, if m.reportSink then reports ++ reportsOf lq (Life.evalSlot r i now).2 else []) := by
      rw [Memory.sweepSlot, heval]
      dsimp only [Option.bind_eq_bind, Option.bind_some]
      rw [hsink]
      cases m.reportSink <;> rfl
    refine ⟨m', ?_, h', hsink'⟩
    rw [List.foldlM_cons, hslot]
    exact hrun

theorem Represents.sweep (h : Represents m lost r) (now : Int) :
    ∃ m', m.evalStation lq now =
        some (m', if m.reportSink then (evalStation lq r now).2 else []) ∧
      Represents m' lost (evalStation lq r now).1 ∧ m'.reportSink = m.reportSink := by
  obtain ⟨m', hrun, h', hsink⟩ := h.sweepSlots lq now (List.finRange maxStations) []
  refine ⟨m', ?_, h', hsink⟩
  rw [ite_self] at hrun
  exact hrun

/-- A call in memory is the call of the roster. -/
theorem Represents.call (h : Represents m lost r) (e : Event) :
    ∃ m', m.step lq p (.call e) =
        some (m', if m.reportSink then ((machine lq).step r e).2 else []) ∧
      Represents m' lost ((machine lq).step r e).1 ∧ m'.reportSink = m.reportSink := by
  cases e with
  | op op =>
    obtain ⟨m', hrun, h', hsink⟩ := h.apply p op
    refine ⟨m', ?_, h', hsink⟩
    rw [Memory.step, hrun]
    exact congrArg (fun sent => some (m', sent)) (ite_self _).symm
  | sweep now => exact h.sweep lq now

theorem Represents.run (h : Represents m lost r) (rs : List Request) (sent : List Report) :
    ∃ m', rs.foldlM (fun sofar r => (sofar.1.step lq p r).map fun x => (x.1, sofar.2 ++ x.2))
        (m, sent) = some (m', sent ++ delivered lq m.reportSink r rs) ∧
      Represents m' lost ((machine lq).final r (rs.filterMap Request.event)) := by
  induction rs generalizing m r sent with
  | nil => exact ⟨m, by rw [delivered, List.append_nil]; rfl, h⟩
  | cons request rs ih =>
    cases request with
    | setReportSink on =>
      have hset : Represents (m.setReportSink on) lost r := ⟨h.owned, h.slots, h.active, h.policy⟩
      obtain ⟨m', hrun, h'⟩ := ih hset sent
      refine ⟨m', ?_, h'⟩
      rw [List.foldlM_cons]
      simpa [Memory.step, delivered, Memory.setReportSink] using hrun
    | call e =>
      obtain ⟨m₁, hstep, h₁, hsink⟩ := h.call p lq e
      obtain ⟨m', hrun, h'⟩ := ih h₁ (sent ++ if m.reportSink then ((machine lq).step r e).2 else [])
      refine ⟨m', ?_, h'⟩
      rw [hsink, List.append_assoc] at hrun
      rw [List.foldlM_cons]
      dsimp only
      rw [hstep]
      exact hrun

end Sweep

/-! ## Over the lives of the roster -/

section Lives

variable {D : Type} [CDouble D] (lq : LinkQty D)

/-- The stations of the roster at the end of each of these lives. -/
def leftBehind : List Session → Nat
  | [] => 0
  | s :: ss => (after lq s.policy s.calls).stations.members.card + leftBehind ss

theorem leftBehind_append (ss ss' : List Session) :
    leftBehind lq (ss ++ ss') = leftBehind lq ss + leftBehind lq ss' := by
  induction ss with
  | nil => rw [List.nil_append, leftBehind, Nat.zero_add]
  | cons s ss ih => rw [List.cons_append, leftBehind, leftBehind, ih, Nat.add_assoc]

/-- Every live cell is one of a station or lost. -/
theorem Represents.card (h : Represents m lost r) (hr : WellFormed r) :
    m.cells.keys.card = r.stations.members.card + lost.card := by
  rw [h.owned.card, Roster.stations, SlotTable.card_keys hr.distinct, SlotTable.inUseCount]
  congr 2
  ext i
  rw [Finset.mem_filter, Finset.mem_filter, inUse_slot, h.slots, h.owned.view_isSome]

theorem sessions_left (ss : List Session) : ∃ m : Memory α, Memory.sessions lq p ss = some m ∧
    m.cells.keys.card = leftBehind lq ss := by
  induction ss using List.reverseRecOn with
  | nil => exact ⟨Memory.zero, rfl, by simp [Memory.zero, leftBehind]⟩
  | append_singleton ss s ih =>
    obtain ⟨m, hrun, hcard⟩ := ih
    obtain ⟨m', hsession, h⟩ := (represents_init m s.policy).run p lq s.requests []
    refine ⟨m', ?_, ?_⟩
    · rw [Memory.sessions, List.foldlM_append]
      rw [Memory.sessions] at hrun
      rw [hrun]
      dsimp only [Option.bind_eq_bind, Option.bind_some]
      rw [List.foldlM_cons, Memory.session, Memory.run, hsession]
      rfl
    · rw [h.card (refines lq s.policy s.calls).1, leftBehind_append, leftBehind, leftBehind,
        hcard]
      exact Nat.add_comm _ _

/-- Over any number of lives of the roster, whatever `calloc` answers and wherever it
puts a context: no access and no `free` meets an address that is not live; the roster
in memory is the roster, every station with a context of its own, and the sink is
given its reports; and what is live besides are the contexts of the stations that were
attached when an earlier life ended, one each. -/
theorem contexts_exact (ss : List Session) (policy : Option Policy) (rs : List Request) :
    ∃ m₀ m, Memory.sessions lq p ss = some m₀ ∧
      (m₀.init policy).run lq p rs =
        some (m, delivered lq m₀.reportSink (init policy) rs) ∧
      (∀ i, (after lq policy (rs.filterMap Request.event)).slots i =
        (m.slots i).bind m.cells.lookup) ∧
      (∀ i j a, m.slots i = some a → m.slots j = some a → i = j) ∧
      m.cells.keys.card = leftBehind lq ss +
        (after lq policy (rs.filterMap Request.event)).stations.members.card ∧
      ∀ mac alloc, ∃ m' ptr, m.attachStation p mac alloc = some (m', ptr) ∧
        ptr.bind m'.cells.lookup =
          (attachStation (after lq policy (rs.filterMap Request.event)) mac alloc).2.bind
            (attachStation (after lq policy (rs.filterMap Request.event)) mac alloc).1.slots := by
  obtain ⟨m₀, hsessions, hcard⟩ := sessions_left p lq ss
  obtain ⟨m, hrun, h⟩ := (represents_init m₀ policy).run p lq rs []
  refine ⟨m₀, m, hsessions, hrun, fun i => congrFun h.slots i, fun i j a => h.owned.inj, ?_, ?_⟩
  · rw [h.card (refines lq policy _).1, hcard, Nat.add_comm]
  · intro mac alloc
    obtain ⟨m', ptr, hattach, h', _, hptr⟩ := h.attach p mac alloc
    refine ⟨m', ptr, hattach, ?_⟩
    rw [hptr, h'.slots]
    cases (Life.attachStation (after lq policy (rs.filterMap Request.event)) mac alloc).2 <;> rfl

end Lives

end Refinement

end Wei.Life
