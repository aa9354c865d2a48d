import Wei.Infer.Engine

/-!
# One client on its own

The abstract model of the engine: every client is a cell of its own, with the
row the slot-indexed arrays keep for it and its tracker entry. A cell knows no
slot and no other client; all that reaches it from outside is whether the fixed
tables had room. `cell eng mac` reads the cell of a MAC out of an engine.
-/
namespace Wei.Infer

open Wei.Lib Wei.Lib.SlotTable Wei.ConnScorer
open Track (maxClients)

variable {D : Type} [CDouble D]

/-- The arrays at one index: map slot, staged snapshot and episode ledger. -/
structure Row (D : Type) where
  slot : Slot D
  snapshot : ConnMetric.Record
  ledger : EpisodeLog

instance : Keyed (Row D) Mac := ⟨fun r => r.slot.inUse, fun r => r.slot.mac⟩

def Engine.rows (eng : Engine D) : Fin maxClients → Row D :=
  fun i => ⟨eng.map.slots i, eng.snapshot i, eng.ledger i⟩

@[ext]
structure Cell (D : Type) where
  member : Option (Row D)
  entry : Option Track.Entry

def Cell.empty : Cell D := ⟨none, none⟩

def cell (eng : Engine D) (mac : Mac) : Cell D := ⟨lookup eng.rows mac, lookup eng.tracker mac⟩

/-- The row of a client that was just admitted. -/
def Row.admitted (mac : Mac) (rec : ConnMetric.Record) (now : Int) : Row D :=
  ⟨⟨mac, true, now, Client.zero⟩, rec, EpisodeLog.zero⟩

def Row.refreshed (row : Row D) (rec : ConnMetric.Record) (now : Int) : Row D :=
  { row with slot.lastSeen := now, snapshot := rec }

def Row.absent (now : Int) (row : Row D) : Bool := row.slot.absent now

/-- The entry a client is timed with: its own, or a claimed one if there is room. -/
def obtainEntry (room : Bool) (mac : Mac) (now : Int) : Option Track.Entry → Option Track.Entry
  | some e => some (e.seen now)
  | none => if room then some (Track.Entry.claimed mac now) else none

/-- The entry the tracker hands out for `mac`, after its tick and collect. -/
def timedEntry (policy : Policy) (room : Bool) (mac : Mac) (instability : Int32) (now : Int)
    (entry : Option Track.Entry) : Option (Track.Entry × Track.Record) :=
  (obtainEntry room mac now entry).map (timeEntry policy instability now)

/-- The verdict after the instability flag, with what the entry yielded. -/
def flagTimed (policy : Policy) (instability : Int32)
    (timed : Option (Track.Entry × Track.Record)) (out : Result) : Result :=
  if decide (policy.tputVarBand < instability) ||
      timed.any (fun x => decide (0 < x.2.durationMs))
  then { out with verdict := .degraded } else out

/-- The score of one tick, with the record it read. -/
structure Emission where
  result : Result
  metrics : ConnMetric.Record
  deriving DecidableEq

def Cell.stage (room : Bool) (mac : Mac) (rec : ConnMetric.Record) (now : Int) (c : Cell D) :
    Cell D :=
  match c.member with
  | some row => { c with member := some (row.refreshed rec now) }
  | none => if room then { c with member := some (Row.admitted mac rec now) } else c

/-- One scored tick of a client: its row, its tracker entry and its result. -/
def scoreRow (lq : LinkQty D) (policy : Policy) (now : Int) (room : Bool) (row : Row D)
    (entry : Option Track.Entry) : Option (Row D × Option Track.Entry × Result) :=
  match scoreClient lq row.slot.state row.snapshot with
  | none => none
  | some (st, out) =>
    let timed := timedEntry policy room row.slot.mac (phyInstability st) now entry
    let out := flagTimed policy (phyInstability st) timed out
    let (st, out, log) := concludeScore policy st row.snapshot out row.ledger now
    some ({ row with slot.state := st, ledger := log }, timed.map (·.1), out)

def Cell.score (lq : LinkQty D) (policy : Policy) (now : Int) (room : Bool) (c : Cell D) :
    Cell D × Option Emission :=
  match c.member with
  | none => (c, none)
  | some row =>
    match scoreRow lq policy now room row c.entry with
    | none => (c, none)
    | some (row', entry, out) => (⟨some row', entry⟩, some ⟨out, row.snapshot⟩)

def Cell.reap (now : Int) (c : Cell D) : Cell D :=
  ⟨c.member.filter (fun r => !r.absent now),
    c.entry.filter (fun e => !e.absent now Track.absenceDefaultMs)⟩

/-- The reap of a tick keeps the entry that the tick stamped. -/
theorem kept_of_seen {e : Track.Entry} {now : Int} (h : e.lastSeen = now) :
    (some e).filter (fun e => !e.absent now Track.absenceDefaultMs) = some e := by
  simp [Track.Entry.absent, h, Track.absenceDefaultMs]

def Cell.tick (lq : LinkQty D) (policy : Policy) (now : Int) (room : Bool) (c : Cell D) :
    Cell D × Option Emission :=
  ((c.score lq policy now room).1.reap now, (c.score lq policy now room).2)

/-! ## What holds of every engine state -/

structure WellFormed (eng : Engine D) : Prop where
  distinct : Distinct eng.rows
  count : eng.map.count.toNat = inUseCount eng.rows
  vacant : ∀ i, (eng.rows i).slot.inUse = false →
    (eng.rows i).slot = Slot.zero ∧ (eng.rows i).ledger = EpisodeLog.zero
  tracked : Distinct eng.tracker
  drained : ∀ i, (eng.tracker i).count = 0 ∧ (eng.tracker i).accumulated = 0

omit [CDouble D] in
theorem holds_rows {eng : Engine D} {mac : Mac} {i : Fin maxClients} :
    Holds eng.rows mac i ↔ Holds eng.map.slots mac i := Iff.rfl

theorem wellFormed_create (policy : Policy) : WellFormed (create policy : Engine D) where
  distinct := fun k i j hi => absurd hi.1 (by simp [Engine.rows, create, Slot.zero, inUse])
  count := by simp [Engine.rows, create, inUseCount, Slot.zero, inUse]
  vacant := fun i _ => ⟨rfl, rfl⟩
  tracked := Track.distinct_init
  drained := fun i => ⟨rfl, rfl⟩

theorem cell_create (policy : Policy) (mac : Mac) :
    cell (create policy : Engine D) mac = Cell.empty := by
  have hrow : lookup (create policy : Engine D).rows mac = none :=
    lookup_of_absent fun i hi => absurd hi.1 (by simp [Engine.rows, create, Slot.zero, inUse])
  have hent : lookup (create policy : Engine D).tracker mac = none :=
    lookup_of_absent fun i hi => absurd hi.1 (by simp [create, Track.init, Track.Entry.zero, inUse])
  rw [cell, hrow, hent, Cell.empty]

theorem cell_member_of_holds {eng : Engine D} (h : WellFormed eng) {mac : Mac}
    {i : Fin maxClients} (hi : Holds eng.rows mac i) :
    (cell eng mac).member = some (eng.rows i) := lookup_of_holds h.distinct hi

omit [CDouble D] in
theorem cell_member_of_absent {eng : Engine D} {mac : Mac}
    (h : ∀ i, ¬ Holds eng.rows mac i) : (cell eng mac).member = none := lookup_of_absent h

theorem member_iff {eng : Engine D} (h : WellFormed eng) (mac : Mac) :
    Member eng mac ↔ (cell eng mac).member.isSome = true := by
  constructor
  · rintro ⟨i, hi⟩
    rw [cell_member_of_holds h (holds_rows.mpr hi)]
    rfl
  · intro hs
    obtain ⟨row, hr⟩ := Option.isSome_iff_exists.mp hs
    obtain ⟨i, hi, _⟩ := holds_of_lookup hr
    exact ⟨i, holds_rows.mp hi⟩

/-! ## Staging a record -/

/-- Staging has room for a new MAC. -/
def hasRoom (eng : Engine D) : Bool := decide (∃ i, (eng.rows i).slot.inUse = false)

/-- What `wei_infer_stage_record` leaves behind: a refreshed row, an admitted
row in a free slot, or an unchanged engine when the map is full. -/
inductive StageSpec (eng : Engine D) (mac : Mac) (rec : ConnMetric.Record) (now : Int) :
    Engine D → Prop
  | refresh (i : Fin maxClients) (h : Holds eng.rows mac i) (eng' : Engine D)
      (rows : eng'.rows = Function.update eng.rows i ((eng.rows i).refreshed rec now))
      (count : eng'.map.count = eng.map.count) (tracker : eng'.tracker = eng.tracker) :
      StageSpec eng mac rec now eng'
  | claim (i : Fin maxClients) (free : (eng.rows i).slot.inUse = false)
      (absent : ∀ j, ¬ Holds eng.rows mac j) (eng' : Engine D)
      (rows : eng'.rows = Function.update eng.rows i (Row.admitted mac rec now))
      (count : eng'.map.count.toNat = eng.map.count.toNat + 1)
      (tracker : eng'.tracker = eng.tracker) : StageSpec eng mac rec now eng'
  | drop (full : ∀ j, (eng.rows j).slot.inUse = true)
      (absent : ∀ j, ¬ Holds eng.rows mac j) : StageSpec eng mac rec now eng

theorem stage_spec {eng : Engine D} (h : WellFormed eng) (mac : Mac) (rec : ConnMetric.Record)
    (now : Int) : StageSpec eng mac rec now (stageRecord eng mac rec now) := by
  unfold stageRecord
  cases hs : scan eng.map.slots mac with
  | hit i =>
    refine .refresh i (holds_rows.mpr (scan_hit hs)) _ ?_ rfl rfl
    funext j
    by_cases hj : j = i
    · subst hj; simp [Engine.rows, Row.refreshed]
    · simp [Engine.rows, hj]
  | free i =>
    obtain ⟨hfree, habs⟩ := scan_free hs
    obtain ⟨hslot, hledger⟩ := h.vacant i hfree
    have hlt : inUseCount eng.rows < maxClients := inUseCount_lt_iff.mpr ⟨i, hfree⟩
    refine .claim i hfree (fun j hj => habs j (holds_rows.mp hj)) _ ?_ ?_ rfl
    · change (eng.map.slots i) = Slot.zero at hslot
      change eng.ledger i = EpisodeLog.zero at hledger
      funext j
      by_cases hj : j = i
      · subst hj; simp [Engine.rows, Row.admitted, hslot, hledger, Slot.zero]
      · simp [Engine.rows, hj]
    · have hc := h.count
      have hmax : maxClients = 64 := rfl
      rw [if_pos (by omega), UInt8.toNat_add]
      simp
      omega
  | full =>
    have hall := scan_full hs
    exact .drop (fun j => (hall j).1) (fun j hj => (hall j).2 hj.2)

theorem stage_cell_self {eng : Engine D} (h : WellFormed eng) (mac : Mac)
    (rec : ConnMetric.Record) (now : Int) :
    cell (stageRecord eng mac rec now) mac = (cell eng mac).stage (hasRoom eng) mac rec now := by
  have hspec := stage_spec h mac rec now
  generalize stageRecord eng mac rec now = eng' at hspec ⊢
  cases hspec with
  | refresh i hi _ hrows _ htrk =>
    have hput := lookup_put_self (s := (eng.rows i).refreshed rec now) h.distinct (Or.inl hi)
      hi.1 hi.2
    rw [Cell.stage, cell_member_of_holds h hi]
    rw [cell, hrows, htrk, hput, cell]
  | claim i hfree habs _ hrows _ htrk =>
    have hput := lookup_put_self (s := (Row.admitted mac rec now : Row D)) h.distinct
      (Or.inr ⟨hfree, habs⟩) rfl rfl
    have hroom : hasRoom eng = true := decide_eq_true ⟨i, hfree⟩
    rw [Cell.stage, cell_member_of_absent habs, hroom]
    rw [cell, hrows, htrk, hput]
    rfl
  | drop hfull habs =>
    have hroom : hasRoom eng = false := by
      apply decide_eq_false
      rintro ⟨i, hi⟩
      rw [hfull i] at hi
      cases hi
    rw [Cell.stage, cell_member_of_absent habs, hroom]
    rfl

theorem stage_cell_of_ne {eng : Engine D} (h : WellFormed eng) {mac mac' : Mac}
    (hne : mac' ≠ mac) (rec : ConnMetric.Record) (now : Int) :
    cell (stageRecord eng mac rec now) mac' = cell eng mac' := by
  have hspec := stage_spec h mac rec now
  generalize stageRecord eng mac rec now = eng' at hspec ⊢
  cases hspec with
  | refresh i hi _ hrows _ htrk =>
    have hput := lookup_put_of_ne (s := (eng.rows i).refreshed rec now) h.distinct (Or.inl hi)
      hi.1 hi.2 hne
    rw [cell, hrows, htrk, hput, cell]
  | claim i hfree habs _ hrows _ htrk =>
    rw [cell, hrows, htrk, lookup_put_of_ne h.distinct (Or.inr ⟨hfree, habs⟩) rfl rfl hne, cell]
  | drop hfull habs => rfl

omit [CDouble D] in
theorem stageRecord_policy (eng : Engine D) (mac : Mac) (rec : ConnMetric.Record) (now : Int) :
    (stageRecord eng mac rec now).policy = eng.policy := by
  unfold stageRecord
  split <;> rfl

theorem wellFormed_stage {eng : Engine D} (h : WellFormed eng) (mac : Mac)
    (rec : ConnMetric.Record) (now : Int) : WellFormed (stageRecord eng mac rec now) := by
  have hspec := stage_spec h mac rec now
  generalize stageRecord eng mac rec now = eng' at hspec ⊢
  cases hspec with
  | refresh i hi _ hrows hcount htrk =>
    have hin : inUse (eng.rows i) = true := hi.1
    refine ⟨?_, ?_, ?_, by rw [htrk]; exact h.tracked, by rw [htrk]; exact h.drained⟩
    · rw [hrows]
      exact distinct_put h.distinct (Or.inl hi) hi.1 hi.2
    · rw [hcount, hrows, h.count]
      refine (inUseCount_congr fun j => ?_).symm
      by_cases hj : j = i
      · subst hj; rw [Function.update_self]; rfl
      · rw [Function.update_of_ne hj]
    · intro j hv
      rw [hrows] at hv ⊢
      by_cases hj : j = i
      · subst hj
        rw [Function.update_self] at hv
        exact absurd (hin.symm.trans hv) (by simp)
      · rw [Function.update_of_ne hj] at hv ⊢
        exact h.vacant j hv
  | claim i hfree habs _ hrows hcount htrk =>
    refine ⟨?_, ?_, ?_, by rw [htrk]; exact h.tracked, by rw [htrk]; exact h.drained⟩
    · rw [hrows]
      exact distinct_put h.distinct (Or.inr ⟨hfree, habs⟩) rfl rfl
    · rw [hcount, hrows, h.count, inUseCount_claim hfree rfl]
    · intro j hv
      rw [hrows] at hv ⊢
      by_cases hj : j = i
      · subst hj
        rw [Function.update_self] at hv
        cases hv
      · rw [Function.update_of_ne hj] at hv ⊢
        exact h.vacant j hv
  | drop hfull habs => exact h

end Wei.Infer
