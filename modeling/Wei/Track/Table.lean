import Wei.Lib.SlotTable
import Wei.ConnMetric

/-!
# The excursion tracker

`wei_track.c`. `wei_track_get` hands out a pointer into the table; here it
returns the slot index, or `none` when the fixed table is full. Times are
`int64_t` clock readings in milliseconds and are modelled as integers.
-/
namespace Wei.Track

open Wei.Lib.SlotTable

/-- `WEI_TRACK_MAX_CLIENTS` -/
def maxClients : Nat := 64

/-- `WEI_TRACK_ABSENCE_DEFAULT_MS` -/
def absenceDefaultMs : Int := 30000

/-- `wei_track_entry_t` -/
structure Entry where
  mac : Mac
  inUse : Bool
  lastSeen : Int
  startTs : Int
  accumulated : Int
  count : UInt32
  deriving DecidableEq

def Entry.zero : Entry := ⟨Vector.replicate 6 0, false, 0, 0, 0, 0⟩

instance : Keyed Entry Mac := ⟨Entry.inUse, Entry.mac⟩

/-- `wei_track_table_t` -/
abbrev Table := Fin maxClients → Entry

/-- `wei_track_record_t` -/
structure Record where
  count : UInt32
  durationMs : Int
  deriving DecidableEq

/-- `wei_track_init` -/
def init : Table := fun _ => Entry.zero

/-- The entry a claimed slot starts from. -/
def Entry.claimed (mac : Mac) (now : Int) : Entry :=
  { Entry.zero with mac := mac, inUse := true, lastSeen := now }

def Entry.seen (e : Entry) (now : Int) : Entry := { e with lastSeen := now }

/-- `wei_track_get` -/
def get (t : Table) (mac : Mac) (now : Int) : Table × Option (Fin maxClients) :=
  match scan t mac with
  | .hit i => (Function.update t i ((t i).seen now), some i)
  | .free i => (Function.update t i (Entry.claimed mac now), some i)
  | .full => (t, none)

/-- The test `wei_track_reap` makes on an in-use entry. -/
def Entry.absent (now absence : Int) (e : Entry) : Bool := decide (absence < now - e.lastSeen)

/-- `wei_track_reap` -/
def reap (t : Table) (now absence : Int) : Table := 
  release (Entry.absent now absence) init t

/-- `wei_track_tick`: `startTs = 0` is the mark of a closed excursion. -/
def tick (e : Entry) (metric : Int32) (now : Int) (band : Int32) (floorMs : Int) : Entry :=
  if metric < band then
    if e.startTs = 0 then { e with startTs := now, count := e.count + 1 } else e
  else if e.startTs ≠ 0 then
    let elapsed := now - e.startTs
    if floorMs ≤ elapsed then { e with accumulated := e.accumulated + elapsed, startTs := 0 }
    else { e with startTs := 0 }
  else e

/-- `wei_track_collect` -/
def collect (e : Entry) : Entry × Record :=
  ({ e with count := 0, accumulated := 0 }, ⟨e.count, e.accumulated⟩)

/-! ## Membership -/

@[simp] theorem inUse_entry (e : Entry) : inUse e = e.inUse := rfl
@[simp] theorem key_entry (e : Entry) : key e = e.mac := rfl
@[simp] theorem claimed_mac (mac : Mac) (now : Int) : (Entry.claimed mac now).mac = mac := rfl
@[simp] theorem claimed_inUse (mac : Mac) (now : Int) : (Entry.claimed mac now).inUse = true := rfl
@[simp] theorem claimed_lastSeen (mac : Mac) (now : Int) :
    (Entry.claimed mac now).lastSeen = now := rfl
@[simp] theorem claimed_startTs (mac : Mac) (now : Int) :
    (Entry.claimed mac now).startTs = 0 := rfl
@[simp] theorem seen_mac (e : Entry) (now : Int) : (e.seen now).mac = e.mac := rfl
@[simp] theorem seen_inUse (e : Entry) (now : Int) : (e.seen now).inUse = e.inUse := rfl
@[simp] theorem seen_lastSeen (e : Entry) (now : Int) : (e.seen now).lastSeen = now := rfl
@[simp] theorem seen_startTs (e : Entry) (now : Int) : (e.seen now).startTs = e.startTs := rfl

@[simp] theorem tick_mac (e : Entry) (metric : Int32) (now : Int) (band : Int32) (floorMs : Int) :
    (tick e metric now band floorMs).mac = e.mac := by
  unfold tick
  split <;> split <;> try rfl
  dsimp only
  split <;> rfl

@[simp] theorem tick_inUse (e : Entry) (metric : Int32) (now : Int) (band : Int32)
    (floorMs : Int) : (tick e metric now band floorMs).inUse = e.inUse := by
  unfold tick
  split <;> split <;> try rfl
  dsimp only
  split <;> rfl

@[simp] theorem tick_lastSeen (e : Entry) (metric : Int32) (now : Int) (band : Int32)
    (floorMs : Int) : (tick e metric now band floorMs).lastSeen = e.lastSeen := by
  unfold tick
  split <;> split <;> try rfl
  dsimp only
  split <;> rfl

theorem distinct_init : Distinct init := by
  intro k i j hi
  exact absurd hi.1 (by simp [init, Entry.zero])

theorem keys_init : keys init = ∅ := by
  ext k
  simp [mem_keys_iff_holds, Holds, init, Entry.zero]

/-- What `wei_track_get` does, read through the table's keys: the entry of
`mac` is stamped or claimed, or the table is full of other MACs. -/
inductive GetSpec (t : Table) (mac : Mac) (now : Int) : Table × Option (Fin maxClients) → Prop
  | found (i : Fin maxClients) (h : scan t mac = .hit i) :
      GetSpec t mac now (Function.update t i ((t i).seen now), some i)
  | claimed (i : Fin maxClients) (h : scan t mac = .free i) :
      GetSpec t mac now (Function.update t i (Entry.claimed mac now), some i)
  | full (h : scan t mac = .full) : GetSpec t mac now (t, none)

theorem get_spec (t : Table) (mac : Mac) (now : Int) : GetSpec t mac now (get t mac now) := by
  unfold get
  cases h : scan t mac with
  | hit i => exact .found i h
  | free i => exact .claimed i h
  | full => exact .full h

theorem distinct_reap {t : Table} (hd : Distinct t) (now absence : Int) :
    Distinct (reap t now absence) := distinct_release (fun _ => rfl) hd

theorem lookup_reap {t : Table} (hd : Distinct t) (now absence : Int) (k : Mac) :
    lookup (reap t now absence) k = (lookup t k).filter (fun e => !e.absent now absence) :=
  lookup_release (fun _ => rfl) hd k

theorem keys_reap_subset (t : Table) (now absence : Int) : keys (reap t now absence) ⊆ keys t :=
  keys_release_subset (fun _ => rfl) t

end Wei.Track
