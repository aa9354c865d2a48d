import Wei.Lib.BoundedSet
import Wei.Lib.Mealy
import Wei.Lib.SlotTable
import Wei.Life.Station

/-!
# The roster of stations

`wei_life_roster_t` and its entry points. A `NULL` slot is `none`; a pointer
to a context is the index of the slot that owns it. Every entry point holds the
roster's guard throughout, so each is one step; the sweep takes the guard once
for every slot. The slots are read as a set of at most
`WEI_LIFE_MAX_STATIONS` MACs.
-/
namespace Wei.Life

open Wei.Lib Wei.Lib.SlotTable Wei.ConnScorer

/-- `WEI_LIFE_MAX_STATIONS` -/
def maxStations : Nat := Track.maxClients

/-- `wei_life_roster_t` -/
structure Roster where
  slots : Fin maxStations → Option Ctx
  active : UInt32
  policy : Policy

/-- `wei_life_init`; without a policy the defaults apply. -/
def init (policy : Option Policy) : Roster :=
  ⟨fun _ => none, 0, policy.getD Policy.defaults⟩

/-- `wei_life_slot_of` -/
def slotOf (r : Roster) (mac : Mac) : Option (Fin maxStations) :=
  (List.finRange maxStations).find? fun i => (r.slots i).any fun ctx => decide (ctx.mac = mac)

/-- The walk of `wei_life_attach_station` to the first `NULL` slot. -/
def freeSlot (r : Roster) : Option (Fin maxStations) :=
  (List.finRange maxStations).find? fun i => (r.slots i).isNone

/-- `wei_life_attach_station`; `alloc` is the outcome of `calloc`. -/
def attachStation (r : Roster) (mac : Mac) (alloc : Bool) : Roster × Option (Fin maxStations) :=
  match slotOf r mac with
  | some i => (r, some i)
  | none =>
    match freeSlot r with
    | none => (r, none)
    | some i =>
      if alloc then
        ({ r with
            slots := Function.update r.slots i (some (Ctx.opened mac))
            active := r.active + 1 },
          some i)
      else (r, none)

/-- `wei_life_detach_station` -/
def detachStation (r : Roster) (mac : Mac) : Roster :=
  match slotOf r mac with
  | none => r
  | some i => { r with slots := Function.update r.slots i none, active := r.active - 1 }

/-- `wei_life_ingest_metric` -/
def ingestMetric (r : Roster) (mac : Mac) (record : ConnMetric.Record) : Roster :=
  match slotOf r mac with
  | none => r
  | some i =>
    { r with
      slots := Function.update r.slots i ((r.slots i).map fun ctx => { ctx with sample := record }) }

/-- `wei_life_reeval_station`, a lookup whose result changes nothing. -/
def reevalStation (r : Roster) (mac : Mac) : Roster :=
  match slotOf r mac with
  | none => r
  | some _ => r

/-- `wei_life_event_t`, with the values that are not enumerators. -/
inductive StationEvent where
  | assoc
  | disassoc
  | connChange
  | other (code : Int)

/-- `wei_life_on_station_event` -/
def onStationEvent (r : Roster) (event : StationEvent) (mac : Mac) (alloc : Bool) : Roster :=
  match event with
  | .assoc => (attachStation r mac alloc).1
  | .disassoc => detachStation r mac
  | .connChange => reevalStation r mac
  | .other _ => r

/-- The guarded section of a sweep at one slot: the sample the detectors read,
and what they produced. -/
def evalSlot (r : Roster) (i : Fin maxStations) (now : Int) :
    Roster × Option (ConnMetric.Record × List Excursion) :=
  match r.slots i with
  | none => (r, none)
  | some ctx =>
    let (ctx, batch) := evalCtx ctx r.policy now
    ({ r with slots := Function.update r.slots i (some ctx) }, some (ctx.sample, batch))

/-- A call of `wei_life_report`; a registered sink receives each. -/
structure Report where
  excursion : Excursion
  connectedScore : UInt8

section Sweep

variable {D : Type} [CDouble D] (lq : LinkQty D)

/-- The reports a slot's snapshot leads to, once the guard is dropped. -/
def reportsOf (snapshot : Option (ConnMetric.Record × List Excursion)) : List Report :=
  match snapshot with
  | none => []
  | some (sample, batch) => batch.map fun x => ⟨x, score lq sample⟩

/-- One slot of a sweep, with the reports made so far. -/
def sweepSlot (now : Int) (sofar : Roster × List Report) (i : Fin maxStations) :
    Roster × List Report :=
  let (r, snapshot) := evalSlot sofar.1 i now
  (r, sofar.2 ++ reportsOf lq snapshot)

/-- `wei_life_eval_station` at a reading of the clock. -/
def evalStation (r : Roster) (now : Int) : Roster × List Report :=
  (List.finRange maxStations).foldl (sweepSlot lq now) (r, [])

end Sweep

/-- An entry point other than the sweep, with its arguments. -/
inductive Op where
  | event (event : StationEvent) (mac : Mac) (alloc : Bool)
  | attach (mac : Mac) (alloc : Bool)
  | detach (mac : Mac)
  | ingest (mac : Mac) (record : ConnMetric.Record)

def apply (r : Roster) : Op → Roster
  | .event event mac alloc => onStationEvent r event mac alloc
  | .attach mac alloc => (attachStation r mac alloc).1
  | .detach mac => detachStation r mac
  | .ingest mac record => ingestMetric r mac record

inductive Event where
  | op (op : Op)
  | sweep (now : Int)

section Machine

variable {D : Type} [CDouble D] (lq : LinkQty D)

/-- A call and the reports it makes. -/
def machine : Mealy Roster Event (List Report) where
  step r
    | .op op => (apply r op, [])
    | .sweep now => evalStation lq r now

abbrev after (policy : Option Policy) (es : List Event) : Roster :=
  (machine lq).final (init policy) es

end Machine

/-! ## The slots as a table -/

instance : Keyed (Option Ctx) Mac where
  inUse := Option.isSome
  key slot := (slot.map Ctx.mac).getD (Vector.replicate 6 0)

@[simp] theorem inUse_slot (slot : Option Ctx) : inUse slot = slot.isSome := rfl

theorem holds_slot_iff {slots : Fin maxStations → Option Ctx} {mac : Mac} {i : Fin maxStations} :
    Holds slots mac i ↔ ∃ ctx, slots i = some ctx ∧ ctx.mac = mac := by
  unfold Holds
  cases h : slots i <;> simp [key]

/-- A map over the slots that keeps the MACs keeps who sits where. -/
theorem map_keyed {slots : Fin maxStations → Option Ctx} {f : Ctx → Ctx}
    (hf : ∀ ctx, (f ctx).mac = ctx.mac) (i : Fin maxStations) :
    inUse ((slots i).map f) = inUse (slots i) ∧ key ((slots i).map f) = key (slots i) := by
  cases slots i <;> simp [key, hf]

section Lookup

variable {r : Roster} {mac : Mac} {i : Fin maxStations}

theorem slotOf_some (h : slotOf r mac = some i) : Holds r.slots mac i := by
  have hp := List.find?_some h
  rw [holds_slot_iff]
  cases hs : r.slots i with
  | none => simp [hs] at hp
  | some ctx => exact ⟨ctx, rfl, by simpa [hs] using hp⟩

theorem slotOf_none (h : slotOf r mac = none) (i : Fin maxStations) : ¬ Holds r.slots mac i := by
  have hp := List.find?_eq_none.mp h i (List.mem_finRange i)
  rw [holds_slot_iff]
  rintro ⟨ctx, hctx, hmac⟩
  exact hp (by simp [hctx, hmac])

theorem freeSlot_some (h : freeSlot r = some i) : inUse (r.slots i) = false := by
  have hp := List.find?_some h
  simpa using hp

theorem freeSlot_none (h : freeSlot r = none) (i : Fin maxStations) :
    inUse (r.slots i) = true := by
  have hp := List.find?_eq_none.mp h i (List.mem_finRange i)
  simpa [Option.isSome_iff_ne_none] using hp

end Lookup

/-- The stations with a context. -/
def Roster.stations (r : Roster) : BoundedSet Mac maxStations :=
  ⟨keys r.slots, Finset.card_image_le.trans (inUseCount_le r.slots)⟩

theorem slotOf_none_iff {r : Roster} {mac : Mac} :
    slotOf r mac = none ↔ mac ∉ r.stations.members := by
  rw [Roster.stations, mem_keys_iff_holds]
  constructor
  · rintro h ⟨i, hi⟩
    exact slotOf_none h i hi
  · intro h
    cases hs : slotOf r mac with
    | none => rfl
    | some i => exact absurd ⟨i, slotOf_some hs⟩ h

/-- No station sits twice, and the counter counts. -/
structure WellFormed (r : Roster) : Prop where
  distinct : Distinct r.slots
  active : r.active.toNat = inUseCount r.slots

theorem wellFormed_init (policy : Option Policy) : WellFormed (init policy) where
  distinct := by
    intro mac i j hi
    exact absurd hi.1 (by simp [init])
  active := by simp [init, inUseCount]

/-- A walk to a free slot fails exactly on a full set. -/
theorem freeSlot_none_iff {r : Roster} (h : WellFormed r) :
    freeSlot r = none ↔ ¬ r.stations.members.card < maxStations := by
  rw [Roster.stations, card_keys h.distinct, inUseCount_lt_iff]
  constructor
  · rintro hf ⟨i, hi⟩
    rw [freeSlot_none hf i] at hi
    cases hi
  · intro hno
    cases hf : freeSlot r with
    | none => rfl
    | some i => exact absurd ⟨i, freeSlot_some hf⟩ hno

/-! ## One entry point -/

/-- The ways through `wei_life_attach_station`. -/
inductive AttachStep (r : Roster) (mac : Mac) (alloc : Bool) :
    Roster × Option (Fin maxStations) → Prop where
  | found (i : Fin maxStations) (h : Holds r.slots mac i) : AttachStep r mac alloc (r, some i)
  | refused (habsent : mac ∉ r.stations.members) (h : ¬ r.stations.Admits mac alloc) :
      AttachStep r mac alloc (r, none)
  | opened (i : Fin maxStations) (hfree : inUse (r.slots i) = false)
      (h : r.stations.Admits mac alloc) :
      AttachStep r mac alloc
        ({ r with
            slots := Function.update r.slots i (some (Ctx.opened mac))
            active := r.active + 1 },
          some i)

theorem attach_step {r : Roster} (hr : WellFormed r) (mac : Mac) (alloc : Bool) :
    AttachStep r mac alloc (attachStation r mac alloc) := by
  unfold attachStation
  cases hs : slotOf r mac with
  | some i => exact .found i (slotOf_some hs)
  | none =>
    have habsent := slotOf_none_iff.mp hs
    cases hf : freeSlot r with
    | none => exact .refused habsent fun h => (freeSlot_none_iff hr).mp hf h.2.1
    | some i =>
      have hroom : r.stations.members.card < maxStations := by
        by_contra hno
        rw [(freeSlot_none_iff hr).mpr hno] at hf
        cases hf
      cases alloc with
      | true => exact .opened i (freeSlot_some hf) ⟨habsent, hroom, rfl⟩
      | false => exact .refused habsent fun h => absurd h.2.2 (by simp)

theorem detach_of_notMem {r : Roster} {mac : Mac} (h : mac ∉ r.stations.members) :
    detachStation r mac = r := by
  rw [detachStation, slotOf_none_iff.mpr h]

theorem ingest_of_notMem {r : Roster} {mac : Mac} (h : mac ∉ r.stations.members)
    (record : ConnMetric.Record) : ingestMetric r mac record = r := by
  rw [ingestMetric, slotOf_none_iff.mpr h]

@[simp] theorem reevalStation_eq (r : Roster) (mac : Mac) : reevalStation r mac = r := by
  unfold reevalStation
  cases slotOf r mac <;> rfl

/-- A detach of a tracked station frees the one slot that holds it. -/
theorem detach_of_mem {r : Roster} {mac : Mac} (h : mac ∈ r.stations.members) :
    ∃ i, Holds r.slots mac i ∧ detachStation r mac =
      { r with slots := Function.update r.slots i none, active := r.active - 1 } := by
  cases hs : slotOf r mac with
  | none => exact absurd h (slotOf_none_iff.mp hs)
  | some i => exact ⟨i, slotOf_some hs, by rw [detachStation, hs]⟩

/-- An ingest writes the sample of its station and nothing else. -/
theorem ingest_eq {r : Roster} (hr : WellFormed r) (mac : Mac) (record : ConnMetric.Record) :
    ingestMetric r mac record =
      { r with
        slots := fun i =>
          (r.slots i).map fun ctx => if ctx.mac = mac then { ctx with sample := record } else ctx } := by
  unfold ingestMetric
  cases hs : slotOf r mac with
  | none =>
    have hkeep : (fun i => (r.slots i).map fun ctx =>
        if ctx.mac = mac then { ctx with sample := record } else ctx) = r.slots := by
      funext i
      cases hi : r.slots i with
      | none => rfl
      | some ctx =>
        have hne : ctx.mac ≠ mac := fun he =>
          slotOf_none hs i (holds_slot_iff.mpr ⟨ctx, hi, he⟩)
        simp [hne]
    rw [hkeep]
  | some i =>
    have hi := slotOf_some hs
    dsimp only
    congr 1
    funext j
    by_cases hj : j = i
    · subst hj
      obtain ⟨ctx, hctx, hmac⟩ := holds_slot_iff.mp hi
      simp [hctx, hmac]
    · rw [Function.update_of_ne hj]
      cases hctx : r.slots j with
      | none => rfl
      | some ctx =>
        have hne : ctx.mac ≠ mac := fun he =>
          hj (hr.distinct mac j i (holds_slot_iff.mpr ⟨ctx, hctx, he⟩) hi)
        simp [hne]

/-- Rewriting contexts in place keeps the roster well formed, with the same stations. -/
theorem WellFormed.map {r : Roster} (hr : WellFormed r) {f : Fin maxStations → Ctx → Ctx}
    (hf : ∀ i ctx, (f i ctx).mac = ctx.mac) :
    WellFormed { r with slots := fun i => (r.slots i).map (f i) } ∧
      Roster.stations { r with slots := fun i => (r.slots i).map (f i) } = r.stations := by
  have hu : ∀ i, inUse ((r.slots i).map (f i)) = inUse (r.slots i) :=
    fun i => (map_keyed (hf i) i).1
  have hk : ∀ i, key ((r.slots i).map (f i)) = key (r.slots i) := fun i => (map_keyed (hf i) i).2
  refine ⟨⟨distinct_congr hu hk hr.distinct, ?_⟩, ?_⟩
  · exact hr.active.trans (inUseCount_congr hu).symm
  · exact BoundedSet.ext (keys_congr hu hk)

theorem WellFormed.attach {r : Roster} (hr : WellFormed r) (mac : Mac) (alloc : Bool) :
    WellFormed (attachStation r mac alloc).1 ∧
      (attachStation r mac alloc).1.stations = r.stations.add mac alloc := by
  have hstep := attach_step hr mac alloc
  generalize attachStation r mac alloc = out at hstep ⊢
  cases hstep with
  | found i h =>
    have hmem : mac ∈ r.stations.members := mem_keys_iff_holds.mpr ⟨i, h⟩
    exact ⟨hr, (BoundedSet.add_refused fun hadm => hadm.1 hmem).symm⟩
  | refused _ h => exact ⟨hr, (BoundedSet.add_refused h).symm⟩
  | opened i hfree h =>
    have hput : CanPut r.slots mac i := by
      refine Or.inr ⟨hfree, fun j hj => h.1 (mem_keys_iff_holds.mpr ⟨j, hj⟩)⟩
    have hu : inUse (some (Ctx.opened mac)) = true := rfl
    have hk : key (some (Ctx.opened mac)) = mac := rfl
    have hcount := inUseCount_claim (s := some (Ctx.opened mac)) hfree hu
    refine ⟨⟨distinct_put hr.distinct hput hu hk, ?_⟩, BoundedSet.ext ?_⟩
    · have hle := inUseCount_le (Function.update r.slots i (some (Ctx.opened mac)))
      have hmax : maxStations = 64 := rfl
      have hone : (1 : UInt32).toNat = 1 := rfl
      rw [hcount, UInt32.toNat_add, hr.active, hone, Nat.mod_eq_of_lt (by omega)]
    · rw [BoundedSet.add_members h]
      exact keys_put hput hu hk

theorem WellFormed.detach {r : Roster} (hr : WellFormed r) (mac : Mac) :
    WellFormed (detachStation r mac) ∧ (detachStation r mac).stations = r.stations.remove mac := by
  by_cases hmem : mac ∈ r.stations.members
  · obtain ⟨i, hi, heq⟩ := detach_of_mem hmem
    have hcount := inUseCount_free (t := r.slots) (s := none) hi.1 rfl
    rw [heq]
    refine ⟨⟨distinct_clear hr.distinct rfl, ?_⟩, BoundedSet.ext (keys_clear hr.distinct hi rfl)⟩
    -- the slot that is freed was counted, so the counter is positive
    have hone : (1 : UInt32).toNat = 1 := rfl
    have hactive := hr.active
    show (r.active - 1).toNat = inUseCount (Function.update r.slots i none)
    rw [UInt32.toNat_sub_of_le _ _ (UInt32.le_iff_toNat_le.mpr (by omega)), hone]
    omega
  · rw [detach_of_notMem hmem, BoundedSet.remove_of_notMem hmem]
    exact ⟨hr, rfl⟩

theorem WellFormed.ingest {r : Roster} (hr : WellFormed r) (mac : Mac)
    (record : ConnMetric.Record) :
    WellFormed (ingestMetric r mac record) ∧ (ingestMetric r mac record).stations = r.stations := by
  rw [ingest_eq hr]
  refine hr.map (f := fun _ ctx => if ctx.mac = mac then { ctx with sample := record } else ctx) ?_
  intro _ ctx
  split <;> rfl

@[simp] theorem attach_policy (r : Roster) (mac : Mac) (alloc : Bool) :
    (attachStation r mac alloc).1.policy = r.policy := by
  unfold attachStation
  split
  · rfl
  · split
    · rfl
    · split <;> rfl

@[simp] theorem detach_policy (r : Roster) (mac : Mac) :
    (detachStation r mac).policy = r.policy := by
  unfold detachStation
  split <;> rfl

@[simp] theorem ingest_policy (r : Roster) (mac : Mac) (record : ConnMetric.Record) :
    (ingestMetric r mac record).policy = r.policy := by
  unfold ingestMetric
  split <;> rfl

@[simp] theorem apply_policy (r : Roster) (op : Op) : (apply r op).policy = r.policy := by
  cases op with
  | event event mac alloc => cases event <;> simp [apply, onStationEvent]
  | attach mac alloc => exact attach_policy r mac alloc
  | detach mac => exact detach_policy r mac
  | ingest mac record => exact ingest_policy r mac record

/-- What a call leaves of the sample `sample` of the station `mac`. -/
def Op.write (mac : Mac) (sample : ConnMetric.Record) : Op → ConnMetric.Record
  | .ingest mac' record => if mac = mac' then record else sample
  | _ => sample

/-- A context that an entry point leaves in a slot was there before, with the same
trackers and the sample that `write` makes of its own, or is new in a slot that was free. -/
def Carried (write : Mac → ConnMetric.Record → ConnMetric.Record) (slot slot' : Option Ctx) :
    Prop :=
  ∀ ctx', slot' = some ctx' →
    (∃ ctx, slot = some ctx ∧ ctx'.mac = ctx.mac ∧ ctx'.track = ctx.track ∧
      ctx'.sample = write ctx.mac ctx.sample) ∨
      (slot = none ∧ ctx' = Ctx.opened ctx'.mac)

theorem carried_refl (slot : Option Ctx) : Carried (fun _ sample => sample) slot slot :=
  fun ctx' h => Or.inl ⟨ctx', h, rfl, rfl, rfl⟩

theorem attach_carried {r : Roster} (hr : WellFormed r) (mac : Mac) (alloc : Bool)
    (i : Fin maxStations) :
    Carried (fun _ sample => sample) (r.slots i) ((attachStation r mac alloc).1.slots i) := by
  have hstep := attach_step hr mac alloc
  generalize attachStation r mac alloc = out at hstep ⊢
  cases hstep with
  | found => exact carried_refl _
  | refused => exact carried_refl _
  | opened j hfree =>
    by_cases hij : i = j
    · subst hij
      intro ctx' h
      dsimp only at h
      rw [Function.update_self] at h
      obtain rfl := Option.some.inj h
      exact Or.inr ⟨by simpa using hfree, rfl⟩
    · dsimp only
      rw [Function.update_of_ne hij]
      exact carried_refl _

theorem detach_carried (r : Roster) (mac : Mac) (i : Fin maxStations) :
    Carried (fun _ sample => sample) (r.slots i) ((detachStation r mac).slots i) := by
  unfold detachStation
  cases slotOf r mac with
  | none => exact carried_refl _
  | some j =>
    by_cases hij : i = j
    · subst hij
      intro ctx' h
      simp at h
    · dsimp only
      rw [Function.update_of_ne hij]
      exact carried_refl _

theorem ingest_carried {r : Roster} (hr : WellFormed r) (mac : Mac) (record : ConnMetric.Record)
    (i : Fin maxStations) :
    Carried (fun mac' sample => if mac' = mac then record else sample) (r.slots i)
      ((ingestMetric r mac record).slots i) := by
  rw [ingest_eq hr]
  intro ctx' h
  obtain ⟨ctx, hctx, rfl⟩ := Option.map_eq_some_iff.mp h
  refine Or.inl ⟨ctx, hctx, ?_⟩
  dsimp only
  split
  · exact ⟨rfl, funext fun metric => by cases metric <;> rfl, rfl⟩
  · exact ⟨rfl, rfl, rfl⟩

theorem apply_carried {r : Roster} (hr : WellFormed r) (op : Op) (i : Fin maxStations) :
    Carried (fun mac sample => op.write mac sample) (r.slots i) ((apply r op).slots i) := by
  cases op with
  | event event mac alloc =>
    cases event with
    | assoc => exact attach_carried hr mac alloc i
    | disassoc => exact detach_carried r mac i
    | connChange => rw [apply, onStationEvent, reevalStation_eq]; exact carried_refl _
    | other code => exact carried_refl _
  | attach mac alloc => exact attach_carried hr mac alloc i
  | detach mac => exact detach_carried r mac i
  | ingest mac record => exact ingest_carried hr mac record i

theorem attach_newcomer {r : Roster} (hr : WellFormed r) (mac : Mac) (alloc : Bool) :
    ∃ k, ∀ i, r.slots i = none → (attachStation r mac alloc).1.slots i ≠ none → i = k := by
  have hstep := attach_step hr mac alloc
  generalize attachStation r mac alloc = out at hstep ⊢
  cases hstep with
  | found j => exact ⟨j, fun i hi h => absurd hi h⟩
  | refused => exact ⟨⟨0, by decide⟩, fun i hi h => absurd hi h⟩
  | opened j =>
    refine ⟨j, fun i hi h => ?_⟩
    by_contra hij
    exact h ((Function.update_of_ne hij _ _).trans hi)

theorem detach_none {r : Roster} {mac : Mac} {i : Fin maxStations} (h : r.slots i = none) :
    (detachStation r mac).slots i = none := by
  unfold detachStation
  cases slotOf r mac with
  | none => exact h
  | some j => by_cases hij : i = j <;> simp [hij, h]

theorem ingest_none {r : Roster} {mac : Mac} {record : ConnMetric.Record} {i : Fin maxStations}
    (h : r.slots i = none) : (ingestMetric r mac record).slots i = none := by
  unfold ingestMetric
  cases slotOf r mac with
  | none => exact h
  | some j =>
    by_cases hij : i = j
    · subst hij
      simp [h]
    · simp [hij, h]

/-- At most one free slot is taken. -/
theorem apply_newcomer {r : Roster} (hr : WellFormed r) (op : Op) :
    ∃ k, ∀ i, r.slots i = none → (apply r op).slots i ≠ none → i = k := by
  cases op with
  | event event mac alloc =>
    cases event with
    | assoc => exact attach_newcomer hr mac alloc
    | disassoc => exact ⟨⟨0, by decide⟩, fun i hi h => absurd (detach_none hi) h⟩
    | connChange =>
      rw [apply, onStationEvent, reevalStation_eq]
      exact ⟨⟨0, by decide⟩, fun i hi h => absurd hi h⟩
    | other code => exact ⟨⟨0, by decide⟩, fun i hi h => absurd hi h⟩
  | attach mac alloc => exact attach_newcomer hr mac alloc
  | detach mac => exact ⟨⟨0, by decide⟩, fun i hi h => absurd (detach_none hi) h⟩
  | ingest mac record => exact ⟨⟨0, by decide⟩, fun i hi h => absurd (ingest_none hi) h⟩

theorem attach_untracked {r : Roster} (hr : WellFormed r) {mac : Mac} {alloc : Bool}
    {i : Fin maxStations} {ctx : Ctx} (h : (attachStation r mac alloc).1.slots i = some ctx)
    (hfree : r.slots i = none) : ctx.mac ∉ r.stations.members := by
  have hstep := attach_step hr mac alloc
  generalize attachStation r mac alloc = out at hstep h
  cases hstep with
  | found => exact absurd (h.symm.trans hfree) (by simp)
  | refused => exact absurd (h.symm.trans hfree) (by simp)
  | opened j _ hadm =>
    dsimp only at h
    by_cases hij : i = j
    · subst hij
      rw [Function.update_self] at h
      obtain rfl := Option.some.inj h
      exact hadm.1
    · rw [Function.update_of_ne hij, hfree] at h
      cases h

/-- A context that comes to a free slot is for a station that was not tracked. -/
theorem apply_untracked {r : Roster} (hr : WellFormed r) (op : Op) {i : Fin maxStations}
    {ctx : Ctx} (h : (apply r op).slots i = some ctx) (hfree : r.slots i = none) :
    ctx.mac ∉ r.stations.members := by
  cases op with
  | event event mac alloc =>
    cases event with
    | assoc => exact attach_untracked hr h hfree
    | disassoc => exact absurd (h.symm.trans (detach_none hfree)) (by simp)
    | connChange =>
      rw [apply, onStationEvent, reevalStation_eq, hfree] at h
      cases h
    | other code => exact absurd (h.symm.trans hfree) (by simp)
  | attach mac alloc => exact attach_untracked hr h hfree
  | detach mac => exact absurd (h.symm.trans (detach_none hfree)) (by simp)
  | ingest mac record => exact absurd (h.symm.trans (ingest_none hfree)) (by simp)

/-! ## The sweep -/

/-- What the guarded section leaves in its slot. -/
def evaluated (policy : Policy) (now : Int) (slot : Option Ctx) : Option Ctx :=
  slot.map fun ctx => (evalCtx ctx policy now).1

/-- What it copies out for the reports. -/
def snapshot (policy : Policy) (now : Int) (slot : Option Ctx) :
    Option (ConnMetric.Record × List Excursion) :=
  slot.map fun ctx => (ctx.sample, (evalCtx ctx policy now).2)

theorem evalSlot_eq (r : Roster) (i : Fin maxStations) (now : Int) :
    evalSlot r i now =
      ({ r with slots := Function.update r.slots i (evaluated r.policy now (r.slots i)) },
        snapshot r.policy now (r.slots i)) := by
  unfold evalSlot
  cases h : r.slots i with
  | none =>
    have hkeep : Function.update r.slots i none = r.slots := by rw [← h, Function.update_eq_self]
    simp [evaluated, snapshot, hkeep]
  | some ctx => rfl

theorem WellFormed.evalSlot {r : Roster} (hr : WellFormed r) (i : Fin maxStations) (now : Int) :
    WellFormed (evalSlot r i now).1 := by
  have hmap := (hr.map (f := fun j ctx => if j = i then (evalCtx ctx r.policy now).1 else ctx)
    fun j ctx => by split <;> rfl).1
  rw [evalSlot_eq]
  have hslots : Function.update r.slots i (evaluated r.policy now (r.slots i)) = fun j =>
      (r.slots j).map fun ctx => if j = i then (evalCtx ctx r.policy now).1 else ctx := by
    funext j
    by_cases hj : j = i
    · subst hj
      simp [evaluated]
    · simp [hj]
  rw [hslots]
  exact hmap

section Sweep

variable {D : Type} [CDouble D] (lq : LinkQty D)

/-- A walk over slots evaluates each of them once, from what it held at the start. -/
theorem sweep_slots (now : Int) (is : List (Fin maxStations)) (hnd : is.Nodup) (r : Roster)
    (reports : List Report) :
    is.foldl (sweepSlot lq now) (r, reports) =
      ({ r with
          slots := fun i => if i ∈ is then evaluated r.policy now (r.slots i) else r.slots i },
        reports ++ is.flatMap fun i => reportsOf lq (snapshot r.policy now (r.slots i))) := by
  induction is generalizing r reports with
  | nil => simp
  | cons i is ih =>
    obtain ⟨hi, hnd⟩ := List.nodup_cons.mp hnd
    have hother : ∀ j ∈ is,
        Function.update r.slots i (evaluated r.policy now (r.slots i)) j = r.slots j :=
      fun j hj => Function.update_of_ne (fun he : j = i => hi (he ▸ hj)) _ _
    rw [List.foldl_cons, sweepSlot, evalSlot_eq, ih hnd, List.flatMap_cons]
    refine Prod.ext ?_ ?_
    · dsimp only
      congr 1
      funext j
      by_cases hj : j ∈ is
      · simp [hj, hother j hj]
      · by_cases hji : j = i
        · subst hji
          simp [hj]
        · simp [hj, hji]
    · have hrest : is.flatMap (fun j => reportsOf lq (snapshot r.policy now
          (Function.update r.slots i (evaluated r.policy now (r.slots i)) j))) =
            is.flatMap fun j => reportsOf lq (snapshot r.policy now (r.slots j)) :=
        List.flatMap_congr fun j hj => by rw [hother j hj]
      dsimp only
      rw [hrest, List.append_assoc]

theorem evalStation_eq (r : Roster) (now : Int) :
    evalStation lq r now =
      ({ r with slots := fun i => evaluated r.policy now (r.slots i) },
        (List.finRange maxStations).flatMap fun i =>
          reportsOf lq (snapshot r.policy now (r.slots i))) := by
  rw [evalStation, sweep_slots lq now _ (List.nodup_finRange _)]
  simp

@[simp] theorem evalStation_policy (r : Roster) (now : Int) :
    (evalStation lq r now).1.policy = r.policy :=
  congrArg (fun out => out.1.policy) (evalStation_eq lq r now)

theorem WellFormed.sweep {r : Roster} (hr : WellFormed r) (now : Int) :
    WellFormed (evalStation lq r now).1 ∧ (evalStation lq r now).1.stations = r.stations := by
  rw [evalStation_eq]
  exact hr.map fun _ ctx => evalCtx_mac ctx r.policy now

end Sweep

/-! ## Over a run of calls -/

/-- What an entry point means for the set of stations. -/
def Op.reference (s : BoundedSet Mac maxStations) : Op → BoundedSet Mac maxStations
  | .event .assoc mac alloc => s.add mac alloc
  | .event .disassoc mac _ => s.remove mac
  | .event .connChange _ _ => s
  | .event (.other _) _ _ => s
  | .attach mac alloc => s.add mac alloc
  | .detach mac => s.remove mac
  | .ingest _ _ => s

def Event.reference (s : BoundedSet Mac maxStations) : Event → BoundedSet Mac maxStations
  | .op o => o.reference s
  | .sweep _ => s

/-- The stations a run of calls tracks, by their meaning. -/
def reference (es : List Event) : BoundedSet Mac maxStations :=
  es.foldl Event.reference BoundedSet.empty

theorem WellFormed.apply {r : Roster} (hr : WellFormed r) (op : Op) :
    WellFormed (apply r op) ∧ (Life.apply r op).stations = op.reference r.stations := by
  cases op with
  | event event mac alloc =>
    cases event with
    | assoc => exact hr.attach mac alloc
    | disassoc => exact hr.detach mac
    | connChange => rw [Life.apply, onStationEvent, reevalStation_eq]; exact ⟨hr, rfl⟩
    | other code => exact ⟨hr, rfl⟩
  | attach mac alloc => exact hr.attach mac alloc
  | detach mac => exact hr.detach mac
  | ingest mac record => exact hr.ingest mac record

section Runs

variable {D : Type} [CDouble D] (lq : LinkQty D)

theorem WellFormed.step {r : Roster} (hr : WellFormed r) (e : Event) :
    WellFormed ((machine lq).step r e).1 ∧
      ((machine lq).step r e).1.stations = e.reference r.stations := by
  cases e with
  | op op => exact hr.apply op
  | sweep now => exact hr.sweep lq now

theorem refines (policy : Option Policy) (es : List Event) :
    WellFormed (after lq policy es) ∧ (after lq policy es).stations = reference es := by
  refine (machine lq).final_history
    (p := fun es r => WellFormed r ∧ r.stations = reference es) ⟨wellFormed_init policy, ?_⟩ ?_ es
  · exact BoundedSet.ext (by simp [Roster.stations, keys, init, reference, BoundedSet.empty])
  · rintro es e r ⟨hr, hs⟩
    obtain ⟨hr', hs'⟩ := hr.step lq e
    refine ⟨hr', hs'.trans ?_⟩
    rw [hs, reference, reference, List.foldl_append]
    rfl

/-- A roster as a set of stations, and the calls that leave it alone. -/
structure Tracks (r : Roster) (s : BoundedSet Mac maxStations) : Prop where
  distinct : ∀ i j ctx ctx', r.slots i = some ctx → r.slots j = some ctx' → ctx.mac = ctx'.mac →
    i = j
  active : r.active.toNat = (Finset.univ.filter fun i => (r.slots i).isSome = true).card
  tracked : ∀ mac, (∃ i ctx, r.slots i = some ctx ∧ ctx.mac = mac) ↔ mac ∈ s.members
  reattach : ∀ mac alloc, mac ∈ s.members → (attachStation r mac alloc).1 = r
  refused : ∀ mac alloc, ¬ s.Admits mac alloc → (attachStation r mac alloc).1 = r
  detach : ∀ mac, mac ∉ s.members → detachStation r mac = r
  ingest : ∀ mac record, mac ∉ s.members → ingestMetric r mac record = r
  connChange : ∀ mac alloc, onStationEvent r .connChange mac alloc = r
  sample : ∀ mac record, ingestMetric r mac record =
    { r with
      slots := fun i =>
        (r.slots i).map fun ctx => if ctx.mac = mac then { ctx with sample := record } else ctx }

theorem attach_of_not_admits {r : Roster} (hr : WellFormed r) {mac : Mac} {alloc : Bool}
    (h : ¬ r.stations.Admits mac alloc) : (attachStation r mac alloc).1 = r := by
  have hstep := attach_step hr mac alloc
  generalize attachStation r mac alloc = out at hstep ⊢
  cases hstep with
  | found => rfl
  | refused => rfl
  | opened _ _ hadm => exact absurd hadm h

theorem WellFormed.tracks {r : Roster} (hr : WellFormed r) : Tracks r r.stations where
  distinct := by
    intro i j ctx ctx' hi hj hmac
    exact hr.distinct ctx'.mac i j (holds_slot_iff.mpr ⟨ctx, hi, hmac⟩)
      (holds_slot_iff.mpr ⟨ctx', hj, rfl⟩)
  active := hr.active
  tracked := by
    intro mac
    rw [Roster.stations, mem_keys_iff_holds]
    simp only [holds_slot_iff]
  reattach := fun _ _ h => attach_of_not_admits hr fun hadm => hadm.1 h
  refused := fun _ _ h => attach_of_not_admits hr h
  detach := fun _ h => detach_of_notMem h
  ingest := fun _ record h => ingest_of_notMem h record
  connChange := fun mac _ => reevalStation_eq r mac
  sample := fun mac record => ingest_eq hr mac record

/-- Every run of calls refines the bounded set of stations it means. -/
theorem roster_refines_bounded_set (policy : Option Policy) (es : List Event) :
    Tracks (after lq policy es) (reference es) := by
  obtain ⟨hr, hs⟩ := refines lq policy es
  rw [← hs]
  exact hr.tracks

end Runs

end Wei.Life
