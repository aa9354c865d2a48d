import Wei.Infer.Run

/-!
# The membership map as a keyed store

The purpose of the map, stated without slots: it holds, for at most `maxClients`
MACs, the last record staged for each and the time it was staged. Staging
replaces or inserts and is refused only at the bound; a tick drops exactly the
MACs whose last record is older than the absence window. Every run of the
engine, read through `Engine.store`, is a run of this store.
-/
namespace Wei.Infer

open Wei.Lib Wei.Lib.SlotTable Wei.ConnScorer
open Track (maxClients)

/-- A record with the time it was staged. -/
structure Staged where
  record : ConnMetric.Record
  time : Int

/-- A finite map of bounded size from MACs to what was last staged for them. -/
structure Store where
  held : Mac → Option Staged
  members : Finset Mac
  mem_iff : ∀ mac, mac ∈ members ↔ (held mac).isSome = true
  bounded : members.card ≤ maxClients

namespace Store

theorem ext_held {s t : Store} (h : s.held = t.held) : s = t := by
  obtain ⟨hs, ms, is, bs⟩ := s
  obtain ⟨ht, mt, it, bt⟩ := t
  dsimp only at h
  subst h
  have hm : ms = mt := by
    ext mac
    rw [is, it]
  subst hm
  rfl

def empty : Store := ⟨fun _ => none, ∅, by simp, by simp⟩

def put (s : Store) (mac : Mac) (x : Staged)
    (room : mac ∈ s.members ∨ s.members.card < maxClients) : Store where
  held := Function.update s.held mac (some x)
  members := insert mac s.members
  mem_iff := by
    intro mac'
    by_cases hm : mac' = mac
    · subst hm
      simp
    · simp [hm, s.mem_iff mac']
  bounded := by
    rcases room with hm | hlt
    · rw [Finset.insert_eq_of_mem hm]
      exact s.bounded
    · exact (Finset.card_insert_le mac s.members).trans hlt

/-- Replace or insert, unless the store is full of other MACs. -/
def stage (s : Store) (mac : Mac) (x : Staged) : Store :=
  if room : mac ∈ s.members ∨ s.members.card < maxClients then s.put mac x room else s

/-- Drop what was staged more than the absence window before `now`. -/
def expire (s : Store) (now : Int) : Store where
  held := fun mac => (s.held mac).filter (fun x => decide (now - x.time ≤ Track.absenceDefaultMs))
  members := s.members.filter
    (fun mac => (s.held mac).any (fun x => decide (now - x.time ≤ Track.absenceDefaultMs)) = true)
  mem_iff := by
    intro mac
    rw [Finset.mem_filter, s.mem_iff]
    cases s.held mac with
    | none => simp
    | some x => simp
  bounded := (Finset.card_filter_le _ _).trans s.bounded

def step (s : Store) : Event → Store
  | .stage mac rec now => s.stage mac ⟨rec, now⟩
  | .tick now => s.expire now

end Store

/-! ## The engine's map, read as a store -/

section Engine

variable {D : Type} [CDouble D]

def Row.staged (row : Row D) : Staged := ⟨row.snapshot, row.slot.lastSeen⟩

def Engine.store (eng : Engine D) (h : WellFormed eng) : Store where
  held := fun mac => (cell eng mac).member.map Row.staged
  members := keys eng.rows
  mem_iff := by
    intro mac
    rw [mem_keys_iff h.distinct, Option.isSome_map]
    rfl
  bounded := card_keys_le h.distinct

theorem mem_members {eng : Engine D} (h : WellFormed eng) (mac : Mac) :
    mac ∈ (eng.store h).members ↔ Member eng mac := by
  rw [(eng.store h).mem_iff, member_iff h]
  simp [Engine.store]

theorem hasRoom_iff {eng : Engine D} (h : WellFormed eng) :
    hasRoom eng = true ↔ (eng.store h).members.card < maxClients := by
  change decide (∃ i, inUse (eng.rows i) = false) = true ↔ (keys eng.rows).card < maxClients
  rw [decide_eq_true_iff, card_keys h.distinct, inUseCount_lt_iff]

theorem score_staged (lq : LinkQty D) (policy : Policy) (now : Int) (room : Bool) (c : Cell D) :
    (c.score lq policy now room).1.member.map Row.staged = c.member.map Row.staged := by
  unfold Cell.score
  cases hc : c.member with
  | none => simp only [hc, Option.map_none]
  | some row =>
    cases hs : scoreRow lq policy now room row c.entry with
    | none => simp only [hs, hc]
    | some p =>
      obtain ⟨row', entry, out⟩ := p
      obtain ⟨_, _, hseen, hsnap⟩ := scoreRow_keeps hs
      simp only [hs, Option.map_some, Row.staged, hseen, hsnap]

omit [CDouble D] in
theorem reap_staged (now : Int) (c : Cell D) :
    (c.reap now).member.map Row.staged = (c.member.map Row.staged).filter
      (fun x => decide (now - x.time ≤ Track.absenceDefaultMs)) := by
  have habs : ∀ row : Row D, (!row.absent now) =
      decide (now - row.staged.time ≤ Track.absenceDefaultMs) := by
    intro row
    rw [Bool.eq_iff_iff]
    simp [Row.absent, Slot.absent, Row.staged]
  cases hc : c.member with
  | none => simp [Cell.reap, hc]
  | some row => simp [Cell.reap, hc, Option.filter, habs, apply_ite (Option.map Row.staged)]

/-- One call to the engine is one step of the store. -/
theorem store_step (lq : LinkQty D) {eng : Engine D} (h : WellFormed eng) (e : Event) :
    ((machine lq).step eng e).1.store (wellFormed_step lq h e) = (eng.store h).step e := by
  apply Store.ext_held
  funext mac
  obtain ⟨hcell, _⟩ := step_cell lq h mac e
  change (cell ((machine lq).step eng e).1 mac).member.map Row.staged = _
  rw [hcell]
  cases e with
  | tick now =>
    change ((((cell eng mac).score lq eng.policy now (trackerRoom eng mac)).1.reap now).member.map
      Row.staged) = _
    rw [reap_staged, score_staged]
    rfl
  | stage mac' rec now =>
    have hmem := mem_members h mac'
    have hroom := hasRoom_iff h
    simp only [cellStep, roomFor, Store.step, Store.stage]
    by_cases hm : mac' = mac
    · subst hm
      rw [if_pos rfl]
      cases hc : (cell eng mac').member with
      | some row =>
        have hin : mac' ∈ (eng.store h).members := by
          rw [hmem, member_iff h, hc]
          rfl
        rw [dif_pos (Or.inl hin)]
        simp [Cell.stage, hc, Store.put, Row.staged, Row.refreshed]
      | none =>
        have hout : mac' ∉ (eng.store h).members := by
          rw [hmem, member_iff h, hc]
          simp
        by_cases hr : hasRoom eng = true
        · rw [dif_pos (Or.inr (hroom.mp hr))]
          simp [Cell.stage, hc, hr, Store.put, Row.staged, Row.admitted]
        · rw [dif_neg (not_or.mpr ⟨hout, fun hlt => hr (hroom.mpr hlt)⟩)]
          simp [Cell.stage, hc, hr, Engine.store]
    · rw [if_neg hm]
      split
      · simp [Store.put, Function.update_of_ne (Ne.symm hm), Engine.store]
      · rfl

end Engine

/-! ## What the store holds -/

/-- What was last staged for `mac`. -/
def lastStaged (mac : Mac) (es : List Event) : Option Staged :=
  es.foldl (fun last e => match e with
    | .stage mac' rec now => if mac' = mac then some ⟨rec, now⟩ else last
    | .tick _ => last) none

theorem lastStaged_stage (mac mac' : Mac) (es : List Event) (rec : ConnMetric.Record) (now : Int) :
    lastStaged mac (es ++ [.stage mac' rec now]) =
      if mac' = mac then some ⟨rec, now⟩ else lastStaged mac es := by
  simp [lastStaged]

theorem lastStaged_tick (mac : Mac) (es : List Event) (now : Int) :
    lastStaged mac (es ++ [.tick now]) = lastStaged mac es := by
  simp [lastStaged]

theorem held_lastStaged (es : List Event) (mac : Mac) (x : Staged)
    (h : (es.foldl Store.step Store.empty).held mac = some x) : lastStaged mac es = some x := by
  induction es using List.reverseRecOn with
  | nil => cases h
  | append_singleton es e ih =>
    rw [List.foldl_append, List.foldl_cons, List.foldl_nil] at h
    generalize es.foldl Store.step Store.empty = s at h ih
    cases e with
    | tick now =>
      rw [lastStaged_tick]
      exact ih (Option.eq_some_of_filter_eq_some h)
    | stage mac' rec now =>
      rw [lastStaged_stage]
      simp only [Store.step, Store.stage] at h
      split at h
      · by_cases hm : mac = mac'
        · subst hm
          simpa [Store.put] using h
        · rw [if_neg (Ne.symm hm)]
          simp only [Store.put, Function.update_of_ne hm] at h
          exact ih h
      · rename_i hroom
        have hin : mac ∈ s.members := by
          rw [s.mem_iff, h]
          rfl
        rw [if_neg]
        · exact ih h
        · rintro rfl
          exact hroom (Or.inl hin)

/-! ## The map refines the store -/

section Refinement

variable {D : Type} [CDouble D] (lq : LinkQty D) (policy : Policy)

theorem store_final (es : List Event) {eng : Engine D} (h : WellFormed eng)
    (h' : WellFormed ((machine lq).final eng es)) :
    ((machine lq).final eng es).store h' = es.foldl Store.step (eng.store h) := by
  induction es generalizing eng with
  | nil => rfl
  | cons e es ih =>
    rw [List.foldl_cons, ← store_step lq h e]
    exact ih (wellFormed_step lq h e) h'

theorem store_create : (create policy : Engine D).store (wellFormed_create policy) = Store.empty := by
  apply Store.ext_held
  funext mac
  change (cell (create policy : Engine D) mac).member.map Row.staged = none
  rw [cell_create]
  rfl

theorem store_after (es : List Event) :
    (after lq policy es : Engine D).store (wellFormed_after lq policy es) =
      es.foldl Store.step Store.empty := by
  rw [← store_create (D := D) policy]
  exact store_final lq es _ _

theorem lastStaged_of_held {es : List Event} {mac : Mac} {row : Row D}
    (h : (cell (after lq policy es) mac).member = some row) : lastStaged mac es = some row.staged := by
  apply held_lastStaged
  rw [← store_after lq policy es]
  simp [Engine.store, h]

theorem after_concat (es : List Event) (e : Event) :
    (after lq policy (es ++ [e]) : Engine D) = ((machine lq).step (after lq policy es) e).1 :=
  (machine lq).final_concat _ _ _

/-- A member leaves at a tick that finds its last record too old, and never otherwise. -/
theorem leaves_iff {es : List Event} {mac : Mac} (hm : Member (after lq policy es : Engine D) mac)
    (e : Event) : ¬ Member (after lq policy (es ++ [e]) : Engine D) mac ↔
      ∃ now x, e = .tick now ∧ lastStaged mac es = some x ∧
        Track.absenceDefaultMs < now - x.time := by
  have h := wellFormed_after (D := D) lq policy es
  have hstep := store_step lq h e
  obtain ⟨row, hrow⟩ := Option.isSome_iff_exists.mp ((member_iff h mac).mp hm)
  have hlast := lastStaged_of_held lq policy hrow
  have hheld : ((after lq policy es).store h).held mac = some row.staged := by
    simp [Engine.store, hrow]
  rw [after_concat, ← mem_members (wellFormed_step lq h e), hstep, Store.mem_iff, hlast]
  cases e with
  | tick now =>
    simp [Store.step, Store.expire, hheld, Option.filter]
    omega
  | stage mac' rec now =>
    have hin : mac ∈ ((after lq policy es).store h).members := (mem_members h mac).mpr hm
    have hsome : (((after lq policy es).store h).stage mac' ⟨rec, now⟩).held mac ≠ none := by
      unfold Store.stage
      split
      · by_cases he : mac = mac'
        · subst he
          simp [Store.put]
        · simp [Store.put, he, hheld]
      · simp [hheld]
    simpa [Store.step, Option.isSome_iff_ne_none] using hsome

/-- A record is dropped only by a map that is full of other MACs, and without effect. -/
theorem dropped {eng : Engine D} (h : WellFormed eng) {mac : Mac} {rec : ConnMetric.Record}
    {now : Int} (hm : ¬ Member (stageRecord eng mac rec now) mac) :
    (∀ i, (eng.map.slots i).inUse = true) ∧ stageRecord eng mac rec now = eng := by
  have hwf := wellFormed_stage h mac rec now
  have hspec := stage_spec h mac rec now
  generalize stageRecord eng mac rec now = eng' at hspec hm hwf ⊢
  cases hspec with
  | refresh i hi _ hrows _ _ =>
    refine absurd ⟨i, holds_rows.mp ?_⟩ hm
    rw [Holds, hrows, Function.update_self]
    exact hi
  | claim i _ _ _ hrows _ _ =>
    refine absurd ⟨i, holds_rows.mp ?_⟩ hm
    rw [Holds, hrows, Function.update_self]
    exact ⟨rfl, rfl⟩
  | drop hfull _ => exact ⟨hfull, rfl⟩

theorem staged_of_member {eng : Engine D} (h : WellFormed eng) {mac : Mac} (hm : Member eng mac)
    (rec : ConnMetric.Record) (now : Int) :
    ∃ i, Holds (stageRecord eng mac rec now).map.slots mac i ∧
      (stageRecord eng mac rec now).snapshot i = rec := by
  obtain ⟨j, hj⟩ := hm
  have hspec := stage_spec h mac rec now
  generalize stageRecord eng mac rec now = eng' at hspec ⊢
  cases hspec with
  | refresh i hi _ hrows _ _ =>
    have hrow : eng'.rows i = (eng.rows i).refreshed rec now := by
      rw [hrows, Function.update_self]
    refine ⟨i, holds_rows.mp ?_, congrArg Row.snapshot hrow⟩
    rw [Holds, hrow]
    exact hi
  | claim _ _ habs _ _ _ _ => exact absurd (holds_rows.mpr hj) (habs j)
  | drop _ habs => exact absurd (holds_rows.mpr hj) (habs j)

theorem member_sweep {eng : Engine D} (h : WellFormed eng) (now : Int) (mac : Mac) :
    Member (sweep lq now eng).1 mac ↔ Member eng mac :=
  exists_congr fun _ => (swept_all lq now h).holds_iff

theorem membership_map_refines_store (es : List Event) :
    (after lq policy es : Engine D).store (wellFormed_after lq policy es) =
        es.foldl Store.step Store.empty ∧
    Distinct (after lq policy es : Engine D).map.slots ∧
    (after lq policy es : Engine D).map.count.toNat =
        inUseCount (after lq policy es : Engine D).map.slots ∧
    (after lq policy es : Engine D).map.count.toNat ≤ maxClients ∧
    (∀ i, ((after lq policy es : Engine D).map.slots i).inUse = true →
      lastStaged ((after lq policy es : Engine D).map.slots i).mac es =
        some ⟨(after lq policy es : Engine D).snapshot i,
          ((after lq policy es : Engine D).map.slots i).lastSeen⟩) ∧
    (∀ mac rec now, Member (after lq policy es : Engine D) mac →
      ∃ i, Holds (after lq policy (es ++ [.stage mac rec now]) : Engine D).map.slots mac i ∧
        (after lq policy (es ++ [.stage mac rec now]) : Engine D).snapshot i = rec) ∧
    (∀ mac rec now, ¬ Member (after lq policy (es ++ [.stage mac rec now]) : Engine D) mac →
      (∀ i, ((after lq policy es : Engine D).map.slots i).inUse = true) ∧
        (after lq policy (es ++ [.stage mac rec now]) : Engine D) = after lq policy es) ∧
    (∀ mac now, Member (sweep lq now (after lq policy es)).1 mac ↔
      Member (after lq policy es : Engine D) mac) ∧
    (∀ mac e, Member (after lq policy es : Engine D) mac →
      (¬ Member (after lq policy (es ++ [e]) : Engine D) mac ↔
        ∃ now x, e = .tick now ∧ lastStaged mac es = some x ∧ 30000 < now - x.time)) := by
  have h := wellFormed_after (D := D) lq policy es
  refine ⟨store_after lq policy es, h.distinct, h.count, ?_, ?_, ?_, ?_, ?_, ?_⟩
  · rw [h.count]
    exact inUseCount_le _
  · intro i hi
    exact lastStaged_of_held lq policy (cell_member_of_holds h (i := i) ⟨hi, rfl⟩)
  · intro mac rec now hm
    rw [after_concat]
    exact staged_of_member h hm rec now
  · intro mac rec now hm
    rw [after_concat] at hm ⊢
    exact dropped h hm
  · exact fun mac now => member_sweep lq h now mac
  · exact fun mac e hm => leaves_iff lq policy hm e

end Refinement

end Wei.Infer
