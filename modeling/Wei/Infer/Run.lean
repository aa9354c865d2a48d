import Wei.Infer.Tick

/-!
# Runs of the engine

The invariant of every reachable state, and the simulation lifted to runs. Where
at most `maxClients` MACs occur, neither fixed table ever turns a client away:
such a run shows every MAC the run of its own cell, `solo`, on which no other
client has any effect.
-/
namespace Wei.Infer

open Wei.Lib Wei.Lib.SlotTable Wei.ConnScorer
open Track (maxClients)

variable {D : Type} [CDouble D]

/-! ## Every reachable state -/

section Reachable

variable (lq : LinkQty D) (policy : Policy)

theorem wellFormed_step {eng : Engine D} (h : WellFormed eng) (e : Event) :
    WellFormed ((machine lq).step eng e).1 := by
  cases e with
  | stage mac rec now => exact wellFormed_stage h mac rec now
  | tick now => exact wellFormed_tick lq now h

theorem wellFormed_after (es : List Event) : WellFormed (after lq policy es) :=
  (machine lq).final_induction (p := WellFormed) (fun _ e h => wellFormed_step lq h e)
    (wellFormed_create policy) es

theorem policy_step {eng : Engine D} (h : WellFormed eng) (e : Event) :
    ((machine lq).step eng e).1.policy = eng.policy := by
  cases e with
  | stage mac rec now => exact stageRecord_policy eng mac rec now
  | tick now => exact tick_policy lq now h

theorem policy_after (es : List Event) : (after lq policy es : Engine D).policy = policy := by
  have hinv : WellFormed (after lq policy es) ∧ (after lq policy es : Engine D).policy = policy := by
    refine (machine lq).final_induction (p := fun eng => WellFormed eng ∧ eng.policy = policy)
      ?_ ⟨wellFormed_create policy, rfl⟩ es
    intro eng e h
    exact ⟨wellFormed_step lq h.1 e, (policy_step lq h.1 e).trans h.2⟩
  exact hinv.2

end Reachable

/-! ## One step of a cell -/

/-- One call, as the cell of `mac` sees it. -/
def cellStep (lq : LinkQty D) (policy : Policy) (mac : Mac) (room : Bool) (c : Cell D) :
    Event → Cell D × Option Emission
  | .stage mac' rec now => (if mac' = mac then c.stage room mac rec now else c, none)
  | .tick now => c.tick lq policy now room

/-- What the engine's tables grant `mac` at a call. -/
def roomFor (eng : Engine D) (mac : Mac) : Event → Bool
  | .stage _ _ _ => hasRoom eng
  | .tick _ => trackerRoom eng mac

theorem step_cell (lq : LinkQty D) {eng : Engine D} (h : WellFormed eng) (mac : Mac) (e : Event) :
    cell ((machine lq).step eng e).1 mac =
      (cellStep lq eng.policy mac (roomFor eng mac e) (cell eng mac) e).1 ∧
    emissionOf mac ((machine lq).step eng e).2 =
      (cellStep lq eng.policy mac (roomFor eng mac e) (cell eng mac) e).2 := by
  cases e with
  | stage mac' rec now =>
    refine ⟨?_, rfl⟩
    by_cases hm : mac' = mac
    · subst hm
      simp only [cellStep, if_true, roomFor]
      exact stage_cell_self h mac' rec now
    · simp only [cellStep, if_neg hm]
      exact stage_cell_of_ne h (Ne.symm hm) rec now
  | tick now => exact tick_cell lq now h mac

/-- The cell of `mac` on its own: there is always room. -/
def solo (lq : LinkQty D) (policy : Policy) (mac : Mac) : Mealy (Cell D) Event (Option Emission) :=
  ⟨cellStep lq policy mac true⟩

/-! ## The MACs that the tables hold -/

/-- Both tables hold MACs of `S` only. -/
structure Within (S : Finset Mac) (eng : Engine D) : Prop where
  member : keys eng.rows ⊆ S
  tracked : keys eng.tracker ⊆ S

theorem within_create (policy : Policy) (S : Finset Mac) :
    Within S (create policy : Engine D) := by
  constructor
  · intro mac hm
    obtain ⟨i, hi⟩ := mem_keys_iff_holds.mp hm
    exact absurd hi.1 (by simp [Engine.rows, create, Slot.zero, inUse])
  · rw [show (create policy : Engine D).tracker = Track.init from rfl, Track.keys_init]
    exact Finset.empty_subset S

omit [CDouble D] in
theorem Within.mono {S T : Finset Mac} {eng : Engine D} (h : Within S eng) (hST : S ⊆ T) :
    Within T eng := ⟨h.member.trans hST, h.tracked.trans hST⟩

omit [CDouble D] in
theorem scoredMacs_subset (eng : Engine D) (is : List (Fin maxClients)) :
    scoredMacs eng is ⊆ keys eng.rows := by
  intro mac hm
  obtain ⟨i, _, hsc, hmac⟩ := mem_scoredMacs.mp hm
  rw [scorable, Bool.and_eq_true] at hsc
  exact mem_keys_iff_holds.mpr ⟨i, hsc.1, hmac⟩

theorem within_stage {S : Finset Mac} {eng : Engine D} (h : WellFormed eng) (hw : Within S eng)
    {mac : Mac} (hmac : mac ∈ S) (rec : ConnMetric.Record) (now : Int) :
    Within S (stageRecord eng mac rec now) := by
  have hspec := stage_spec h mac rec now
  generalize stageRecord eng mac rec now = eng' at hspec ⊢
  cases hspec with
  | refresh i hi _ hrows _ htrk =>
    refine ⟨?_, htrk ▸ hw.tracked⟩
    rw [hrows, keys_put (k := mac) (Or.inl hi) (s := (eng.rows i).refreshed rec now) hi.1 hi.2]
    exact Finset.insert_subset hmac hw.member
  | claim i hfree habs _ hrows _ htrk =>
    refine ⟨?_, htrk ▸ hw.tracked⟩
    rw [hrows, keys_put (k := mac) (Or.inr ⟨hfree, habs⟩) rfl rfl]
    exact Finset.insert_subset hmac hw.member
  | drop _ _ => exact hw

theorem within_tick {S : Finset Mac} (lq : LinkQty D) (now : Int) {eng : Engine D}
    (h : WellFormed eng) (hw : Within S eng) : Within S (tick lq eng now).1 := by
  have hs := swept_all lq now h
  rw [tick_eq]
  have hr := mapReap_reaped now { (sweep lq now eng).1 with
    tracker := Track.reap (sweep lq now eng).1.tracker now Track.absenceDefaultMs }
  constructor
  · rw [hr.release_eq]
    refine (keys_release_subset (fun _ => rfl) _).trans ?_
    intro mac hm
    obtain ⟨i, hi⟩ := mem_keys_iff_holds.mp hm
    exact hw.member (mem_keys_iff_holds.mpr ⟨i, hs.holds_iff.mp hi⟩)
  · rw [hr.tracker]
    refine (Track.keys_reap_subset _ _ _).trans (hs.keys_le.trans ?_)
    exact Finset.union_subset hw.tracked ((scoredMacs_subset eng _).trans hw.member)

theorem mem_macs {mac : Mac} {es : List Event} : mac ∈ macs es ↔ ∃ e ∈ es, e.mac? = some mac := by
  simp [macs]

theorem macs_subset_append (es fs : List Event) : macs es ⊆ macs (es ++ fs) := by
  intro mac hm
  obtain ⟨e, he, hmac⟩ := mem_macs.mp hm
  exact mem_macs.mpr ⟨e, List.mem_append_left _ he, hmac⟩

theorem mem_macs_concat {mac : Mac} (es : List Event) {e : Event} (h : e.mac? = some mac) :
    mac ∈ macs (es ++ [e]) :=
  mem_macs.mpr ⟨e, List.mem_append_right _ (List.mem_singleton_self e), h⟩

theorem within_after (lq : LinkQty D) (policy : Policy) (es : List Event) :
    Within (macs es) (after lq policy es) := by
  have hinv : WellFormed (after lq policy es) ∧ Within (macs es) (after lq policy es) := by
    refine (machine lq).final_history (p := fun es eng => WellFormed eng ∧ Within (macs es) eng)
      ⟨wellFormed_create policy, within_create policy _⟩ ?_ es
    rintro es e eng ⟨h, hw⟩
    refine ⟨wellFormed_step lq h e, ?_⟩
    have hw' := hw.mono (macs_subset_append es [e])
    cases e with
    | stage mac rec now => exact within_stage h hw' (mem_macs_concat es rfl) rec now
    | tick now => exact within_tick lq now h hw'
  exact hinv.2

/-! ## Runs of few clients -/

theorem hasRoom_of_few {S : Finset Mac} {eng : Engine D} (h : WellFormed eng) (hw : Within S eng)
    (hcard : S.card ≤ maxClients) {mac : Mac} (hmac : mac ∈ S)
    (hnone : (cell eng mac).member = none) : hasRoom eng = true := by
  have hne := scan_ne_full h.distinct hw.member hcard hmac
  cases hs : scan eng.rows mac with
  | hit i =>
    rw [cell_member_of_holds h (scan_hit hs)] at hnone
    cases hnone
  | free i => exact decide_eq_true ⟨i, (scan_free hs).1⟩
  | full => exact absurd hs hne

theorem trackerRoom_of_few {S : Finset Mac} {eng : Engine D} (h : WellFormed eng)
    (hw : Within S eng) (hcard : S.card ≤ maxClients) {mac : Mac} {i : Fin maxClients}
    (hi : Holds eng.rows mac i) : trackerRoom eng mac = true := by
  have hmac : mac ∈ S := hw.member (mem_keys_iff_holds.mpr ⟨i, hi⟩)
  obtain ⟨_, _, hbefore, _⟩ := exists_split h hi
  rw [trackerRoom, decide_eq_true_iff]
  by_cases hk : mac ∈ keys eng.tracker
  · exact Or.inl hk
  · right
    have hsub : keys eng.tracker ∪ scoredMacs eng (slotsBefore eng mac) ⊆ S.erase mac := by
      intro x hx
      rcases Finset.mem_union.mp hx with hx | hx
      · exact Finset.mem_erase.mpr ⟨fun he => hk (he ▸ hx), hw.tracked hx⟩
      · exact Finset.mem_erase.mpr ⟨fun he => hbefore (he ▸ hx),
          hw.member (scoredMacs_subset eng _ hx)⟩
    have hle := Finset.card_le_card hsub
    rw [Finset.card_erase_of_mem hmac] at hle
    have hpos := Finset.card_pos.mpr ⟨mac, hmac⟩
    omega

/-- Room for a MAC only matters when it is admitted or scored. -/
theorem cellStep_room {S : Finset Mac} (lq : LinkQty D) (policy : Policy) {eng : Engine D}
    (h : WellFormed eng) (hw : Within S eng) (hcard : S.card ≤ maxClients) (mac : Mac) {e : Event}
    (he : ∀ mac', e.mac? = some mac' → mac' ∈ S) :
    cellStep lq policy mac (roomFor eng mac e) (cell eng mac) e =
      cellStep lq policy mac true (cell eng mac) e := by
  cases e with
  | stage mac' rec now =>
    by_cases hm : mac' = mac
    · subst hm
      cases hc : (cell eng mac').member with
      | some row => simp [cellStep, Cell.stage, hc]
      | none => rw [roomFor, hasRoom_of_few h hw hcard (he mac' rfl) hc]
    · simp [cellStep, hm]
  | tick now =>
    cases hc : (cell eng mac).member with
    | none => simp [cellStep, Cell.tick, Cell.score, hc]
    | some row =>
      obtain ⟨i, hi, _⟩ := holds_of_lookup hc
      rw [roomFor, trackerRoom_of_few h hw hcard hi]

/-- A run of at most `maxClients` MACs is, for each of them, the run of its cell. -/
theorem run_solo (lq : LinkQty D) (policy : Policy) (mac : Mac) (es : List Event)
    (hcard : (macs es).card ≤ maxClients) :
    cell (after lq policy es) mac = (solo lq policy mac).final Cell.empty es ∧
    ((machine lq).outputs (create policy) es).map (emissionOf mac) =
      (solo lq policy mac).outputs Cell.empty es := by
  induction es using List.reverseRecOn with
  | nil => exact ⟨cell_create policy mac, rfl⟩
  | append_singleton es e ih =>
    have hsub := macs_subset_append es [e]
    obtain ⟨hcell, hout⟩ := ih ((Finset.card_le_card hsub).trans hcard)
    have h := wellFormed_after (D := D) lq policy es
    have hw := (within_after (D := D) lq policy es).mono hsub
    obtain ⟨hstep, hemit⟩ := step_cell lq h mac e
    have hroom := cellStep_room lq policy h hw hcard mac (e := e)
      fun mac' hm => mem_macs_concat es hm
    rw [policy_after, hroom, hcell] at hstep hemit
    refine ⟨?_, ?_⟩
    · rw [after, Mealy.final_concat, Mealy.final_concat]
      exact hstep
    · rw [Mealy.outputs_concat, Mealy.outputs_concat, List.map_append, hout]
      exact congrArg (fun x => (solo lq policy mac).outputs Cell.empty es ++ [x]) hemit

/-- A tick of a run of few MACs, read at one of them. -/
theorem tick_few (lq : LinkQty D) (policy : Policy) (mac : Mac) {es : List Event} (now : Int)
    (hcard : (macs es).card ≤ maxClients) :
    cell (tick lq (after lq policy es) now).1 mac =
      ((cell (after lq policy es) mac).tick lq policy now true).1 ∧
    emissionOf mac (tick lq (after lq policy es) now).2 =
      ((cell (after lq policy es) mac).tick lq policy now true).2 := by
  have h := wellFormed_after (D := D) lq policy es
  have hroom := cellStep_room lq policy h (within_after lq policy es) hcard mac
    (e := .tick now) (by simp [Event.mac?])
  have hstep := tick_cell lq now h mac
  rw [policy_after] at hstep
  exact ⟨hstep.1.trans (congrArg Prod.fst hroom), hstep.2.trans (congrArg Prod.snd hroom)⟩

end Wei.Infer
