import Mathlib.Order.Interval.Set.Defs
import Wei.Infer.Store
import Wei.Lib.RealDouble

/-!
# Which clients the tracker times

A call of `wei_track_get` made by a tick returns no entry only when the tracker
is full of other MACs. Its entries are stamped by scoring, so what fills it is
read off the history: the MACs scored at some tick that no later tick is more
than the absence window after.
-/
namespace Wei.Infer

open Wei.Lib Wei.Lib.SlotTable Wei.ConnScorer
open Track (maxClients)

variable {D : Type} [CDouble D]

/-! ## The tracker entry of a cell over one tick -/

theorem scoreRow_entry {lq : LinkQty D} {policy : Policy} {now : Int} {room : Bool}
    {row row' : Row D} {entry e : Option Track.Entry} {out : Result}
    (h : scoreRow lq policy now room row entry = some (row', e, out)) :
    ∃ instability, e = (timedEntry policy room row.slot.mac instability now entry).map (·.1) := by
  unfold scoreRow at h
  split at h
  · cases h
  · rename_i st _ _
    dsimp only at h
    obtain ⟨-, h⟩ := Prod.mk.inj (Option.some.inj h)
    obtain ⟨he, -⟩ := Prod.mk.inj h
    exact ⟨phyInstability st, he.symm⟩

section CellTick

variable (lq : LinkQty D) (policy : Policy) (now : Int) (room : Bool) {c : Cell D}

theorem tick_entry_idle (h : ¬ c.Scorable) :
    (c.tick lq policy now room).1.entry =
      c.entry.filter (fun e => !e.absent now Track.absenceDefaultMs) := by
  rw [Cell.tick, score_idle lq policy now room h, Cell.reap]

/-- An entry that times a scored client is stamped with the tick. -/
theorem tick_entry_lastSeen (h : c.Scorable) {e : Track.Entry}
    (he : (c.tick lq policy now room).1.entry = some e) : e.lastSeen = now := by
  obtain ⟨row, row', e', out, _, hrow, hs⟩ := score_scored lq policy now room h
  obtain ⟨instability, hent⟩ := scoreRow_entry hrow
  rw [Cell.tick, hs] at he
  have he' : e' = some e := Option.eq_some_of_filter_eq_some he
  rw [he'] at hent
  cases hc : c.entry with
  | some a =>
    rw [hc, timedEntry, obtainEntry, Option.map_some, Option.map_some] at hent
    rw [Option.some.inj hent]
    simp
  | none =>
    cases room with
    | false => simp [hc, timedEntry, obtainEntry] at hent
    | true =>
      simp only [hc, timedEntry, obtainEntry, if_true, Option.map_some] at hent
      rw [Option.some.inj hent]
      simp

/-- With room, every scored client leaves the tick with an entry. -/
theorem tick_entry_isSome (h : c.Scorable) : ((c.tick lq policy now true).1.entry).isSome = true := by
  obtain ⟨row, row', e', out, _, hrow, hs⟩ := score_scored lq policy now true h
  obtain ⟨instability, hent⟩ := scoreRow_entry hrow
  rw [Cell.tick, hs]
  cases hc : c.entry with
  | some a =>
    rw [hc, timedEntry, obtainEntry, Option.map_some, Option.map_some] at hent
    rw [Cell.reap, hent, kept_of_seen (by simp)]
    rfl
  | none =>
    simp only [hc, timedEntry, obtainEntry, if_true, Option.map_some] at hent
    rw [Cell.reap, hent, kept_of_seen (by simp)]
    rfl

end CellTick

/-! ## The calls of a tick -/

/-- The MACs whose score a tick at `now` publishes. -/
def scoredAt (lq : LinkQty D) (eng : Engine D) (now : Int) : Finset Mac :=
  ((tick lq eng now).2.map (·.mac)).toFinset

theorem mem_scoredAt {lq : LinkQty D} {eng : Engine D} {now : Int} {mac : Mac} :
    mac ∈ scoredAt lq eng now ↔ ∃ s ∈ (tick lq eng now).2, s.mac = mac := by
  simp [scoredAt]

theorem mem_scoredAt_iff (lq : LinkQty D) {eng : Engine D} (h : WellFormed eng) (now : Int)
    (mac : Mac) : mac ∈ scoredAt lq eng now ↔ (cell eng mac).Scorable := by
  obtain ⟨_, hemit⟩ := tick_cell lq now h mac
  rw [← tick_emits_iff lq eng.policy now (trackerRoom eng mac), ← hemit, emissionOf,
    Option.isSome_map, Option.isSome_iff_ne_none, Ne, callFor_eq_none, not_not, scoredAt,
    List.mem_toFinset]

theorem scoredAt_eq (lq : LinkQty D) {eng : Engine D} (h : WellFormed eng) (now : Int) :
    scoredAt lq eng now = scoredMacs eng (List.finRange maxClients) := by
  obtain ⟨out, ho, hm⟩ := (swept_all lq now h).output
  have hout : (tick lq eng now).2 = out := ho.trans (List.nil_append out)
  rw [scoredAt, hout, hm, scoredMacs]

/-- Every scored client of the tick at `now` gets an entry. -/
def AllTimed (lq : LinkQty D) (eng : Engine D) (now : Int) : Prop :=
  ∀ s ∈ (tick lq eng now).2, s.entry ≠ none

theorem trackerRoom_of_allTimed {lq : LinkQty D} {eng : Engine D} (h : WellFormed eng) {now : Int}
    (ht : AllTimed lq eng now) {mac : Mac} (hm : mac ∈ scoredAt lq eng now) :
    trackerRoom eng mac = true := by
  obtain ⟨s, hs, rfl⟩ := mem_scoredAt.mp hm
  have hne := ht s hs
  rwa [Ne, tick_timed lq now h hs, Bool.not_eq_false] at hne

/-- `mac` was scored at a tick of `es` that no later tick is too far from. -/
def Recent (lq : LinkQty D) (policy : Policy) (es : List Event) (mac : Mac) : Prop :=
  ∃ pre t post, es = pre ++ .tick t :: post ∧
    mac ∈ scoredAt lq (after lq policy pre : Engine D) t ∧
    ∀ t', Event.tick t' ∈ post → t' - t ≤ Track.absenceDefaultMs

section Runs

variable (lq : LinkQty D) (policy : Policy)

theorem entry_stage {es : List Event} (mac mac' : Mac) (rec : ConnMetric.Record) (now : Int) :
    lookup (after lq policy (es ++ [.stage mac' rec now]) : Engine D).tracker mac =
      lookup (after lq policy es : Engine D).tracker mac := by
  rw [after_concat]
  have hspec := stage_spec (wellFormed_after (D := D) lq policy es) mac' rec now
  change lookup (stageRecord (after lq policy es) mac' rec now).tracker mac = _
  generalize stageRecord (after lq policy es) mac' rec now = eng' at hspec ⊢
  cases hspec with
  | refresh _ _ _ _ _ htrk => rw [htrk]
  | claim _ _ _ _ _ _ htrk => rw [htrk]
  | drop _ _ => rfl

theorem entry_tick {es : List Event} (mac : Mac) (now : Int) :
    lookup (after lq policy (es ++ [.tick now]) : Engine D).tracker mac =
      ((cell (after lq policy es) mac).tick lq policy now
        (trackerRoom (after lq policy es : Engine D) mac)).1.entry := by
  have hstep := (tick_cell lq now (wellFormed_after (D := D) lq policy es) mac).1
  rw [policy_after] at hstep
  rw [after_concat]
  exact congrArg Cell.entry hstep

/-- An entry in the tracker was stamped by a tick that scored its client. -/
theorem entry_recent {es : List Event} {mac : Mac} {e : Track.Entry}
    (he : lookup (after lq policy es : Engine D).tracker mac = some e) :
    ∃ pre post, es = pre ++ .tick e.lastSeen :: post ∧
      mac ∈ scoredAt lq (after lq policy pre : Engine D) e.lastSeen ∧
      ∀ t, Event.tick t ∈ post → t - e.lastSeen ≤ Track.absenceDefaultMs := by
  induction es using List.reverseRecOn generalizing e with
  | nil =>
    have hnone : lookup (create policy : Engine D).tracker mac = none :=
      congrArg Cell.entry (cell_create (D := D) policy mac)
    rw [after, Mealy.final_nil, hnone] at he
    cases he
  | append_singleton es ev ih =>
    cases ev with
    | stage mac' rec now =>
      rw [entry_stage] at he
      obtain ⟨pre, post, hes, hs, hpost⟩ := ih he
      refine ⟨pre, post ++ [.stage mac' rec now], by rw [hes]; simp, hs, ?_⟩
      intro t ht
      exact hpost t (by simpa using ht)
    | tick now =>
      have hwf := wellFormed_after (D := D) lq policy es
      rw [entry_tick] at he
      by_cases hsc : (cell (after lq policy es : Engine D) mac).Scorable
      · obtain rfl := tick_entry_lastSeen lq policy now _ hsc he
        exact ⟨es, [], rfl, (mem_scoredAt_iff lq hwf _ mac).mpr hsc, by simp⟩
      · rw [tick_entry_idle lq policy now _ hsc] at he
        obtain ⟨pre, post, hes, hs, hpost⟩ := ih (Option.eq_some_of_filter_eq_some he)
        have hkeep : now - e.lastSeen ≤ Track.absenceDefaultMs := by
          have hk := (Option.filter_eq_some_iff.mp he).2
          simp [Track.Entry.absent] at hk
          omega
        refine ⟨pre, post ++ [.tick now], by rw [hes]; simp, hs, ?_⟩
        intro t ht
        rcases List.mem_append.mp ht with ht | ht
        · exact hpost t ht
        · obtain rfl : t = now := by simpa using ht
          exact hkeep

/-- While every call gets an entry, a recently scored client keeps one. -/
theorem recent_entry {mac : Mac} {pre : List Event} {t : Int} (post : List Event)
    (hclock : (pre ++ .tick t :: post).Pairwise (fun e f => e.now ≤ f.now))
    (htimed : ∀ pre' now post', pre ++ .tick t :: post = pre' ++ .tick now :: post' →
      AllTimed lq (after lq policy pre' : Engine D) now)
    (hs : mac ∈ scoredAt lq (after lq policy pre : Engine D) t)
    (hpost : ∀ t', Event.tick t' ∈ post → t' - t ≤ Track.absenceDefaultMs) :
    ∃ e, lookup (after lq policy (pre ++ .tick t :: post) : Engine D).tracker mac = some e ∧
      t ≤ e.lastSeen := by
  -- a tick that scores the client leaves it an entry stamped with that tick
  have hscored : ∀ es now, AllTimed lq (after lq policy es : Engine D) now →
      (cell (after lq policy es : Engine D) mac).Scorable →
      ∃ e, lookup (after lq policy (es ++ [.tick now]) : Engine D).tracker mac = some e ∧
        e.lastSeen = now := by
    intro es now ht hsc
    have hwf := wellFormed_after (D := D) lq policy es
    have hroom := trackerRoom_of_allTimed hwf ht ((mem_scoredAt_iff lq hwf now mac).mpr hsc)
    have hsome := tick_entry_isSome lq policy now hsc
    rw [entry_tick, hroom]
    obtain ⟨e, he⟩ := Option.isSome_iff_exists.mp hsome
    exact ⟨e, he, tick_entry_lastSeen lq policy now true hsc he⟩
  induction post using List.reverseRecOn with
  | nil =>
    have hsc := (mem_scoredAt_iff lq (wellFormed_after (D := D) lq policy pre) t mac).mp hs
    obtain ⟨e, he, hseen⟩ := hscored pre t (htimed pre t [] rfl) hsc
    exact ⟨e, he, hseen.ge⟩
  | append_singleton post ev ih =>
    have hsplit : pre ++ .tick t :: (post ++ [ev]) = (pre ++ .tick t :: post) ++ [ev] := by simp
    rw [hsplit] at hclock ⊢
    obtain ⟨e, he, hle⟩ := ih (List.pairwise_append.mp hclock).1
      (fun pre' now post' h => htimed pre' now (post' ++ [ev]) (by rw [hsplit, h]; simp))
      (fun t' ht' => hpost t' (List.mem_append_left _ ht'))
    cases ev with
    | stage mac' rec now =>
      rw [entry_stage]
      exact ⟨e, he, hle⟩
    | tick now =>
      have hnow : t ≤ now :=
        (List.pairwise_append.mp hclock).2.2 (.tick t) (by simp) (.tick now) (by simp)
      by_cases hsc : (cell (after lq policy (pre ++ .tick t :: post) : Engine D) mac).Scorable
      · have ht := htimed (pre ++ .tick t :: post) now [] (by simp)
        obtain ⟨e', he', hseen⟩ := hscored _ now ht hsc
        exact ⟨e', he', hseen ▸ hnow⟩
      · have hfar := hpost now (by simp)
        have hent : (cell (after lq policy (pre ++ .tick t :: post) : Engine D) mac).entry =
          some e := he
        rw [entry_tick, tick_entry_idle lq policy now _ hsc, hent]
        refine ⟨e, Option.filter_some_pos ?_, hle⟩
        simp [Track.Entry.absent]
        omega

theorem scored_tracked {eng : Engine D} (h : WellFormed eng) {now : Int} {mac : Mac}
    (hm : mac ∈ scoredAt lq eng now) (hroom : trackerRoom eng mac = true) :
    mac ∈ keys (sweep lq now eng).1.tracker := by
  obtain ⟨hcell, _⟩ := sweep_cell lq now h mac
  have hsc := (mem_scoredAt_iff lq h now mac).mp hm
  have hsome := tick_entry_isSome lq eng.policy now hsc
  obtain ⟨e, he⟩ := Option.isSome_iff_exists.mp hsome
  have hentry : lookup (sweep lq now eng).1.tracker mac = some e := by
    have hl := congrArg Cell.entry hcell
    rw [hroom] at hl
    exact hl.trans (Option.eq_some_of_filter_eq_some he)
  rw [mem_keys_iff (swept_all lq now h).distinct, hentry]
  rfl

/-- A client of a small enough set is timed. -/
theorem trackerRoom_of_card {eng : Engine D} (h : WellFormed eng) {now : Int}
    (hcard : (keys eng.tracker ∪ scoredAt lq eng now).card ≤ maxClients) {mac : Mac}
    (hm : mac ∈ scoredAt lq eng now) : trackerRoom eng mac = true := by
  obtain ⟨row, hrow, _⟩ := (mem_scoredAt_iff lq h now mac).mp hm
  obtain ⟨i, hi, _⟩ := holds_of_lookup hrow
  obtain ⟨_, _, hbefore, _⟩ := exists_split h hi
  rw [scoredAt_eq lq h] at hcard hm
  rw [trackerRoom, decide_eq_true_iff]
  by_cases hk : mac ∈ keys eng.tracker
  · exact Or.inl hk
  · right
    have hsub : keys eng.tracker ∪ scoredMacs eng (slotsBefore eng mac) ⊆
        (keys eng.tracker ∪ scoredMacs eng (List.finRange maxClients)).erase mac := by
      intro x hx
      rcases Finset.mem_union.mp hx with hx | hx
      · exact Finset.mem_erase.mpr ⟨fun he => hk (he ▸ hx), Finset.mem_union_left _ hx⟩
      · obtain ⟨j, _, hj⟩ := mem_scoredMacs.mp hx
        exact Finset.mem_erase.mpr ⟨fun he => hbefore (he ▸ hx),
          Finset.mem_union_right _ (mem_scoredMacs.mpr ⟨j, List.mem_finRange j, hj⟩)⟩
    have hmem : mac ∈ keys eng.tracker ∪ scoredMacs eng (List.finRange maxClients) :=
      Finset.mem_union_right _ hm
    have hle := Finset.card_le_card hsub
    rw [Finset.card_erase_of_mem hmem] at hle
    have hpos := Finset.card_pos.mpr ⟨mac, hmem⟩
    omega

theorem scoredAt_subset_macs (es : List Event) (now : Int) :
    scoredAt lq (after lq policy es : Engine D) now ⊆ macs es := by
  rw [scoredAt_eq lq (wellFormed_after lq policy es)]
  exact (scoredMacs_subset _ _).trans (within_after lq policy es).member

/-- The MACs that compete for the tracker at the tick that follows `pre`. -/
def Contends (pre : List Event) (now : Int) (mac : Mac) : Prop :=
  mac ∈ scoredAt lq (after lq policy pre : Engine D) now ∨ Recent (D := D) lq policy pre mac

theorem timed_of_fits {pre : List Event} {now : Int}
    (hfit : ∀ S : Finset Mac, (∀ mac ∈ S, Contends (D := D) lq policy pre now mac) →
      S.card ≤ maxClients) : AllTimed lq (after lq policy pre : Engine D) now := by
  have hwf := wellFormed_after (D := D) lq policy pre
  have hcard := hfit
    (keys (after lq policy pre : Engine D).tracker ∪ scoredAt lq (after lq policy pre) now) (by
      intro mac hm
      rcases Finset.mem_union.mp hm with hm | hm
      · right
        rw [mem_keys_iff hwf.tracked, Option.isSome_iff_exists] at hm
        obtain ⟨e, he⟩ := hm
        obtain ⟨a, b, hab, hsa, hb⟩ := entry_recent lq policy he
        exact ⟨a, e.lastSeen, b, hab, hsa, hb⟩
      · exact Or.inl hm)
  intro s hs
  have hroom := trackerRoom_of_card lq hwf hcard (mem_scoredAt.mpr ⟨s, hs, rfl⟩)
  rw [Ne, tick_timed lq now hwf hs, hroom]
  simp

theorem fits_of_timed {es : List Event} (hclock : es.Pairwise (fun e f => e.now ≤ f.now))
    (htimed : ∀ pre now post, es = pre ++ .tick now :: post →
      AllTimed lq (after lq policy pre : Engine D) now)
    {pre : List Event} {now : Int} {post : List Event} (hes : es = pre ++ .tick now :: post)
    {S : Finset Mac} (hS : ∀ mac ∈ S, Contends (D := D) lq policy pre now mac) :
    S.card ≤ maxClients := by
  have hwf : ∀ pre, WellFormed (after lq policy pre : Engine D) := wellFormed_after lq policy
  have hs := swept_all lq now (hwf pre)
  have hsub : S ⊆ keys (sweep lq now (after lq policy pre : Engine D)).1.tracker := by
    intro mac hm
    rcases hS mac hm with hsc | ⟨a, t, b, hab, hsa, hb⟩
    · exact scored_tracked lq (hwf pre) hsc
        (trackerRoom_of_allTimed (hwf pre) (htimed pre now post hes) hsc)
    · subst hab
      have hprefix : (a ++ .tick t :: b).Pairwise (fun e f => e.now ≤ f.now) := by
        rw [hes] at hclock
        exact (List.pairwise_append.mp hclock).1
      obtain ⟨e, he, _⟩ := recent_entry lq policy b hprefix (fun pre' now' post' h =>
        htimed pre' now' (post' ++ .tick now :: post) (by rw [hes, h]; simp)) hsa hb
      apply hs.keys_ge
      rw [mem_keys_iff (hwf _).tracked]
      exact Option.isSome_iff_exists.mpr ⟨e, he⟩
  exact (Finset.card_le_card hsub).trans (card_keys_le hs.distinct)

theorem contends_mem_macs {pre : List Event} {now : Int} {mac : Mac}
    (h : Contends (D := D) lq policy pre now mac) : mac ∈ macs pre := by
  rcases h with hsc | ⟨a, t, b, hab, hsa, _⟩
  · exact scoredAt_subset_macs lq policy pre now hsc
  · rw [hab]
    exact macs_subset_append a _ (scoredAt_subset_macs lq policy a t hsa)

end Runs

/-! ## A crowd that leaves, and a newcomer -/

section Churn

variable (lq : LinkQty D) (policy : Policy)

theorem solo_stages (mac : Mac) (x : Staged) (ms : List Mac) (c : Cell D)
    (hc : ∀ row, c.member = some row → row.staged = x) :
    (∀ row, ((solo lq policy mac).final c (ms.map fun m => .stage m x.record x.time)).member =
        some row → row.staged = x) ∧
      (mac ∈ ms ∨ c.member.isSome = true →
        ((solo lq policy mac).final c (ms.map fun m => .stage m x.record x.time)).member.isSome =
          true) := by
  induction ms generalizing c with
  | nil => exact ⟨hc, fun h => by simpa using h⟩
  | cons m ms ih =>
    rw [List.map_cons, Mealy.final_cons]
    by_cases hm : m = mac
    · have hstep : ((solo lq policy mac).step c (.stage m x.record x.time)).1 =
          c.stage true mac x.record x.time := by
        simp [solo, cellStep, hm]
      have hself : ∃ row, (c.stage true mac x.record x.time).member = some row ∧
          row.staged = x := by
        unfold Cell.stage
        cases c.member with
        | none => exact ⟨_, rfl, rfl⟩
        | some row => exact ⟨_, rfl, rfl⟩
      obtain ⟨row, hrow, hx⟩ := hself
      rw [hstep]
      obtain ⟨hall, hsome⟩ := ih (c.stage true mac x.record x.time) fun row' h' => by
        rw [hrow] at h'
        rw [← Option.some.inj h', hx]
      exact ⟨hall, fun _ => hsome (Or.inr (by rw [hrow]; rfl))⟩
    · have hstep : ((solo lq policy mac).step c (.stage m x.record x.time)).1 = c := by
        simp [solo, cellStep, hm]
      rw [hstep]
      obtain ⟨hall, hsome⟩ := ih c hc
      refine ⟨hall, fun h => hsome ?_⟩
      rcases h with h | h
      · left
        rcases List.mem_cons.mp h with rfl | h
        · exact absurd rfl hm
        · exact h
      · exact Or.inr h

/-- MACs that differ in their first byte. -/
def churnMac (n : Nat) : Mac := #v[UInt8.ofNat n, 0, 0, 0, 0, 0]

/-- As many stations as there are slots, all staged at one time. -/
@[irreducible] def crowd : List Event :=
  ((List.range maxClients).map churnMac).map fun m => .stage m ConnMetric.Record.zero 1

theorem card_macs_crowd : (macs crowd).card ≤ maxClients := by
  have hle := List.toFinset_card_le (crowd.filterMap Event.mac?)
  have hlen := List.length_filterMap_le Event.mac? crowd
  have hcrowd : crowd.length = maxClients := by
    unfold crowd
    simp
  rw [macs]
  omega

theorem crowd_cell (mac : Mac) :
    (∀ row, (cell (after lq policy crowd : Engine D) mac).member = some row →
      row.staged = ⟨ConnMetric.Record.zero, 1⟩) ∧
    (mac ∈ (List.range maxClients).map churnMac →
      (cell (after lq policy crowd : Engine D) mac).member.isSome = true) := by
  have h := solo_stages (D := D) lq policy mac ⟨ConnMetric.Record.zero, 1⟩
    ((List.range maxClients).map churnMac) Cell.empty (by simp [Cell.empty])
  rw [(run_solo lq policy mac crowd card_macs_crowd).1]
  unfold crowd
  exact ⟨h.1, fun hm => h.2 (Or.inl hm)⟩

theorem crowd_scored {n : Nat} (hn : n < maxClients) (now : Int) :
    churnMac n ∈ scoredAt lq (after lq policy crowd : Engine D) now := by
  rw [mem_scoredAt_iff lq (wellFormed_after lq policy crowd)]
  obtain ⟨hall, hsome⟩ := crowd_cell (D := D) lq policy (churnMac n)
  obtain ⟨row, hrow⟩ := Option.isSome_iff_exists.mp
    (hsome (List.mem_map.mpr ⟨n, List.mem_range.mpr hn, rfl⟩))
  refine ⟨row, hrow, ?_⟩
  rw [show row.snapshot = ConnMetric.Record.zero from congrArg Staged.record (hall row hrow)]
  rfl

/-- The crowd is gone after one late tick, which still scored it. -/
def newcomer : List Event :=
  crowd ++ [.tick 40001] ++ [.stage (churnMac maxClients) ConnMetric.Record.zero 40002]

theorem crowd_gone (mac : Mac) :
    (cell (after lq policy (crowd ++ [.tick 40001]) : Engine D) mac).member = none := by
  have hall := (crowd_cell (D := D) lq policy mac).1
  have hstep := (tick_cell lq 40001 (wellFormed_after (D := D) lq policy crowd) mac).1
  have hafter := after_concat (D := D) lq policy crowd (.tick 40001)
  generalize after lq policy crowd = eng at hall hstep hafter
  have hmap : (cell (tick lq eng 40001).1 mac).member.map Row.staged = none := by
    rw [hstep, Cell.tick, reap_staged, score_staged]
    cases hc : (cell eng mac).member with
    | none => rfl
    | some row =>
      rw [Option.map_some, hall row hc]
      rfl
  rw [hafter]
  exact Option.map_eq_none_iff.mp hmap

theorem admitted_scorable {eng : Engine D} (h : WellFormed eng) {mac : Mac}
    (hnone : ∀ mac', (cell eng mac').member = none) {rec : ConnMetric.Record}
    (hu : rec.usable = true) (now : Int) : (cell (stageRecord eng mac rec now) mac).Scorable := by
  have hempty : (eng.store h).members = ∅ := by
    apply Finset.eq_empty_of_forall_notMem
    intro mac' hm
    rw [Store.mem_iff] at hm
    simp [Engine.store, hnone] at hm
  have hroom : hasRoom eng = true := by
    rw [hasRoom_iff h, hempty]
    decide
  rw [stage_cell_self h, hroom]
  refine ⟨Row.admitted mac rec now, ?_, hu⟩
  simp [Cell.stage, hnone]

theorem newcomer_scored (now : Int) :
    churnMac maxClients ∈ scoredAt lq (after lq policy newcomer : Engine D) now := by
  rw [mem_scoredAt_iff lq (wellFormed_after lq policy newcomer), newcomer, after_concat]
  exact admitted_scorable (wellFormed_after lq policy _) (crowd_gone lq policy) rfl 40002

end Churn

theorem churnMac_injOn : Set.InjOn churnMac (Set.Iic maxClients) := by
  intro a ha b hb h
  have h0 := congrArg (fun m : Mac => (m[0]).toNat) h
  simp [churnMac] at h0
  have hmax : maxClients = 64 := rfl
  rw [Set.mem_Iic] at ha hb
  omega

theorem newcomer_clock : (newcomer ++ [Event.tick 40002]).Pairwise (fun e f => e.now ≤ f.now) := by
  have hcrowd : ∀ e ∈ crowd, e.now = 1 := by
    intro e he
    unfold crowd at he
    obtain ⟨m, _, rfl⟩ := List.mem_map.mp he
    rfl
  have hpair : crowd.Pairwise (fun e f => e.now ≤ f.now) :=
    List.pairwise_of_forall_mem_list fun a ha b hb => by rw [hcrowd a ha, hcrowd b hb]
  simp only [newcomer, List.append_assoc, List.singleton_append]
  refine List.pairwise_append.mpr ⟨hpair, by simp [Event.now], ?_⟩
  intro e he f hf
  rw [hcrowd e he]
  rcases List.mem_cons.mp hf with rfl | hf
  · decide
  rcases List.mem_cons.mp hf with rfl | hf
  · decide
  rw [List.mem_singleton.mp hf]
  decide

/-- Which runs time every client: those in which the MACs of each tick, with
the recently scored ones, fit the tracker. Any run of few MACs is one. -/
theorem all_timed_iff (lq : LinkQty D) (policy : Policy) (es : List Event)
    (hclock : es.Pairwise (fun e f => e.now ≤ f.now)) :
    ((∀ pre now post, es = pre ++ .tick now :: post →
        ∀ s ∈ (tick lq (after lq policy pre : Engine D) now).2, s.entry ≠ none) ↔
      ∀ pre now post, es = pre ++ .tick now :: post → ∀ S : Finset Mac,
        (∀ mac ∈ S, Contends (D := D) lq policy pre now mac) → S.card ≤ maxClients) ∧
    ((macs es).card ≤ maxClients → ∀ pre now post, es = pre ++ .tick now :: post →
      ∀ s ∈ (tick lq (after lq policy pre : Engine D) now).2, s.entry ≠ none) := by
  refine ⟨⟨?_, ?_⟩, ?_⟩
  · intro htimed pre now post hes S hS
    exact fits_of_timed lq policy hclock htimed hes hS
  · intro hfit pre now post hes
    exact timed_of_fits lq policy (hfit pre now post hes)
  · intro hfew pre now post hes
    apply timed_of_fits
    intro S hS
    refine (Finset.card_le_card fun mac hm => ?_).trans hfew
    rw [hes]
    exact macs_subset_append pre _ (contends_mem_macs lq policy (hS mac hm))

/-- The newcomer is left untimed: the crowd still fills the tracker. -/
theorem newcomer_untimed : (newcomer ++ [Event.tick 40002]).Pairwise (fun e f => e.now ≤ f.now) ∧
    ¬ ∀ pre now post, newcomer ++ [.tick 40002] = pre ++ .tick now :: post →
      ∀ s ∈ (tick ⟨0, 0⟩ (after ⟨0, 0⟩ ⟨25, 10000, 0, 1, 0⟩ pre : Engine ℝ) now).2,
        s.entry ≠ none := by
  refine ⟨newcomer_clock, fun htimed => ?_⟩
  have hS : ∀ mac ∈ (Finset.range (maxClients + 1)).image churnMac,
      Contends (D := ℝ) ⟨0, 0⟩ ⟨25, 10000, 0, 1, 0⟩ newcomer 40002 mac := by
    intro mac hm
    obtain ⟨n, hn, rfl⟩ := Finset.mem_image.mp hm
    rcases Nat.lt_succ_iff_lt_or_eq.mp (Finset.mem_range.mp hn) with hlt | rfl
    · right
      refine ⟨crowd, 40001, [.stage (churnMac maxClients) ConnMetric.Record.zero 40002], ?_,
        crowd_scored _ _ hlt _, by simp⟩
      rw [newcomer, List.append_assoc]
      rfl
    · exact Or.inl (newcomer_scored _ _ _)
  have hcard := fits_of_timed _ _ newcomer_clock htimed rfl hS
  have hinj : Set.InjOn churnMac (Finset.range (maxClients + 1) : Set Nat) :=
    churnMac_injOn.mono fun n hn => by
      rw [Finset.mem_coe, Finset.mem_range] at hn
      exact Nat.lt_succ_iff.mp hn
  rw [Finset.card_image_of_injOn hinj, Finset.card_range] at hcard
  omega

theorem all_timed_iff_crowd :
    (crowd ++ [Event.tick 40001]).Pairwise (fun e f => e.now ≤ f.now) ∧
    ∀ pre now post, crowd ++ [.tick 40001] = pre ++ .tick now :: post →
      ∀ s ∈ (tick ⟨0, 0⟩ (after ⟨0, 0⟩ ⟨25, 10000, 0, 1, 0⟩ pre : Engine ℝ) now).2,
        s.entry ≠ none := by
  have hclock : (crowd ++ [Event.tick 40001]).Pairwise (fun e f => e.now ≤ f.now) := by
    have h := newcomer_clock
    simp only [newcomer, List.append_assoc] at h
    rw [← List.append_assoc] at h
    exact (List.pairwise_append.mp h).1
  refine ⟨hclock, (all_timed_iff (D := ℝ) ⟨0, 0⟩ ⟨25, 10000, 0, 1, 0⟩ _ hclock).2 ?_⟩
  have hmacs : macs (crowd ++ [.tick 40001]) = macs crowd := by
    rw [macs, List.filterMap_append]
    exact congrArg List.toFinset (List.append_nil _)
  rw [hmacs]
  exact card_macs_crowd

end Wei.Infer
