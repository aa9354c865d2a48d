import Wei.Infer.Cell

/-!
# The sweep of one tick

What one turn of the sweep does to the slot it visits and to the tracker, and
from it what the sweep over any list of slots leaves alone: rows of slots it
does not visit, tracker entries of MACs it does not score, and the bookkeeping
of the map. `keys` says how far the tracker table has filled up on the way.
-/
namespace Wei.Infer

open Wei.Lib Wei.Lib.SlotTable Wei.ConnScorer
open Track (maxClients)

variable {D : Type} [CDouble D]

/-! ## One entry of the tracker -/

section TimeEntry

variable (policy : Policy) (instability : Int32) (now : Int) (e : Track.Entry)

@[simp] theorem timeEntry_mac : (timeEntry policy instability now e).1.mac = e.mac := by
  simp [timeEntry, Track.collect]

@[simp] theorem timeEntry_inUse : (timeEntry policy instability now e).1.inUse = e.inUse := by
  simp [timeEntry, Track.collect]

@[simp] theorem timeEntry_lastSeen :
    (timeEntry policy instability now e).1.lastSeen = e.lastSeen := by
  simp [timeEntry, Track.collect]

@[simp] theorem timeEntry_count : (timeEntry policy instability now e).1.count = 0 := rfl

@[simp] theorem timeEntry_accumulated :
    (timeEntry policy instability now e).1.accumulated = 0 := rfl

end TimeEntry

/-- What the instability flag does to the tracker and to the result. -/
structure FlagSpec (policy : Policy) (tracker : Track.Table) (mac : Mac) (st : Client D)
    (out : Result) (now : Int) (timed : Option (Track.Entry × Track.Record))
    (r : Track.Table × Option (Fin maxClients) × Result) : Prop where
  distinct : Distinct r.1
  drained : (∀ i, (tracker i).count = 0 ∧ (tracker i).accumulated = 0) →
    ∀ i, (r.1 i).count = 0 ∧ (r.1 i).accumulated = 0
  self : lookup r.1 mac = timed.map (·.1)
  other : ∀ mac', mac' ≠ mac → lookup r.1 mac' = lookup tracker mac'
  entry : r.2.1 = none ↔ scan tracker mac = .full
  keys : keys r.1 = if scan tracker mac = .full then keys tracker else insert mac (keys tracker)
  result : r.2.2 = flagTimed policy (phyInstability st) timed out

theorem drained_update {t : Track.Table} (h : ∀ i, (t i).count = 0 ∧ (t i).accumulated = 0)
    {i : Fin maxClients} {e : Track.Entry} (he : e.count = 0 ∧ e.accumulated = 0) :
    ∀ j, (Function.update t i e j).count = 0 ∧ (Function.update t i e j).accumulated = 0 := by
  intro j
  by_cases hj : j = i
  · subst hj; rw [Function.update_self]; exact he
  · rw [Function.update_of_ne hj]; exact h j

theorem flagInstability_spec (policy : Policy) {tracker : Track.Table} (hd : Distinct tracker)
    (mac : Mac) (st : Client D) (out : Result) (now : Int) :
    FlagSpec policy tracker mac st out now
      (timedEntry policy (decide (scan tracker mac ≠ .full)) mac (phyInstability st) now
        (lookup tracker mac))
      (flagInstability policy tracker mac st out now) := by
  unfold flagInstability timedEntry
  cases hs : scan tracker mac with
  | hit i =>
    have hi := scan_hit hs
    have hc : CanPut tracker mac i := Or.inl hi
    have hu : inUse (timeEntry policy (phyInstability st) now ((tracker i).seen now)).1 = true := by
      simpa using hi.1
    have hk : key (timeEntry policy (phyInstability st) now ((tracker i).seen now)).1 = mac := by
      simpa using hi.2
    simp only [Track.get, hs, Function.update_self, Function.update_idem, lookup_of_holds hd hi,
      obtainEntry, Option.map_some]
    exact {
      distinct := distinct_put hd hc hu hk
      drained := fun h => drained_update h ⟨rfl, rfl⟩
      self := lookup_put_self hd hc hu hk
      other := fun mac' hne => lookup_put_of_ne hd hc hu hk hne
      entry := by simp [hs]
      keys := by simpa [hs] using keys_put hc hu hk
      result := by simp [flagTimed] }
  | free i =>
    have hi := scan_free hs
    have hc : CanPut tracker mac i := Or.inr hi
    have hu : inUse (timeEntry policy (phyInstability st) now
        (Track.Entry.claimed mac now)).1 = true := by simp
    have hk : key (timeEntry policy (phyInstability st) now
        (Track.Entry.claimed mac now)).1 = mac := by simp
    simp only [Track.get, hs, Function.update_self, Function.update_idem,
      lookup_of_absent hi.2, obtainEntry]
    exact {
      distinct := distinct_put hd hc hu hk
      drained := fun h => drained_update h ⟨rfl, rfl⟩
      self := by simpa using lookup_put_self hd hc hu hk
      other := fun mac' hne => lookup_put_of_ne hd hc hu hk hne
      entry := by simp [hs]
      keys := by simpa [hs] using keys_put hc hu hk
      result := by simp [flagTimed] }
  | full =>
    have habs : ∀ i, ¬ Holds tracker mac i := fun i hi => (scan_full hs i).2 hi.2
    simp only [Track.get, hs, lookup_of_absent habs, obtainEntry]
    exact {
      distinct := hd
      drained := fun h => h
      self := by simpa using lookup_of_absent habs
      other := fun mac' hne => rfl
      entry := by simp [hs]
      keys := by simp [hs]
      result := by simp [flagTimed] }

/-! ## One turn of the sweep -/

/-- The sweep scores slot `i`. -/
def scorable (eng : Engine D) (i : Fin maxClients) : Bool :=
  (eng.rows i).slot.inUse && (eng.rows i).snapshot.usable

theorem scoreClient_isSome (lq : LinkQty D) (st : Client D) (rec : ConnMetric.Record) :
    (scoreClient lq st rec).isSome = rec.usable := by
  unfold scoreClient
  cases rec.usable <;> rfl

theorem sweepSlot_idle (lq : LinkQty D) (now : Int) (acc : Engine D × List Scored)
    {i : Fin maxClients} (h : scorable acc.1 i = false) : sweepSlot lq now acc i = acc := by
  unfold sweepSlot
  dsimp only
  split
  · rfl
  · rename_i hu
    have hgate : (acc.1.snapshot i).usable = false := by
      have hu' : (acc.1.rows i).slot.inUse = true := Bool.of_not_eq_false hu
      rw [scorable, hu', Bool.true_and] at h
      exact h
    have hnone : scoreClient lq (acc.1.map.slots i).state (acc.1.snapshot i) = none := by
      have hs := scoreClient_isSome lq (acc.1.map.slots i).state (acc.1.snapshot i)
      rw [hgate] at hs
      simpa using hs
    rw [hnone]

/-- A turn that scores slot `i`: the row it leaves, the tracker it leaves and
the publish call it makes. -/
structure TurnSpec (lq : LinkQty D) (now : Int) (acc acc' : Engine D × List Scored)
    (i : Fin maxClients) (row : Row D) (e : Option Track.Entry) (out : Result)
    (entry : Option (Fin maxClients)) : Prop where
  computed : scoreRow lq acc.1.policy now
    (decide (scan acc.1.tracker (acc.1.rows i).slot.mac ≠ .full)) (acc.1.rows i)
    (lookup acc.1.tracker (acc.1.rows i).slot.mac) = some (row, e, out)
  rows : acc'.1.rows = Function.update acc.1.rows i row
  result : acc'.1.result = Function.update acc.1.result i out
  output : acc'.2 = acc.2 ++ [⟨(acc.1.rows i).slot.mac, entry, out, (acc.1.rows i).snapshot⟩]
  policy : acc'.1.policy = acc.1.policy
  count : acc'.1.map.count = acc.1.map.count
  distinct : Distinct acc'.1.tracker
  drained : (∀ j, (acc.1.tracker j).count = 0 ∧ (acc.1.tracker j).accumulated = 0) →
    ∀ j, (acc'.1.tracker j).count = 0 ∧ (acc'.1.tracker j).accumulated = 0
  self : lookup acc'.1.tracker (acc.1.rows i).slot.mac = e
  other : ∀ mac, mac ≠ (acc.1.rows i).slot.mac →
    lookup acc'.1.tracker mac = lookup acc.1.tracker mac
  entry : entry = none ↔ scan acc.1.tracker (acc.1.rows i).slot.mac = .full
  keys : keys acc'.1.tracker = if scan acc.1.tracker (acc.1.rows i).slot.mac = .full
    then keys acc.1.tracker else insert (acc.1.rows i).slot.mac (keys acc.1.tracker)

theorem sweepSlot_scored (lq : LinkQty D) (now : Int) (acc : Engine D × List Scored)
    (hd : Distinct acc.1.tracker) {i : Fin maxClients} (h : scorable acc.1 i = true) :
    ∃ row e out entry, TurnSpec lq now acc (sweepSlot lq now acc i) i row e out entry := by
  rw [scorable, Bool.and_eq_true] at h
  obtain ⟨hu, husable⟩ := h
  have hsome : ∃ p, scoreClient lq (acc.1.map.slots i).state (acc.1.snapshot i) = some p := by
    rw [← Option.isSome_iff_exists, scoreClient_isSome]
    exact husable
  obtain ⟨⟨st, out⟩, hscore⟩ := hsome
  have hu' : (acc.1.map.slots i).inUse = true := hu
  have hflag := flagInstability_spec acc.1.policy hd (acc.1.map.slots i).mac st out now
  let c := concludeScore acc.1.policy st (acc.1.rows i).snapshot
    (flagTimed acc.1.policy (phyInstability st) (timedEntry acc.1.policy
      (decide (scan acc.1.tracker (acc.1.rows i).slot.mac ≠ .full)) (acc.1.rows i).slot.mac
      (phyInstability st) now (lookup acc.1.tracker (acc.1.rows i).slot.mac)) out)
    (acc.1.rows i).ledger now
  let row : Row D := { acc.1.rows i with slot.state := c.1, ledger := c.2.2 }
  unfold sweepSlot
  simp only [hu', hscore, Bool.true_eq_false, if_false]
  rw [hflag.result]
  refine ⟨row, _, c.2.1, (flagInstability acc.1.policy acc.1.tracker (acc.1.map.slots i).mac st out
    now).2.1, ?_, ?_, rfl, rfl, rfl, rfl, hflag.distinct, hflag.drained, hflag.self, hflag.other,
    hflag.entry, hflag.keys⟩
  · have hscore' : scoreClient lq (acc.1.rows i).slot.state (acc.1.rows i).snapshot =
        some (st, out) := hscore
    rw [scoreRow, hscore']
    rfl
  · funext j
    by_cases hj : j = i
    · subst hj
      simp only [Engine.rows, row, c, hu', Function.update_self]
      rfl
    · simp [Engine.rows, hj]

/-- Scoring changes nothing by which the map finds or keeps a row. -/
theorem scoreRow_keeps {lq : LinkQty D} {policy : Policy} {now : Int} {room : Bool}
    {row row' : Row D} {entry e : Option Track.Entry} {out : Result}
    (h : scoreRow lq policy now room row entry = some (row', e, out)) :
    row'.slot.mac = row.slot.mac ∧ row'.slot.inUse = row.slot.inUse ∧
      row'.slot.lastSeen = row.slot.lastSeen ∧ row'.snapshot = row.snapshot := by
  unfold scoreRow at h
  split at h
  · cases h
  · dsimp only at h
    obtain ⟨rfl, -⟩ := Prod.mk.inj (Option.some.inj h)
    exact ⟨rfl, rfl, rfl, rfl⟩

/-! ## Any number of turns -/

/-- The MACs that a sweep over `is` scores. -/
def scoredMacs (eng : Engine D) (is : List (Fin maxClients)) : Finset Mac :=
  ((is.filter (scorable eng)).map (fun i => (eng.rows i).slot.mac)).toFinset

section Swept

omit [CDouble D]

theorem mem_scoredMacs {eng : Engine D} {is : List (Fin maxClients)} {mac : Mac} :
    mac ∈ scoredMacs eng is ↔ ∃ i ∈ is, scorable eng i = true ∧ (eng.rows i).slot.mac = mac := by
  simp [scoredMacs, and_assoc]

/-- How the engine and the output after a sweep over `is` relate to those before. -/
structure Swept (acc acc' : Engine D × List Scored) (is : List (Fin maxClients)) : Prop where
  policy : acc'.1.policy = acc.1.policy
  count : acc'.1.map.count = acc.1.map.count
  mac : ∀ i, (acc'.1.rows i).slot.mac = (acc.1.rows i).slot.mac
  inUse : ∀ i, (acc'.1.rows i).slot.inUse = (acc.1.rows i).slot.inUse
  lastSeen : ∀ i, (acc'.1.rows i).slot.lastSeen = (acc.1.rows i).slot.lastSeen
  snapshot : ∀ i, (acc'.1.rows i).snapshot = (acc.1.rows i).snapshot
  idle : ∀ i, (i ∈ is → scorable acc.1 i = false) →
    acc'.1.rows i = acc.1.rows i ∧ acc'.1.result i = acc.1.result i
  distinct : Distinct acc'.1.tracker
  drained : (∀ j, (acc.1.tracker j).count = 0 ∧ (acc.1.tracker j).accumulated = 0) →
    ∀ j, (acc'.1.tracker j).count = 0 ∧ (acc'.1.tracker j).accumulated = 0
  other : ∀ mac, mac ∉ scoredMacs acc.1 is → lookup acc'.1.tracker mac = lookup acc.1.tracker mac
  output : ∃ out, acc'.2 = acc.2 ++ out ∧ out.map (·.mac) =
    (is.filter (scorable acc.1)).map (fun i => (acc.1.rows i).slot.mac)
  keys_ge : keys acc.1.tracker ⊆ keys acc'.1.tracker
  keys_le : keys acc'.1.tracker ⊆ keys acc.1.tracker ∪ scoredMacs acc.1 is
  keys_eq : keys acc'.1.tracker = keys acc.1.tracker ∪ scoredMacs acc.1 is ∨
    (keys acc'.1.tracker).card = maxClients

theorem Swept.scorable_eq {acc acc' : Engine D × List Scored} {is : List (Fin maxClients)}
    (h : Swept acc acc' is) (i : Fin maxClients) : scorable acc'.1 i = scorable acc.1 i := by
  rw [scorable, scorable, h.inUse, h.snapshot]

theorem Swept.scoredMacs_eq {acc acc' : Engine D × List Scored} {is : List (Fin maxClients)}
    (h : Swept acc acc' is) (js : List (Fin maxClients)) :
    scoredMacs acc'.1 js = scoredMacs acc.1 js := by
  ext mac
  simp only [mem_scoredMacs, h.scorable_eq, h.mac]

theorem scoredMacs_append (eng : Engine D) (is js : List (Fin maxClients)) :
    scoredMacs eng (is ++ js) = scoredMacs eng is ∪ scoredMacs eng js := by
  ext mac
  simp only [mem_scoredMacs, List.mem_append, Finset.mem_union]
  constructor
  · rintro ⟨i, hi | hi, h⟩
    · exact Or.inl ⟨i, hi, h⟩
    · exact Or.inr ⟨i, hi, h⟩
  · rintro (⟨i, hi, h⟩ | ⟨i, hi, h⟩)
    · exact ⟨i, Or.inl hi, h⟩
    · exact ⟨i, Or.inr hi, h⟩

theorem Swept.refl (acc : Engine D × List Scored) (hd : Distinct acc.1.tracker) :
    Swept acc acc [] where
  policy := rfl
  count := rfl
  mac := fun _ => rfl
  inUse := fun _ => rfl
  lastSeen := fun _ => rfl
  snapshot := fun _ => rfl
  idle := fun _ _ => ⟨rfl, rfl⟩
  distinct := hd
  drained := fun h => h
  other := fun _ _ => rfl
  output := ⟨[], by simp, rfl⟩
  keys_ge := fun _ h => h
  keys_le := Finset.subset_union_left
  keys_eq := Or.inl (by simp [scoredMacs])

theorem Swept.trans {a b c : Engine D × List Scored} {is js : List (Fin maxClients)}
    (h₁ : Swept a b is) (h₂ : Swept b c js) : Swept a c (is ++ js) where
  policy := h₂.policy.trans h₁.policy
  count := h₂.count.trans h₁.count
  mac := fun i => (h₂.mac i).trans (h₁.mac i)
  inUse := fun i => (h₂.inUse i).trans (h₁.inUse i)
  lastSeen := fun i => (h₂.lastSeen i).trans (h₁.lastSeen i)
  snapshot := fun i => (h₂.snapshot i).trans (h₁.snapshot i)
  idle := by
    intro i hi
    obtain ⟨hr₁, hs₁⟩ := h₁.idle i fun hm => hi (List.mem_append_left _ hm)
    obtain ⟨hr₂, hs₂⟩ := h₂.idle i fun hm =>
      (h₁.scorable_eq i).trans (hi (List.mem_append_right _ hm))
    exact ⟨hr₂.trans hr₁, hs₂.trans hs₁⟩
  distinct := h₂.distinct
  drained := fun h => h₂.drained (h₁.drained h)
  other := by
    intro mac hm
    rw [scoredMacs_append, Finset.mem_union, not_or] at hm
    rw [h₂.other mac (by rw [h₁.scoredMacs_eq]; exact hm.2), h₁.other mac hm.1]
  output := by
    obtain ⟨o₁, he₁, hm₁⟩ := h₁.output
    obtain ⟨o₂, he₂, hm₂⟩ := h₂.output
    refine ⟨o₁ ++ o₂, by rw [he₂, he₁, List.append_assoc], ?_⟩
    have hfun : (fun i => (b.1.rows i).slot.mac) = fun i => (a.1.rows i).slot.mac := funext h₁.mac
    have hscore : scorable b.1 = scorable a.1 := funext h₁.scorable_eq
    rw [List.map_append, hm₁, hm₂, List.filter_append, List.map_append, hfun, hscore]
  keys_ge := h₁.keys_ge.trans h₂.keys_ge
  keys_le := by
    rw [scoredMacs_append, ← Finset.union_assoc]
    have h := h₂.keys_le
    rw [h₁.scoredMacs_eq] at h
    exact h.trans (Finset.union_subset_union_left h₁.keys_le)
  keys_eq := by
    rw [scoredMacs_append, ← Finset.union_assoc]
    have h := h₂.keys_eq
    rw [h₁.scoredMacs_eq] at h
    rcases h₁.keys_eq with h₁' | hfull
    · rw [← h₁']
      exact h
    · right
      have hle := card_keys_le h₂.distinct
      have hge := Finset.card_le_card h₂.keys_ge
      omega

end Swept

theorem swept_slot (lq : LinkQty D) (now : Int) (acc : Engine D × List Scored)
    (hd : Distinct acc.1.tracker) (i : Fin maxClients) :
    Swept acc (sweepSlot lq now acc i) [i] := by
  by_cases hs : scorable acc.1 i = true
  · obtain ⟨row, e, out, entry, h⟩ := sweepSlot_scored lq now acc hd hs
    obtain ⟨hmac, hin, hseen, hsnap⟩ := scoreRow_keeps h.computed
    have hrow : ∀ j, j ≠ i → (sweepSlot lq now acc i).1.rows j = acc.1.rows j := by
      intro j hj
      rw [h.rows, Function.update_of_ne hj]
    have hkeep : ∀ {β : Type} (f : Row D → β), f row = f (acc.1.rows i) →
        ∀ j, f ((sweepSlot lq now acc i).1.rows j) = f (acc.1.rows j) := by
      intro β f hf j
      rw [h.rows, Function.apply_update (fun _ => f), hf]
      exact congrFun (Function.update_eq_self i fun k => f (acc.1.rows k)) j
    have hmacs : scoredMacs acc.1 [i] = {(acc.1.rows i).slot.mac} := by simp [scoredMacs, hs]
    refine ⟨h.policy, h.count, hkeep (·.slot.mac) hmac, hkeep (·.slot.inUse) hin,
      hkeep (·.slot.lastSeen) hseen, hkeep (·.snapshot) hsnap, ?_, h.distinct, h.drained,
      ?_, ?_, ?_, ?_, ?_⟩
    · intro j hj
      have hne : j ≠ i := by
        rintro rfl
        rw [hj (by simp)] at hs
        cases hs
      exact ⟨hrow j hne, by rw [h.result, Function.update_of_ne hne]⟩
    · intro mac hm
      rw [hmacs, Finset.mem_singleton] at hm
      exact h.other mac hm
    · exact ⟨_, h.output, by simp [hs]⟩
    · rw [h.keys]
      split
      · exact fun _ hx => hx
      · exact Finset.subset_insert _ _
    · rw [h.keys, hmacs, Finset.union_comm]
      split
      · exact Finset.subset_union_right
      · exact fun _ hx => hx
    · rw [h.keys, hmacs, Finset.union_comm]
      split
      · rename_i hf
        exact Or.inr ((scan_full_iff hd).mp hf).2
      · exact Or.inl rfl
  · have hidle := sweepSlot_idle lq now acc (by simpa using hs)
    have hmacs : scoredMacs acc.1 [i] = ∅ := by simp [scoredMacs, hs]
    rw [hidle]
    have h := Swept.refl acc hd
    exact { h with
      idle := fun _ _ => ⟨rfl, rfl⟩
      other := fun _ _ => rfl
      output := ⟨[], by simp, by simp [hs]⟩
      keys_le := by rw [hmacs]; exact Finset.subset_union_left
      keys_eq := Or.inl (by rw [hmacs, Finset.union_empty]) }

theorem swept (lq : LinkQty D) (now : Int) (is : List (Fin maxClients))
    (acc : Engine D × List Scored) (hd : Distinct acc.1.tracker) :
    Swept acc (is.foldl (sweepSlot lq now) acc) is := by
  induction is generalizing acc with
  | nil => exact Swept.refl acc hd
  | cons i is ih =>
    have h := swept_slot lq now acc hd i
    exact h.trans (ih _ h.distinct)

end Wei.Infer
