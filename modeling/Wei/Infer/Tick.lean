import Wei.Infer.Sweep

/-!
# A tick, client by client

The engine refines its cells: a tick does to the cell of every MAC what
`Cell.tick` does, with `trackerRoom` the only thing that other clients decide.
The publish call a tick makes for a MAC is the one its cell makes.
-/
namespace Wei.Infer

open Wei.Lib Wei.Lib.SlotTable Wei.ConnScorer
open Track (maxClients)

variable {D : Type} [CDouble D]

/-! ## One cell at a tick -/

/-- The client in cell `c` passes the scoring gate. -/
def Cell.Scorable (c : Cell D) : Prop := ∃ row, c.member = some row ∧ row.snapshot.usable = true

theorem scoreRow_isSome (lq : LinkQty D) (policy : Policy) (now : Int) (room : Bool) (row : Row D)
    (entry : Option Track.Entry) :
    (scoreRow lq policy now room row entry).isSome = row.snapshot.usable := by
  have h := scoreClient_isSome lq row.slot.state row.snapshot
  unfold scoreRow
  cases hs : scoreClient lq row.slot.state row.snapshot with
  | none =>
    rw [hs] at h
    exact h
  | some p =>
    rw [hs] at h
    exact h

section CellTick

variable (lq : LinkQty D) (policy : Policy) (now : Int) (room : Bool) {c : Cell D}

theorem score_idle (h : ¬ c.Scorable) : c.score lq policy now room = (c, none) := by
  unfold Cell.score
  cases hc : c.member with
  | none => rfl
  | some row =>
    have hu : row.snapshot.usable = false := by
      cases hu : row.snapshot.usable with
      | false => rfl
      | true => exact absurd ⟨row, hc, hu⟩ h
    have hs := scoreRow_isSome lq policy now room row c.entry
    rw [hu, Option.isSome_eq_false_iff, Option.isNone_iff_eq_none] at hs
    simp only [hs]

theorem score_of_scoreRow {row row' : Row D} {e : Option Track.Entry} {out : Result}
    (hc : c.member = some row) (hs : scoreRow lq policy now room row c.entry = some (row', e, out)) :
    c.score lq policy now room = (⟨some row', e⟩, some ⟨out, row.snapshot⟩) := by
  unfold Cell.score
  simp only [hc, hs]

/-- A scored client, with the row, entry and result of its score. -/
theorem score_scored (h : c.Scorable) : ∃ row row' e out, c.member = some row ∧
    scoreRow lq policy now room row c.entry = some (row', e, out) ∧
    c.score lq policy now room = (⟨some row', e⟩, some ⟨out, row.snapshot⟩) := by
  obtain ⟨row, hc, hu⟩ := h
  have hs := scoreRow_isSome lq policy now room row c.entry
  rw [hu, Option.isSome_iff_exists] at hs
  obtain ⟨⟨row', e, out⟩, hs⟩ := hs
  exact ⟨row, row', e, out, hc, hs, score_of_scoreRow lq policy now room hc hs⟩

theorem tick_emits_iff : (c.tick lq policy now room).2.isSome = true ↔ c.Scorable := by
  by_cases h : c.Scorable
  · obtain ⟨row, row', e, out, _, _, hs⟩ := score_scored lq policy now room h
    simp [Cell.tick, hs, h]
  · simp [Cell.tick, score_idle lq policy now room h, h]

end CellTick

/-! ## The sweep around one slot -/

/-- Slot `i` is in use for `mac`, as the map's own scan tests it. -/
def occupies (eng : Engine D) (mac : Mac) (i : Fin maxClients) : Bool :=
  (eng.rows i).slot.inUse && decide ((eng.rows i).slot.mac = mac)

omit [CDouble D] in
theorem occupies_iff {eng : Engine D} {mac : Mac} {i : Fin maxClients} :
    occupies eng mac i = true ↔ Holds eng.rows mac i := by
  simp [occupies, Holds, inUse, key]

/-- The slots the sweep visits before it reaches the one of `mac`. -/
def slotsBefore (eng : Engine D) (mac : Mac) : List (Fin maxClients) :=
  (List.finRange maxClients).takeWhile (fun i => !occupies eng mac i)

/-- When the sweep reaches the slot of `mac`, the tracker still has an entry for it. -/
def trackerRoom (eng : Engine D) (mac : Mac) : Bool :=
  decide (mac ∈ keys eng.tracker ∨
    (keys eng.tracker ∪ scoredMacs eng (slotsBefore eng mac)).card < maxClients)

/-- The publish call made for `mac`. -/
def callFor (mac : Mac) (out : List Scored) : Option Scored := out.find? (fun s => s.mac = mac)

def Scored.emission (s : Scored) : Emission := ⟨s.result, s.metrics⟩

/-- What a tick emitted for `mac`. -/
def emissionOf (mac : Mac) (out : List Scored) : Option Emission :=
  (callFor mac out).map Scored.emission

theorem callFor_eq_none {mac : Mac} {out : List Scored} :
    callFor mac out = none ↔ mac ∉ out.map (·.mac) := by
  simp [callFor]

theorem callFor_append {mac : Mac} (out out' : List Scored) :
    callFor mac (out ++ out') = (callFor mac out).or (callFor mac out') := by
  simp [callFor, List.find?_append]

/-- The sweep reaches the slot of a member between two stretches that do not hold it. -/
theorem exists_split {eng : Engine D} (h : WellFormed eng) {mac : Mac} {j : Fin maxClients}
    (hj : Holds eng.rows mac j) : ∃ post, List.finRange maxClients = slotsBefore eng mac ++ j :: post ∧
      mac ∉ scoredMacs eng (slotsBefore eng mac) ∧ mac ∉ scoredMacs eng post ∧
      j ∉ slotsBefore eng mac ∧ j ∉ post := by
  obtain ⟨pre, post, hsplit⟩ := List.append_of_mem (List.mem_finRange j)
  have hnd : (pre ++ j :: post).Nodup := hsplit ▸ List.nodup_finRange maxClients
  have hpre : j ∉ pre := fun hm => (List.nodup_append.mp hnd).2.2 j hm j (by simp) rfl
  have hpost : j ∉ post := (List.nodup_cons.mp (List.nodup_append.mp hnd).2.1).1
  have hother : ∀ is : List (Fin maxClients), j ∉ is → mac ∉ scoredMacs eng is := by
    intro is hm hs
    obtain ⟨i, hi, hsc, hmac⟩ := mem_scoredMacs.mp hs
    rw [scorable, Bool.and_eq_true] at hsc
    have hij : i = j := h.distinct mac i j ⟨hsc.1, hmac⟩ hj
    exact hm (hij ▸ hi)
  have htake : slotsBefore eng mac = pre := by
    have hfree : ∀ i ∈ pre, (!occupies eng mac i) = true := by
      intro i hi
      cases ho : occupies eng mac i with
      | false => rfl
      | true => exact absurd (h.distinct mac i j (occupies_iff.mp ho) hj ▸ hi) hpre
    rw [slotsBefore, hsplit, List.takeWhile_append_of_pos hfree, List.takeWhile_cons,
      occupies_iff.mpr hj]
    simp
  rw [htake]
  exact ⟨post, hsplit, hother pre hpre, hother post hpost, hpre, hpost⟩

omit [CDouble D] in
/-- `trackerRoom` is what the table scan says when the slot of `mac` is reached. -/
theorem scan_ne_full_iff {eng : Engine D} {mac : Mac} {acc : Engine D × List Scored}
    (hs : Swept (eng, []) acc (slotsBefore eng mac))
    (hm : mac ∉ scoredMacs eng (slotsBefore eng mac)) :
    scan acc.1.tracker mac ≠ .full ↔ trackerRoom eng mac = true := by
  have hle := card_keys_le hs.distinct
  have hmem : mac ∈ keys acc.1.tracker ↔ mac ∈ keys eng.tracker := by
    constructor
    · intro hk
      rcases Finset.mem_union.mp (hs.keys_le hk) with hk | hk
      · exact hk
      · exact absurd hk hm
    · exact fun hk => hs.keys_ge hk
  rw [trackerRoom, decide_eq_true_iff, Ne, scan_full_iff hs.distinct, not_and_or, not_not, hmem]
  refine or_congr_right ?_
  have hkeys : keys acc.1.tracker = keys eng.tracker ∪ scoredMacs eng (slotsBefore eng mac) ∨
      (keys acc.1.tracker).card = maxClients := hs.keys_eq
  have hsub : (keys acc.1.tracker).card ≤
      (keys eng.tracker ∪ scoredMacs eng (slotsBefore eng mac)).card :=
    Finset.card_le_card hs.keys_le
  rcases hkeys with heq | hfull
  · rw [heq] at hle ⊢
    omega
  · omega

omit [CDouble D] in
theorem Swept.holds_iff {acc acc' : Engine D × List Scored} {is : List (Fin maxClients)}
    (hs : Swept acc acc' is) {mac : Mac} {i : Fin maxClients} :
    Holds acc'.1.rows mac i ↔ Holds acc.1.rows mac i := by
  have hu : Keyed.inUse (acc'.1.rows i) = Keyed.inUse (acc.1.rows i) := hs.inUse i
  have hk : key (acc'.1.rows i) = key (acc.1.rows i) := hs.mac i
  rw [Holds, Holds, hu, hk]

theorem Swept.wellFormed {acc acc' : Engine D × List Scored} {is : List (Fin maxClients)}
    (hs : Swept acc acc' is) (h : WellFormed acc.1) : WellFormed acc'.1 := by
  refine ⟨?_, ?_, ?_, hs.distinct, hs.drained h.drained⟩
  · intro k i j hi hj
    exact h.distinct k i j (hs.holds_iff.mp hi) (hs.holds_iff.mp hj)
  · rw [hs.count, h.count]
    exact (inUseCount_congr hs.inUse).symm
  · intro i hv
    rw [hs.inUse i] at hv
    have hidle := (hs.idle i fun _ => by rw [scorable, hv, Bool.false_and]).1
    rw [hidle]
    exact h.vacant i hv

section Sweep

variable (lq : LinkQty D) (now : Int) {eng : Engine D}

/-- The slot a member occupies, after the whole sweep. -/
structure SweptCell (eng : Engine D) (mac : Mac) (j : Fin maxClients) : Prop where
  entry : lookup (sweep lq now eng).1.tracker mac =
    ((cell eng mac).score lq eng.policy now (trackerRoom eng mac)).1.entry
  row : ((cell eng mac).score lq eng.policy now (trackerRoom eng mac)).1.member =
    some ((sweep lq now eng).1.rows j)
  emission : emissionOf mac (sweep lq now eng).2 =
    ((cell eng mac).score lq eng.policy now (trackerRoom eng mac)).2
  timed : ∀ s, callFor mac (sweep lq now eng).2 = some s →
    (s.entry = none ↔ trackerRoom eng mac = false)

/-- The turn of slot `j` starts from `acc`; the turns before and after it touch
neither the row there nor the entry and the calls of `mac`. -/
structure Turn (eng : Engine D) (mac : Mac) (j : Fin maxClients)
    (acc : Engine D × List Scored) : Prop where
  before : Swept (eng, []) acc (slotsBefore eng mac)
  room : decide (scan acc.1.tracker mac ≠ .full) = trackerRoom eng mac
  rowBefore : acc.1.rows j = eng.rows j
  entryBefore : lookup acc.1.tracker mac = lookup eng.tracker mac
  callBefore : callFor mac acc.2 = none
  row : (sweep lq now eng).1.rows j = (sweepSlot lq now acc j).1.rows j
  entry : lookup (sweep lq now eng).1.tracker mac =
    lookup (sweepSlot lq now acc j).1.tracker mac
  call : callFor mac (sweep lq now eng).2 = callFor mac (sweepSlot lq now acc j).2

omit [CDouble D] in
theorem Swept.callFor_output {acc acc' : Engine D × List Scored} {is : List (Fin maxClients)}
    (h : Swept acc acc' is) {mac : Mac} (hm : mac ∉ scoredMacs acc.1 is) :
    callFor mac acc'.2 = callFor mac acc.2 := by
  obtain ⟨out, ho, hmacs⟩ := h.output
  have hnone : callFor mac out = none := by
    rw [callFor_eq_none, hmacs]
    intro hmem
    exact hm (by rw [scoredMacs, List.mem_toFinset]; exact hmem)
  rw [ho, callFor_append, hnone, Option.or_none]

theorem exists_turn (h : WellFormed eng) {mac : Mac} {j : Fin maxClients}
    (hj : Holds eng.rows mac j) : ∃ acc, Turn lq now eng mac j acc ∧
      acc.1.result j = eng.result j ∧
      (sweep lq now eng).1.result j = (sweepSlot lq now acc j).1.result j := by
  obtain ⟨post, hsplit, hmpre, hmpost, hjpre, hjpost⟩ := exists_split h hj
  let acc := (slotsBefore eng mac).foldl (sweepSlot lq now) (eng, [])
  have hpre : Swept (eng, []) acc (slotsBefore eng mac) := swept lq now _ (eng, []) h.tracked
  have hslot := swept_slot lq now acc hpre.distinct j
  have hpost := swept lq now post (sweepSlot lq now acc j) hslot.distinct
  have hsweep : sweep lq now eng = post.foldl (sweepSlot lq now) (sweepSlot lq now acc j) := by
    unfold sweep
    rw [hsplit, List.foldl_append, List.foldl_cons]
  have hmpost' : mac ∉ scoredMacs (sweepSlot lq now acc j).1 post := by
    rw [hslot.scoredMacs_eq, hpre.scoredMacs_eq]
    exact hmpost
  obtain ⟨hrowBefore, hresultBefore⟩ := hpre.idle j fun hm => absurd hm hjpre
  obtain ⟨hrowAfter, hresultAfter⟩ := hpost.idle j fun hm => absurd hm hjpost
  refine ⟨acc, ⟨hpre, ?_, hrowBefore, hpre.other mac hmpre, hpre.callFor_output hmpre, ?_, ?_, ?_⟩,
    hresultBefore, by rw [hsweep, hresultAfter]⟩
  · rw [Bool.eq_iff_iff, decide_eq_true_iff]
    exact scan_ne_full_iff hpre hmpre
  · rw [hsweep]
    exact hrowAfter
  · rw [hsweep]
    exact hpost.other mac hmpost'
  · rw [hsweep]
    exact hpost.callFor_output hmpost'

theorem Turn.scored {mac : Mac} {j : Fin maxClients} {acc : Engine D × List Scored}
    (ht : Turn lq now eng mac j acc) (h : WellFormed eng) (hj : Holds eng.rows mac j)
    (hs : scorable eng j = true) : SweptCell lq now eng mac j := by
  have hmac : (eng.rows j).slot.mac = mac := hj.2
  obtain ⟨row, e, out, entry, hturn⟩ := sweepSlot_scored lq now acc ht.before.distinct
    ((ht.before.scorable_eq j).trans hs)
  have hcomp := hturn.computed
  have houtput := hturn.output
  have hself := hturn.self
  have hentry := hturn.entry
  rw [ht.rowBefore, hmac] at hcomp houtput hself hentry
  rw [ht.room, ht.entryBefore, ht.before.policy] at hcomp
  have hscore : (cell eng mac).score lq eng.policy now (trackerRoom eng mac) =
      (⟨some row, e⟩, some ⟨out, (eng.rows j).snapshot⟩) :=
    score_of_scoreRow lq eng.policy now _ (cell_member_of_holds h hj) hcomp
  have hcall : callFor mac (sweep lq now eng).2 =
      some ⟨mac, entry, out, (eng.rows j).snapshot⟩ := by
    rw [ht.call, houtput, callFor_append, ht.callBefore, Option.none_or]
    simp [callFor]
  refine ⟨?_, ?_, ?_, ?_⟩
  · rw [ht.entry, hself, hscore]
  · rw [ht.row, hturn.rows, Function.update_self, hscore]
  · rw [emissionOf, hcall, hscore]
    rfl
  · intro s hsome
    rw [hcall] at hsome
    obtain rfl := Option.some.inj hsome
    rw [hentry, ← ht.room, decide_eq_false_iff_not, not_not]

theorem Turn.idle {mac : Mac} {j : Fin maxClients} {acc : Engine D × List Scored}
    (ht : Turn lq now eng mac j acc) (h : WellFormed eng) (hj : Holds eng.rows mac j)
    (hs : scorable eng j = false) : SweptCell lq now eng mac j := by
  have hmember : (cell eng mac).member = some (eng.rows j) := cell_member_of_holds h hj
  have hin : (eng.rows j).slot.inUse = true := hj.1
  have hslot : sweepSlot lq now acc j = acc :=
    sweepSlot_idle lq now acc ((ht.before.scorable_eq j).trans hs)
  have hscore : (cell eng mac).score lq eng.policy now (trackerRoom eng mac) =
      (cell eng mac, none) := by
    refine score_idle lq eng.policy now _ ?_
    intro ⟨row, hrow, husable⟩
    obtain rfl := Option.some.inj (hmember.symm.trans hrow)
    rw [scorable, hin, husable] at hs
    cases hs
  have hcall : callFor mac (sweep lq now eng).2 = none := by
    rw [ht.call, hslot, ht.callBefore]
  refine ⟨?_, ?_, ?_, ?_⟩
  · rw [ht.entry, hslot, ht.entryBefore, hscore]
    rfl
  · rw [ht.row, hslot, ht.rowBefore, hscore, hmember]
  · rw [emissionOf, hcall, hscore]
    rfl
  · intro s hsome
    rw [hcall] at hsome
    cases hsome

theorem sweptCell (h : WellFormed eng) {mac : Mac} {j : Fin maxClients}
    (hj : Holds eng.rows mac j) : SweptCell lq now eng mac j := by
  obtain ⟨acc, ht, -⟩ := exists_turn lq now h hj
  cases hs : scorable eng j with
  | true => exact ht.scored lq now h hj hs
  | false => exact ht.idle lq now h hj hs

theorem swept_all (h : WellFormed eng) :
    Swept (eng, []) (sweep lq now eng) (List.finRange maxClients) := by
  unfold sweep
  exact swept lq now _ (eng, []) h.tracked

theorem wellFormed_sweep (h : WellFormed eng) : WellFormed (sweep lq now eng).1 := by
  have hs := swept_all lq now h
  generalize sweep lq now eng = acc at hs
  exact hs.wellFormed h

theorem sweep_cell (h : WellFormed eng) (mac : Mac) :
    cell (sweep lq now eng).1 mac =
      ((cell eng mac).score lq eng.policy now (trackerRoom eng mac)).1 ∧
    emissionOf mac (sweep lq now eng).2 =
      ((cell eng mac).score lq eng.policy now (trackerRoom eng mac)).2 := by
  have hs := swept_all lq now h
  have hwf := wellFormed_sweep lq now h
  by_cases hmem : ∃ j, Holds eng.rows mac j
  · obtain ⟨j, hj⟩ := hmem
    obtain ⟨hentry, hrow, hemission, _⟩ := sweptCell lq now h hj
    generalize sweep lq now eng = acc at hs hwf hentry hrow hemission ⊢
    have hmember := cell_member_of_holds hwf (hs.holds_iff.mpr hj)
    exact ⟨Cell.ext (hmember.trans hrow.symm) hentry, hemission⟩
  · have habs : ∀ j, ¬ Holds eng.rows mac j := fun j hj => hmem ⟨j, hj⟩
    have hnone := cell_member_of_absent habs
    have hscore : (cell eng mac).score lq eng.policy now (trackerRoom eng mac) =
        (cell eng mac, none) := by
      rw [Cell.score, hnone]
    generalize sweep lq now eng = acc at hs hwf ⊢
    have hmacs : mac ∉ scoredMacs eng (List.finRange maxClients) := by
      intro hm
      obtain ⟨i, _, hsc, hmac⟩ := mem_scoredMacs.mp hm
      rw [scorable, Bool.and_eq_true] at hsc
      exact habs i ⟨hsc.1, hmac⟩
    have hnone' : (cell acc.1 mac).member = none :=
      cell_member_of_absent fun j hj => habs j (hs.holds_iff.mp hj)
    have hcall : callFor mac acc.2 = none := hs.callFor_output hmacs
    rw [hscore, emissionOf, hcall]
    exact ⟨Cell.ext (hnone'.trans hnone.symm) (hs.other mac hmacs), rfl⟩

end Sweep

/-! ## The reap of the map -/

/-- One row after the reap: cleared apart from its snapshot if its client is absent. -/
def Row.reap (now : Int) (row : Row D) : Row D :=
  if row.slot.inUse && row.absent now then ⟨Slot.zero, row.snapshot, EpisodeLog.zero⟩ else row

theorem Row.reap_reap (now : Int) (row : Row D) : (row.reap now).reap now = row.reap now := by
  unfold Row.reap
  by_cases h : (row.slot.inUse && row.absent now) = true
  · rw [if_pos h]
    rfl
  · rw [if_neg h, if_neg h]

/-- How the engine after the turns over `is` relates to the one before. -/
structure Reaped (now : Int) (eng eng' : Engine D) (is : List (Fin maxClients)) : Prop where
  rows : ∀ j, eng'.rows j = if j ∈ is then (eng.rows j).reap now else eng.rows j
  count : eng.map.count.toNat = inUseCount eng.rows → eng'.map.count.toNat = inUseCount eng'.rows
  tracker : eng'.tracker = eng.tracker
  policy : eng'.policy = eng.policy
  result : eng'.result = eng.result

theorem mapReapSlot_reaped (now : Int) (eng : Engine D) (i : Fin maxClients) :
    Reaped now eng (mapReapSlot now eng i) [i] := by
  unfold mapReapSlot
  by_cases h : ((eng.map.slots i).inUse && (eng.map.slots i).absent now) = true
  · rw [if_pos h]
    have h' : ((eng.rows i).slot.inUse && (eng.rows i).absent now) = true := h
    have hin : inUse (eng.rows i) = true := (Bool.and_eq_true _ _ ▸ h).1
    have hrows : (⟨⟨Function.update eng.map.slots i Slot.zero,
        if 0 < eng.map.count then eng.map.count - 1 else eng.map.count⟩, eng.tracker, eng.policy,
        eng.snapshot, eng.result, Function.update eng.ledger i EpisodeLog.zero⟩ : Engine D).rows =
        Function.update eng.rows i ⟨Slot.zero, (eng.rows i).snapshot, EpisodeLog.zero⟩ := by
      funext j
      by_cases hj : j = i
      · subst hj; simp [Engine.rows]
      · simp [Engine.rows, hj]
    refine ⟨?_, ?_, rfl, rfl, rfl⟩
    · intro j
      rw [hrows]
      by_cases hj : j = i
      · subst hj
        rw [Function.update_self, if_pos (by simp), Row.reap, if_pos h']
      · rw [Function.update_of_ne hj, if_neg (by simpa using hj)]
    · intro hc
      rw [hrows]
      have hfree := inUseCount_free (s := (⟨Slot.zero, (eng.rows i).snapshot, EpisodeLog.zero⟩ :
        Row D)) hin rfl
      have hpos : 0 < eng.map.count := by
        rw [UInt8.lt_iff_toNat_lt]
        simp
        omega
      dsimp only
      rw [if_pos hpos, UInt8.toNat_sub_of_le _ _ (by rw [UInt8.le_iff_toNat_le]; simp; omega)]
      simp
      omega
  · rw [if_neg h]
    refine ⟨?_, fun hc => hc, rfl, rfl, rfl⟩
    intro j
    by_cases hj : j = i
    · subst hj
      rw [if_pos (by simp), Row.reap]
      exact (if_neg h).symm
    · rw [if_neg (by simpa using hj)]

theorem reaped (now : Int) (is : List (Fin maxClients)) (eng : Engine D) :
    Reaped now eng (is.foldl (mapReapSlot now) eng) is := by
  induction is generalizing eng with
  | nil => exact ⟨fun j => by simp, fun hc => hc, rfl, rfl, rfl⟩
  | cons i is ih =>
    have h₁ := mapReapSlot_reaped now eng i
    have h₂ := ih (mapReapSlot now eng i)
    refine ⟨?_, fun hc => h₂.count (h₁.count hc), h₂.tracker.trans h₁.tracker,
      h₂.policy.trans h₁.policy, h₂.result.trans h₁.result⟩
    intro j
    rw [List.foldl_cons, h₂.rows, h₁.rows]
    by_cases hj : j = i
    · subst hj
      simp [Row.reap_reap]
    · simp [hj]

theorem mapReap_reaped (now : Int) (eng : Engine D) :
    Reaped now eng (mapReap now eng) (List.finRange maxClients) := by
  unfold mapReap
  exact reaped now _ eng

/-- The reap is a release of the rows of absent clients. -/
theorem Reaped.release_eq {now : Int} {eng eng' : Engine D}
    (h : Reaped now eng eng' (List.finRange maxClients)) :
    eng'.rows = release (Row.absent now)
      (fun i => ⟨Slot.zero, (eng.rows i).snapshot, EpisodeLog.zero⟩) eng.rows := by
  funext j
  rw [h.rows, if_pos (List.mem_finRange j)]
  rfl

theorem Reaped.wellFormed {now : Int} {eng eng' : Engine D}
    (hr : Reaped now eng eng' (List.finRange maxClients)) (h : WellFormed eng) :
    WellFormed eng' := by
  refine ⟨?_, hr.count h.count, ?_, by rw [hr.tracker]; exact h.tracked,
    by rw [hr.tracker]; exact h.drained⟩
  · rw [hr.release_eq]
    exact distinct_release (fun _ => rfl) h.distinct
  · intro i hv
    rw [hr.rows, if_pos (List.mem_finRange i)] at hv ⊢
    unfold Row.reap at hv ⊢
    by_cases hc : ((eng.rows i).slot.inUse && (eng.rows i).absent now) = true
    · rw [if_pos hc]
      exact ⟨rfl, rfl⟩
    · rw [if_neg hc] at hv ⊢
      exact h.vacant i hv

theorem Reaped.lookup_rows {now : Int} {eng eng' : Engine D}
    (hr : Reaped now eng eng' (List.finRange maxClients)) (h : WellFormed eng) (mac : Mac) :
    lookup eng'.rows mac = (lookup eng.rows mac).filter (fun r => !r.absent now) := by
  rw [hr.release_eq]
  exact lookup_release (fun _ => rfl) h.distinct mac

/-! ## The whole tick -/

section Tick

variable (lq : LinkQty D) (now : Int) {eng : Engine D}

theorem wellFormed_reapTracker (h : WellFormed eng) :
    WellFormed { eng with tracker := Track.reap eng.tracker now Track.absenceDefaultMs } where
  distinct := h.distinct
  count := h.count
  vacant := h.vacant
  tracked := Track.distinct_reap h.tracked _ _
  drained := by
    intro i
    change (Track.reap eng.tracker now Track.absenceDefaultMs i).count = 0 ∧
      (Track.reap eng.tracker now Track.absenceDefaultMs i).accumulated = 0
    unfold Track.reap release
    split
    · exact ⟨rfl, rfl⟩
    · exact h.drained i

theorem tick_eq : tick lq eng now =
    (mapReap now { (sweep lq now eng).1 with
      tracker := Track.reap (sweep lq now eng).1.tracker now Track.absenceDefaultMs },
      (sweep lq now eng).2) := rfl

theorem wellFormed_tick (h : WellFormed eng) : WellFormed (tick lq eng now).1 := by
  rw [tick_eq]
  exact (mapReap_reaped now _).wellFormed (wellFormed_reapTracker now (wellFormed_sweep lq now h))

theorem tick_policy (h : WellFormed eng) : (tick lq eng now).1.policy = eng.policy := by
  rw [tick_eq]
  exact (mapReap_reaped now _).policy.trans (swept_all lq now h).policy

/-- The reaps of a tick, read at one MAC. -/
theorem cell_reaps (h : WellFormed eng) (mac : Mac) :
    cell (mapReap now
      { eng with tracker := Track.reap eng.tracker now Track.absenceDefaultMs }) mac =
      (cell eng mac).reap now := by
  have hr := mapReap_reaped now
    { eng with tracker := Track.reap eng.tracker now Track.absenceDefaultMs }
  have hrows := hr.lookup_rows (wellFormed_reapTracker now h) mac
  have htrk := hr.tracker
  generalize mapReap now
    { eng with tracker := Track.reap eng.tracker now Track.absenceDefaultMs } = eng' at hrows htrk ⊢
  refine Cell.ext hrows ?_
  rw [cell, htrk]
  exact Track.lookup_reap h.tracked _ _ _

/-- The engine refines its cells: one tick. -/
theorem tick_cell (h : WellFormed eng) (mac : Mac) :
    cell (tick lq eng now).1 mac =
      ((cell eng mac).tick lq eng.policy now (trackerRoom eng mac)).1 ∧
    emissionOf mac (tick lq eng now).2 =
      ((cell eng mac).tick lq eng.policy now (trackerRoom eng mac)).2 := by
  obtain ⟨hcell, hemission⟩ := sweep_cell lq now h mac
  have hreaps := cell_reaps now (wellFormed_sweep lq now h) mac
  rw [tick_eq]
  refine ⟨?_, hemission⟩
  rw [hreaps, hcell]
  rfl

/-- A tick makes at most one publish call for a MAC. -/
theorem tick_calls_nodup (h : WellFormed eng) : ((tick lq eng now).2.map (·.mac)).Nodup := by
  obtain ⟨out, ho, hm⟩ := (swept_all lq now h).output
  have hout : (tick lq eng now).2 = out := ho.trans (List.nil_append out)
  rw [hout, hm]
  refine List.Nodup.map_on ?_ ((List.nodup_finRange maxClients).filter _)
  intro i hi j hj he
  have hin : ∀ a, a ∈ (List.finRange maxClients).filter (scorable eng) →
      (eng.rows a).slot.inUse = true := by
    intro a ha
    have hsc := (List.mem_filter.mp ha).2
    rw [scorable, Bool.and_eq_true] at hsc
    exact hsc.1
  exact h.distinct _ i j ⟨hin i hi, rfl⟩ ⟨hin j hj, he.symm⟩

theorem callFor_of_mem (h : WellFormed eng) {s : Scored} (hs : s ∈ (tick lq eng now).2) :
    callFor s.mac (tick lq eng now).2 = some s := by
  have hnd := tick_calls_nodup lq now h
  generalize (tick lq eng now).2 = out at hs hnd ⊢
  induction out with
  | nil => cases hs
  | cons a out ih =>
    rw [List.map_cons, List.nodup_cons] at hnd
    rcases List.mem_cons.mp hs with rfl | hs
    · simp [callFor]
    · have hne : a.mac ≠ s.mac := by
        intro he
        exact hnd.1 (he ▸ List.mem_map.mpr ⟨s, hs, rfl⟩)
      have hi := ih hs hnd.2
      rw [callFor] at hi ⊢
      rw [List.find?_cons_of_neg (by simpa using hne)]
      exact hi

/-- The tracker hands out no entry exactly where the cell has no room for one. -/
theorem tick_timed (h : WellFormed eng) {s : Scored} (hs : s ∈ (tick lq eng now).2) :
    s.entry = none ↔ trackerRoom eng s.mac = false := by
  have hcall := callFor_of_mem lq now h hs
  obtain ⟨out, ho, hm⟩ := (swept_all lq now h).output
  have hout : (tick lq eng now).2 = out := ho.trans (List.nil_append out)
  have hmem : s.mac ∈ out.map (·.mac) := List.mem_map.mpr ⟨s, hout ▸ hs, rfl⟩
  rw [hm] at hmem
  obtain ⟨i, hi, hmac⟩ := List.mem_map.mp hmem
  have hsc := (List.mem_filter.mp hi).2
  rw [scorable, Bool.and_eq_true] at hsc
  exact (sweptCell lq now h (j := i) ⟨hsc.1, hmac⟩).timed s hcall

end Tick

end Wei.Infer
