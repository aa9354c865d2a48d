import Wei.Infer.VerdictMeaning

/-!
# Admission after a reap

The reap of the map frees a client's slot but leaves its entry in the tracker,
whose stamp is that of the last score. A client that is admitted again while the
entry is there is timed with an excursion of its former tenure. These results
say when that does no harm, and show a run in which it does.
-/
namespace Wei.Infer

open Wei.Lib Wei.Lib.SlotTable Wei.ConnScorer
open Track (maxClients)

/-! ## The client on its own -/

/-- What a fresh engine is given of a run: the ticks, and the records of one client. -/
def concerns (mac : Mac) : Event → Bool
  | .stage mac' _ _ => decide (mac' = mac)
  | .tick _ => true

theorem macs_concerns (mac : Mac) (es : List Event) : macs (es.filter (concerns mac)) ⊆ {mac} := by
  intro mac' hm
  obtain ⟨e, he, hmac⟩ := mem_macs.mp hm
  have hc := (List.mem_filter.mp he).2
  cases e with
  | tick now => cases hmac
  | stage m rec now =>
    obtain rfl : m = mac' := Option.some.inj hmac
    exact Finset.mem_singleton.mpr (of_decide_eq_true hc)

theorem concerns_few (mac : Mac) (es : List Event) :
    (macs (es.filter (concerns mac))).card ≤ maxClients :=
  (Finset.card_le_card (macs_concerns mac es)).trans (by rw [Finset.card_singleton]; decide)

section Readmission

variable {D : Type} [CDouble D] (lq : LinkQty D) (policy : Policy) (mac : Mac)

/-- The cell of the client after the run `a` of a fresh engine without other clients. -/
def freshCell (a : List Event) : Cell D :=
  (solo lq policy mac).final Cell.empty (a.filter (concerns mac))

theorem freshCell_concat (a : List Event) {e : Event} (h : concerns mac e = true) :
    freshCell lq policy mac (a ++ [e]) =
      (cellStep lq policy mac true (freshCell lq policy mac a) e).1 := by
  rw [freshCell, List.filter_append, List.filter_cons_of_pos h, List.filter_nil,
    Mealy.final_concat]
  rfl

theorem freshCell_other (a : List Event) {e : Event} (h : concerns mac e = false) :
    freshCell lq policy mac (a ++ [e]) = freshCell lq policy mac a := by
  rw [freshCell, List.filter_append, List.filter_cons_of_neg (by simp [h]), List.filter_nil,
    List.append_nil, freshCell]

theorem freshCell_eq (a : List Event) :
    cell (after lq policy (a.filter (concerns mac))) mac = freshCell lq policy mac a :=
  (run_solo lq policy mac _ (concerns_few mac a)).1

/-! ## What the score of a row needs of the tracker -/

/-- The instability that a tick computes for the client of this row. -/
def Row.instability (row : Row D) : Int32 := phyInstability (scoredState row.slot.state row.snapshot)

/-- What `wei_track_get` and the calls after it yield for this row. -/
def Row.timed (policy : Policy) (room : Bool) (now : Int) (row : Row D)
    (entry : Option Track.Entry) : Option (Track.Entry × Track.Record) :=
  timedEntry policy room row.slot.mac row.instability now entry

/-- The bit that the instability flag sets for this row. -/
def Row.flagged (policy : Policy) (room : Bool) (now : Int) (row : Row D)
    (entry : Option Track.Entry) : Bool :=
  decide (policy.tputVarBand < row.instability) ||
    (row.timed policy room now entry).any (fun x => decide (0 < x.2.durationMs))

/-- Row and result of a scored tick, given that bit. -/
def Row.outcome (row : Row D) (now : Int) (flagged : Bool) : Row D × Result :=
  let plain := plainResult lq row.slot.state row.snapshot
  let c := concludeScore policy (scoredState row.slot.state row.snapshot) row.snapshot
    (if flagged then { plain with verdict := .degraded } else plain) row.ledger now
  ({ row with slot.state := c.1, ledger := c.2.2 }, c.2.1)

theorem scoreRow_eq {row : Row D} (hgate : row.snapshot.usable = true) (now : Int) (room : Bool)
    (entry : Option Track.Entry) : scoreRow lq policy now room row entry =
      some ((row.outcome lq policy now (row.flagged policy room now entry)).1,
        (row.timed policy room now entry).map (·.1),
        (row.outcome lq policy now (row.flagged policy room now entry)).2) := by
  simp only [scoreRow, scoreClient_eq lq _ hgate]
  rfl

/-! ## An entry that was left over -/

/-- The open excursion of the entry is one that an end at `t` counts. -/
def Counted (policy : Policy) (t : Int) (e : Track.Entry) : Prop :=
  e.startTs ≠ 0 ∧ policy.tputFloorMs ≤ t - e.startTs ∧ e.startTs < t

/-- At time `t` the entry has no open excursion, or one that `t` ends uncounted. -/
def Harmless (policy : Policy) (t : Int) (e : Track.Entry) : Prop :=
  e.startTs = 0 ∨ (0 ≤ policy.tputVarBand ∧ ¬ Counted policy t e)

theorem scoredState_fill (st : Client D) (rec : ConnMetric.Record) :
    (scoredState st rec).phy.fill ≠ 0 := by
  have hwindow : phyWindow = 8 := rfl
  change (st.phy.push rec.phyRateKbps).fill ≠ 0
  rw [Ring.fill_push]
  split <;> omega

/-- A single rate does not vary. -/
theorem Row.instability_first {row : Row D} (h : row.slot.state.phy.fill = 0) :
    row.instability = 0 := by
  have hfill : (scoredState row.slot.state row.snapshot).phy.fill = 1 := by
    change (row.slot.state.phy.push row.snapshot.phyRateKbps).fill = 1
    rw [Ring.fill_push, h]
    rfl
  rw [Row.instability, phyInstability, hfill]
  rfl

theorem not_above_zero {policy : Policy} (hband : 0 ≤ policy.tputVarBand) : ¬ above policy 0 := by
  have hband' := Int32.le_iff_toInt_le.mp hband
  have hmin : Int32.minValue < policy.tputVarBand :=
    Int32.lt_iff_toInt_lt.mpr (lt_of_lt_of_le (by decide) hband')
  rw [above_iff hmin (by decide), not_lt]
  exact hband'

/-- A client's first scored tick is flagged only for the excursion it ends. -/
theorem Row.flagged_first {policy : Policy} (hband : 0 ≤ policy.tputVarBand) {row : Row D}
    (hfirst : row.slot.state.phy.fill = 0) (room : Bool) (now : Int) {entry : Option Track.Entry}
    (hacc : ∀ e, entry = some e → e.accumulated = 0) :
    row.flagged policy room now entry = true ↔ ∃ e, entry = some e ∧ Counted policy now e := by
  have hnlt : ¬ policy.tputVarBand < 0 := by
    rw [Int32.lt_iff_toInt_lt, not_lt]
    exact Int32.le_iff_toInt_le.mp hband
  have hend : ∀ e : Track.Entry, e.accumulated = 0 →
      (0 < (timeEntry policy 0 now (e.seen now)).2.durationMs ↔ Counted policy now e) := by
    intro e hacc
    rw [timeEntry_duration policy 0 now (e := e.seen now) hacc]
    exact and_iff_right (not_above_zero hband)
  rw [Row.flagged, Row.timed, Row.instability_first hfirst, decide_eq_false hnlt, Bool.false_or,
    timedEntry, Option.any_map]
  cases entry with
  | some e =>
    simp only [obtainEntry, Option.any_some, decide_eq_true_iff]
    rw [hend e (hacc e rfl)]
    simp
  | none =>
    cases room with
    | false => simp [obtainEntry]
    | true =>
      have hnone := (hend (Track.Entry.claimed row.slot.mac now) rfl).mp
      simp only [obtainEntry, if_true, Option.any_some, decide_eq_true_iff]
      exact iff_of_false (fun h => (hnone h).1 rfl) (by simp)

/-- What the first scored tick makes of an entry that was left over, against a new one. -/
structure SameStart (policy : Policy) (now : Int) (row : Row D) (e : Track.Entry) : Prop where
  kept : (row.timed policy true now (some e)).map (·.1) =
    (row.timed policy true now none).map (·.1)
  flagged : row.flagged policy true now (some e) = row.flagged policy true now none

theorem sameStart {policy : Policy} {now : Int} {row : Row D} {e : Track.Entry}
    (hfirst : row.slot.state.phy.fill = 0) (hmac : e.mac = row.slot.mac) (hin : e.inUse = true)
    (hcount : e.count = 0) (hacc : e.accumulated = 0) (hharmless : Harmless policy now e) :
    SameStart policy now row e := by
  obtain ⟨_, _, _, start, _, _⟩ := e
  dsimp only at hmac hin hcount hacc
  subst hmac hin hcount hacc
  rcases hharmless with hstart | ⟨hband, hshort⟩
  · dsimp only at hstart
    subst hstart
    exact ⟨rfl, rfl⟩
  · constructor
    · have hclosed := not_above_zero hband
      rw [Row.timed, Row.timed, Row.instability_first hfirst]
      exact congrArg some ((timeEntry_closed hclosed now _).trans
        (timeEntry_closed hclosed now (Track.Entry.claimed row.slot.mac now)).symm)
    · rw [Bool.eq_iff_iff, Row.flagged_first hband hfirst true now (by simp),
        Row.flagged_first hband hfirst true now (by simp)]
      refine iff_of_false ?_ (by simp)
      rintro ⟨e, he, hcounted⟩
      obtain rfl := Option.some.inj he
      exact hshort hcounted

/-! ## Conditions on a tick that scores the client -/

/-- The tracker has an entry for the client or room for one, and what it may have
left from before the client's admission is harmless at its first scored tick. -/
structure CleanTick (policy : Policy) (mac : Mac) (eng : Engine D) (t : Int) : Prop where
  room : trackerRoom eng mac = true
  harmless : ∀ row e, cell eng mac = ⟨some row, some e⟩ → row.slot.state.phy.fill = 0 →
    Harmless policy t e

/-- The client's instability is above the band: the verdict needs no tracker. -/
def UnstableTick (policy : Policy) (mac : Mac) (eng : Engine D) : Prop :=
  ∀ row, (cell eng mac).member = some row → policy.tputVarBand < row.instability

/-- `C` holds of the engine before every tick among the calls of `a` that scores `mac`. -/
def Throughout (mac : Mac) (pre a : List Event) (C : Engine D → Int → Prop) : Prop :=
  ∀ b t, b ++ [.tick t] <+: a → (cell (after lq policy (pre ++ b)) mac).Scorable →
    C (after lq policy (pre ++ b)) t

section Runs

variable {lq policy mac} {pre : List Event}

theorem Throughout.of_concat {a : List Event} {e : Event} {C : Engine D → Int → Prop}
    (h : Throughout lq policy mac pre (a ++ [e]) C) : Throughout lq policy mac pre a C :=
  fun b t hb => h b t (hb.trans (List.prefix_append a [e]))

theorem Throughout.last {a : List Event} {t : Int} {C : Engine D → Int → Prop}
    (h : Throughout lq policy mac pre (a ++ [.tick t]) C) {row : Row D}
    (hrow : (cell (after lq policy (pre ++ a)) mac).member = some row)
    (hgate : row.snapshot.usable = true) : C (after lq policy (pre ++ a)) t :=
  h a t (List.prefix_refl _) ⟨row, hrow, hgate⟩

/-! ## Two engines side by side -/

theorem tick_of_usable {c : Cell D} {row : Row D} (hrow : c.member = some row)
    (hgate : row.snapshot.usable = true) (now : Int) (room : Bool) :
    c.tick lq policy now room =
      (Cell.reap now ⟨some (row.outcome lq policy now (row.flagged policy room now c.entry)).1,
          (row.timed policy room now c.entry).map (·.1)⟩,
        some ⟨(row.outcome lq policy now (row.flagged policy room now c.entry)).2,
          row.snapshot⟩) := by
  simp only [Cell.tick, Cell.score, hrow, scoreRow_eq lq policy hgate]

theorem tick_of_gated {c : Cell D} {row : Row D} (hrow : c.member = some row)
    (hgate : row.snapshot.usable = false) (now : Int) (room : Bool) :
    c.tick lq policy now room = (c.reap now, none) := by
  have hidle : ¬ c.Scorable := by
    rintro ⟨row', hrow', hgate'⟩
    obtain rfl := Option.some.inj (hrow.symm.trans hrow')
    rw [hgate] at hgate'
    cases hgate'
  rw [Cell.tick, score_idle lq policy now room hidle]

omit [CDouble D] in
theorem reap_kept {row : Row D} {now : Int} (hkept : row.absent now = false) :
    (some row).filter (fun r => !r.absent now) = some row := by
  simp [Option.filter, hkept]

/-- The row of the fresh engine is the same, and so is its entry once the client was scored. -/
structure Alike (row : Row D) (entry : Option Track.Entry) (c : Cell D) : Prop where
  member : c.member = some row
  first : row.slot.state.phy.fill = 0 → c.entry = none
  later : row.slot.state.phy.fill ≠ 0 → c.entry = entry

/-- A tick that is clean does the same with either entry. -/
theorem Alike.timed {eng : Engine D} (hwf : WellFormed eng) {row : Row D}
    {entry : Option Track.Entry} (hcell : cell eng mac = ⟨some row, entry⟩) {c : Cell D}
    (h : Alike row entry c) {now : Int} (hclean : CleanTick policy mac eng now) :
    (row.timed policy true now entry).map (·.1) = (row.timed policy true now c.entry).map (·.1) ∧
      row.flagged policy true now entry = row.flagged policy true now c.entry := by
  by_cases hfirst : row.slot.state.phy.fill = 0
  · rw [h.first hfirst]
    cases entry with
    | none => exact ⟨rfl, rfl⟩
    | some e =>
      obtain ⟨i, hi, hrow⟩ := holds_of_lookup (congrArg Cell.member hcell)
      obtain ⟨j, hj, rfl⟩ := holds_of_lookup (congrArg Cell.entry hcell)
      have hmac : row.slot.mac = mac := hrow ▸ hi.2
      have hsame := sameStart hfirst (hj.2.trans hmac.symm) hj.1 (hwf.drained j).1
        (hwf.drained j).2 (hclean.harmless row _ hcell hfirst)
      exact ⟨hsame.kept, hsame.flagged⟩
  · rw [h.later hfirst]
    exact ⟨rfl, rfl⟩

theorem outcome_fill (row : Row D) (now : Int) (flagged : Bool) :
    (row.outcome lq policy now flagged).1.slot.state.phy.fill ≠ 0 := by
  change (latencyState policy (scoredState row.slot.state row.snapshot) _).phy.fill ≠ 0
  rw [latencyState_phy]
  exact scoredState_fill row.slot.state row.snapshot

/-- Throughout a tenure of clean ticks the two engines agree about the client. -/
theorem tenure_alike {a : List Event} (hne : a ≠ []) (h : Tenure lq policy mac pre a)
    (hclean : Throughout lq policy mac pre a (CleanTick policy mac)) :
    ∃ row, (cell (after lq policy (pre ++ a)) mac).member = some row ∧
      Alike row (cell (after lq policy (pre ++ a)) mac).entry (freshCell lq policy mac a) := by
  have hinv := tenure_induction (P := fun a _ row entry =>
    Throughout lq policy mac pre a (CleanTick policy mac) →
      Alike row entry (freshCell lq policy mac a)) ?_ ?_ ?_ ?_ ?_ a hne h
  · obtain ⟨row, hrow, _, halike⟩ := hinv
    exact ⟨row, hrow, halike hclean⟩
  · intro rec now _
    have hfresh : freshCell lq policy mac [.stage mac rec now] =
        ⟨some (Row.admitted mac rec now), none⟩ := by
      simp [freshCell, concerns, solo, cellStep, Cell.stage, Cell.empty]
    rw [hfresh]
    exact ⟨rfl, fun _ => rfl, fun hne => absurd rfl hne⟩
  · intro a ticks row entry rec now halike hclean
    obtain ⟨hmember, hfirst, hlater⟩ := halike hclean.of_concat
    rw [freshCell_concat lq policy mac a (by simp [concerns])]
    simp only [cellStep, if_true, Cell.stage, hmember]
    exact ⟨rfl, hfirst, hlater⟩
  · intro a ticks row entry mac' rec now hother halike hclean
    rw [freshCell_other lq policy mac a (by simp [concerns, hother])]
    exact halike hclean.of_concat
  · intro a ticks row entry now hgate hkept halike hclean
    obtain ⟨hmember, hfirst, hlater⟩ := halike hclean.of_concat
    rw [freshCell_concat lq policy mac a rfl]
    simp only [cellStep, tick_of_gated hmember hgate]
    refine ⟨?_, fun h0 => ?_, fun h0 => ?_⟩
    · rw [Cell.reap, hmember]
      exact reap_kept hkept
    · rw [Cell.reap, hfirst h0, Option.filter_none]
    · rw [Cell.reap, hlater h0]
  · intro a ticks row entry now row' entry' out hcell hgate hscore hkept halike hclean
    have h := halike hclean.of_concat
    have hlast := hclean.last (congrArg Cell.member hcell) hgate
    obtain ⟨htimed, hflagged⟩ := h.timed (wellFormed_after lq policy _) hcell hlast
    rw [hlast.room, scoreRow_eq lq policy hgate, hflagged, htimed] at hscore
    simp only [Option.some.injEq, Prod.mk.injEq] at hscore
    obtain ⟨hrow', hentry', -⟩ := hscore
    rw [freshCell_concat lq policy mac a rfl]
    simp only [cellStep, tick_of_usable h.member hgate, hrow', hentry']
    have hfill : row'.slot.state.phy.fill ≠ 0 := hrow' ▸ outcome_fill row now _
    refine ⟨?_, fun h0 => absurd h0 hfill, fun _ => rfl⟩
    exact reap_kept hkept

/-- Above the band the flag is set whatever the tracker does. -/
theorem flagged_of_unstable {row : Row D} (h : policy.tputVarBand < row.instability) (room : Bool)
    (now : Int) (entry : Option Track.Entry) : row.flagged policy room now entry = true := by
  simp [Row.flagged, h]

/-- Throughout a tenure of unstable ticks the two engines agree about the client's row. -/
theorem tenure_unstable {a : List Event} (hne : a ≠ []) (h : Tenure lq policy mac pre a)
    (hunstable : Throughout lq policy mac pre a fun eng _ => UnstableTick policy mac eng) :
    ∃ row, (cell (after lq policy (pre ++ a)) mac).member = some row ∧
      (freshCell lq policy mac a).member = some row := by
  have hinv := tenure_induction (P := fun a _ row _ =>
    (Throughout lq policy mac pre a fun eng _ => UnstableTick policy mac eng) →
      (freshCell lq policy mac a).member = some row) ?_ ?_ ?_ ?_ ?_ a hne h
  · obtain ⟨row, hrow, _, hmember⟩ := hinv
    exact ⟨row, hrow, hmember hunstable⟩
  · intro rec now _
    simp [freshCell, concerns, solo, cellStep, Cell.stage, Cell.empty]
  · intro a ticks row entry rec now hmember hunstable
    rw [freshCell_concat lq policy mac a (by simp [concerns])]
    simp only [cellStep, if_true, Cell.stage, hmember hunstable.of_concat]
  · intro a ticks row entry mac' rec now hother hmember hunstable
    rw [freshCell_other lq policy mac a (by simp [concerns, hother])]
    exact hmember hunstable.of_concat
  · intro a ticks row entry now hgate hkept hmember hunstable
    rw [freshCell_concat lq policy mac a rfl]
    simp only [cellStep, tick_of_gated (hmember hunstable.of_concat) hgate, Cell.reap,
      hmember hunstable.of_concat]
    exact reap_kept hkept
  · intro a ticks row entry now row' entry' out hcell hgate hscore hkept hmember hunstable
    have hrow := congrArg Cell.member hcell
    have habove := hunstable.last hrow hgate row hrow
    rw [scoreRow_eq lq policy hgate, flagged_of_unstable habove] at hscore
    simp only [Option.some.injEq, Prod.mk.injEq] at hscore
    rw [freshCell_concat lq policy mac a rfl]
    simp only [cellStep, tick_of_usable (hmember hunstable.of_concat) hgate,
      flagged_of_unstable habove, hscore.1]
    exact reap_kept hkept

/-- In such a tenure a tick emits for the client what it emits in the fresh engine. -/
theorem tick_alike {a : List Event} (h : Tenure lq policy mac pre a) (now : Int)
    (hticks : Throughout lq policy mac pre (a ++ [.tick now]) (CleanTick policy mac) ∨
      Throughout lq policy mac pre (a ++ [.tick now]) fun eng _ => UnstableTick policy mac eng) :
    ((cell (after lq policy (pre ++ a)) mac).tick lq policy now
        (trackerRoom (after lq policy (pre ++ a)) mac)).2 =
      ((freshCell lq policy mac a).tick lq policy now true).2 := by
  by_cases hne : a = []
  · subst hne
    have habs : (cell (after lq policy (pre ++ [])) mac).member = none := by
      rw [List.append_nil, ← Option.not_isSome_iff_eq_none, ← member_iff (wellFormed_after lq policy _)]
      exact h.absent
    rw [Cell.tick, Cell.score, habs]
    rfl
  · rcases hticks with hclean | hunstable
    · obtain ⟨row, hrow, halike⟩ := tenure_alike hne h hclean.of_concat
      by_cases hgate : row.snapshot.usable = true
      · have hlast := hclean.last hrow hgate
        obtain ⟨_, hflagged⟩ := halike.timed (wellFormed_after lq policy _) (Cell.ext hrow rfl) hlast
        rw [hlast.room, tick_of_usable hrow hgate, tick_of_usable halike.member hgate, hflagged]
      · have hgate' : row.snapshot.usable = false := by simpa using hgate
        rw [tick_of_gated hrow hgate', tick_of_gated halike.member hgate']
    · obtain ⟨row, hrow, hmember⟩ := tenure_unstable hne h hunstable.of_concat
      by_cases hgate : row.snapshot.usable = true
      · have habove := hunstable.last hrow hgate row hrow
        rw [tick_of_usable hrow hgate, tick_of_usable hmember hgate, flagged_of_unstable habove,
          flagged_of_unstable habove]
      · have hgate' : row.snapshot.usable = false := by simpa using hgate
        rw [tick_of_gated hrow hgate', tick_of_gated hmember hgate']

/-- What a tick makes of the fresh engine, read at the client. -/
theorem emission_fresh (a : List Event) (now : Int) :
    emissionOf mac (tick lq (after lq policy (a.filter (concerns mac))) now).2 =
      ((freshCell lq policy mac a).tick lq policy now true).2 := by
  rw [(tick_few lq policy mac now (concerns_few mac a)).2, freshCell_eq]

/-- A client that is admitted again gets, at every tick, what a fresh engine would
give it, if its ticks are clean, or if all of them are unstable. -/
theorem readmission_clean {a : List Event} (h : Tenure lq policy mac pre a) (now : Int)
    (hticks : Throughout lq policy mac pre (a ++ [.tick now]) (CleanTick policy mac) ∨
      Throughout lq policy mac pre (a ++ [.tick now]) fun eng _ => UnstableTick policy mac eng) :
    emissionOf mac (tick lq (after lq policy (pre ++ a)) now).2 =
      emissionOf mac (tick lq (after lq policy (a.filter (concerns mac))) now).2 := by
  have hrun := (tick_cell lq now (wellFormed_after lq policy (pre ++ a)) mac).2
  rw [policy_after] at hrun
  rw [hrun, tick_alike h now hticks, emission_fresh]

/-! ## What a leftover entry does -/

/-- A client's first score is `DEGRADED` exactly if it ends an excursion that counts:
one that the tracker kept from a former tenure. -/
theorem first_verdict (hband : 0 ≤ policy.tputVarBand)
    (hsustain : 1 < policy.latencySustainTicks.toNat) {row : Row D}
    (hstate : row.slot.state = Client.zero) (hgate : row.snapshot.usable = true) (now : Int)
    {room : Bool} {entry : Option Track.Entry} (hacc : ∀ e, entry = some e → e.accumulated = 0) :
    (row.outcome lq policy now (row.flagged policy room now entry)).2.verdict = .degraded ↔
      ∃ e, entry = some e ∧ Counted policy now e := by
  have hscored := scoreRow_scored hgate (scoreRow_eq lq policy hgate now room entry)
  have hfirst : row.slot.state.phy.fill = 0 := by rw [hstate]; rfl
  have hflagged : unstable policy row.instability (row.timed policy room now entry) ↔
      row.flagged policy room now entry = true := by
    rw [unstable, Row.flagged, Bool.or_eq_true, decide_eq_true_iff]
  have halarm : ¬ (nextState lq policy row.slot.state row.snapshot).alarm = true := by
    have hlatency := ((hstate ▸ latency_zero policy).scored row.snapshot).next
      ⟨now, row.snapshot, plainResult lq row.slot.state row.snapshot⟩
    intro h
    have hlow := hlatency.alarm.mp h
    have hone : lowRun policy [⟨now, row.snapshot, plainResult lq row.slot.state row.snapshot⟩] ≤ 1 :=
      (List.rtakeWhile_suffix _ _).length_le
    rw [List.nil_append] at hlow
    omega
  rw [← Row.flagged_first hband hfirst room now hacc, ← hflagged, hscored.verdict]
  exact or_iff_left halarm

end Runs

end Readmission

/-! ## A visit that ends in a reap -/

noncomputable section

open Statistics

def roamer : Mac := Vector.replicate 6 0

/-- A client is scored at the rate 0 and later, once, at `rate`; that tick reaps it. -/
def visit (rate : UInt32) : List Event :=
  [.stage roamer (rated 0) 1, .tick 1, .stage roamer (rated rate) 2, .tick 30003]

/-- It is back ten seconds after that tick. -/
def returned : List Event := [.stage roamer (rated 0) 40003]

theorem visit_few (rate : UInt32) : (macs (visit rate ++ returned)).card ≤ maxClients := by
  have hmacs : macs (visit rate ++ returned) = {roamer} := by
    simp [macs, visit, returned, Event.mac?, List.filterMap_cons]
  rw [hmacs, Finset.card_singleton]
  decide

theorem rateVariance_pair (rate : UInt32) :
    rateVariance [rated 0, rated rate] = ⌊(rate.toNat : ℝ) ^ 2 / 4000000⌋ := by
  have hwindow : rateWindow [rated 0, rated rate] = [0, (rate.toNat : ℝ)] := by
    simp [rateWindow, rated, Ring.window, phyWindow]
  rw [rateVariance, if_neg (by simp), hwindow]
  congr 1
  simp [variance, mean]
  ring

/-- A tick that scores the client, with the variance read off the records. -/
theorem tick_row (c : Cell ℝ) {row : Row ℝ} (rs : List ConnMetric.Record)
    (hrow : c.member = some row) (hgate : row.snapshot.usable = true)
    (hwindows : Windows rs row.slot.state) (lq : LinkQty ℝ) (policy : Policy) (now : Int)
    {e : Track.Entry} (hentry : obtainEntry true row.slot.mac now c.entry = some e)
    (hseen : e.lastSeen = now) :
    ∃ row', row'.slot.mac = row.slot.mac ∧ row'.slot.lastSeen = row.slot.lastSeen ∧
      Windows (rs ++ [row.snapshot]) row'.slot.state ∧ (c.tick lq policy now true).1 =
        ⟨(some row').filter (fun r => !r.absent now),
          some (timeEntry policy (Int32.ofInt (rateVariance (rs ++ [row.snapshot]))) now e).1⟩ := by
  have hscore := scoreRow_eq lq policy hgate now true c.entry
  have hscored := scoreRow_scored hgate hscore
  obtain ⟨hmac, hin, hlast, _⟩ := scoreRow_keeps hscore
  refine ⟨_, hmac, hlast, hscored.state ▸ hwindows.next lq policy row.snapshot, ?_⟩
  have htimed : (row.timed policy true now c.entry).map (·.1) =
      some (timeEntry policy (Int32.ofInt (rateVariance (rs ++ [row.snapshot]))) now e).1 := by
    rw [Row.timed, timedEntry, hentry, Row.instability,
      phyInstability_eq (hwindows.scored row.snapshot)]
    rfl
  rw [tick_of_usable hrow hgate, htimed]
  exact Cell.ext rfl (kept_of_seen ((timeEntry_lastSeen policy _ now e).trans hseen))

/-- The excursion that `rate` opens is still open in the entry that is left over. -/
theorem visit_cell (rate : UInt32) :
    cell (after (⟨0, 0⟩ : LinkQty ℝ) wireDefaultPolicy (visit rate)) roamer =
      ⟨none, some (timeEntry wireDefaultPolicy
        (Int32.ofInt (rateVariance [rated 0, rated rate])) 30003
        (Track.Entry.claimed roamer 30003)).1⟩ := by
  have hfew : (macs (visit rate)).card ≤ maxClients :=
    (Finset.card_le_card (macs_subset_append _ _)).trans (visit_few rate)
  rw [(run_solo _ _ _ _ hfew).1]
  obtain ⟨row₁, hmac, hlast₁, hwindows, htick₁⟩ := tick_row
    ⟨some (Row.admitted roamer (rated 0) 1), none⟩ [] rfl rfl windows_zero ⟨0, 0⟩
    wireDefaultPolicy 1 rfl rfl
  have hkept : row₁.absent 1 = false := by
    rw [Row.absent, Slot.absent, hlast₁]
    rfl
  have hclaimed : (timeEntry wireDefaultPolicy 0 1 (Track.Entry.claimed roamer 1)).1 =
      Track.Entry.claimed roamer 1 := timeEntry_closed (not_above_zero (by decide)) 1 _
  have hfirst : (cellStep ⟨0, 0⟩ wireDefaultPolicy roamer true
      ⟨some (Row.admitted roamer (rated 0) 1), none⟩ (.tick 1)).1 =
        ⟨some row₁, some (Track.Entry.claimed roamer 1)⟩ :=
    htick₁.trans (Cell.ext (reap_kept hkept) (congrArg some hclaimed))
  obtain ⟨row₂, -, hlast₂, _, htick₂⟩ := tick_row
    ⟨some (row₁.refreshed (rated rate) 2), some (Track.Entry.claimed roamer 1)⟩ [rated 0] rfl rfl
    hwindows ⟨0, 0⟩ wireDefaultPolicy 30003 rfl rfl
  have hgone : row₂.absent 30003 = true := by
    rw [Row.absent, Slot.absent, hlast₂]
    rfl
  have hstaged : (cellStep ⟨0, 0⟩ wireDefaultPolicy roamer true
      ⟨some row₁, some (Track.Entry.claimed roamer 1)⟩ (.stage roamer (rated rate) 2)).1 =
        ⟨some (row₁.refreshed (rated rate) 2), some (Track.Entry.claimed roamer 1)⟩ := rfl
  have hadmitted : (cellStep (⟨0, 0⟩ : LinkQty ℝ) wireDefaultPolicy roamer true Cell.empty
      (.stage roamer (rated 0) 1)).1 = ⟨some (Row.admitted roamer (rated 0) 1), none⟩ := rfl
  simp only [visit, Mealy.final_cons, Mealy.final_nil, solo]
  rw [hadmitted, hfirst, hstaged]
  refine htick₂.trans (Cell.ext ?_ rfl)
  simp [Option.filter, hgone]

theorem returned_cell (rate : UInt32) :
    cell (after (⟨0, 0⟩ : LinkQty ℝ) wireDefaultPolicy (visit rate ++ returned)) roamer =
      ⟨some (Row.admitted roamer (rated 0) 40003), some (timeEntry wireDefaultPolicy
        (Int32.ofInt (rateVariance [rated 0, rated rate])) 30003
        (Track.Entry.claimed roamer 30003)).1⟩ := by
  have hfew : (macs (visit rate)).card ≤ maxClients :=
    (Finset.card_le_card (macs_subset_append _ _)).trans (visit_few rate)
  have hvisit := visit_cell rate
  rw [(run_solo _ _ _ _ hfew).1] at hvisit
  rw [(run_solo _ _ _ _ (visit_few rate)).1, Mealy.final_append, hvisit]
  rfl

theorem visit_tenure (rate : UInt32) :
    Tenure (⟨0, 0⟩ : LinkQty ℝ) wireDefaultPolicy roamer (visit rate) returned := by
  constructor
  · rw [member_iff (wellFormed_after _ _ _), visit_cell]
    exact Bool.false_ne_true
  · intro b hb hne
    obtain rfl : b = returned := by
      rcases List.prefix_concat_iff.mp (show b <+: [] ++ returned from hb) with heq | hb
      · exact heq
      · exact absurd (List.prefix_nil.mp hb) hne
    rw [member_iff (wellFormed_after _ _ _), returned_cell]
    rfl

/-- Readmission after a visit whose rate never changed. -/
theorem readmission_clean_steady :
    emissionOf roamer (tick (⟨0, 0⟩ : LinkQty ℝ)
      (after ⟨0, 0⟩ wireDefaultPolicy (visit 0 ++ returned)) 40003).2 =
    emissionOf roamer (tick (⟨0, 0⟩ : LinkQty ℝ)
      (after ⟨0, 0⟩ wireDefaultPolicy (returned.filter (concerns roamer))) 40003).2 := by
  refine readmission_clean (visit_tenure 0) 40003 (Or.inl ?_)
  intro b t hb hscorable
  have hb' : b = returned ∧ t = 40003 := by
    rcases b with _ | ⟨e, _ | ⟨e', b⟩⟩ <;> simp [returned] at hb ⊢
    exact hb
  obtain ⟨rfl, rfl⟩ := hb'
  have hcell := returned_cell 0
  have hvariance : rateVariance [rated 0, rated 0] = 0 := by
    rw [rateVariance_pair]
    simp
  refine ⟨(trackerRoom_member (visit_few 0) (congrArg Cell.member hcell)).1, ?_⟩
  intro row e heq _
  obtain rfl := Option.some.inj (congrArg Cell.entry (hcell.symm.trans heq))
  left
  rw [hvariance]
  exact congrArg Track.Entry.startTs (timeEntry_closed (not_above_zero (by decide)) 30003 _)

/-- Readmission after a visit whose rate jumped: the absence counts as an excursion. -/
theorem readmission_flagged :
    ClockOk (visit 100000 ++ returned ++ [.tick 40003]) ∧
    Tenure (⟨0, 0⟩ : LinkQty ℝ) wireDefaultPolicy roamer (visit 100000) returned ∧
    ∃ x y,
      emissionOf roamer (tick (⟨0, 0⟩ : LinkQty ℝ)
        (after ⟨0, 0⟩ wireDefaultPolicy (visit 100000 ++ returned)) 40003).2 = some x ∧
      emissionOf roamer (tick (⟨0, 0⟩ : LinkQty ℝ)
        (after ⟨0, 0⟩ wireDefaultPolicy (returned.filter (concerns roamer))) 40003).2 = some y ∧
      x.result.verdict = .degraded ∧ y.result.verdict ≠ .degraded := by
  have hvariance : rateVariance [rated 0, rated 100000] = 2500 := by
    rw [rateVariance_pair, show (100000 : UInt32).toNat = 100000 from rfl]
    norm_num
  have hcell := returned_cell 100000
  rw [hvariance] at hcell
  have hfresh : freshCell (⟨0, 0⟩ : LinkQty ℝ) wireDefaultPolicy roamer returned =
      ⟨some (Row.admitted roamer (rated 0) 40003), none⟩ := rfl
  have hold := (tick_few (⟨0, 0⟩ : LinkQty ℝ) wireDefaultPolicy roamer 40003
    (visit_few 100000)).2
  have hnew := (tick_few (⟨0, 0⟩ : LinkQty ℝ) wireDefaultPolicy roamer 40003
    (concerns_few roamer returned)).2
  rw [hcell, tick_of_usable rfl rfl] at hold
  rw [freshCell_eq, hfresh, tick_of_usable rfl rfl] at hnew
  refine ⟨⟨by decide, by decide⟩, visit_tenure 100000, _, _, hold, hnew, ?_, ?_⟩
  · rw [first_verdict (by decide) (by decide) rfl rfl]
    · exact ⟨_, rfl, by decide, by decide, by decide⟩
    · rintro e ⟨⟩
      rfl
  · rw [Ne, first_verdict (by decide) (by decide) rfl rfl 40003 (by simp)]
    simp

end

end Wei.Infer
