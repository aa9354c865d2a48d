import Mathlib.Tactic.IntervalCases
import Wei.Lib.RealDouble
import Wei.Infer.Score
import Wei.KernelScore

/-!
# The batch scorer

The score as a formula over all records a client was scored with since its
admission, and the proof that the streaming state of `wei_infer_client_t`
summarises them: its rings are the last records, its bands the extremes over all
of them, its ramp their number. Doubles are read as exact reals.
-/
namespace Wei.Infer

open Wei.Lib Wei.Lib.SlotTable Wei.Lib.Statistics Wei.ConnScorer
open Track (maxClients)

noncomputable section

/-! ## The formula -/

/-- The share of the score that the `n`-th scored tick shows. -/
def easeIn (n : Nat) : ℝ :=
  if n ≤ 4 then (1 - Real.exp (-n)) / (1 - Real.exp (-4)) else 1

/-- The last eight uplink rates. -/
def rateWindow (rs : List ConnMetric.Record) : List ℝ :=
  (Ring.window phyWindow (rs.map ConnMetric.Record.phyRateKbps)).map fun v => (v.toNat : ℝ)

def runningMean (rs : List ConnMetric.Record) : ℝ := mean (rateWindow rs)

/-- The loss rate between the oldest and the newest of the last eight counter pairs. -/
def windowedLoss (rs : List ConnMetric.Record) : ℝ :=
  match (Ring.window perrWindow (rs.map counters)).head?, (rs.map counters).getLast? with
  | some oldest, some newest => lossRate newest oldest
  | _, _ => 0

def snrs (rs : List ConnMetric.Record) : List ℝ := rs.map snrValue

/-- The score on the 0-100 scale, of the records `rs` with `r` the last of them. -/
def batchScale (lq : LinkQty ℝ) (rs : List ConnMetric.Record) (r : ConnMetric.Record) : ℝ :=
  let a := minMax (snrValue r) (snrs rs)
  let b := minMax (runningMean rs) ((prefixes rs).map runningMean)
  let c := minMax (windowedLoss rs) ((prefixes rs).map windowedLoss)
  clamp 0 100 (100 * √((a ^ 2 + b ^ 2 + 1 - c ^ 2) / 3) * logisticWeight lq r.chanUtilPct.toNat)

def batchScore (lq : LinkQty ℝ) (rs : List ConnMetric.Record) : Int :=
  match rs.getLast? with
  | none => 0
  | some r => ⌊easeIn rs.length * batchScale lq rs r + 1 / 2⌋

/-! ## The bands -/

/-- The band of the values `vs`. -/
def bandOf (vs : List ℝ) : Band ℝ := if vs = [] then Band.zero else ⟨lowest vs, highest vs, true⟩

theorem bandOf_nil : bandOf [] = Band.zero := if_pos rfl

theorem bandWiden_bandOf (vs : List ℝ) (v : ℝ) : bandWiden (bandOf vs) v = bandOf (vs ++ [v]) := by
  rw [bandOf, bandOf, if_neg (by simp : vs ++ [v] ≠ [])]
  by_cases hne : vs = []
  · subst hne
    simp [bandWiden, Band.zero, lowest_singleton, highest_singleton]
  · rw [if_neg hne, lowest_concat hne, highest_concat hne, min_def_lt, max_comm, max_def_lt]
    simp only [bandWiden, RealDouble.lt_iff, Bool.true_eq_false, if_false]
    split
    · split <;> rfl
    · split <;> rfl

/-- A value in the band of all values of its kind. -/
theorem inBand_bandOf (v : ℝ) {vs : List ℝ} (hne : vs ≠ []) : inBand (bandOf vs) v = minMax v vs := by
  rw [inBand, normalizeMetric_eq, bandOf, if_neg hne, minMax]

/-! ## The windows -/

/-- The live cells of the rate ring are the rate window, up to order. -/
theorem rates_perm {rs : List ConnMetric.Record} {st : Client ℝ} (h : Windows rs st) :
    (st.phy.contents.map fun v => (v.toNat : ℝ)).Perm (rateWindow rs) :=
  (Ring.contents_perm h.phy).map _

theorem phyMean_eq {rs : List ConnMetric.Record} {st : Client ℝ} (h : Windows rs st)
    (hne : rs ≠ []) : phyMean st = runningMean rs := by
  have hfill : st.phy.fill ≠ 0 := fun h0 => hne (h.fill_eq_zero.mp h0)
  have hsum : (((st.phy.contents.map UInt32.toNat).sum : ℤ) : ℝ) =
      (st.phy.contents.map fun v => (v.toNat : ℝ)).sum := by
    rw [Int.cast_natCast, Nat.cast_list_sum, List.map_map]
    rfl
  rw [runningMean, ← mean_perm (rates_perm h), mean, List.length_map, Ring.length_contents]
  simp only [phyMean, if_neg hfill, RealDouble.ofInt_eq, hsum, Int.cast_natCast]

theorem lossRate_self (x : UInt32 × UInt32) : lossRate x x = (0 : ℝ) := by
  simp [lossRate, counterDelta]

theorem perrRate_eq {rs : List ConnMetric.Record} {st : Client ℝ} (h : Windows rs st)
    (hne : rs ≠ []) : perrRate st = windowedLoss rs := by
  have hcs : rs.map counters ≠ [] := by simpa using hne
  have hfill := h.perr.fill_eq
  have hwindow : perrWindow = 8 := rfl
  have hnewest := Ring.buf_newest h.perr hcs
  have hlast : (rs.map counters).getLast? = some (st.perr.buf st.perr.newest) := by
    rw [hnewest, List.getLast?_eq_getLast_of_ne_nil hcs]
  rw [windowedLoss, Ring.buf_oldest h.perr hcs, hlast, perrRate]
  split
  · -- a single pair: the oldest is the newest
    have hone : st.perr.buf st.perr.oldest = st.perr.buf st.perr.newest := by
      have hlength : (rs.map counters).length = 1 := by
        have := List.length_pos_iff.mpr hcs
        omega
      obtain ⟨c, hc⟩ := List.length_eq_one_iff.mp hlength
      have holdest := Ring.buf_oldest h.perr hcs
      rw [hc] at holdest hlast
      exact Option.some.inj (holdest.symm.trans hlast)
    dsimp only
    rw [hone, lossRate_self]
    simp
  · rfl

/-! ## The ramp -/

theorem easeIn_nonneg (n : Nat) : 0 ≤ easeIn n := by
  unfold easeIn
  split
  · apply div_nonneg
    · have := Real.exp_le_one_iff.mpr (show -(n : ℝ) ≤ 0 by simp)
      linarith
    · have := Real.exp_le_one_iff.mpr (show (-4 : ℝ) ≤ 0 by norm_num)
      linarith
  · exact zero_le_one

theorem easeIn_le_one (n : Nat) : easeIn n ≤ 1 := by
  unfold easeIn
  split
  · rename_i hn
    have hn' : (n : ℝ) ≤ 4 := by exact_mod_cast hn
    have hlt := Real.exp_lt_one_iff.mpr (show (-4 : ℝ) < 0 by norm_num)
    have hle := Real.exp_le_exp.mpr (show (-4 : ℝ) ≤ -n by linarith)
    rw [div_le_one (by linarith)]
    linarith
  · exact le_refl 1

/-- With `4 - m` ticks left of the ramp, the next tick is the `m + 1`-st. -/
theorem ease_eq {ramp : UInt16} {m : Nat} (hramp : ramp.toNat = 4 - m) (hm : m < 4) :
    (ease ramp : ℝ) = easeIn (m + 1) := by
  have hcount : (reconnectRamp - ramp + 1).toNat = m + 1 := by
    have heq : ramp = UInt16.ofNat (4 - m) := by
      apply UInt16.toNat.inj
      rw [hramp, UInt16.toNat_ofNat', Nat.mod_eq_of_lt (by omega)]
    rw [heq]
    interval_cases m <;> rfl
  unfold ease easeIn
  have hexp : -4 * (((m + 1 : ℕ) : ℝ) / 4) = -((m + 1 : ℕ) : ℝ) := by ring
  rw [hcount, if_pos (by omega), show reconnectRamp.toNat = 4 from rfl]
  simp only [RealDouble.ofInt_eq, RealDouble.exp_eq, Int.cast_natCast, Int.cast_one,
    Int.cast_ofNat, Nat.cast_ofNat, hexp]

/-! ## The summary -/

/-- The three bands after the records `rs`. -/
def bandsOf (rs : List ConnMetric.Record) : Fin metricCount → Band ℝ :=
  ![bandOf (snrs rs), bandOf ((prefixes rs).map runningMean), bandOf ((prefixes rs).map windowedLoss)]

theorem bandsOf_nil : bandsOf [] = (Client.zero : Client ℝ).normBand := by
  funext i
  match i with
  | 0 => exact bandOf_nil
  | 1 => exact bandOf_nil
  | 2 => exact bandOf_nil

theorem bandsOf_concat (rs : List ConnMetric.Record) (r : ConnMetric.Record) :
    bandsOf (rs ++ [r]) = ![bandWiden (bandsOf rs 0) (snrValue r),
      bandWiden (bandsOf rs 1) (runningMean (rs ++ [r])),
      bandWiden (bandsOf rs 2) (windowedLoss (rs ++ [r]))] := by
  rw [bandsOf, prefixes_concat, snrs, List.map_append, List.map_append, List.map_append]
  exact congrArg₂ _ (bandWiden_bandOf _ _).symm
    (congrArg₂ _ (bandWiden_bandOf _ _).symm (congrArg₂ _ (bandWiden_bandOf _ _).symm rfl))

/-- The client's state is what the records `rs` leave of it. -/
structure Summarises (rs : List ConnMetric.Record) (st : Client ℝ) : Prop where
  windows : Windows rs st
  bands : st.normBand = bandsOf rs
  ramp : rs ≠ [] → st.reconnectRamp.toNat = 4 - rs.length

theorem summarises_zero : Summarises [] (Client.zero : Client ℝ) where
  windows := windows_zero
  bands := bandsOf_nil.symm
  ramp := fun h => absurd rfl h

section Summary

variable {rs : List ConnMetric.Record} {st : Client ℝ}

theorem Summarises.widened_eq (h : Summarises rs st) (r : ConnMetric.Record) :
    widened st r = bandsOf (rs ++ [r]) := by
  have hwin := h.windows.pushed r
  have hne : rs ++ [r] ≠ [] := by simp
  rw [bandsOf_concat, widened, h.bands, phyMean_eq hwin hne, perrRate_eq hwin hne]

theorem Summarises.rampAt_toNat (h : Summarises rs st) : (rampAt st).toNat = 4 - rs.length := by
  unfold rampAt
  by_cases hne : rs = []
  · rw [if_pos (h.windows.fill_eq_zero.mpr hne), hne]
    rfl
  · rw [if_neg fun h0 => hne (h.windows.fill_eq_zero.mp h0), h.ramp hne]

theorem Summarises.next (h : Summarises rs st) (lq : LinkQty ℝ) (policy : Policy)
    (r : ConnMetric.Record) : Summarises (rs ++ [r]) (nextState lq policy st r) where
  windows := h.windows.next lq policy r
  bands := by
    rw [nextState, latencyState_normBand]
    exact h.widened_eq r
  ramp := by
    intro _
    have hramp := h.rampAt_toNat
    rw [nextState, latencyState_reconnectRamp, List.length_append, List.length_singleton]
    simp only [scoredState, UInt16.lt_iff_toNat_lt, UInt16.toNat_zero]
    split
    · rw [UInt16.toNat_sub_of_le _ _ (by rw [UInt16.le_iff_toNat_le, UInt16.toNat_one]; omega),
        UInt16.toNat_one]
      omega
    · omega

theorem Summarises.scaledScore_eq (h : Summarises rs st) (lq : LinkQty ℝ) (r : ConnMetric.Record) :
    scaledScore lq st r = batchScale lq (rs ++ [r]) r := by
  have hwin := h.windows.pushed r
  have hne : rs ++ [r] ≠ [] := by simp
  have hsnrs : snrs (rs ++ [r]) ≠ [] := by simp [snrs]
  have hmeans : (prefixes (rs ++ [r])).map runningMean ≠ [] := by simpa using prefixes_ne_nil hne
  have hlosses : (prefixes (rs ++ [r])).map windowedLoss ≠ [] := by simpa using prefixes_ne_nil hne
  have ha : inBand (widened st r 0) (snrValue r) = minMax (snrValue r) (snrs (rs ++ [r])) := by
    rw [h.widened_eq]
    exact inBand_bandOf _ hsnrs
  have hb : inBand (widened st r 1) (phyMean (pushed st r)) =
      minMax (runningMean (rs ++ [r])) ((prefixes (rs ++ [r])).map runningMean) := by
    rw [h.widened_eq, phyMean_eq hwin hne]
    exact inBand_bandOf _ hmeans
  have hc : inBand (widened st r 2) (perrRate (pushed st r)) =
      minMax (windowedLoss (rs ++ [r])) ((prefixes (rs ++ [r])).map windowedLoss) := by
    rw [h.widened_eq, perrRate_eq hwin hne]
    exact inBand_bandOf _ hlosses
  unfold scaledScore batchScale
  rw [ha, hb, hc]
  generalize minMax (snrValue r) (snrs (rs ++ [r])) = a
  generalize minMax (runningMean (rs ++ [r])) ((prefixes (rs ++ [r])).map runningMean) = b
  have hc0 := position_nonneg (windowedLoss (rs ++ [r]))
    (lowest ((prefixes (rs ++ [r])).map windowedLoss))
    (highest ((prefixes (rs ++ [r])).map windowedLoss))
  have hc1 := position_le_one (windowedLoss (rs ++ [r]))
    (lowest ((prefixes (rs ++ [r])).map windowedLoss))
    (highest ((prefixes (rs ++ [r])).map windowedLoss))
  rw [← minMax] at hc0 hc1
  generalize minMax (windowedLoss (rs ++ [r])) ((prefixes (rs ++ [r])).map windowedLoss) = c
    at hc0 hc1 ⊢
  have hsum : 0 ≤ a * a + b * b + (1 - c * c) := by nlinarith [mul_self_nonneg a, mul_self_nonneg b]
  have hsq : a * a + b * b + (1 - c * c) = a ^ 2 + b ^ 2 + 1 - c ^ 2 := by ring
  simp only [RealDouble.ofInt_eq, Int.cast_one, Int.cast_natCast]
  rw [rmsReduce_eq hsum, chanutilWeight_eq, standardize_eq, hsq, mul_assoc]

theorem Summarises.easedScore_eq (h : Summarises rs st) (lq : LinkQty ℝ) (r : ConnMetric.Record) :
    easedScore lq st r = easeIn (rs ++ [r]).length * batchScale lq (rs ++ [r]) r := by
  have hramp := h.rampAt_toNat
  have hpos : 0 < rampAt st ↔ rs.length < 4 := by
    rw [UInt16.lt_iff_toNat_lt, UInt16.toNat_zero, hramp]
    omega
  unfold easedScore
  rw [h.scaledScore_eq, List.length_append, List.length_singleton]
  by_cases hlt : rs.length < 4
  · rw [if_pos (hpos.mpr hlt), ease_eq hramp hlt, mul_comm]
  · rw [if_neg (mt hpos.mp hlt), easeIn, if_neg (by omega), one_mul]

theorem batchScale_nonneg (lq : LinkQty ℝ) (rs : List ConnMetric.Record) (r : ConnMetric.Record) :
    0 ≤ batchScale lq rs r := le_clamp 0 100 _

theorem batchScale_le (lq : LinkQty ℝ) (rs : List ConnMetric.Record) (r : ConnMetric.Record) :
    batchScale lq rs r ≤ 100 := clamp_le (by norm_num) _

/-- What is rounded is a percentage. -/
theorem Summarises.easedScore_mem (h : Summarises rs st) (lq : LinkQty ℝ) (r : ConnMetric.Record) :
    0 ≤ easedScore lq st r ∧ easedScore lq st r ≤ 100 := by
  have hnonneg := mul_nonneg (easeIn_nonneg (rs ++ [r]).length) (batchScale_nonneg lq (rs ++ [r]) r)
  have hle := mul_le_mul (easeIn_le_one (rs ++ [r]).length) (batchScale_le lq (rs ++ [r]) r)
    (batchScale_nonneg lq (rs ++ [r]) r) zero_le_one
  rw [h.easedScore_eq]
  exact ⟨hnonneg, by linarith⟩

/-- Half a point added, and rounded down into a byte that holds it. -/
theorem Summarises.score_conv (h : Summarises rs st) (lq : LinkQty ℝ) (r : ConnMetric.Record) :
    ((plainResult lq st r).score.toNat : Int) = ⌊easedScore lq st r + 1 / 2⌋ ∧
      (plainResult lq st r).score.toNat ≤ 100 := by
  obtain ⟨hnonneg, hle⟩ := h.easedScore_mem lq r
  obtain ⟨hfloor, hbound⟩ := RealDouble.floor_half_mem hnonneg hle
  have hpos : (0 : ℝ) ≤ easedScore lq st r + 1 / 2 := by linarith
  have htrunc : CDouble.trunc (easedScore lq st r + CDouble.ofInt 1 / CDouble.ofInt 2) =
      ⌊easedScore lq st r + 1 / 2⌋ := by
    rw [RealDouble.ofInt_eq, RealDouble.ofInt_eq, Int.cast_one, Int.cast_ofNat]
    exact RealDouble.trunc_of_nonneg hpos
  have hscore : (plainResult lq st r).score = UInt8.ofInt ⌊easedScore lq st r + 1 / 2⌋ := by
    rw [← htrunc]
    rfl
  have hbyte := RealDouble.toNat_byte hfloor (by omega)
  rw [hscore]
  exact ⟨hbyte, by omega⟩

theorem Summarises.score_eq (h : Summarises rs st) (lq : LinkQty ℝ) (r : ConnMetric.Record) :
    ((plainResult lq st r).score.toNat : Int) = batchScore lq (rs ++ [r]) := by
  rw [(h.score_conv lq r).1, h.easedScore_eq, batchScore, List.getLast?_concat]

end Summary

/-! ## Runs -/

section Runs

variable {lq : LinkQty ℝ} {policy : Policy} {mac : Mac} {pre a : List Event}

/-- Throughout a tenure the client's state summarises the records it was scored with. -/
theorem tenure_summary (hne : a ≠ []) (h : Tenure lq policy mac pre a) :
    ∃ row, (cell (after lq policy (pre ++ a)) mac).member = some row ∧
      Summarises ((recordsRead mac a).map (·.2)) row.slot.state := by
  have hinv := tenure_state (P := fun ticks st => Summarises (ticks.map ScoredTick.metrics) st)
    summarises_zero ?_ hne h
  · obtain ⟨row, hrow, hsum⟩ := hinv
    obtain ⟨_, _, _, hreads⟩ := tenure_reads hne h
    refine ⟨row, hrow, ?_⟩
    rw [← hreads, List.map_map]
    exact hsum
  · intro ticks row room entry now row' entry' out hgate hscore hsum
    rw [List.map_append, (scoreRow_scored hgate hscore).state]
    exact hsum.next lq policy row.snapshot

/-- A tick that scores the client reads one more record, on top of the state that
summarises the ones before. -/
theorem tick_summary (h : Tenure lq policy mac pre a) {now : Int} {s : Scored}
    (hs : s ∈ (tick lq (after lq policy (pre ++ a)) now).2) (hmac : s.mac = mac) :
    ∃ row row' entry', (cell (after lq policy (pre ++ a)) mac).member = some row ∧
      row.snapshot = s.metrics ∧ row.snapshot.usable = true ∧
      scoreRow lq policy now (trackerRoom (after lq policy (pre ++ a)) mac) row
        (cell (after lq policy (pre ++ a)) mac).entry = some (row', entry', s.result) ∧
      Summarises ((recordsRead mac a).map (·.2)) row.slot.state ∧
      recordsRead mac (a ++ [.tick now]) = recordsRead mac a ++ [(now, s.metrics)] := by
  subst hmac
  obtain ⟨row, row', entry', hrow, hmetrics, hgate, hscore⟩ := tick_scored lq policy _ hs
  have hne := h.ne_nil hrow
  obtain ⟨row₁, hrow₁, hsum⟩ := tenure_summary hne h
  obtain rfl := Option.some.inj (hrow.symm.trans hrow₁)
  obtain ⟨row₂, hrow₂, hlast, _⟩ := tenure_reads hne h
  obtain rfl := Option.some.inj (hrow.symm.trans hrow₂)
  rw [hmetrics] at hlast
  exact ⟨row, row', entry', hrow, hmetrics, hgate, hscore, hsum,
    recordsRead_scored hlast (hmetrics ▸ hgate) now⟩

/-- No scored tick of a tenure shows more than 100. -/
theorem tenure_scores (hne : a ≠ []) (h : Tenure lq policy mac pre a) :
    ∀ t ∈ scoredTicks lq mac (after lq policy pre) a, t.result.score.toNat ≤ 100 := by
  have hinv := tenure_state (P := fun ticks st => Summarises (ticks.map ScoredTick.metrics) st ∧
    ∀ t ∈ ticks, t.result.score.toNat ≤ 100) ⟨summarises_zero, by simp⟩ ?_ hne h
  · obtain ⟨_, _, _, hscores⟩ := hinv
    exact hscores
  · intro ticks row room entry now row' entry' out hgate hscore hinv
    obtain ⟨hsum, hscores⟩ := hinv
    have hscored := scoreRow_scored hgate hscore
    constructor
    · rw [List.map_append, hscored.state]
      exact hsum.next lq policy row.snapshot
    · intro t ht
      rcases List.mem_append.mp ht with ht | ht
      · exact hscores t ht
      · obtain rfl := List.mem_singleton.mp ht
        rw [show (ScoredTick.mk now row.snapshot out).result = out from rfl, hscored.score]
        exact (hsum.score_conv lq row.snapshot).2

theorem scored_score_le (h : Tenure lq policy mac pre a) {now : Int} {s : Scored}
    (hs : s ∈ (tick lq (after lq policy (pre ++ a)) now).2) (hmac : s.mac = mac) :
    s.result.score.toNat ≤ 100 := by
  obtain ⟨row, _, _, _, _, hgate, hscore, hsum, _⟩ := tick_summary h hs hmac
  rw [(scoreRow_scored hgate hscore).score]
  exact (hsum.score_conv lq row.snapshot).2

/-- The score a client shows at a tick is the batch score of all records it was
scored with since its admission, and a tick that does not score it does not count. -/
theorem streaming_score_is_batch (lq : LinkQty ℝ) (policy : Policy) {mac : Mac} {es : List Event}
    (hm : Member (after lq policy es) mac) :
    ∃ pre a, es = pre ++ a ∧ Tenure lq policy mac pre a ∧ ∀ now,
      (∀ s ∈ (tick lq (after lq policy es) now).2, s.mac = mac →
        recordsRead mac (a ++ [.tick now]) = recordsRead mac a ++ [(now, s.metrics)] ∧
        (s.result.score.toNat : Int) =
          batchScore lq ((recordsRead mac (a ++ [.tick now])).map (·.2))) ∧
      ((∀ s ∈ (tick lq (after lq policy es) now).2, s.mac ≠ mac) →
        recordsRead mac (a ++ [.tick now]) = recordsRead mac a ∧
        ∀ i, Holds (after lq policy es).map.slots mac i →
          (tick lq (after lq policy es) now).1.result i = (after lq policy es).result i ∧
          (Holds (tick lq (after lq policy es) now).1.map.slots mac i →
            ((tick lq (after lq policy es) now).1.map.slots i).state =
                ((after lq policy es).map.slots i).state ∧
              (tick lq (after lq policy es) now).1.ledger i = (after lq policy es).ledger i)) := by
  obtain ⟨pre, a, rfl, hne, h⟩ := exists_tenure lq policy es hm
  obtain ⟨row, hrow, hlast, _⟩ := tenure_reads hne h
  have hwf := wellFormed_after lq policy (pre ++ a)
  refine ⟨pre, a, rfl, h, fun now => ⟨?_, ?_⟩⟩
  · intro s hs hmac
    obtain ⟨_, _, _, _, hmetrics, hgate, hscore, hsum, hread⟩ := tick_summary h hs hmac
    refine ⟨hread, ?_⟩
    rw [hread, List.map_append, (scoreRow_scored hgate hscore).score, hsum.score_eq, hmetrics]
    rfl
  · intro hnone
    have hgate : row.snapshot.usable = false := by
      rw [← Bool.not_eq_true, ← scored_iff lq policy (pre ++ a) now hrow]
      rintro ⟨s, hs, hmac⟩
      exact hnone s hs hmac
    constructor
    · rw [recordsRead_tick, hlast]
      simp [Option.filter, hgate]
    · intro i hi
      have hslot := cell_member_of_holds hwf (holds_rows.mpr hi)
      obtain rfl := Option.some.inj (hrow.symm.trans hslot)
      exact gated_tick lq hwf now hgate

/-- The records of a link that gets better: no two agree in a field that is scored. -/
def linkAt (i : Nat) : ConnMetric.Record :=
  { ConnMetric.Record.zero with
    linkSnrDb := .ofInt (10 + 3 * i)
    phyRateKbps := .ofNat (24000 * (i + 1))
    txFrames := .ofNat (100 * i)
    txErrFrames := .ofNat (20 * i - i * i)
    chanUtilPct := .ofNat (60 - 4 * i) }

/-- The first nine, each read by a tick; the tenth is staged. -/
def betterEachTick : List Event :=
  beats (Vector.replicate 6 0) (inTurn ((List.range 9).map linkAt)) ++
    [(beatAt 9 (linkAt 9)).stage (Vector.replicate 6 0)]

theorem betterEachTick_fresh : ∀ b ∈ inTurn ((List.range 9).map linkAt), b.Fresh :=
  fresh_inTurn (by decide)

theorem betterEachTick_tenure : Tenure (⟨0, 0⟩ : LinkQty ℝ) wireDefaultPolicy
    (Vector.replicate 6 0) [] betterEachTick :=
  beats_tenure _ _ _ betterEachTick_fresh _

theorem betterEachTick_member :
    Member (after (⟨0, 0⟩ : LinkQty ℝ) wireDefaultPolicy betterEachTick) (Vector.replicate 6 0) :=
  betterEachTick_tenure.stays betterEachTick (List.prefix_refl _) (by simp [betterEachTick])

/-- The windows hold the last eight of the ten records, the bands all of them. -/
theorem streaming_score_is_batch_tenth :
    ∃ s ∈ (tick ⟨0, 0⟩ (after (⟨0, 0⟩ : LinkQty ℝ) wireDefaultPolicy betterEachTick) 45002).2,
      s.mac = Vector.replicate 6 0 ∧
        (s.result.score.toNat : Int) = batchScore ⟨0, 0⟩ ((List.range 10).map linkAt) := by
  obtain ⟨-, s, hs, hmac, hmetrics⟩ := beats_scored (⟨0, 0⟩ : LinkQty ℝ) wireDefaultPolicy
    (Vector.replicate 6 0) betterEachTick_fresh (b := beatAt 9 (linkAt 9)) ⟨by decide, by decide⟩
  obtain ⟨pre, a, hsplit, h, hticks⟩ := streaming_score_is_batch (⟨0, 0⟩ : LinkQty ℝ)
    wireDefaultPolicy betterEachTick_member
  refine ⟨s, hs, hmac, ?_⟩
  obtain ⟨hnext, hscore⟩ := (hticks 45002).1 s hs hmac
  have hne : a ≠ [] := by
    rintro rfl
    rw [List.append_nil] at hsplit
    exact h.absent (hsplit ▸ betterEachTick_member)
  obtain rfl := betterEachTick_tenure.unique h hsplit (by simp [betterEachTick]) hne
  rw [List.nil_append] at hsplit
  rw [hscore, hnext, hmetrics, ← hsplit, betterEachTick, Beat.stage, recordsRead_stage,
    beats_reads _ betterEachTick_fresh, List.map_append, List.map_map]
  rw [show (Prod.snd ∘ fun b : Beat => (b.now, b.metrics)) = Beat.metrics from rfl,
    map_metrics_inTurn]
  rfl

end Runs

end

end Wei.Infer
