import Wei.Lib.Percent
import Wei.Infer.Batch
import Wei.Wire

/-!
# The packet-error rate of a window

What `wei_infer_perr_rate` makes of the oldest and the newest pair of cumulative
counters. The two increments are exact 32-bit numbers, but their sum is taken
modulo 2^32, and each of them is cut at zero on its own: the results say for
which pairs the rate is the share of lost frames, and for which a reset reads as
a clean link. Doubles are read as exact reals.
-/
namespace Wei.Infer

open Wei.Lib Wei.Lib.Percent Wei.ConnScorer

noncomputable section

/-- The client whose loss window was given these counter pairs, oldest first. -/
def fed (pairs : List (UInt32 × UInt32)) : Client ℝ :=
  pairs.foldl (fun st pair => perrPush st pair.1 pair.2) Client.zero

theorem fed_concat (pairs : List (UInt32 × UInt32)) (pair : UInt32 × UInt32) :
    (fed (pairs ++ [pair])).perr = (fed pairs).perr.push pair := by
  rw [fed, List.foldl_append]
  rfl

theorem fed_represents (pairs : List (UInt32 × UInt32)) : (fed pairs).perr.Represents pairs := by
  induction pairs using List.reverseRecOn with
  | nil => exact Ring.represents_empty (0, 0)
  | append_singleton pairs pair ih =>
    rw [fed_concat]
    exact Ring.represents_push ih pair

/-- How much a counter grew, 0 if it went back. -/
def grown (oldest newest : UInt32) : ℕ := newest.toNat - oldest.toNat

theorem grown_lt (oldest newest : UInt32) : grown oldest newest < 2 ^ 32 := by
  have := newest.toNat_lt
  unfold grown
  omega

theorem counterDelta_toNat (oldest newest : UInt32) :
    (counterDelta newest oldest).toNat = grown oldest newest := by
  unfold counterDelta grown
  split
  · rename_i hle
    exact UInt32.toNat_sub_of_le newest oldest hle
  · rename_i hgt
    rw [UInt32.le_iff_toNat_le] at hgt
    have hzero : (0 : UInt32).toNat = 0 := rfl
    omega

/-- The quotient of `wei_infer_perr_rate`, as a share of a sum modulo 2^32. -/
theorem lossRate_eq (oldest newest : UInt32 × UInt32) : (lossRate newest oldest : ℝ) =
    wrapped (2 ^ 32) (grown oldest.1 newest.1) (grown oldest.2 newest.2) := by
  have hframes := counterDelta_toNat oldest.1 newest.1
  have herrs := counterDelta_toNat oldest.2 newest.2
  unfold lossRate
  generalize counterDelta newest.1 oldest.1 = dFrames at hframes ⊢
  generalize counterDelta newest.2 oldest.2 = dErrs at herrs ⊢
  rw [← hframes, ← herrs]
  exact loss_quotient_eq dFrames dErrs

section Window

variable {pre : List (UInt32 × UInt32)} {oldest newest : UInt32 × UInt32}

/-- The oldest pair of the window that a push leaves behind does not depend on the
pair that was pushed. -/
theorem oldest_of_push (hpre : pre ≠ []) (pair pair' : UInt32 × UInt32) :
    (Ring.window perrWindow (pre ++ [pair])).head? =
      (Ring.window perrWindow (pre ++ [pair'])).head? := by
  have hpos := List.length_pos_iff.mpr hpre
  have hwindow : perrWindow = 8 := rfl
  have hread : ∀ pair, (Ring.window perrWindow (pre ++ [pair])).head? =
      pre[(pre.length + 1) - perrWindow]? := by
    intro pair
    rw [Ring.window, List.head?_drop, List.length_append, List.length_singleton,
      List.getElem?_append_left (by omega)]
  rw [hread, hread]

theorem perrRate_fed (hpre : pre ≠ [])
    (hold : (Ring.window perrWindow (pre ++ [newest])).head? = some oldest) :
    perrRate (fed (pre ++ [newest])) =
      wrapped (2 ^ 32) (grown oldest.1 newest.1) (grown oldest.2 newest.2) := by
  have hne : pre ++ [newest] ≠ [] := by simp
  have hrep := fed_represents (pre ++ [newest])
  have hpos := List.length_pos_iff.mpr hpre
  have hfill : ¬ (fed (pre ++ [newest])).perr.fill < 2 := by
    have hwindow : perrWindow = 8 := rfl
    have := hrep.fill_eq
    rw [List.length_append, List.length_singleton] at this
    omega
  have holdest := Ring.buf_oldest hrep hne
  have hnewest := Ring.buf_newest hrep hne
  rw [hold, Option.some.injEq] at holdest
  rw [List.getLast_concat] at hnewest
  rw [perrRate, if_neg hfill, ← holdest, hnewest, lossRate_eq]

/-! ## When the rate is exact -/

/-- The rate of the window is the share of the frames sent since its oldest pair
that were lost, and moves with the newest counters as a share does. -/
structure ExactRate (pre : List (UInt32 × UInt32)) (oldest newest : UInt32 × UInt32) : Prop where
  exact : perrRate (fed (pre ++ [newest])) = percent (grown oldest.2 newest.2)
    (grown oldest.1 newest.1 + grown oldest.2 newest.2)
  range : 0 ≤ perrRate (fed (pre ++ [newest])) ∧ perrRate (fed (pre ++ [newest])) ≤ 100
  errors : ∀ errs, oldest.2 ≤ errs → errs ≤ newest.2 →
    perrRate (fed (pre ++ [(newest.1, errs)])) ≤ perrRate (fed (pre ++ [newest]))
  frames : ∀ frames, oldest.1 ≤ frames → frames ≤ newest.1 →
    perrRate (fed (pre ++ [newest])) ≤ perrRate (fed (pre ++ [(frames, newest.2)]))

theorem grown_mono (oldest : UInt32) {newest newest' : UInt32} (h : newest ≤ newest') :
    grown oldest newest ≤ grown oldest newest' :=
  Nat.sub_le_sub_right (UInt32.le_iff_toNat_le.mp h) _

/-- Where the increments fit 32 bits together, the rate is exact. -/
theorem exactRate_of_fits (hpre : pre ≠ [])
    (hold : (Ring.window perrWindow (pre ++ [newest])).head? = some oldest)
    (hfits : grown oldest.1 newest.1 + grown oldest.2 newest.2 < 2 ^ 32) :
    ExactRate pre oldest newest := by
  have hexact := (perrRate_fed hpre hold).trans (wrapped_of_lt hfits)
  refine ⟨hexact, ?_, ?_, ?_⟩
  · rw [hexact]
    exact ⟨percent_nonneg _ _, percent_le (Nat.le_add_left _ _)⟩
  · intro errs _ hle
    have hgrown := grown_mono oldest.2 hle
    rw [hexact, perrRate_fed hpre ((oldest_of_push hpre _ newest).trans hold),
      wrapped_of_lt (by dsimp only; omega)]
    exact percent_mono_part _ hgrown
  · intro frames _ hle
    have hgrown := grown_mono oldest.1 hle
    rw [hexact, perrRate_fed hpre ((oldest_of_push hpre _ newest).trans hold),
      wrapped_of_lt (by dsimp only; omega)]
    exact percent_anti_rest _ hgrown

/-- The rate of a window is exact if and only if the two increments fit 32 bits
together; that it is a percentage takes no more than that they reach 2^32 at most. -/
theorem loss_rate_exact_iff (hpre : pre ≠ [])
    (hold : (Ring.window perrWindow (pre ++ [newest])).head? = some oldest) :
    (oldest.1 ≤ newest.1 → oldest.2 ≤ newest.2 →
      (ExactRate pre oldest newest ↔
        grown oldest.1 newest.1 + grown oldest.2 newest.2 < 2 ^ 32)) ∧
    0 ≤ perrRate (fed (pre ++ [newest])) ∧
    (perrRate (fed (pre ++ [newest])) ≤ 100 ↔
      grown oldest.1 newest.1 + grown oldest.2 newest.2 ≤ 2 ^ 32) := by
  have hrate := perrRate_fed hpre hold
  have hframes := grown_lt oldest.1 newest.1
  have herrs := grown_lt oldest.2 newest.2
  refine ⟨fun _ _ => ⟨fun h => ?_, exactRate_of_fits hpre hold⟩, ?_, ?_⟩
  · exact (wrapped_eq_percent_iff hframes herrs).mp (hrate.symm.trans h.exact)
  · rw [hrate]
    exact wrapped_nonneg _ _ _
  · rw [hrate]
    exact wrapped_le_iff hframes herrs

theorem loss_rate_exact_iff_pair :
    (ExactRate [(0, 0)] (0, 0) (90, 10) ↔ grown 0 90 + grown 0 10 < 2 ^ 32) ∧
      perrRate (fed ([(0, 0)] ++ [(90, 10)])) ≤ 100 := by
  have h := loss_rate_exact_iff (List.cons_ne_nil _ _)
    (show (Ring.window perrWindow ([(0, 0)] ++ [(90, 10)])).head? = some (0, 0) from rfl)
  exact ⟨h.1 (by decide) (by decide), h.2.2.mpr (by decide)⟩

/-- 2^32 - 1 frames sent and one lost: the sum is 0 modulo 2^32, and so is the rate. -/
theorem loss_rate_wraps :
    perrRate (fed [(0, 0), (4294967295, 1)]) = 0 ∧
      percent (grown 0 1) (grown 0 4294967295 + grown 0 1) ≠ 0 := by
  constructor
  · rw [show [((0 : UInt32), (0 : UInt32)), (4294967295, 1)] = [(0, 0)] ++ [(4294967295, 1)] from rfl,
      perrRate_fed (by simp) rfl]
    exact wrapped_of_eq rfl
  · exact (percent_pos (by decide) (by decide)).ne'

/-! ## Counter resets -/

/-- One of the counters of the newest pair is below that of the oldest. -/
def Reset (oldest newest : UInt32 × UInt32) : Prop := newest.1 < oldest.1 ∨ newest.2 < oldest.2

/-- The rate of the window is 0, and so is the percentage in the result of the tick. -/
structure ReadsClean (pre : List (UInt32 × UInt32)) (newest : UInt32 × UInt32) : Prop where
  rate : perrRate (fed (pre ++ [newest])) = 0
  result : ∀ (lq : LinkQty ℝ) (st st' : Client ℝ) (rec : ConnMetric.Record) (out : Result),
    st.perr = (fed pre).perr → counters rec = newest → scoreClient lq st rec = some (st', out) →
    out.pktErrPct = 0

/-- The percentage of a scored tick is the rate of the window that the tick completes. -/
theorem scoreClient_pktErrPct {lq : LinkQty ℝ} {st st' : Client ℝ} {rec : ConnMetric.Record}
    {out : Result} (hst : st.perr = (fed pre).perr)
    (h : scoreClient lq st rec = some (st', out)) :
    out.pktErrPct = pktErrPct (perrRate (fed (pre ++ [counters rec]))) := by
  have hgate : rec.usable = true := by
    rw [← scoreClient_isSome lq st rec, h]
    rfl
  rw [scoreClient_eq lq st hgate] at h
  obtain ⟨-, rfl⟩ := Prod.mk.inj (Option.some.inj h)
  have hperr : (pushed st rec).perr = (fed (pre ++ [counters rec])).perr := by
    rw [fed_concat, ← hst]
    rfl
  have hrate : (perrRate (pushed st rec) : ℝ) = perrRate (fed (pre ++ [counters rec])) := by
    unfold perrRate
    rw [hperr]
  rw [← hrate]
  rfl

/-- Frames that went back beside errors that grew read as a total loss. -/
theorem perrRate_of_frames_reset (hpre : pre ≠ [])
    (hold : (Ring.window perrWindow (pre ++ [newest])).head? = some oldest)
    (hframes : newest.1 < oldest.1) (herrs : oldest.2 < newest.2) :
    perrRate (fed (pre ++ [newest])) = 100 := by
  rw [UInt32.lt_iff_toNat_lt] at hframes herrs
  have hzero : grown oldest.1 newest.1 = 0 := Nat.sub_eq_zero_of_le hframes.le
  have hpos : 0 < grown oldest.2 newest.2 := Nat.sub_pos_of_lt herrs
  rw [perrRate_fed hpre hold, hzero, wrapped_of_lt (by rw [Nat.zero_add]; exact grown_lt _ _),
    Nat.zero_add]
  exact percent_self hpos

theorem readsClean_of_no_errors (hpre : pre ≠ [])
    (hold : (Ring.window perrWindow (pre ++ [newest])).head? = some oldest)
    (herrs : newest.2 ≤ oldest.2) : ReadsClean pre newest := by
  rw [UInt32.le_iff_toNat_le] at herrs
  have hzero : grown oldest.2 newest.2 = 0 := Nat.sub_eq_zero_of_le herrs
  have hrate : perrRate (fed (pre ++ [newest])) = 0 := by
    rw [perrRate_fed hpre hold, hzero, wrapped, percent_zero]
  refine ⟨hrate, ?_⟩
  rintro lq st st' rec out hst rfl h
  rw [scoreClient_pktErrPct hst h, hrate, pktErrPct, if_pos]
  simp

/-- A reset reads as a clean link if and only if it is not the frame counter that
went back while the error counter grew. -/
theorem reset_reads_clean_iff (hpre : pre ≠ [])
    (hold : (Ring.window perrWindow (pre ++ [newest])).head? = some oldest) :
    (Reset oldest newest → ReadsClean pre newest) ↔
      ¬ (newest.1 < oldest.1 ∧ oldest.2 < newest.2) := by
  constructor
  · rintro h ⟨hframes, herrs⟩
    have hrate := (h (Or.inl hframes)).rate
    rw [perrRate_of_frames_reset hpre hold hframes herrs] at hrate
    norm_num at hrate
  · intro h hreset
    apply readsClean_of_no_errors hpre hold
    rcases hreset with hframes | herrs
    · exact UInt32.not_lt.mp fun herrs => h ⟨hframes, herrs⟩
    · exact UInt32.le_of_lt herrs

/-- A lost frame more, after the error counter went back to 0. -/
theorem reset_reads_clean_iff_errors :
    Reset (500, 20) (600, 1) ∧ ReadsClean [(500, 20)] (600, 1) := by
  have hreset : Reset (500, 20) (600, 1) := Or.inr (by decide)
  have hiff := reset_reads_clean_iff (List.cons_ne_nil _ _)
    (show (Ring.window perrWindow ([(500, 20)] ++ [(600, 1)])).head? = some (500, 20) from rfl)
  exact ⟨hreset, hiff.mpr (by decide) hreset⟩

/-- What the daemon maps from a station's cumulative counters. -/
def reading (packetsSent errorsSent : Int) : ConnMetric.Record :=
  Wire.mapRecord ⟨Vector.replicate 6 0, true, 40, 100, packetsSent, errorsSent, 0⟩

/-- One frame sent and one lost, where `cli_PacketsSent` reaches 2^32: a total loss. -/
theorem reset_reads_lost :
    Reset (counters (reading 4294967295 0)) (counters (reading 4294967296 1)) ∧
      perrRate (fed [counters (reading 4294967295 0), counters (reading 4294967296 1)]) = 100 ∧
      ∃ st' out, scoreClient (⟨0, 0⟩ : LinkQty ℝ) (fed [counters (reading 4294967295 0)])
        (reading 4294967296 1) = some (st', out) ∧ out.pktErrPct = 100 := by
  have hrate : perrRate (fed ([counters (reading 4294967295 0)] ++
      [counters (reading 4294967296 1)])) = 100 :=
    perrRate_of_frames_reset (by simp) rfl (by decide) (by decide)
  refine ⟨Or.inl (by decide), hrate, _, _, scoreClient_eq _ _ rfl, ?_⟩
  have hfed : (fed [counters (reading 4294967295 0)]).perr =
    (fed [counters (reading 4294967295 0)]).perr := rfl
  rw [scoreClient_pktErrPct hfed (scoreClient_eq _ _ rfl), hrate, pktErrPct]
  simp

end Window

end

end Wei.Infer
