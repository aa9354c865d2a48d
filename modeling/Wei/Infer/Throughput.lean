import Wei.Infer.VerdictMeaning
import Wei.Lib.Narrow
import Wei.Wire

/-!
# The range of the throughput arithmetic

A rate of the wire is multiplied by 1000 in 32 bits, the variance of the last
eight of them is converted to `int32_t`, and `wei_infer_flag_instability`
compares it with the band once as it is and once negated on both sides. Where
each of the three is exact.
-/
namespace Wei.Infer

open Wei.Lib Wei.Lib.SlotTable Wei.Lib.Statistics Wei.Lib.Narrow Wei.ConnScorer
open Wire (StatsArg mapRecord)

/-! ## The unit conversion -/

/-- The rate is converted without loss. -/
def RateExact (e : StatsArg) : Prop :=
  ((mapRecord e).phyRateKbps.toNat : Int) = 1000 * e.cliLastDataUplinkRate

theorem rateExact_iff {e : StatsArg} (hlow : 0 ≤ e.cliLastDataUplinkRate)
    (hhigh : e.cliLastDataUplinkRate < 4294967296) :
    RateExact e ↔ e.cliLastDataUplinkRate ≤ 4294967 := by
  have hcast : (UInt32.ofInt e.cliLastDataUplinkRate).toNat = e.cliLastDataUplinkRate.toNat := by
    rw [UInt32.ofInt, UInt32.toNat_ofNat']
    omega
  have hproduct : (mapRecord e).phyRateKbps.toNat =
      e.cliLastDataUplinkRate.toNat * 1000 % 4294967296 := by
    rw [mapRecord, UInt32.toNat_mul, hcast]
    rfl
  rw [RateExact, hproduct]
  generalize e.cliLastDataUplinkRate = rate at hlow hhigh ⊢
  lift rate to ℕ using hlow
  rw [Int.toNat_natCast]
  omega

/-! ## The variance -/

/-- The population variance of `vs`, in kbps², is below 2^31 times 10^6. -/
def SpreadFits (vs : List Nat) : Prop :=
  vs.length * (vs.map fun v => v ^ 2).sum <
    2147483648 * 10 ^ 6 * vs.length ^ 2 + vs.sum ^ 2

theorem variance_lt_iff {vs : List Nat} (h : vs ≠ []) :
    variance (vs.map fun v : Nat => (v : ℝ)) / 10 ^ 6 < 2147483648 ↔ SpreadFits vs := by
  have hn : (0 : ℝ) < vs.length := Nat.cast_pos.mpr (List.length_pos_iff.mpr h)
  rw [div_lt_iff₀ (by norm_num), ← mul_lt_mul_iff_right₀ (pow_pos hn 2), ← spread_eq, spread,
    Int.cast_sub, sub_lt_iff_lt_add, mul_comm ((vs.length : ℝ) ^ 2), SpreadFits]
  exact_mod_cast Iff.rfl

theorem rateVariance_nonneg (rs : List ConnMetric.Record) : 0 ≤ rateVariance rs := by
  unfold rateVariance
  split
  · exact Int.le_refl 0
  · exact Int.floor_nonneg.mpr (div_nonneg (variance_nonneg _) (by norm_num))

theorem rateVariance_lt_iff {rs : List ConnMetric.Record} (h : rs ≠ []) :
    rateVariance rs < 2147483648 ↔ SpreadFits (lastRates rs) := by
  unfold rateVariance
  split
  next hshort =>
    -- one rate does not spread
    obtain ⟨r, rfl⟩ := List.length_eq_one_iff.mp
      (show rs.length = 1 by have := List.length_pos_iff.mpr h; omega)
    have hone : lastRates [r] = [r.phyRateKbps.toNat] := rfl
    refine iff_of_true (by decide) ?_
    rw [hone, SpreadFits]
    simp
  next =>
    rw [Int.floor_lt, rateWindow_eq, ← variance_lt_iff (lastRates_ne_nil h)]
    norm_num

/-! ## The two tests -/

/-- The value fits its type, and the immediate test and the one of the tracker agree. -/
structure InstabilityExact (policy : Policy) (st : Client ℝ) : Prop where
  fits : phyConverted st ≤ 2147483647
  nonneg : 0 ≤ (phyInstability st).toInt
  agrees : policy.tputVarBand < phyInstability st ↔ above policy (phyInstability st)

theorem instabilityExact_iff {policy : Policy} {rs : List ConnMetric.Record} {st : Client ℝ}
    (h : Windows rs st) (hne : rs ≠ []) :
    InstabilityExact policy st ↔
      SpreadFits (lastRates rs) ∧ policy.tputVarBand ≠ Int32.minValue := by
  have hnonneg := rateVariance_nonneg rs
  have hvalue : rateVariance rs < 2147483648 → (phyInstability st).toInt = rateVariance rs := by
    intro hlt
    rw [phyInstability_eq h, Int32.toInt_ofInt_of_le (by omega) (by omega)]
  rw [← rateVariance_lt_iff hne]
  constructor
  · intro hexact
    have hfits := hexact.fits
    rw [phyConverted_eq h] at hfits
    refine ⟨by omega, fun hmin => ?_⟩
    have hv := hvalue (by omega)
    -- the negated band is still the least value, which nothing is below
    have hlow : policy.tputVarBand < phyInstability st := by
      rw [Int32.lt_iff_toInt_lt, hmin, hv]
      exact Int.lt_of_lt_of_le (by decide) hnonneg
    have habove := hexact.agrees.mp hlow
    rw [above, Int32.lt_iff_toInt_lt, hmin, toInt_neg Int32.minValue] at habove
    have hleast := (-phyInstability st).le_toInt
    have hmin' : Int32.minValue.toInt = -2147483648 := rfl
    rw [hmin', if_pos rfl] at habove
    omega
  · intro hfits
    obtain ⟨hlt, hband⟩ := hfits
    have hv := hvalue hlt
    have hlow := policy.tputVarBand.le_toInt
    have hne := mt (toInt_eq_minValue_iff policy.tputVarBand).mp hband
    have hmin : Int32.minValue < policy.tputVarBand := by
      rw [Int32.lt_iff_toInt_lt]
      have hmin' : Int32.minValue.toInt = -2147483648 := rfl
      omega
    have hnonneg' : 0 ≤ (phyInstability st).toInt := by rw [hv]; exact hnonneg
    refine ⟨?_, hnonneg', ?_⟩
    · rw [phyConverted_eq h]
      omega
    · rw [above_iff hmin hnonneg', Int32.lt_iff_toInt_lt]

/-! ## Over a run -/

/-- What reaches the engine: an entry of a periodic frame, or a tick. -/
inductive Input where
  | entry (e : StatsArg) (now : Int)
  | tick (now : Int)

def Input.event : Input → Event
  | .entry e now => .stage e.cliMacAddress (mapRecord e) now
  | .tick now => .tick now

section Runs

variable (lq : LinkQty ℝ) (policy : Policy)

/-- Every client that the tick after `es` scores has its instability exact. -/
def ScoredExact (es : List Event) (now : Int) : Prop :=
  ∀ s ∈ (tick lq (after lq policy es) now).2, ∀ row,
    (cell (after lq policy es) s.mac).member = some row →
    InstabilityExact policy (scoredState row.slot.state row.snapshot)

/-- The last eight rates that a client is scored with at the tick after `es` do
not spread too far. -/
def ScoredFits (es : List Event) (now : Int) : Prop :=
  ∀ s ∈ (tick lq (after lq policy es) now).2, ∀ pre a, es = pre ++ a →
    Tenure lq policy s.mac pre a →
    SpreadFits (lastRates ((recordsRead s.mac (a ++ [.tick now])).map (·.2))) ∧
      policy.tputVarBand ≠ Int32.minValue

variable {lq policy}

theorem scored_windows {pre a : List Event} {now : Int} {s : Scored}
    (hs : s ∈ (tick lq (after lq policy (pre ++ a)) now).2)
    (h : Tenure lq policy s.mac pre a) {row : Row ℝ}
    (hrow : (cell (after lq policy (pre ++ a)) s.mac).member = some row) :
    (recordsRead s.mac (a ++ [.tick now])).map (·.2) ≠ [] ∧
      Windows ((recordsRead s.mac (a ++ [.tick now])).map (·.2))
        (scoredState row.slot.state row.snapshot) := by
  obtain ⟨row₁, _, _, hrow₁, hmetrics, _, _, hsum, hread⟩ := tick_summary h hs rfl
  obtain rfl := Option.some.inj (hrow.symm.trans hrow₁)
  rw [hread, List.map_append, ← hmetrics]
  exact ⟨by simp, hsum.windows.scored row.snapshot⟩

theorem scoredExact_iff (es : List Event) (now : Int) :
    ScoredExact lq policy es now ↔ ScoredFits lq policy es now := by
  constructor
  · intro h s hs pre a heq htenure
    subst heq
    obtain ⟨row, _, _, hrow, _⟩ := tick_scored lq policy _ hs
    obtain ⟨hne, hwindows⟩ := scored_windows hs htenure hrow
    exact (instabilityExact_iff hwindows hne).mp (h s hs row hrow)
  · intro h s hs row hrow
    obtain ⟨pre, a, rfl, _, htenure⟩ := exists_tenure lq policy es (member_of_row hrow)
    obtain ⟨hne, hwindows⟩ := scored_windows hs htenure hrow
    exact (instabilityExact_iff hwindows hne).mpr (h s hs pre a rfl htenure)

/-- The arithmetic is exact in exactly the runs whose rates fit the conversion and
whose ticks score no client with a spread, or under a band, that does not fit. -/
theorem throughput_exact_iff {ins : List Input}
    (hwire : ∀ e now, .entry e now ∈ ins →
      0 ≤ e.cliLastDataUplinkRate ∧ e.cliLastDataUplinkRate < 4294967296) :
    ((∀ e now, .entry e now ∈ ins → RateExact e) ∧
        ∀ seen now, seen ++ [.tick now] <+: ins →
          ScoredExact lq policy (seen.map Input.event) now) ↔
      (∀ e now, .entry e now ∈ ins → e.cliLastDataUplinkRate ≤ 4294967) ∧
        ∀ seen now, seen ++ [.tick now] <+: ins →
          ScoredFits lq policy (seen.map Input.event) now := by
  refine and_congr ?_ ?_
  · refine forall₂_congr fun e now => forall_congr' fun he => ?_
    exact rateExact_iff (hwire e now he).1 (hwire e now he).2
  · refine forall₂_congr fun seen now => forall_congr' fun _ => ?_
    exact scoredExact_iff (seen.map Input.event) now

/-- Up to 92 Gbps every spread fits. -/
theorem scoredFits_of_limit (hband : policy.tputVarBand ≠ Int32.minValue) {es : List Event}
    (h : ∀ mac rec t, .stage mac rec t ∈ es → rec.phyRateKbps.toNat ≤ rateLimit) (now : Int) :
    ScoredFits lq policy es now := by
  intro s hs pre a heq htenure
  subst heq
  obtain ⟨row, _, _, hrow, _⟩ := tick_scored lq policy _ hs
  obtain ⟨hne, -⟩ := scored_windows hs htenure hrow
  refine ⟨(rateVariance_lt_iff hne).mp (rateVariance_bounds ?_).2, hband⟩
  intro r hr
  obtain ⟨x, hx, rfl⟩ := List.mem_map.mp hr
  obtain ⟨t, ht⟩ := mem_of_recordsRead (show (x.1, x.2) ∈ _ from hx)
  rcases List.mem_append.mp ht with ht | ht
  · exact h s.mac x.2 t (List.mem_append_right pre ht)
  · cases List.mem_singleton.mp ht

end Runs

/-- An entry of an active station with this rate, in Mbps. -/
def entryAt (rate : Int) : StatsArg := ⟨Vector.replicate 6 1, true, 30, rate, 0, 0, 0⟩

/-- The rate goes up from nothing between two ticks. -/
def jump (rate : Int) : List Input :=
  [.entry (entryAt 0) 1, .tick 2, .entry (entryAt rate) 5001, .tick 5002]

theorem jump_entries {rate : Int} {e : StatsArg} {now : Int} (h : .entry e now ∈ jump rate) :
    e = entryAt 0 ∨ e = entryAt rate := by
  simp only [jump, List.mem_cons, Input.entry.injEq, reduceCtorEq, List.not_mem_nil, or_false,
    false_or] at h
  exact h.imp And.left And.left

/-- 50 Gbps are exact, 100 Gbps are not, under the default band. -/
theorem throughput_exact_iff_jump :
    ((∀ e now, .entry e now ∈ jump 50000 → RateExact e) ∧
      ∀ seen now, seen ++ [.tick now] <+: jump 50000 →
        ScoredExact (⟨0, 0⟩ : LinkQty ℝ) wireDefaultPolicy (seen.map Input.event) now) ∧
    ¬ ((∀ e now, .entry e now ∈ jump 100000 → RateExact e) ∧
      ∀ seen now, seen ++ [.tick now] <+: jump 100000 →
        ScoredExact (⟨0, 0⟩ : LinkQty ℝ) wireDefaultPolicy (seen.map Input.event) now) := by
  have hwire : ∀ rate e now, 0 ≤ rate ∧ rate < 4294967296 → .entry e now ∈ jump rate →
      0 ≤ e.cliLastDataUplinkRate ∧ e.cliLastDataUplinkRate < 4294967296 := by
    intro rate e now hrate he
    rcases jump_entries he with rfl | rfl
    · decide
    · exact hrate
  constructor
  · refine (throughput_exact_iff fun e now => hwire 50000 e now (by decide)).mpr ⟨?_, ?_⟩
    · intro e now he
      rcases jump_entries he with rfl | rfl <;> decide
    · intro seen now hpre
      refine scoredFits_of_limit (by decide) (fun mac rec t hstaged => ?_) now
      obtain ⟨i, hi, heq⟩ := List.mem_map.mp hstaged
      cases i with
      | tick _ => cases heq
      | entry e _ =>
        obtain ⟨-, rfl, -⟩ := Event.stage.inj heq
        rcases jump_entries (hpre.mem (List.mem_append_left _ hi)) with rfl | rfl <;> decide
  · rw [throughput_exact_iff fun e now => hwire 100000 e now (by decide)]
    intro h
    have hfresh : ∀ b ∈ inTurn [mapRecord (entryAt 0)], b.Fresh := fresh_inTurn (by decide)
    obtain ⟨-, s, hs, hmac, hmetrics⟩ := beats_scored (⟨0, 0⟩ : LinkQty ℝ) wireDefaultPolicy
      (Vector.replicate 6 1) hfresh (b := beatAt 1 (mapRecord (entryAt 100000)))
      ⟨by decide, by decide⟩
    have htenure := beats_tenure (⟨0, 0⟩ : LinkQty ℝ) wireDefaultPolicy (Vector.replicate 6 1)
      hfresh (beatAt 1 (mapRecord (entryAt 100000)))
    have hboth : ∀ b ∈ inTurn [mapRecord (entryAt 0), mapRecord (entryAt 100000)], b.Fresh :=
      fresh_inTurn (by decide)
    have hread : recordsRead (Vector.replicate 6 1) ((jump 100000).map Input.event) =
        [(2, mapRecord (entryAt 0)), (5002, mapRecord (entryAt 100000))] :=
      beats_reads (Vector.replicate 6 1) hboth
    have hspread : SpreadFits (lastRates ((recordsRead s.mac ((jump 100000).map Input.event)).map
        (·.2))) :=
      (h.2 [.entry (entryAt 0) 1, .tick 2, .entry (entryAt 100000) 5001] 5002
        (List.prefix_refl _) s hs [] _ rfl (hmac ▸ htenure)).1
    rw [hmac, hread] at hspread
    revert hspread
    unfold SpreadFits
    decide

/-- From 4294968 Mbps on the conversion wraps; long before, two rates spread too far. -/
theorem fast_rates_wrap :
    (mapRecord (entryAt 4294968)).phyRateKbps = 704 ∧ ¬ RateExact (entryAt 4294968) ∧
      ¬ SpreadFits [0, 100000000] := by
  refine ⟨by decide, ?_, ?_⟩
  · rw [rateExact_iff (by decide) (by decide)]
    decide
  · unfold SpreadFits
    decide

end Wei.Infer
