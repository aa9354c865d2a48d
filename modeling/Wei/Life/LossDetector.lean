import Wei.Life.Thresholds
import Wei.Life.Usable

/-!
# The loss detector over a run

`wei_life_eval_loss` compares `tx_err_frames`, which counts the error frames of
a station's whole life, with the ceiling. Whether a sweep finds the loss
excursion open is decided by that counter, not by what the interval added to it.
-/
namespace Wei.Life

open Wei.Lib Wei.Lib.SlotTable Wei.ConnScorer Wei.Lib.Narrow

/-- A sweep reads this record for `mac`. -/
def Reads (r : Roster) (mac : Mac) (record : ConnMetric.Record) : Prop :=
  ∃ i ctx, r.slots i = some ctx ∧ ctx.mac = mac ∧ ctx.sample = record

/-- The loss excursion of `mac` is open since a time. -/
def LossOpenSince (r : Roster) (mac : Mac) (start : Int) : Prop :=
  ∃ i ctx, r.slots i = some ctx ∧ ctx.mac = mac ∧ (ctx.track .loss).startTs = start ∧ start ≠ 0

def LossOpen (r : Roster) (mac : Mac) : Prop := ∃ start, LossOpenSince r mac start

/-! ## One sweep -/

/-- Under a ceiling that is no threat to the negation, the detector finds the
counter below its band up to 2^31 only. -/
theorem loss_below_iff (m : ConnMetric.Record) {policy : Policy}
    (hceil : 0 ≤ policy.lossCeiling.toInt) :
    Metric.loss.value m < Metric.loss.band policy ↔
      policy.lossCeiling.toInt < m.txErrFrames.toNat ∧ m.txErrFrames.toNat ≤ 2147483648 := by
  have hframes := m.txErrFrames.toNat_lt
  rw [Int32.lt_iff_toInt_lt, Metric.value, Metric.band, toInt_neg, toInt_neg, toInt_toInt32]
  split <;> split <;> split <;> omega

/-- A counter the detector does not take for a loss. -/
def CounterLow (policy : Policy) (m : ConnMetric.Record) : Prop :=
  (m.txErrFrames.toNat : Int) ≤ policy.lossCeiling.toInt ∨ 2147483648 < m.txErrFrames.toNat

theorem counterLow_iff (m : ConnMetric.Record) {policy : Policy}
    (hceil : 0 ≤ policy.lossCeiling.toInt) :
    CounterLow policy m ↔ ¬ Metric.loss.value m < Metric.loss.band policy := by
  rw [loss_below_iff m hceil, CounterLow]
  omega

theorem detect_closed {ctx : Ctx} {policy : Policy} {now : Int} {metric : Metric}
    (hcollected : (ctx.track metric).count = 0 ∧ (ctx.track metric).accumulated = 0)
    (hmetric : ¬ metric.value ctx.sample < metric.band policy)
    (hstart : (ctx.track metric).startTs ≠ 0) (hlater : (ctx.track metric).startTs < now)
    (hdwell : metric.dwellMs policy ≤ now - (ctx.track metric).startTs) :
    (ctx.detect policy now metric).2 =
      some ⟨ctx.mac, metric, 0, now - (ctx.track metric).startTs⟩ := by
  have hticked : ctx.ticked policy now metric = { ctx.track metric with
      accumulated := now - (ctx.track metric).startTs, startTs := 0 } := by
    rw [Ctx.ticked, Track.tick, if_neg hmetric, if_pos hstart]
    dsimp only
    rw [if_pos hdwell, hcollected.2, Int.zero_add]
  cases hd : (ctx.detect policy now metric).2 with
  | none =>
    have hnone := ((detect_eq_none_iff ctx policy now).mp hd).2
    rw [hticked] at hnone
    dsimp only at hnone
    omega
  | some x =>
    rw [detect_eq ctx policy now hd, hticked, hcollected.1]

section Sweep

variable {D : Type} [CDouble D] (lq : LinkQty D) {r : Roster} {mac : Mac}
variable {record : ConnMetric.Record}

/-- After a sweep the loss excursion is open exactly if the counter read is not low. -/
theorem lossOpen_sweep_iff (hr : WellFormed r) (hceil : 0 ≤ r.policy.lossCeiling.toInt)
    (hread : Reads r mac record) {now : Int} (hnow : now ≠ 0) :
    LossOpen (evalStation lq r now).1 mac ↔ ¬ CounterLow r.policy record := by
  obtain ⟨i, ctx, hslot, hmac, rfl⟩ := hread
  have hopen : ((evalCtx ctx r.policy now).1.track .loss).startTs ≠ 0 ↔
      ¬ CounterLow r.policy ctx.sample := by
    rw [counterLow_iff _ hceil, not_not, evalCtx_track, detect_entry]
    exact tick_open_iff _ _ hnow _ _
  rw [← hopen, evalStation_eq]
  constructor
  · intro ⟨start, j, ctx', hslot', hmac', hstart, hne⟩
    obtain ⟨other, hother, rfl⟩ := Option.map_eq_some_iff.mp hslot'
    obtain rfl : j = i := hr.distinct mac j i (holds_slot_iff.mpr ⟨other, hother, hmac'⟩)
      (holds_slot_iff.mpr ⟨ctx, hslot, hmac⟩)
    obtain rfl := Option.some.inj (hother.symm.trans hslot)
    rwa [hstart]
  · intro hne
    refine ⟨_, i, (evalCtx ctx r.policy now).1, ?_, hmac, rfl, hne⟩
    dsimp only
    rw [hslot, evaluated, Option.map_some]

theorem mem_reports {i : Fin maxStations} {ctx : Ctx} (hslot : r.slots i = some ctx) {now : Int}
    {x : Excursion} (hx : x ∈ (evalCtx ctx r.policy now).2) :
    ⟨x, score lq ctx.sample⟩ ∈ (evalStation lq r now).2 := by
  rw [evalStation_eq, List.mem_flatMap]
  refine ⟨i, List.mem_finRange i, ?_⟩
  rw [hslot, snapshot, Option.map_some, reportsOf]
  exact List.mem_map_of_mem hx

/-- A sweep that closes a loss excursion of its dwell reports it. -/
theorem loss_reported (hr : WellFormed r) (hc : Collected r)
    (hceil : 0 ≤ r.policy.lossCeiling.toInt) (hread : Reads r mac record)
    (hlow : CounterLow r.policy record) {start now : Int} (hopen : LossOpenSince r mac start)
    (hlater : start < now) (hdwell : r.policy.lossDwellMs ≤ now - start) :
    ∃ report ∈ (evalStation lq r now).2, report.excursion = ⟨mac, .loss, 0, now - start⟩ := by
  obtain ⟨i, ctx, hslot, hmac, hstart, hne⟩ := hopen
  obtain ⟨j, ctx', hslot', hmac', rfl⟩ := hread
  obtain rfl : j = i := hr.distinct mac j i (holds_slot_iff.mpr ⟨ctx', hslot', hmac'⟩)
    (holds_slot_iff.mpr ⟨ctx, hslot, hmac⟩)
  obtain rfl := Option.some.inj (hslot'.symm.trans hslot)
  subst hstart
  have hbelow := (counterLow_iff ctx'.sample hceil).mp hlow
  have hdetect := detect_closed (hc j ctx' .loss hslot) hbelow hne hlater hdwell
  have hpacked : ⟨ctx'.mac, .loss, 0, now - (ctx'.track .loss).startTs⟩ ∈
      (evalCtx ctx' r.policy now).2 := by
    rw [mem_evalCtx, hdetect]
    rfl
  rw [hmac] at hpacked
  exact ⟨_, mem_reports lq hslot hpacked, rfl⟩

end Sweep

/-! ## Over a run -/

section Runs

variable {D : Type} [CDouble D] (lq : LinkQty D) (policy : Option Policy)

theorem machine_policy (r : Roster) (e : Event) : ((machine lq).step r e).1.policy = r.policy := by
  cases e with
  | op op => exact apply_policy r op
  | sweep now =>
    rw [show (machine lq).step r (.sweep now) = evalStation lq r now from rfl, evalStation_eq]

theorem after_policy (es : List Event) :
    (after lq policy es).policy = policy.getD Policy.defaults := by
  induction es using List.reverseRecOn with
  | nil => rfl
  | append_singleton es e ih =>
    rw [show after lq policy (es ++ [e]) = ((machine lq).step (after lq policy es) e).1 from
      (machine lq).final_concat _ _ _, machine_policy, ih]

/-- `mac` has stayed a station since the last sweep, its record read now was
ingested in between, and no error frame was added to the one read then. -/
structure Lossless (seen : List Event) (mac : Mac) (record : ConnMetric.Record) : Prop where
  reads : Reads (after lq policy seen) mac record
  since : ∃ pre last mid previous, seen = pre ++ .sweep last :: mid ∧
    (∀ now, .sweep now ∉ mid) ∧
    (∀ part, part <+: mid → mac ∈ (reference (pre ++ .sweep last :: part)).members) ∧
    .op (.ingest mac record) ∈ mid ∧ Reads (after lq policy pre) mac previous ∧
    previous.txFrames ≤ record.txFrames ∧ previous.txErrFrames = record.txErrFrames

/-- After an interval without loss a sweep leaves no loss excursion open, and
reports the one that reached its dwell. -/
structure FollowsLoss (seen : List Event) (now : Int) : Prop where
  closed : ∀ mac record, Lossless lq policy seen mac record →
    ¬ LossOpen (after lq policy (seen ++ [.sweep now])) mac
  reported : ∀ mac record start, Lossless lq policy seen mac record →
    LossOpenSince (after lq policy seen) mac start → start < now →
    (policy.getD Policy.defaults).lossDwellMs ≤ now - start →
    ∃ report ∈ (evalStation lq (after lq policy seen) now).2,
      report.excursion = ⟨mac, .loss, 0, now - start⟩

/-- The sweeps follow the loss of their intervals exactly in the runs in which
every counter read behind an interval without loss is low. -/
theorem loss_follows_rate_iff (hceil : 0 ≤ (policy.getD Policy.defaults).lossCeiling.toInt)
    {es : List Event} (hclock : ∀ now, .sweep now ∈ es → 0 < now) :
    AtSweeps es (FollowsLoss lq policy) ↔
      AtSweeps es fun seen _ => ∀ mac record, Lossless lq policy seen mac record →
        CounterLow (policy.getD Policy.defaults) record := by
  have hopen : ∀ seen now mac record, Lossless lq policy seen mac record → now ≠ 0 →
      (LossOpen (after lq policy (seen ++ [.sweep now])) mac ↔
        ¬ CounterLow (policy.getD Policy.defaults) record) := by
    intro seen now mac record hlossless hnow
    obtain ⟨hr, _⟩ := refines lq policy seen
    rw [← after_policy lq policy seen] at hceil ⊢
    rw [show after lq policy (seen ++ [.sweep now]) =
      (evalStation lq (after lq policy seen) now).1 from (machine lq).final_concat _ _ _]
    exact lossOpen_sweep_iff lq hr hceil hlossless.reads hnow
  constructor
  · intro h seen now hp mac record hlossless
    have hnow := hclock now (hp.subset (by simp))
    by_contra hhigh
    exact (h seen now hp).closed mac record hlossless
      ((hopen seen now mac record hlossless (by omega)).mpr hhigh)
  · intro h seen now hp
    have hnow := hclock now (hp.subset (by simp))
    constructor
    · intro mac record hlossless hstill
      exact (hopen seen now mac record hlossless (by omega)).mp hstill (h seen now hp mac record hlossless)
    · intro mac record start hlossless hsince hlater hdwell
      obtain ⟨hr, _⟩ := refines lq policy seen
      have hlow := h seen now hp mac record hlossless
      rw [← after_policy lq policy seen] at hceil hdwell hlow
      exact loss_reported lq hr (collected_after lq policy seen) hceil hlossless.reads hlow hsince
        hlater hdwell

end Runs

/-- A record of a station that lost 100 frames in its life. -/
def lossyRecord (txFrames : UInt32) : ConnMetric.Record :=
  { ConnMetric.Record.zero with txFrames := txFrames, txErrFrames := 100 }

/-- A station whose 100 errors all lie before its first sweep. -/
def earlyLoss : List Event :=
  [.op (.attach (Vector.replicate 6 1) true), .op (.ingest (Vector.replicate 6 1) (lossyRecord 1000)),
    .sweep 5000, .op (.ingest (Vector.replicate 6 1) (lossyRecord 2000))]

theorem reads_of_slot {r : Roster} {mac : Mac} {record : ConnMetric.Record} {i : Fin maxStations}
    (h : (r.slots i).map (fun ctx => (ctx.mac, ctx.sample)) = some (mac, record)) :
    Reads r mac record := by
  obtain ⟨ctx, hslot, hpair⟩ := Option.map_eq_some_iff.mp h
  obtain ⟨hmac, hsample⟩ := Prod.mk.inj hpair
  exact ⟨i, ctx, hslot, hmac, hsample⟩

theorem earlyLoss_lossless : Lossless (⟨0, 0⟩ : LinkQty ℝ) none earlyLoss (Vector.replicate 6 1)
    (lossyRecord 2000) where
  reads := reads_of_slot (i := ⟨0, by decide⟩) (by decide +kernel)
  since := by
    refine ⟨earlyLoss.take 2, 5000, [.op (.ingest (Vector.replicate 6 1) (lossyRecord 2000))],
      lossyRecord 1000, rfl, by simp, ?_, by simp,
      reads_of_slot (i := ⟨0, by decide⟩) (by decide +kernel), by decide, rfl⟩
    intro part hpart
    rcases List.prefix_cons_iff.mp hpart with rfl | ⟨rest, rfl, hrest⟩
    · decide +kernel
    · obtain rfl := List.prefix_nil.mp hrest
      decide +kernel

theorem loss_follows_rate_iff_early :
    AtSweeps (earlyLoss ++ [.sweep 10000]) (FollowsLoss (⟨0, 0⟩ : LinkQty ℝ) none) ↔
      AtSweeps (earlyLoss ++ [.sweep 10000]) fun seen _ => ∀ mac record,
        Lossless (⟨0, 0⟩ : LinkQty ℝ) none seen mac record → CounterLow Policy.defaults record :=
  loss_follows_rate_iff (⟨0, 0⟩ : LinkQty ℝ) none (by decide) (by simp [earlyLoss])

/-- The second interval adds no error frame and the excursion stays open. -/
theorem lossless_still_open :
    ¬ AtSweeps (earlyLoss ++ [.sweep 10000]) (FollowsLoss (⟨0, 0⟩ : LinkQty ℝ) none) := by
  intro h
  obtain ⟨hr, _⟩ := refines (⟨0, 0⟩ : LinkQty ℝ) none earlyLoss
  have hpolicy := after_policy (⟨0, 0⟩ : LinkQty ℝ) none earlyLoss
  have hhigh : ¬ CounterLow Policy.defaults (lossyRecord 2000) := by
    unfold CounterLow
    decide
  have hopen := (lossOpen_sweep_iff (⟨0, 0⟩ : LinkQty ℝ) hr (by rw [hpolicy]; decide)
    earlyLoss_lossless.reads (show (10000 : Int) ≠ 0 by decide)).mpr (hpolicy ▸ hhigh)
  have hclosed := (h earlyLoss 10000 (List.prefix_refl _)).closed _ _ earlyLoss_lossless
  rw [show after (⟨0, 0⟩ : LinkQty ℝ) none (earlyLoss ++ [.sweep 10000]) =
    (evalStation (⟨0, 0⟩ : LinkQty ℝ) (after (⟨0, 0⟩ : LinkQty ℝ) none earlyLoss) 10000).1 from
      (machine (⟨0, 0⟩ : LinkQty ℝ)).final_concat _ _ _] at hclosed
  exact hclosed hopen

end Wei.Life
