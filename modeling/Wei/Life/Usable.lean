import Wei.Life.Roster
import Wei.Lib.RealDouble

/-!
# Excursions and unusable samples

The detectors of a sweep read a context's sample whatever its status, and a
fresh context holds the zero record, which reads as ACTIVE and OK. Which calls a
run makes decides what a sweep reads and which excursions are under way. The
sweeps of a run open excursions from usable data only exactly when no unusable
sample has a metric below its band, other than in an excursion under way.
-/
namespace Wei.Life

open Wei.Lib Wei.Lib.SlotTable Wei.ConnScorer

/-- An OK record was ingested for `mac` in the context it still has. -/
def Heard (es : List Event) (mac : Mac) : Prop :=
  ∃ a b record, es = a ++ .op (.ingest mac record) :: b ∧ record.status = .ok ∧
    ∀ c, c <+: b → mac ∈ (reference (a ++ .op (.ingest mac record) :: c)).members

/-- The tracker counts an onset. -/
def Opens (ctx : Ctx) (policy : Policy) (now : Int) (metric : Metric) : Prop :=
  (ctx.ticked policy now metric).count ≠ (ctx.track metric).count

/-- A sweep over `r`, after `es`, opens and reports from usable data only. -/
structure OnlyUsable {D : Type} [CDouble D] (lq : LinkQty D) (es : List Event) (r : Roster)
    (now : Int) : Prop where
  opened : ∀ i ctx metric, r.slots i = some ctx → Opens ctx r.policy now metric →
    Heard es ctx.mac ∧ ctx.sample.status = .ok
  reported : ∀ report ∈ (evalStation lq r now).2, Heard es report.excursion.mac

def Event.write (mac : Mac) (sample : ConnMetric.Record) : Event → ConnMetric.Record
  | .op call => call.write mac sample
  | .sweep _ => sample

/-- One more call, to the stations tracked and to the record a sweep reads for `mac`. -/
def Event.sampled (mac : Mac) (s : BoundedSet Mac maxStations × ConnMetric.Record) (e : Event) :
    BoundedSet Mac maxStations × ConnMetric.Record :=
  (e.reference s.1,
    if mac ∈ s.1.members ∧ mac ∈ (e.reference s.1).members then e.write mac s.2
    else ConnMetric.Record.zero)

/-- The record ingested last for `mac` since it attached, at first zeros. -/
def sampleAfter (es : List Event) (mac : Mac) : ConnMetric.Record :=
  (es.foldl (Event.sampled mac) (BoundedSet.empty, ConnMetric.Record.zero)).2

def Below (policy : Policy) (es : List Event) (mac : Mac) (metric : Metric) : Prop :=
  metric.value (sampleAfter es mac) < metric.band policy

/-- A sweep met `metric` below its band at a time other than 0, and so did every
sweep since; the station stayed attached. -/
def UnderWay (policy : Policy) (es : List Event) (mac : Mac) (metric : Metric) : Prop :=
  ∃ a t b, es = a ++ .sweep t :: b ∧ t ≠ 0 ∧ Below policy a mac metric ∧
    ∀ c, c <+: b → mac ∈ (reference (a ++ .sweep t :: c)).members ∧
      ∀ t', c ++ [.sweep t'] <+: b → Below policy (a ++ .sweep t :: c) mac metric

/-- No unusable sample of a tracked station has a metric below its band, other than
in an excursion that is under way. -/
def Quiet (policy : Policy) (es : List Event) : Prop :=
  ∀ mac ∈ (reference es).members, ∀ metric,
    ¬ (Heard es mac ∧ (sampleAfter es mac).status = .ok) → Below policy es mac metric →
      UnderWay policy es mac metric

/-! ## What was heard -/

section Heard

variable {es : List Event} {e : Event} {mac : Mac}

theorem heard_concat : Heard (es ++ [e]) mac ↔
    mac ∈ (reference (es ++ [e])).members ∧
      (Heard es mac ∨ ∃ record, e = .op (.ingest mac record) ∧ record.status = .ok) := by
  constructor
  · rintro ⟨a, b, record, heq, hok, hlive⟩
    refine ⟨heq ▸ hlive b (List.prefix_refl b), ?_⟩
    induction b using List.reverseRecOn with
    | nil =>
      obtain ⟨_, he⟩ := List.append_inj' heq rfl
      exact Or.inr ⟨record, List.singleton_inj.mp he, hok⟩
    | append_singleton b e' _ =>
      rw [← List.cons_append, ← List.append_assoc] at heq
      obtain ⟨rfl, _⟩ := List.append_inj' heq rfl
      exact Or.inl ⟨a, b, record, rfl, hok, fun c hc => hlive c (hc.trans (List.prefix_append _ _))⟩
  · rintro ⟨hmem, ⟨a, b, record, rfl, hok, hlive⟩ | ⟨record, rfl, hok⟩⟩
    · refine ⟨a, b ++ [e], record, by simp, hok, ?_⟩
      intro c hc
      rcases List.prefix_concat_iff.mp hc with rfl | hc
      · simpa using hmem
      · exact hlive c hc
    · refine ⟨es, [], record, rfl, hok, ?_⟩
      intro c hc
      obtain rfl := List.prefix_nil.mp hc
      exact hmem

theorem Heard.tracked (h : Heard es mac) : mac ∈ (reference es).members := by
  obtain ⟨a, b, record, rfl, _, hlive⟩ := h
  exact hlive b (List.prefix_refl b)

theorem not_heard_of_no_ingest (h : ∀ record, .op (.ingest mac record) ∉ es) : ¬ Heard es mac := by
  rintro ⟨a, b, record, rfl, _⟩
  exact h record (by simp)

end Heard

/-! ## What a sweep reads -/

section Sampled

variable {policy : Policy} {es : List Event} {e : Event} {mac : Mac} {metric : Metric}

theorem sampled_fst (es : List Event) (mac : Mac) :
    (es.foldl (Event.sampled mac) (BoundedSet.empty, ConnMetric.Record.zero)).1 = reference es := by
  induction es using List.reverseRecOn with
  | nil => rfl
  | append_singleton es e ih =>
    rw [reference, List.foldl_append, List.foldl_append, List.foldl_cons, List.foldl_cons]
    exact congrArg e.reference ih

theorem sampleAfter_concat (es : List Event) (e : Event) (mac : Mac) :
    sampleAfter (es ++ [e]) mac =
      if mac ∈ (reference es).members ∧ mac ∈ (reference (es ++ [e])).members then
        e.write mac (sampleAfter es mac)
      else ConnMetric.Record.zero := by
  have href : reference (es ++ [e]) = e.reference (reference es) := by
    rw [reference, List.foldl_append]
    rfl
  rw [href, ← sampled_fst es mac, sampleAfter, sampleAfter, List.foldl_append]
  rfl

/-- The call `e` leaves an excursion under way, or begins one. -/
theorem underWay_concat : UnderWay policy (es ++ [e]) mac metric ↔
    mac ∈ (reference (es ++ [e])).members ∧ (∀ t, e = .sweep t → Below policy es mac metric) ∧
      (UnderWay policy es mac metric ∨ ∃ t, e = .sweep t ∧ t ≠ 0) := by
  constructor
  · intro ⟨a, t, b, heq, ht, hbelow, hsince⟩
    refine ⟨heq ▸ (hsince b (List.prefix_refl b)).1, ?_⟩
    rcases List.eq_nil_or_concat' b with rfl | ⟨b, e', rfl⟩
    · obtain ⟨rfl, he⟩ := List.append_inj' heq rfl
      obtain rfl := List.singleton_inj.mp he
      exact ⟨fun _ _ => hbelow, Or.inr ⟨t, rfl, ht⟩⟩
    · rw [← List.cons_append, ← List.append_assoc] at heq
      obtain ⟨rfl, he⟩ := List.append_inj' heq rfl
      obtain rfl := List.singleton_inj.mp he
      refine ⟨?_, Or.inl ⟨a, t, b, rfl, ht, hbelow, ?_⟩⟩
      · intro t' ht'
        exact (hsince b (List.prefix_append _ _)).2 t' (by rw [ht'])
      · intro c hc
        obtain ⟨hmem, hc'⟩ := hsince c (hc.trans (List.prefix_append _ _))
        exact ⟨hmem, fun t' hp => hc' t' (hp.trans (List.prefix_append _ _))⟩
  · intro ⟨hmem, hsweep, hcase⟩
    rcases hcase with ⟨a, t, b, rfl, ht, hbelow, hsince⟩ | ⟨t, rfl, ht⟩
    · refine ⟨a, t, b ++ [e], by simp, ht, hbelow, ?_⟩
      intro c hc
      rcases List.prefix_concat_iff.mp hc with rfl | hc
      · refine ⟨by simpa using hmem, fun t' hp => ?_⟩
        have hlength := hp.length_le
        simp at hlength
      · refine ⟨(hsince c hc).1, fun t' hp => ?_⟩
        rcases List.prefix_concat_iff.mp hp with heq | hp
        · obtain ⟨rfl, he⟩ := List.append_inj' heq rfl
          exact hsweep t' (List.singleton_inj.mp he).symm
        · exact (hsince c hc).2 t' hp
    · refine ⟨es, t, [], rfl, ht, hsweep t rfl, ?_⟩
      intro c hc
      obtain rfl := List.prefix_nil.mp hc
      refine ⟨hmem, fun t' hp => ?_⟩
      have hlength := hp.length_le
      simp at hlength

theorem UnderWay.tracked (h : UnderWay policy es mac metric) : mac ∈ (reference es).members := by
  obtain ⟨a, t, b, rfl, _, _, hsince⟩ := h
  exact (hsince b (List.prefix_refl b)).1

end Sampled

/-! ## One detector -/

section Detector

variable (e : Track.Entry) (metric : Int32) (now : Int) (band : Int32) (dwellMs : Int)

theorem tick_count_ne_iff : (Track.tick e metric now band dwellMs).count ≠ e.count ↔
    metric < band ∧ e.startTs = 0 := by
  unfold Track.tick
  split
  · split
    · simp_all
    · simp_all
  · split
    · dsimp only
      split <;> simp_all
    · simp_all

/-- A tick of an idle entry leaves it idle unless it opens. -/
theorem tick_idle (hstart : e.startTs = 0) (hmetric : ¬ metric < band) :
    Track.tick e metric now band dwellMs = e := by
  unfold Track.tick
  rw [if_neg hmetric, if_neg (not_not.mpr hstart)]

end Detector

/-- A ticked entry is open exactly below the band, unless a clock at 0 should open it. -/
theorem tick_started_iff (e : Track.Entry) (metric : Int32) (now : Int) (band : Int32)
    (dwellMs : Int) : (Track.tick e metric now band dwellMs).startTs ≠ 0 ↔
      metric < band ∧ (e.startTs ≠ 0 ∨ now ≠ 0) := by
  unfold Track.tick
  split
  · split <;> simp_all
  · split
    · dsimp only
      split <;> simp_all
    · simp_all

theorem tick_open_iff (e : Track.Entry) (metric : Int32) {now : Int} (hnow : now ≠ 0)
    (band : Int32) (dwellMs : Int) :
    (Track.tick e metric now band dwellMs).startTs ≠ 0 ↔ metric < band := by
  rw [tick_started_iff]
  exact and_iff_left (Or.inr hnow)

theorem opens_iff {ctx : Ctx} {policy : Policy} {now : Int} {metric : Metric} :
    Opens ctx policy now metric ↔
      metric.value ctx.sample < metric.band policy ∧ (ctx.track metric).startTs = 0 :=
  tick_count_ne_iff _ _ _ _ _

theorem ticked_idle {ctx : Ctx} {policy : Policy} {metric : Metric} (now : Int)
    (hstart : (ctx.track metric).startTs = 0)
    (hmetric : ¬ metric.value ctx.sample < metric.band policy) :
    ctx.ticked policy now metric = ctx.track metric := tick_idle _ _ _ _ _ hstart hmetric

/-! ## One call -/

theorem tracked_of_slot {r : Roster} {i : Fin maxStations} {ctx : Ctx} (h : r.slots i = some ctx) :
    ctx.mac ∈ r.stations.members :=
  mem_keys_iff_holds.mpr ⟨i, holds_slot_iff.mpr ⟨ctx, h, rfl⟩⟩

/-- Between calls nothing is left to collect. -/
def Collected (r : Roster) : Prop := ∀ i ctx metric, r.slots i = some ctx →
  (ctx.track metric).count = 0 ∧ (ctx.track metric).accumulated = 0

theorem collected_init (policy : Option Policy) : Collected (init policy) := by
  simp [Collected, init]

theorem Collected.apply {r : Roster} (h : Collected r) (hr : WellFormed r) (op : Op) :
    Collected (apply r op) := by
  intro i ctx' metric hslot
  rcases apply_carried hr op i ctx' hslot with ⟨ctx, hctx, _, htrack, _⟩ | ⟨_, hnew⟩
  · rw [htrack]
    exact h i ctx metric hctx
  · rw [hnew, opened_track]
    exact ⟨rfl, rfl⟩

theorem collected_sweep {D : Type} [CDouble D] (lq : LinkQty D) (r : Roster) (now : Int) :
    Collected (evalStation lq r now).1 := by
  rw [evalStation_eq]
  intro i ctx' metric hslot
  obtain ⟨ctx, _, rfl⟩ := Option.map_eq_some_iff.mp hslot
  rw [evalCtx_track, detect_entry]
  exact ⟨rfl, rfl⟩

theorem after_concat {D : Type} [CDouble D] (lq : LinkQty D) (policy : Option Policy)
    (es : List Event) (e : Event) :
    after lq policy (es ++ [e]) = ((machine lq).step (after lq policy es) e).1 :=
  (machine lq).final_concat _ _ _

theorem collected_after {D : Type} [CDouble D] (lq : LinkQty D) (policy : Option Policy)
    (es : List Event) : Collected (after lq policy es) := by
  induction es using List.reverseRecOn with
  | nil => exact collected_init policy
  | append_singleton es e ih =>
    rw [after_concat]
    cases e with
    | op op => exact ih.apply (refines lq policy es).1 op
    | sweep now => exact collected_sweep lq (after lq policy es) now

/-- Between calls nothing is left to collect, and an open excursion belongs to a
context an OK record came for. -/
structure Kept (es : List Event) (r : Roster) : Prop where
  collected : Collected r
  heard : ∀ i ctx metric, r.slots i = some ctx → (ctx.track metric).startTs ≠ 0 →
    Heard es ctx.mac

theorem kept_init (policy : Option Policy) : Kept [] (init policy) where
  collected := collected_init policy
  heard := by simp [init]

theorem stations_concat {es : List Event} {r : Roster} (hr : WellFormed r)
    (hs : r.stations = reference es) (op : Op) :
    (apply r op).stations = reference (es ++ [.op op]) := by
  rw [(hr.apply op).2, hs, reference, reference, List.foldl_append]
  rfl

theorem Kept.apply {es : List Event} {r : Roster} (h : Kept es r) (hr : WellFormed r)
    (hs : r.stations = reference es) (op : Op) : Kept (es ++ [.op op]) (apply r op) := by
  have hafter := stations_concat hr hs op
  constructor
  · exact h.collected.apply hr op
  · intro i ctx' metric hslot hstart
    rcases apply_carried hr op i ctx' hslot with ⟨ctx, hctx, hmac, htrack, _⟩ | ⟨_, hnew⟩
    · rw [htrack] at hstart
      refine heard_concat.mpr ⟨hafter ▸ tracked_of_slot hslot, Or.inl ?_⟩
      rw [hmac]
      exact h.heard i ctx metric hctx hstart
    · rw [hnew, opened_track] at hstart
      exact absurd rfl hstart

/-- The contexts hold the samples and the open excursions that the calls account for. -/
structure Accounted (policy : Policy) (es : List Event) (r : Roster) : Prop where
  sample : ∀ i ctx, r.slots i = some ctx → ctx.sample = sampleAfter es ctx.mac
  started : ∀ i ctx metric, r.slots i = some ctx →
    ((ctx.track metric).startTs ≠ 0 ↔ UnderWay policy es ctx.mac metric)

theorem accounted_init (policy : Option Policy) :
    Accounted (policy.getD Policy.defaults) [] (init policy) where
  sample := by simp [init]
  started := by simp [init]

section Accounted

variable {policy : Policy} {es : List Event} {r : Roster}

theorem Accounted.apply (h : Accounted policy es r) (hr : WellFormed r)
    (hs : r.stations = reference es) (op : Op) : Accounted policy (es ++ [.op op]) (apply r op) := by
  have hafter := stations_concat hr hs op
  constructor
  · intro i ctx' hslot
    have hmem : ctx'.mac ∈ (reference (es ++ [.op op])).members := hafter ▸ tracked_of_slot hslot
    rw [sampleAfter_concat]
    rcases apply_carried hr op i ctx' hslot with ⟨ctx, hctx, hmac, _, hsample⟩ | ⟨hnone, hnew⟩
    · have hbefore : ctx'.mac ∈ (reference es).members := by
        rw [hmac, ← hs]
        exact tracked_of_slot hctx
      rw [if_pos ⟨hbefore, hmem⟩, hsample, hmac, h.sample i ctx hctx]
      rfl
    · rw [if_neg, hnew]
      · rfl
      · intro ⟨hbefore, _⟩
        exact apply_untracked hr op hslot hnone (hs ▸ hbefore)
  · intro i ctx' metric hslot
    have hmem : ctx'.mac ∈ (reference (es ++ [.op op])).members := hafter ▸ tracked_of_slot hslot
    rw [underWay_concat]
    rcases apply_carried hr op i ctx' hslot with ⟨ctx, hctx, hmac, htrack, _⟩ | ⟨hnone, hnew⟩
    · rw [htrack, h.started i ctx metric hctx, ← hmac]
      simp [hmem]
    · have hidle : ¬ UnderWay policy es ctx'.mac metric := fun hw =>
        apply_untracked hr op hslot hnone (hs ▸ hw.tracked)
      rw [hnew, opened_track, ← hnew]
      simp [hidle, Track.Entry.zero]

end Accounted

section Sweep

variable {D : Type} [CDouble D] (lq : LinkQty D) {es : List Event} {r : Roster}

theorem reference_sweep (es : List Event) (now : Int) :
    reference (es ++ [.sweep now]) = reference es := by
  rw [reference, List.foldl_append]
  rfl

theorem heard_sweep {now : Int} {mac : Mac} (h : Heard es mac) : Heard (es ++ [.sweep now]) mac := by
  refine heard_concat.mpr ⟨?_, Or.inl h⟩
  rw [reference_sweep]
  exact h.tracked

theorem Accounted.sweep (h : Accounted r.policy es r) (hs : r.stations = reference es) (now : Int) :
    Accounted r.policy (es ++ [.sweep now]) (evalStation lq r now).1 := by
  rw [evalStation_eq]
  constructor
  · intro i ctx' hslot
    obtain ⟨ctx, hctx, rfl⟩ := Option.map_eq_some_iff.mp hslot
    have hmem : ctx.mac ∈ (reference es).members := hs ▸ tracked_of_slot hctx
    rw [evalCtx_mac, sampleAfter_concat, reference_sweep, if_pos ⟨hmem, hmem⟩, evalCtx_sample]
    exact h.sample i ctx hctx
  · intro i ctx' metric hslot
    obtain ⟨ctx, hctx, rfl⟩ := Option.map_eq_some_iff.mp hslot
    have hmem : ctx.mac ∈ (reference es).members := hs ▸ tracked_of_slot hctx
    rw [evalCtx_track, detect_entry, evalCtx_mac, underWay_concat, reference_sweep,
      ← h.started i ctx metric hctx, Below, ← h.sample i ctx hctx]
    dsimp only
    rw [Ctx.ticked, tick_started_iff]
    simp [hmem]

/-- Which slots a quiet run leaves to a sweep: none opens on an unusable sample. -/
theorem Quiet.started (hq : Quiet r.policy es) (hm : Accounted r.policy es r)
    (hs : r.stations = reference es) {i : Fin maxStations} {ctx : Ctx} (hslot : r.slots i = some ctx)
    {metric : Metric} (hno : ¬ (Heard es ctx.mac ∧ ctx.sample.status = .ok))
    (hlow : metric.value ctx.sample < metric.band r.policy) : (ctx.track metric).startTs ≠ 0 := by
  rw [hm.started i ctx metric hslot]
  rw [hm.sample i ctx hslot] at hno hlow
  exact hq ctx.mac (hs ▸ tracked_of_slot hslot) metric hno hlow

/-- What a sweep of a quiet run counts or closes, it does for stations it heard of. -/
theorem Quiet.heard (hq : Quiet r.policy es) (hm : Accounted r.policy es r)
    (hs : r.stations = reference es) (h : Kept es r) {i : Fin maxStations} {ctx : Ctx}
    (hslot : r.slots i = some ctx) (metric : Metric)
    (hactive : metric.value ctx.sample < metric.band r.policy ∨ (ctx.track metric).startTs ≠ 0) :
    Heard es ctx.mac := by
  by_contra hno
  have hstart : (ctx.track metric).startTs = 0 := by
    by_contra hstart
    exact hno (h.heard i ctx metric hslot hstart)
  rcases hactive with hlow | hactive
  · exact hq.started hm hs hslot (fun hc => hno hc.1) hlow hstart
  · exact hactive hstart

theorem Kept.sweep (h : Kept es r) (hm : Accounted r.policy es r) (hs : r.stations = reference es)
    (hq : Quiet r.policy es) (now : Int) :
    Kept (es ++ [.sweep now]) (evalStation lq r now).1 := by
  constructor
  · exact collected_sweep lq r now
  · rw [evalStation_eq]
    intro i ctx' metric hslot hstart
    obtain ⟨ctx, hctx, rfl⟩ := Option.map_eq_some_iff.mp hslot
    rw [evalCtx_track, detect_entry] at hstart
    rw [evalCtx_mac]
    refine heard_sweep (hq.heard hm hs h hctx metric ?_)
    by_contra hidle
    rw [not_or, not_not] at hidle
    rw [ticked_idle now hidle.2 hidle.1] at hstart
    exact hstart hidle.2

theorem Quiet.onlyUsable (hq : Quiet r.policy es) (hm : Accounted r.policy es r)
    (hs : r.stations = reference es) (h : Kept es r) (now : Int) : OnlyUsable lq es r now := by
  constructor
  · intro i ctx metric hslot hopens
    obtain ⟨hlow, hstart⟩ := opens_iff.mp hopens
    by_contra hno
    exact hq.started hm hs hslot hno hlow hstart
  · intro report hreport
    rw [evalStation_eq, List.mem_flatMap] at hreport
    obtain ⟨i, _, hreport⟩ := hreport
    cases hslot : r.slots i with
    | none => simp [hslot, snapshot, reportsOf] at hreport
    | some ctx =>
      rw [hslot, snapshot, Option.map_some, reportsOf, List.mem_map] at hreport
      obtain ⟨x, hx, rfl⟩ := hreport
      rw [mem_evalCtx] at hx
      dsimp only
      rw [(detect_excursion _ _ _ hx).1]
      refine hq.heard hm hs h hslot x.metric ?_
      by_contra hidle
      rw [not_or, not_not] at hidle
      have hnone : (ctx.detect r.policy now x.metric).2 = none := by
        rw [detect_eq_none_iff, ticked_idle now hidle.2 hidle.1]
        exact h.collected i ctx x.metric hslot
      rw [hnone] at hx
      cases hx

theorem OnlyUsable.quiet {now : Int} (h : OnlyUsable lq es r now) (hm : Accounted r.policy es r)
    (hs : r.stations = reference es) : Quiet r.policy es := by
  intro mac hmac metric hno hlow
  rw [← hs, Roster.stations, mem_keys_iff_holds] at hmac
  obtain ⟨i, hi⟩ := hmac
  obtain ⟨ctx, hslot, rfl⟩ := holds_slot_iff.mp hi
  rw [Below, ← hm.sample i ctx hslot] at hlow
  rw [← hm.sample i ctx hslot] at hno
  rw [← hm.started i ctx metric hslot]
  intro hstart
  exact hno (h.opened i ctx metric hslot (opens_iff.mpr ⟨hlow, hstart⟩))

end Sweep

/-! ## Over a run of calls -/

section Runs

variable {D : Type} [CDouble D] (lq : LinkQty D) (policy : Option Policy)

/-- Every sweep of a run meets a roster with the property `p`. -/
def AtSweeps (es : List Event) (p : List Event → Int → Prop) : Prop :=
  ∀ seen now, seen ++ [.sweep now] <+: es → p seen now

theorem policy_after (es : List Event) :
    (after lq policy es).policy = policy.getD Policy.defaults := by
  induction es using List.reverseRecOn with
  | nil => rfl
  | append_singleton es e ih =>
    rw [after_concat]
    cases e with
    | op op => exact (apply_policy _ op).trans ih
    | sweep now =>
      have hstep : (machine lq).step (after lq policy es) (.sweep now) =
        evalStation lq (after lq policy es) now := rfl
      rw [hstep, evalStation_policy, ih]

theorem accounted_after (es : List Event) :
    Accounted (policy.getD Policy.defaults) es (after lq policy es) := by
  induction es using List.reverseRecOn with
  | nil => exact accounted_init policy
  | append_singleton es e ih =>
    obtain ⟨hr, hs⟩ := refines lq policy es
    rw [after_concat]
    cases e with
    | op op => exact ih.apply hr hs op
    | sweep now =>
      rw [← policy_after lq policy es] at ih ⊢
      exact ih.sweep lq hs now

theorem kept_run {es : List Event}
    (h : AtSweeps es fun seen _ => Quiet (policy.getD Policy.defaults) seen) :
    Kept es (after lq policy es) := by
  induction es using List.reverseRecOn with
  | nil => exact kept_init policy
  | append_singleton es e ih =>
    have hkept := ih fun seen now hp => h seen now (hp.trans (List.prefix_append _ _))
    obtain ⟨hr, hs⟩ := refines lq policy es
    rw [after_concat]
    cases e with
    | op op => exact hkept.apply hr hs op
    | sweep now =>
      have hm := accounted_after lq policy es
      have hq := h es now (List.prefix_refl _)
      rw [← policy_after lq policy es] at hm hq
      exact hkept.sweep lq hm hs hq now

/-- Excursions come from usable data exactly in the runs in which no sweep meets an
unusable sample below a band, other than in an excursion under way. -/
theorem usable_excursions_iff (es : List Event) :
    AtSweeps es (fun seen now => OnlyUsable lq seen (after lq policy seen) now) ↔
      AtSweeps es fun seen _ => Quiet (policy.getD Policy.defaults) seen := by
  constructor
  · intro h seen now hp
    have hm := accounted_after lq policy seen
    rw [← policy_after lq policy seen] at hm ⊢
    exact (h seen now hp).quiet lq hm (refines lq policy seen).2
  · intro h seen now hp
    have hseen : AtSweeps seen fun seen _ => Quiet (policy.getD Policy.defaults) seen :=
      fun first now' hp' => h first now' (hp'.trans ((List.prefix_append _ _).trans hp))
    have hkept := kept_run lq policy hseen
    have hm := accounted_after lq policy seen
    have hq := h seen now hp
    rw [← policy_after lq policy seen] at hm hq
    exact hq.onlyUsable lq hm (refines lq policy seen).2 hkept now

end Runs

/-- A station attaches and the first sweep comes before its first record. -/
theorem zero_sample_reported :
    (evalStation (⟨0, 0⟩ : LinkQty ℝ)
        (after (⟨0, 0⟩ : LinkQty ℝ) none [.op (.attach (Vector.replicate 6 1) true)]) 1).2.map
          Report.excursion =
        [⟨Vector.replicate 6 1, .snr, 1, 0⟩, ⟨Vector.replicate 6 1, .phy, 1, 0⟩] ∧
      ¬ AtSweeps [.op (.attach (Vector.replicate 6 1) true), .sweep 1] (fun seen now =>
        OnlyUsable (⟨0, 0⟩ : LinkQty ℝ) seen (after (⟨0, 0⟩ : LinkQty ℝ) none seen) now) := by
  refine ⟨by decide +kernel, ?_⟩
  intro h
  have hopened := (h [.op (.attach (Vector.replicate 6 1) true)] 1 (List.prefix_refl _)).opened
    ⟨0, by decide⟩ (Ctx.opened (Vector.replicate 6 1)) .snr rfl
    (opens_iff.mpr ⟨by decide, rfl⟩)
  exact not_heard_of_no_ingest (by simp) hopened.1

end Wei.Life
