import Wei.Infer.Store
import Wei.Lib.Statistics

/-!
# From admission to the reap

A client's state goes back to its admission. `Tenure` is a stretch of a run that
admits a MAC and does not reap it; `ScoredTick` is what a tick reads and emits
for it. `tenure_induction` reduces a property of the client's row at the end of
such a stretch to one case for each thing a call can do to the row.
-/
namespace Wei.Infer

open Wei.Lib Wei.Lib.SlotTable Wei.Lib.Statistics Wei.ConnScorer
open Track (maxClients)

/-! ## What the ticks of a run read -/

/-- The record that the last call of `es` reads for `mac` if it is a tick: the one
last staged, if it passes the gate. -/
def readAtEnd (mac : Mac) (es : List Event) : Option (Int × ConnMetric.Record) :=
  match es.getLast? with
  | some (.tick now) =>
    (((lastStaged mac es).map Staged.record).filter ConnMetric.Record.usable).map (now, ·)
  | _ => none

/-- The records that the ticks of `es` read for `mac`, each with the time of its tick. -/
def recordsRead (mac : Mac) (es : List Event) : List (Int × ConnMetric.Record) :=
  (prefixes es).filterMap (readAtEnd mac)

theorem recordsRead_stage (mac mac' : Mac) (es : List Event) (rec : ConnMetric.Record)
    (now : Int) : recordsRead mac (es ++ [.stage mac' rec now]) = recordsRead mac es := by
  simp [recordsRead, prefixes_concat, readAtEnd]

theorem recordsRead_tick (mac : Mac) (es : List Event) (now : Int) :
    recordsRead mac (es ++ [.tick now]) = recordsRead mac es ++
      ((((lastStaged mac es).map Staged.record).filter ConnMetric.Record.usable).map
        (now, ·)).toList := by
  rw [recordsRead, prefixes_concat, List.filterMap_append, recordsRead]
  congr 1
  simp only [readAtEnd, List.getLast?_concat, lastStaged_tick, List.filterMap_cons,
    List.filterMap_nil]
  cases (((lastStaged mac es).map Staged.record).filter ConnMetric.Record.usable).map
    (now, ·) <;> rfl

/-- A tick that scores `mac` reads the record last staged. -/
theorem recordsRead_scored {mac : Mac} {es : List Event} {rec : ConnMetric.Record}
    (hlast : (lastStaged mac es).map Staged.record = some rec) (hgate : rec.usable = true)
    (now : Int) : recordsRead mac (es ++ [.tick now]) = recordsRead mac es ++ [(now, rec)] := by
  rw [recordsRead_tick, hlast]
  simp [Option.filter, hgate]

theorem mem_of_lastStaged {mac : Mac} {es : List Event} {x : Staged}
    (h : lastStaged mac es = some x) : .stage mac x.record x.time ∈ es := by
  induction es using List.reverseRecOn with
  | nil => cases h
  | append_singleton es e ih =>
    cases e with
    | tick now =>
      rw [lastStaged_tick] at h
      exact List.mem_append_left _ (ih h)
    | stage mac' rec now =>
      rw [lastStaged_stage] at h
      split at h
      · next hmac =>
        subst hmac
        obtain rfl := Option.some.inj h
        exact List.mem_append_right _ (List.mem_singleton_self _)
      · exact List.mem_append_left _ (ih h)

/-- What a tick reads was staged. -/
theorem mem_of_recordsRead {mac : Mac} {es : List Event} {now : Int} {rec : ConnMetric.Record}
    (h : (now, rec) ∈ recordsRead mac es) : ∃ t, .stage mac rec t ∈ es := by
  obtain ⟨p, hp, hread⟩ := List.mem_filterMap.mp h
  have hpre : p <+: es := (List.mem_inits p es).mp (List.mem_of_mem_tail hp)
  unfold readAtEnd at hread
  split at hread
  · obtain ⟨rec', hrec, heq⟩ := Option.map_eq_some_iff.mp hread
    obtain ⟨_, rfl⟩ := Prod.mk.inj heq
    obtain ⟨x, hx, rfl⟩ := Option.map_eq_some_iff.mp (Option.eq_some_of_filter_eq_some hrec)
    exact ⟨x.time, hpre.mem (mem_of_lastStaged hx)⟩
  · cases hread

/-- What one tick read and emitted for a client it scored. -/
structure ScoredTick where
  now : Int
  metrics : ConnMetric.Record
  result : Result

def ScoredTick.ofEmission (now : Int) (em : Emission) : ScoredTick := ⟨now, em.metrics, em.result⟩

section Tenure

variable {D : Type} [CDouble D]

/-- The scored ticks of `mac` in the run of `es` from `eng`, in order. -/
def scoredTicks (lq : LinkQty D) (mac : Mac) (eng : Engine D) (es : List Event) :
    List ScoredTick :=
  (es.zip ((machine lq).outputs eng es)).filterMap fun x =>
    (emissionOf mac x.2).map (ScoredTick.ofEmission x.1.now)

theorem scoredTicks_concat (lq : LinkQty D) (mac : Mac) (eng : Engine D) (es : List Event)
    (e : Event) : scoredTicks lq mac eng (es ++ [e]) = scoredTicks lq mac eng es ++
      ((emissionOf mac ((machine lq).step ((machine lq).final eng es) e).2).map
        (ScoredTick.ofEmission e.now)).toList := by
  have hlen : es.length = ((machine lq).outputs eng es).length :=
    ((machine lq).length_outputs eng es).symm
  rw [scoredTicks, Mealy.outputs_concat, List.zip_append hlen, List.filterMap_append, scoredTicks]
  congr 1

/-! ## One call, for a client that stays -/

/-- What a call does to the row and the tracker entry of a client that is a
member before and after it, and what it emits for it. -/
inductive StayStep (lq : LinkQty D) (policy : Policy) (mac : Mac) (room : Bool) (row : Row D)
    (entry : Option Track.Entry) :
    Event → Row D → Option Track.Entry → Option Emission → Prop
  | restaged (rec : ConnMetric.Record) (now : Int) :
      StayStep lq policy mac room row entry (.stage mac rec now) (row.refreshed rec now) entry none
  | passed (mac' : Mac) (rec : ConnMetric.Record) (now : Int) (hne : mac' ≠ mac) :
      StayStep lq policy mac room row entry (.stage mac' rec now) row entry none
  | gated (now : Int) (hgate : row.snapshot.usable = false) (hkept : row.absent now = false) :
      StayStep lq policy mac room row entry (.tick now) row
        (entry.filter (fun e => !e.absent now Track.absenceDefaultMs)) none
  | scored (now : Int) (hgate : row.snapshot.usable = true) (row' : Row D)
      (entry' : Option Track.Entry) (out : Result)
      (hscore : scoreRow lq policy now room row entry = some (row', entry', out))
      (hkept : row'.absent now = false) :
      StayStep lq policy mac room row entry (.tick now) row'
        (entry'.filter (fun e => !e.absent now Track.absenceDefaultMs))
        (some ⟨out, row.snapshot⟩)

theorem stayStep (lq : LinkQty D) (policy : Policy) (mac : Mac) (room : Bool) {c : Cell D}
    {row : Row D} (hrow : c.member = some row) (e : Event)
    (hstay : ((cellStep lq policy mac room c e).1.member).isSome = true) :
    ∃ row', (cellStep lq policy mac room c e).1.member = some row' ∧
      StayStep lq policy mac room row c.entry e row' (cellStep lq policy mac room c e).1.entry
        (cellStep lq policy mac room c e).2 := by
  cases e with
  | stage mac' rec now =>
    by_cases hm : mac' = mac
    · subst hm
      simp only [cellStep, if_true, Cell.stage, hrow]
      exact ⟨_, rfl, .restaged rec now⟩
    · simp only [cellStep, if_neg hm]
      exact ⟨row, hrow, .passed mac' rec now hm⟩
  | tick now =>
    obtain ⟨row', hrow'⟩ := Option.isSome_iff_exists.mp hstay
    refine ⟨row', hrow', ?_⟩
    by_cases hs : c.Scorable
    · obtain ⟨row₀, row₁, entry', out, hc, hscore, heq⟩ := score_scored lq policy now room hs
      obtain rfl := Option.some.inj (hrow.symm.trans hc)
      have hgate : row.snapshot.usable = true := by
        rw [← scoreRow_isSome lq policy now room row c.entry, hscore]
        rfl
      simp only [cellStep, Cell.tick, heq, Cell.reap] at hrow' ⊢
      obtain ⟨hsome, hkept⟩ := Option.filter_eq_some_iff.mp hrow'
      obtain rfl := Option.some.inj hsome
      exact .scored now hgate row₁ entry' out hscore (by simpa using hkept)
    · have hgate : row.snapshot.usable = false := by
        cases hu : row.snapshot.usable with
        | false => rfl
        | true => exact absurd ⟨row, hrow, hu⟩ hs
      simp only [cellStep, Cell.tick, score_idle lq policy now room hs, Cell.reap, hrow] at hrow' ⊢
      obtain ⟨hsome, hkept⟩ := Option.filter_eq_some_iff.mp hrow'
      obtain rfl := Option.some.inj hsome
      exact .gated now hgate (by simpa using hkept)

/-! ## Tenures -/

/-- After `pre` the MAC holds no slot; the calls of `a` admit it and keep it. -/
structure Tenure (lq : LinkQty D) (policy : Policy) (mac : Mac) (pre a : List Event) : Prop where
  absent : ¬ Member (after lq policy pre) mac
  stays : ∀ b, b <+: a → b ≠ [] → Member (after lq policy (pre ++ b)) mac

theorem Tenure.of_concat {lq : LinkQty D} {policy : Policy} {mac : Mac} {pre a : List Event}
    {e : Event} (h : Tenure lq policy mac pre (a ++ [e])) : Tenure lq policy mac pre a :=
  ⟨h.absent, fun b hb => h.stays b (hb.trans (List.prefix_append a [e]))⟩

theorem member_of_row {lq : LinkQty D} {policy : Policy} {mac : Mac} {es : List Event} {row : Row D}
    (hrow : (cell (after lq policy es) mac).member = some row) :
    Member (after lq policy es : Engine D) mac := by
  rw [member_iff (wellFormed_after lq policy es), hrow]
  rfl

theorem Tenure.ne_nil {lq : LinkQty D} {policy : Policy} {mac : Mac} {pre a : List Event}
    (h : Tenure lq policy mac pre a) {row : Row D}
    (hrow : (cell (after lq policy (pre ++ a)) mac).member = some row) : a ≠ [] := by
  rintro rfl
  rw [List.append_nil] at hrow
  exact h.absent (member_of_row hrow)

theorem not_member_create (policy : Policy) (mac : Mac) : ¬ Member (create policy : Engine D) mac := by
  rintro ⟨i, hi⟩
  exact absurd hi.1 (by simp [create, Slot.zero, inUse])

/-- Only one tenure ends with a run. -/
theorem Tenure.unique {lq : LinkQty D} {policy : Policy} {mac : Mac} {pre pre' a a' : List Event}
    (h : Tenure lq policy mac pre a) (h' : Tenure lq policy mac pre' a')
    (heq : pre ++ a = pre' ++ a') (hne : a ≠ []) (hne' : a' ≠ []) : pre = pre' := by
  rcases List.append_eq_append_iff.mp heq with ⟨c, rfl, rfl⟩ | ⟨c, rfl, rfl⟩
  · by_contra hc
    exact h'.absent (h.stays c (List.prefix_append c a') (by simpa using hc))
  · by_contra hc
    exact h.absent (h'.stays c (List.prefix_append c a) (by simpa using hc))

/-- A member is in the tenure that its last admission began. -/
theorem exists_tenure (lq : LinkQty D) (policy : Policy) {mac : Mac} (es : List Event)
    (hm : Member (after lq policy es) mac) :
    ∃ pre a, es = pre ++ a ∧ a ≠ [] ∧ Tenure lq policy mac pre a := by
  induction es using List.reverseRecOn with
  | nil => exact absurd hm (not_member_create policy mac)
  | append_singleton es e ih =>
    by_cases hbefore : Member (after lq policy es) mac
    · obtain ⟨pre, a, rfl, hne, h⟩ := ih hbefore
      refine ⟨pre, a ++ [e], List.append_assoc pre a [e], by simp, h.absent, fun b hb hb0 => ?_⟩
      rcases List.prefix_concat_iff.mp hb with rfl | hb
      · rw [← List.append_assoc]
        exact hm
      · exact h.stays b hb hb0
    · refine ⟨es, [e], rfl, by simp, hbefore, fun b hb hb0 => ?_⟩
      rcases List.prefix_concat_iff.mp (show b <+: [] ++ [e] from hb) with rfl | hb
      · exact hm
      · exact absurd (List.prefix_nil.mp hb) hb0

/-- A tenure goes on with every call but a tick that finds the last record too old. -/
theorem Tenure.extend {lq : LinkQty D} {policy : Policy} {mac : Mac} {pre a : List Event}
    (h : Tenure lq policy mac pre a) (hne : a ≠ []) {e : Event}
    (hrecent : ∀ now x, e = .tick now → lastStaged mac (pre ++ a) = some x →
      now - x.time ≤ Track.absenceDefaultMs) : Tenure lq policy mac pre (a ++ [e]) := by
  refine ⟨h.absent, fun b hb hb0 => ?_⟩
  rcases List.prefix_concat_iff.mp hb with rfl | hb
  · by_contra hleaves
    rw [← List.append_assoc] at hleaves
    obtain ⟨now, x, he, hx, hold⟩ :=
      (leaves_iff lq policy (h.stays a (List.prefix_refl a) hne) e).mp hleaves
    have := hrecent now x he hx
    omega
  · exact h.stays b hb hb0

/-- A first record in an empty engine begins a tenure. -/
theorem staged_tenure (lq : LinkQty D) (policy : Policy) (mac : Mac) (rec : ConnMetric.Record)
    (now : Int) : Tenure lq policy mac [] [.stage mac rec now] := by
  refine ⟨not_member_create policy mac, fun b hb hne => ?_⟩
  rcases List.prefix_concat_iff.mp (show b <+: [] ++ [.stage mac rec now] from hb) with rfl | hb
  · have hfew : (macs ([] ++ ([] ++ [.stage mac rec now]))).card ≤ maxClients := by
      simp [macs, Event.mac?, maxClients]
    rw [member_iff (wellFormed_after _ _ _), (run_solo _ _ _ _ hfew).1]
    simp [solo, cellStep, Cell.stage, Cell.empty]
  · exact absurd (List.prefix_nil.mp hb) hne

section Induction

variable {lq : LinkQty D} {policy : Policy} {mac : Mac} {pre : List Event}

/-- The first call of a tenure admits the MAC. -/
theorem Tenure.admits {e : Event} (h : Tenure lq policy mac pre [e]) :
    ∃ rec now, e = .stage mac rec now ∧
      cell (after lq policy (pre ++ [e])) mac =
        ⟨some (Row.admitted mac rec now), (cell (after lq policy pre) mac).entry⟩ := by
  have hwf := wellFormed_after (D := D) lq policy pre
  have hmem := (member_iff (wellFormed_after lq policy _) mac).mp
    (h.stays [e] (List.prefix_refl _) (List.cons_ne_nil e []))
  have habs : (cell (after lq policy pre) mac).member = none := by
    rw [← Option.not_isSome_iff_eq_none, ← member_iff hwf]
    exact h.absent
  obtain ⟨hcell, _⟩ := step_cell lq hwf mac e
  rw [← after_concat, policy_after] at hcell
  rw [hcell] at hmem ⊢
  cases e with
  | tick now => simp [cellStep, Cell.tick, Cell.score, Cell.reap, habs] at hmem
  | stage mac' rec now =>
    by_cases hm : mac' = mac
    · subst hm
      refine ⟨rec, now, rfl, ?_⟩
      simp only [cellStep, if_true, Cell.stage, habs] at hmem ⊢
      split at hmem
      · rename_i hroom
        rw [if_pos hroom]
      · rw [habs] at hmem
        cases hmem
    · simp [cellStep, hm, habs] at hmem

/-- A property of the calls since admission, the scored ticks among them, the row
and the tracker entry holds throughout a tenure if it holds on admission and
everything a call can do keeps it. -/
theorem tenure_induction
    {P : List Event → List ScoredTick → Row D → Option Track.Entry → Prop}
    (admitted : ∀ rec now,
      P [.stage mac rec now] [] (Row.admitted mac rec now) (cell (after lq policy pre) mac).entry)
    (restaged : ∀ a ticks row entry rec now, P a ticks row entry →
      P (a ++ [.stage mac rec now]) ticks (row.refreshed rec now) entry)
    (passed : ∀ a ticks row entry mac' rec now, mac' ≠ mac → P a ticks row entry →
      P (a ++ [.stage mac' rec now]) ticks row entry)
    (gated : ∀ a ticks row entry now, row.snapshot.usable = false → row.absent now = false →
      P a ticks row entry →
      P (a ++ [.tick now]) ticks row
        (entry.filter (fun e => !e.absent now Track.absenceDefaultMs)))
    (scored : ∀ a ticks row entry now row' entry' out,
      cell (after lq policy (pre ++ a)) mac = ⟨some row, entry⟩ → row.snapshot.usable = true →
      scoreRow lq policy now (trackerRoom (after lq policy (pre ++ a)) mac) row entry =
        some (row', entry', out) → row'.absent now = false → P a ticks row entry →
      P (a ++ [.tick now]) (ticks ++ [⟨now, row.snapshot, out⟩]) row'
        (entry'.filter (fun e => !e.absent now Track.absenceDefaultMs)))
    (a : List Event) (hne : a ≠ []) (h : Tenure lq policy mac pre a) :
    ∃ row, (cell (after lq policy (pre ++ a)) mac).member = some row ∧ row.slot.mac = mac ∧
      P a (scoredTicks lq mac (after lq policy pre) a) row
        (cell (after lq policy (pre ++ a)) mac).entry := by
  induction a using List.reverseRecOn with
  | nil => exact absurd rfl hne
  | append_singleton a e ih =>
    by_cases ha : a = []
    · subst ha
      obtain ⟨rec, now, rfl, hcell⟩ := h.admits
      rw [List.nil_append, hcell]
      exact ⟨_, rfl, rfl, admitted rec now⟩
    · obtain ⟨row, hrow, hmac, hP⟩ := ih ha h.of_concat
      have hwf := wellFormed_after (D := D) lq policy (pre ++ a)
      have hmem := (member_iff (wellFormed_after lq policy _) mac).mp
        (h.stays (a ++ [e]) (List.prefix_refl _) (by simp))
      obtain ⟨hcell, hemit⟩ := step_cell lq hwf mac e
      rw [← after_concat, List.append_assoc, policy_after] at hcell
      rw [policy_after] at hemit
      rw [hcell] at hmem ⊢
      obtain ⟨row', hrow', hstep⟩ := stayStep lq policy mac _ hrow e hmem
      have hticks := scoredTicks_concat lq mac (after lq policy pre) a e
      rw [after, ← Mealy.final_append] at hticks
      rw [hemit] at hticks
      rw [hticks]
      generalize (cellStep lq policy mac _ _ e).1.entry = entry' at hstep ⊢
      generalize (cellStep lq policy mac _ _ e).2 = emitted at hstep ⊢
      refine ⟨row', hrow', ?_⟩
      cases hstep with
      | restaged rec now =>
        rw [Option.map_none, Option.toList_none, List.append_nil]
        exact ⟨hmac, restaged a _ row _ rec now hP⟩
      | passed mac' rec now hother =>
        rw [Option.map_none, Option.toList_none, List.append_nil]
        exact ⟨hmac, passed a _ row _ mac' rec now hother hP⟩
      | gated now hgate hkept =>
        rw [Option.map_none, Option.toList_none, List.append_nil]
        exact ⟨hmac, gated a _ row _ now hgate hkept hP⟩
      | scored now hgate row' entry' out hscore hkept =>
        refine ⟨(scoreRow_keeps hscore).1.trans hmac, ?_⟩
        exact scored a _ row _ now row' entry' out (Cell.ext hrow rfl) hgate hscore hkept hP

/-- A property of the scored ticks and the scoring state alone: it holds throughout
a tenure if it holds of the zeroed state and every scored tick keeps it. -/
theorem tenure_state {P : List ScoredTick → Client D → Prop} (zero : P [] Client.zero)
    (scored : ∀ ticks row room entry now row' entry' out, row.snapshot.usable = true →
      scoreRow lq policy now room row entry = some (row', entry', out) →
      P ticks row.slot.state → P (ticks ++ [⟨now, row.snapshot, out⟩]) row'.slot.state)
    {a : List Event} (hne : a ≠ []) (h : Tenure lq policy mac pre a) :
    ∃ row, (cell (after lq policy (pre ++ a)) mac).member = some row ∧
      P (scoredTicks lq mac (after lq policy pre) a) row.slot.state := by
  have hinv := tenure_induction (P := fun _ ticks row _ => P ticks row.slot.state)
    ?_ ?_ ?_ ?_ ?_ a hne h
  · obtain ⟨row, hrow, _, hP⟩ := hinv
    exact ⟨row, hrow, hP⟩
  · exact fun _ _ => zero
  · exact fun _ _ _ _ _ _ hP => hP
  · exact fun _ _ _ _ _ _ _ _ hP => hP
  · exact fun _ _ _ _ _ _ _ hP => hP
  · exact fun _ ticks row entry now row' entry' out _ hgate hscore _ hP =>
      scored ticks row _ entry now row' entry' out hgate hscore hP

/-- The scored ticks of a tenure read, in order, the last record staged before each. -/
theorem tenure_reads {a : List Event} (hne : a ≠ []) (h : Tenure lq policy mac pre a) :
    ∃ row, (cell (after lq policy (pre ++ a)) mac).member = some row ∧
      (lastStaged mac a).map Staged.record = some row.snapshot ∧
      (scoredTicks lq mac (after lq policy pre) a).map (fun t => (t.now, t.metrics)) =
        recordsRead mac a := by
  have hinv := tenure_induction (P := fun a ticks row _ =>
    (lastStaged mac a).map Staged.record = some row.snapshot ∧
      ticks.map (fun t => (t.now, t.metrics)) = recordsRead mac a) ?_ ?_ ?_ ?_ ?_ a hne h
  · obtain ⟨row, hrow, _, hlast, hreads⟩ := hinv
    exact ⟨row, hrow, hlast, hreads⟩
  · intro rec now
    simp [lastStaged, recordsRead, prefixes, readAtEnd, Row.admitted]
  · rintro a ticks row _ rec now ⟨_, hreads⟩
    rw [lastStaged_stage, if_pos rfl, recordsRead_stage]
    exact ⟨rfl, hreads⟩
  · rintro a ticks row _ mac' rec now hother ⟨hlast, hreads⟩
    rw [lastStaged_stage, if_neg hother, recordsRead_stage]
    exact ⟨hlast, hreads⟩
  · rintro a ticks row _ now hgate _ ⟨hlast, hreads⟩
    rw [lastStaged_tick, recordsRead_tick, hlast]
    exact ⟨rfl, by simp [hgate, hreads]⟩
  · rintro a ticks row _ now row' _ out _ hgate hscore _ ⟨hlast, hreads⟩
    rw [lastStaged_tick, recordsRead_tick, hlast, (scoreRow_keeps hscore).2.2.2]
    exact ⟨rfl, by simp [Option.filter, hgate, hreads]⟩

end Induction

/-- A publish call of a tick, with the row it scored. -/
theorem tick_scored (lq : LinkQty D) (policy : Policy) (es : List Event) {now : Int} {s : Scored}
    (hs : s ∈ (tick lq (after lq policy es) now).2) :
    ∃ row row' entry', (cell (after lq policy es) s.mac).member = some row ∧
      row.snapshot = s.metrics ∧ row.snapshot.usable = true ∧
      scoreRow lq policy now (trackerRoom (after lq policy es) s.mac) row
        (cell (after lq policy es) s.mac).entry = some (row', entry', s.result) := by
  have hwf := wellFormed_after (D := D) lq policy es
  have hcall := callFor_of_mem lq now hwf hs
  obtain ⟨_, hemit⟩ := tick_cell lq now hwf s.mac
  rw [emissionOf, hcall, policy_after] at hemit
  have hscorable := (tick_emits_iff lq policy now _).mp (by rw [← hemit]; rfl)
  obtain ⟨row, row', entry', out, hrow, hscore, heq⟩ := score_scored lq policy now _ hscorable
  rw [Cell.tick, heq] at hemit
  obtain ⟨hout, hmetrics⟩ := Emission.mk.inj (Option.some.inj hemit)
  have hgate : row.snapshot.usable = true := by
    rw [← scoreRow_isSome lq policy now _ row _, hscore]
    rfl
  refine ⟨row, row', entry', hrow, hmetrics.symm, hgate, ?_⟩
  rw [hscore, hout]

/-- A client is scored by a tick exactly if the record it staged passes the gate. -/
theorem scored_iff (lq : LinkQty D) (policy : Policy) (es : List Event) (now : Int) {mac : Mac}
    {row : Row D} (hrow : (cell (after lq policy es) mac).member = some row) :
    (∃ s ∈ (tick lq (after lq policy es) now).2, s.mac = mac) ↔ row.snapshot.usable = true := by
  have hwf := wellFormed_after (D := D) lq policy es
  obtain ⟨_, hemit⟩ := tick_cell lq now hwf mac
  constructor
  · rintro ⟨s, hs, rfl⟩
    obtain ⟨row₀, _, _, hrow₀, _, hgate, _⟩ := tick_scored lq policy es hs
    obtain rfl := Option.some.inj (hrow.symm.trans hrow₀)
    exact hgate
  · intro hgate
    have hsome := (tick_emits_iff lq (after lq policy es : Engine D).policy now
      (trackerRoom (after lq policy es : Engine D) mac)).mpr ⟨row, hrow, hgate⟩
    rw [← hemit, emissionOf, Option.isSome_map, Option.isSome_iff_ne_none, Ne, callFor_eq_none,
      not_not] at hsome
    obtain ⟨s, hs, hmac⟩ := List.mem_map.mp hsome
    exact ⟨s, hs, hmac⟩

/-- A tick leaves the state, the ledger and the result of a client it does not score
alone, unless it reaps it. -/
theorem gated_tick (lq : LinkQty D) {eng : Engine D} (h : WellFormed eng) (now : Int) {mac : Mac}
    {i : Fin maxClients} (hgate : (eng.snapshot i).usable = false) :
    (tick lq eng now).1.result i = eng.result i ∧
      (Holds (tick lq eng now).1.map.slots mac i →
        ((tick lq eng now).1.map.slots i).state = (eng.map.slots i).state ∧
          (tick lq eng now).1.ledger i = eng.ledger i) := by
  have hs := swept_all lq now h
  obtain ⟨hrow, hresult⟩ := hs.idle i fun _ => by
    rw [scorable]
    exact (congrArg (_ && ·) hgate).trans (Bool.and_false _)
  rw [tick_eq]
  generalize sweep lq now eng = acc at hrow hresult ⊢
  have hr := mapReap_reaped now { acc.1 with
    tracker := Track.reap acc.1.tracker now Track.absenceDefaultMs }
  have hreap := hr.rows i
  have hresult' := hr.result
  generalize mapReap now { acc.1 with
    tracker := Track.reap acc.1.tracker now Track.absenceDefaultMs } = eng' at hreap hresult' ⊢
  refine ⟨(congrFun hresult' i).trans hresult, fun hi' => ?_⟩
  have hrow' : eng'.rows i = (acc.1.rows i).reap now := by
    rw [if_pos (List.mem_finRange i)] at hreap
    exact hreap
  have hkept : eng'.rows i = eng.rows i := by
    rw [hrow', Row.reap]
    split
    · rename_i habs
      have hin : (eng'.rows i).slot.inUse = true := hi'.1
      rw [hrow', Row.reap, if_pos habs] at hin
      cases hin
    · exact hrow
  exact ⟨congrArg (fun row => row.slot.state) hkept, congrArg Row.ledger hkept⟩

end Tenure

/-! ## A client that is staged before every tick -/

/-- A record that is staged, and the tick that reads it. -/
structure Beat where
  metrics : ConnMetric.Record
  staged : Int
  now : Int

def Beat.stage (mac : Mac) (b : Beat) : Event := .stage mac b.metrics b.staged

def beats (mac : Mac) (bs : List Beat) : List Event :=
  bs.flatMap fun b => [b.stage mac, .tick b.now]

/-- The record passes the gate and is read within the absence window. -/
structure Beat.Fresh (b : Beat) : Prop where
  usable : b.metrics.usable = true
  recent : b.now - b.staged ≤ Track.absenceDefaultMs

section Beats

variable {D : Type} [CDouble D] (lq : LinkQty D) (policy : Policy) (mac : Mac) {bs : List Beat}
variable {b : Beat}

theorem beats_concat (bs : List Beat) (b : Beat) :
    beats mac (bs ++ [b]) = beats mac bs ++ [b.stage mac] ++ [.tick b.now] := by
  simp [beats]

/-- What a beat stages is the last record staged. -/
theorem beats_lastStaged (bs : List Beat) (b : Beat) :
    lastStaged mac (beats mac bs ++ [b.stage mac]) = some ⟨b.metrics, b.staged⟩ := by
  rw [Beat.stage, lastStaged_stage, if_pos rfl]

theorem beats_reads (h : ∀ b ∈ bs, b.Fresh) :
    recordsRead mac (beats mac bs) = bs.map fun b => (b.now, b.metrics) := by
  induction bs using List.reverseRecOn with
  | nil => rfl
  | append_singleton bs b ih =>
    have hbefore := ih fun b' hb' => h b' (List.mem_append_left _ hb')
    have hlast := congrArg (Option.map Staged.record) (beats_lastStaged mac bs b)
    rw [beats_concat, recordsRead_scored hlast (h b (by simp)).usable, Beat.stage,
      recordsRead_stage, hbefore, List.map_append]
    rfl

/-- The tick of a fresh beat keeps the client. -/
theorem beat_ticked {before : List Event}
    (h : Tenure lq policy mac [] (before ++ [b.stage mac])) (hb : b.Fresh) :
    Tenure lq policy mac [] (before ++ [b.stage mac] ++ [.tick b.now]) := by
  refine h.extend (by simp) fun now x he hx => ?_
  obtain rfl := Event.tick.inj he
  rw [List.nil_append, Beat.stage, lastStaged_stage, if_pos rfl] at hx
  obtain rfl := Option.some.inj hx
  exact hb.recent

/-- The client is admitted by the first of the beats and stays. -/
theorem beats_tenure (h : ∀ b ∈ bs, b.Fresh) (b : Beat) :
    Tenure lq policy mac [] (beats mac bs ++ [b.stage mac]) := by
  induction bs using List.reverseRecOn generalizing b with
  | nil => exact staged_tenure lq policy mac b.metrics b.staged
  | append_singleton bs b' ih =>
    have hbefore := ih (fun c hc => h c (List.mem_append_left _ hc)) b'
    rw [beats_concat]
    refine (beat_ticked lq policy mac hbefore (h b' (by simp))).extend (by simp) ?_
    intro now x he
    cases he

/-- The tick of the last beat scores the client, on top of the beats before. -/
theorem beats_scored (h : ∀ b ∈ bs, b.Fresh) (hb : b.Fresh) :
    ((scoredTicks lq mac (after lq policy []) (beats mac bs ++ [b.stage mac])).map
        fun t => (t.now, t.metrics)) = bs.map (fun b => (b.now, b.metrics)) ∧
      ∃ s ∈ (tick lq (after lq policy (beats mac bs ++ [b.stage mac])) b.now).2,
        s.mac = mac ∧ s.metrics = b.metrics := by
  obtain ⟨row, hrow, hlast, hreads⟩ := tenure_reads (by simp) (beats_tenure lq policy mac h b)
  have hsnapshot : row.snapshot = b.metrics := by
    rw [beats_lastStaged] at hlast
    exact (Option.some.inj hlast).symm
  rw [List.nil_append] at hrow
  obtain ⟨s, hs, hmac⟩ := (scored_iff lq policy _ b.now hrow).mpr (hsnapshot ▸ hb.usable)
  obtain ⟨row', _, _, hrow', hmetrics, _⟩ := tick_scored lq policy _ hs
  rw [hmac] at hrow'
  obtain rfl := Option.some.inj (hrow.symm.trans hrow')
  refine ⟨?_, s, hs, hmac, hmetrics.symm.trans hsnapshot⟩
  rw [hreads, Beat.stage, recordsRead_stage, beats_reads mac h]

/-- Nobody else is scored. -/
theorem beats_alone (h : ∀ b ∈ bs, b.Fresh) (hb : b.Fresh) :
    ∃ s, (tick lq (after lq policy (beats mac bs ++ [b.stage mac])) b.now).2 = [s] ∧
      s.mac = mac ∧ s.metrics = b.metrics := by
  obtain ⟨-, s, hs, hmac, hmetrics⟩ := beats_scored lq policy mac h hb
  refine ⟨s, ?_, hmac, hmetrics⟩
  have hnodup := tick_calls_nodup lq b.now (wellFormed_after lq policy (beats mac bs ++ [b.stage mac]))
  have hall : ∀ s' ∈ (tick lq (after lq policy (beats mac bs ++ [b.stage mac])) b.now).2,
      s'.mac = mac := by
    intro s' hs'
    obtain ⟨_, _, _, hrow, _⟩ := tick_scored lq policy _ hs'
    have hstaged := mem_of_lastStaged (lastStaged_of_held lq policy hrow)
    rcases List.mem_append.mp hstaged with hstaged | hstaged
    · obtain ⟨c, _, hstaged⟩ := List.mem_flatMap.mp hstaged
      rcases List.mem_pair.mp hstaged with heq | heq
      · exact (Event.stage.inj heq).1
      · cases heq
    · exact (Event.stage.inj (List.mem_singleton.mp hstaged)).1
  match hcalls : (tick lq (after lq policy (beats mac bs ++ [b.stage mac])) b.now).2 with
  | [] => rw [hcalls] at hs; cases hs
  | [x] =>
    rw [hcalls] at hs
    rw [List.mem_singleton.mp hs]
  | x :: y :: rest =>
    rw [hcalls] at hnodup hall
    have hsame : x.mac = y.mac := (hall x (by simp)).trans (hall y (by simp)).symm
    simp [hsame] at hnodup

/-- The scored ticks at the last of some beats read exactly these. -/
theorem beats_ticks (h : ∀ c ∈ bs ++ [b], c.Fresh) :
    ∃ s ∈ (tick lq (after lq policy (beats mac bs ++ [b.stage mac])) b.now).2, s.mac = mac ∧
      ∃ ticks, ticks = scoredTicks lq mac (after lq policy []) (beats mac bs ++ [b.stage mac]) ++
          [⟨b.now, s.metrics, s.result⟩] ∧
        ticks.map ScoredTick.now = (bs ++ [b]).map Beat.now ∧
        ticks.map ScoredTick.metrics = (bs ++ [b]).map Beat.metrics := by
  obtain ⟨hbefore, s, hs, hmac, hmetrics⟩ := beats_scored lq policy mac
    (fun c hc => h c (List.mem_append_left [b] hc)) (h b (by simp))
  have hnow := congrArg (List.map Prod.fst) hbefore
  have hread := congrArg (List.map Prod.snd) hbefore
  rw [List.map_map, List.map_map] at hnow hread
  refine ⟨s, hs, hmac, _, rfl, ?_, ?_⟩
  · rw [List.map_append, List.map_append]
    exact congrArg (· ++ [b.now]) hnow
  · rw [List.map_append, List.map_append, List.map_singleton, List.map_singleton, ← hmetrics]
    exact congrArg (· ++ [s.metrics]) hread

def rated (rate : UInt32) : ConnMetric.Record := { ConnMetric.Record.zero with phyRateKbps := rate }

/-- The `i`-th of the beats that follow each other every five seconds. -/
def beatAt (i : Nat) (rec : ConnMetric.Record) : Beat := ⟨rec, 5000 * i + 1, 5000 * i + 2⟩

def inTurn (recs : List ConnMetric.Record) : List Beat := recs.mapIdx beatAt

theorem inTurn_concat (recs : List ConnMetric.Record) (rec : ConnMetric.Record) :
    inTurn (recs ++ [rec]) = inTurn recs ++ [beatAt recs.length rec] :=
  List.mapIdx_concat

theorem map_metrics_inTurn (recs : List ConnMetric.Record) :
    (inTurn recs).map Beat.metrics = recs := by
  induction recs using List.reverseRecOn with
  | nil => rfl
  | append_singleton recs rec ih =>
    rw [inTurn_concat, List.map_append, ih]
    rfl

theorem fresh_inTurn {recs : List ConnMetric.Record} (h : ∀ rec ∈ recs, rec.usable = true) :
    ∀ b ∈ inTurn recs, b.Fresh := by
  intro b hb
  obtain ⟨i, hi, rfl⟩ := List.mem_mapIdx.mp hb
  exact ⟨h _ (List.getElem_mem hi), show (5000 * i + 2 : Int) - (5000 * i + 1) ≤ 30000 by omega⟩

end Beats

end Wei.Infer
