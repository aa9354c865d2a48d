import Wei.Infer.Readmission

/-!
# What a reused slot shows

Map slot, ledger and result of a client share one index. The reap clears the slot
and the ledger, admission clears nothing, and a result is written only when its
slot is scored. A client that was admitted and not scored yet therefore shows the
result of whoever was scored in its slot before.
-/
namespace Wei.Infer

open Wei.Lib Wei.Lib.SlotTable Wei.ConnScorer
open Track (maxClients)

variable {D : Type} [CDouble D]

/-! ## One call -/

section Call

variable (lq : LinkQty D) {eng : Engine D} {mac : Mac} {i : Fin maxClients}

omit [CDouble D] in
theorem stage_result (mac : Mac) (rec : ConnMetric.Record) (now : Int) :
    (stageRecord eng mac rec now).result = eng.result := by
  unfold stageRecord
  split <;> rfl

theorem tick_result_eq (now : Int) : (tick lq eng now).1.result = (sweep lq now eng).1.result := by
  rw [tick_eq]
  exact (mapReap_reaped now _).result

/-- A tick leaves the result of a slot alone that it does not score. -/
theorem tick_result_idle (h : WellFormed eng) (now : Int) (hs : scorable eng i = false) :
    (tick lq eng now).1.result i = eng.result i := by
  rw [tick_result_eq]
  exact ((swept_all lq now h).idle i fun _ => hs).2

/-- A tick that scores a client writes what it emits into the client's slot. -/
theorem tick_result (h : WellFormed eng) (now : Int) (hi : Holds eng.rows mac i) :
    (tick lq eng now).1.result i =
      ((emissionOf mac (tick lq eng now).2).map Emission.result).getD (eng.result i) := by
  obtain ⟨acc, ht, hbefore, hafter⟩ := exists_turn lq now h hi
  have hout : (tick lq eng now).2 = (sweep lq now eng).2 := rfl
  rw [tick_result_eq, hafter, emissionOf, hout, ht.call]
  cases hs : scorable eng i with
  | false =>
    rw [sweepSlot_idle lq now acc ((ht.before.scorable_eq i).trans hs), ht.callBefore]
    exact hbefore
  | true =>
    obtain ⟨row, e, out, entry, hturn⟩ := sweepSlot_scored lq now acc ht.before.distinct
      ((ht.before.scorable_eq i).trans hs)
    have hmac : (acc.1.rows i).slot.mac = mac := by
      rw [ht.rowBefore]
      exact hi.2
    rw [hturn.result, Function.update_self, hturn.output, callFor_append, ht.callBefore, hmac]
    simp [callFor, Scored.emission]

/-- A client that was a member before a call is in its slot already. -/
theorem holds_before (h : WellFormed eng) {e : Event} (hm : Member eng mac)
    (hi : Holds ((machine lq).step eng e).1.map.slots mac i) : Holds eng.map.slots mac i := by
  cases e with
  | stage mac' rec now =>
    have hspec := stage_spec h mac' rec now
    have hi' : Holds (stageRecord eng mac' rec now).rows mac i := hi
    generalize stageRecord eng mac' rec now = eng' at hspec hi'
    cases hspec with
    | refresh k hk _ hrows =>
      rw [hrows, holds_update_iff (s := (eng.rows k).refreshed rec now) hk.1 hk.2] at hi'
      rcases hi' with ⟨rfl, rfl⟩ | ⟨_, hi'⟩
      · exact hk
      · exact hi'
    | claim k _ habs _ hrows =>
      rw [hrows, holds_update_iff (s := Row.admitted mac' rec now) rfl rfl] at hi'
      rcases hi' with ⟨_, rfl⟩ | ⟨_, hi'⟩
      · obtain ⟨j, hj⟩ := hm
        exact absurd hj (habs j)
      · exact hi'
    | drop => exact hi'
  | tick now =>
    have hs := swept_all lq now h
    have hi' : Holds (tick lq eng now).1.rows mac i := hi
    rw [tick_eq] at hi'
    generalize sweep lq now eng = acc at hs hi'
    rw [(mapReap_reaped now _).release_eq, holds_release_iff fun _ => rfl] at hi'
    exact hs.holds_iff.mp hi'.1

end Call

/-! ## Since the last admission -/

section Runs

variable {lq : LinkQty D} {policy : Policy} {mac : Mac} {pre : List Event} {i : Fin maxClients}

/-- Throughout a tenure the result of the client's slot is that of its last scored
tick, or what the slot showed before. -/
theorem tenure_result {a : List Event} (hne : a ≠ []) (h : Tenure lq policy mac pre a)
    (hi : Holds (after lq policy (pre ++ a)).map.slots mac i) :
    (after lq policy (pre ++ a)).result i =
      ((scoredTicks lq mac (after lq policy pre) a).getLast?.map ScoredTick.result).getD
        ((after lq policy pre).result i) := by
  induction a using List.reverseRecOn with
  | nil => exact absurd rfl hne
  | append_singleton a e ih =>
    have hwf := wellFormed_after lq policy (pre ++ a)
    have hticks := scoredTicks_concat lq mac (after lq policy pre) a e
    rw [after, ← Mealy.final_append] at hticks
    rw [← List.append_assoc, after_concat] at hi ⊢
    cases e with
    | stage mac' rec now =>
      have hbefore : (after lq policy (pre ++ a)).result i =
          ((scoredTicks lq mac (after lq policy pre) a).getLast?.map ScoredTick.result).getD
            ((after lq policy pre).result i) := by
        by_cases ha : a = []
        · subst ha
          rw [List.append_nil]
          rfl
        · have hm := h.of_concat.stays a (List.prefix_refl a) ha
          exact ih ha h.of_concat (holds_before lq hwf hm hi)
      have hnone : emissionOf mac ((machine lq).step ((machine lq).final (create policy) (pre ++ a))
          (.stage mac' rec now)).2 = none := rfl
      rw [hticks, hnone, Option.map_none, Option.toList_none, List.append_nil, ← hbefore]
      exact congrFun (stage_result mac' rec now) i
    | tick now =>
      have ha : a ≠ [] := by
        rintro rfl
        obtain ⟨_, _, he, _⟩ := h.admits
        cases he
      have hm := h.of_concat.stays a (List.prefix_refl a) ha
      have hi' := holds_before lq hwf hm hi
      have hstep : (machine lq).step (after lq policy (pre ++ a)) (.tick now) =
          tick lq (after lq policy (pre ++ a)) now := rfl
      rw [hstep] at hticks ⊢
      rw [hticks, tick_result lq hwf now (holds_rows.mpr hi')]
      cases emissionOf mac (tick lq (after lq policy (pre ++ a)) now).2 with
      | none =>
        simp only [Option.map_none, Option.toList_none, List.append_nil]
        exact ih ha h.of_concat hi'
      | some em =>
        simp only [Option.map_some, Option.toList_some, List.getLast?_concat]
        rfl

/-- A client that was not scored since its admission has an empty ledger. -/
theorem tenure_ledger {a : List Event} (hne : a ≠ []) (h : Tenure lq policy mac pre a)
    (hunscored : scoredTicks lq mac (after lq policy pre) a = []) :
    ∃ row, (cell (after lq policy (pre ++ a)) mac).member = some row ∧
      row.ledger = EpisodeLog.zero := by
  have hinv := tenure_induction (P := fun _ ticks row _ => ticks = [] →
    row.ledger = EpisodeLog.zero) ?_ ?_ ?_ ?_ ?_ a hne h
  · obtain ⟨row, hrow, _, hledger⟩ := hinv
    exact ⟨row, hrow, hledger hunscored⟩
  · exact fun _ _ _ => rfl
  · exact fun _ _ _ _ _ _ hP => hP
  · exact fun _ _ _ _ _ _ _ _ hP => hP
  · exact fun _ _ _ _ _ _ _ hP => hP
  · intro a ticks row entry now row' entry' out _ _ _ _ _ hnil
    simp at hnil

/-! ## The client on its own -/

/-- All ticks of `a` that score the client are clean, or all of them are unstable. -/
def Undisturbed (lq : LinkQty D) (policy : Policy) (mac : Mac) (pre a : List Event) : Prop :=
  Throughout lq policy mac pre a (CleanTick policy mac) ∨
    Throughout lq policy mac pre a fun eng _ => UnstableTick policy mac eng

theorem Undisturbed.of_prefix {a b : List Event} (h : Undisturbed lq policy mac pre a)
    (hb : b <+: a) : Undisturbed lq policy mac pre b := by
  rcases h with h | h
  · exact Or.inl fun c t hc => h c t (hc.trans hb)
  · exact Or.inr fun c t hc => h c t (hc.trans hb)

theorem Tenure.of_prefix {a b : List Event} (h : Tenure lq policy mac pre a) (hb : b <+: a) :
    Tenure lq policy mac pre b := ⟨h.absent, fun c hc => h.stays c (hc.trans hb)⟩

/-- In an undisturbed tenure the fresh engine has the same row for the client. -/
theorem Undisturbed.fresh_row {a : List Event} (hclean : Undisturbed lq policy mac pre a)
    (hne : a ≠ []) (h : Tenure lq policy mac pre a) :
    ∃ row, (cell (after lq policy (pre ++ a)) mac).member = some row ∧
      (freshCell lq policy mac a).member = some row := by
  rcases hclean with hclean | hunstable
  · obtain ⟨row, hrow, halike⟩ := tenure_alike hne h hclean
    exact ⟨row, hrow, halike.member⟩
  · exact tenure_unstable hne h hunstable

theorem Undisturbed.fresh_tenure {a : List Event} (hclean : Undisturbed lq policy mac pre a)
    (h : Tenure lq policy mac pre a) :
    Tenure lq policy mac [] (a.filter (concerns mac)) := by
  refine ⟨not_member_create policy mac, fun c hc hne => ?_⟩
  obtain ⟨b, hb, rfl⟩ := List.prefix_filter_iff.mp hc
  have hbne : b ≠ [] := by
    rintro rfl
    exact hne rfl
  obtain ⟨row, _, hrow⟩ := (hclean.of_prefix hb).fresh_row hbne (h.of_prefix hb)
  rw [List.nil_append]
  exact member_of_row ((congrArg Cell.member (freshCell_eq lq policy mac b)).trans hrow)

/-- The fresh engine scores the client at the same ticks, with the same results. -/
theorem Undisturbed.fresh_ticks {a : List Event} (hclean : Undisturbed lq policy mac pre a)
    (h : Tenure lq policy mac pre a) :
    scoredTicks lq mac (after lq policy pre) a =
      scoredTicks lq mac (create policy) (a.filter (concerns mac)) := by
  induction a using List.reverseRecOn with
  | nil => rfl
  | append_singleton a e ih =>
    have hbefore := ih (hclean.of_prefix (List.prefix_append a [e])) h.of_concat
    have hticks := scoredTicks_concat lq mac (after lq policy pre) a e
    rw [after, ← Mealy.final_append] at hticks
    rw [hticks, hbefore, List.filter_append]
    cases e with
    | stage mac' rec now =>
      have hnone : ∀ eng : Engine D, emissionOf mac
          ((machine lq).step eng (.stage mac' rec now)).2 = none := fun _ => rfl
      rw [hnone, Option.map_none, Option.toList_none, List.append_nil]
      by_cases hc : concerns mac (.stage mac' rec now) = true
      · rw [List.filter_cons_of_pos hc, List.filter_nil, scoredTicks_concat, hnone,
          Option.map_none, Option.toList_none, List.append_nil]
      · rw [List.filter_cons_of_neg hc, List.filter_nil, List.append_nil]
    | tick now =>
      have hc : concerns mac (.tick now) = true := rfl
      have hstep : ∀ eng : Engine D, (machine lq).step eng (.tick now) = tick lq eng now :=
        fun _ => rfl
      have hrun := (tick_cell lq now (wellFormed_after lq policy (pre ++ a)) mac).2
      rw [policy_after] at hrun
      rw [List.filter_cons_of_pos hc, List.filter_nil, scoredTicks_concat, hstep, hstep, hrun,
        tick_alike h.of_concat now hclean, emission_fresh]

/-! ## The slot before the admission -/

/-- No tick of `es` scored whoever held slot `i`. -/
def NeverScored (lq : LinkQty D) (policy : Policy) (i : Fin maxClients) (es : List Event) : Prop :=
  ∀ b now, b ++ [.tick now] <+: es → scorable (after lq policy b : Engine D) i = false

/-- A scored result is not the initial one: its score is not below the video band. -/
theorem emission_ne_zero (hband : 0 < policy.videoDegradeBand) {es : List Event} {now : Int}
    {em : Emission} (h : emissionOf mac (tick lq (after lq policy es) now).2 = some em) :
    em.result ≠ Result.zero := by
  obtain ⟨s, hs, rfl⟩ := Option.map_eq_some_iff.mp h
  obtain ⟨row, row', entry', _, _, hgate, hscore⟩ :=
    tick_scored lq policy es (List.mem_of_find?_eq_some hs)
  have hvideo := (scoreRow_scored hgate hscore).videoDegrade
  intro hzero
  have hresult : s.result = Result.zero := hzero
  rw [hresult] at hvideo
  exact Bool.false_ne_true (hvideo.mpr hband)

/-- A slot shows the initial result exactly as long as nobody was scored in it. -/
theorem result_zero_iff (hband : 0 < policy.videoDegradeBand) (es : List Event) :
    (after lq policy es : Engine D).result i = Result.zero ↔ NeverScored lq policy i es := by
  induction es using List.reverseRecOn with
  | nil =>
    refine iff_of_true rfl fun b now hb => ?_
    simp at hb
  | append_singleton es e ih =>
    have hwf := wellFormed_after lq policy es
    have hlast : ∀ b now, b ++ [.tick now] <+: es ++ [e] ↔
        b ++ [.tick now] <+: es ∨ (b = es ∧ e = .tick now) := by
      intro b now
      rw [List.prefix_concat_iff, List.append_singleton_inj]
      constructor
      · rintro (⟨rfl, rfl⟩ | hb)
        · exact Or.inr ⟨rfl, rfl⟩
        · exact Or.inl hb
      · rintro (hb | ⟨rfl, rfl⟩)
        · exact Or.inr hb
        · exact Or.inl ⟨rfl, rfl⟩
    have hnever : NeverScored lq policy i (es ++ [e]) ↔ NeverScored lq policy i es ∧
        ∀ now, e = .tick now → scorable (after lq policy es : Engine D) i = false := by
      constructor
      · intro h
        exact ⟨fun b now hb => h b now ((hlast b now).mpr (Or.inl hb)),
          fun now he => h es now ((hlast es now).mpr (Or.inr ⟨rfl, he⟩))⟩
      · rintro ⟨hbefore, hhere⟩ b now hb
        rcases (hlast b now).mp hb with hb | ⟨rfl, he⟩
        · exact hbefore b now hb
        · exact hhere now he
    rw [after_concat, hnever, ← ih]
    cases e with
    | stage mac' rec now =>
      have hresult : ((machine lq).step (after lq policy es) (.stage mac' rec now)).1.result =
          (after lq policy es).result := stage_result mac' rec now
      rw [hresult]
      simp
    | tick now =>
      have hstep : (machine lq).step (after lq policy es) (.tick now) =
          tick lq (after lq policy es) now := rfl
      rw [hstep]
      cases hs : scorable (after lq policy es : Engine D) i with
      | false =>
        rw [tick_result_idle lq hwf now hs]
        simp
      | true =>
        refine iff_of_false ?_ fun h => Bool.false_ne_true (h.2 now rfl).symm
        rw [scorable, Bool.and_eq_true] at hs
        have hi : Holds (after lq policy es : Engine D).rows
            ((after lq policy es : Engine D).rows i).slot.mac i := ⟨hs.1, rfl⟩
        have hrow := cell_member_of_holds hwf hi
        obtain ⟨s, hmem, hmac⟩ := (scored_iff lq policy es now hrow).mpr hs.2
        have hcall := callFor_of_mem lq now hwf hmem
        have hemission : emissionOf ((after lq policy es : Engine D).rows i).slot.mac
            (tick lq (after lq policy es) now).2 = some s.emission := by
          rw [emissionOf, ← hmac, hcall]
          rfl
        rw [tick_result lq hwf now hi, hemission]
        exact emission_ne_zero hband hemission

/-! ## What the slot shows -/

/-- Result and ledger of slot `i` read as if nobody had held it. -/
structure Blank (eng : Engine D) (i : Fin maxClients) : Prop where
  result : eng.result i = Result.zero
  fill : (eng.ledger i).fill = 0
  episodes : (eng.ledger i).episodes = 0

/-- Slot `i` shows what a fresh engine shows for `mac` that is given the client's
records and the ticks of `a` and nothing else. -/
def ShowsOwn (lq : LinkQty D) (policy : Policy) (mac : Mac) (a : List Event) (eng : Engine D)
    (i : Fin maxClients) : Prop :=
  ∃ j, Holds (after lq policy (a.filter (concerns mac)) : Engine D).map.slots mac j ∧
    eng.result i = (after lq policy (a.filter (concerns mac)) : Engine D).result j ∧
    eng.ledger i = (after lq policy (a.filter (concerns mac)) : Engine D).ledger j

theorem blank_iff {a : List Event} (hne : a ≠ []) (h : Tenure lq policy mac pre a)
    (hi : Holds (after lq policy (pre ++ a)).map.slots mac i)
    (hunscored : scoredTicks lq mac (after lq policy pre) a = []) :
    Blank (after lq policy (pre ++ a)) i ↔ (after lq policy pre : Engine D).result i = Result.zero := by
  have hresult := tenure_result hne h hi
  rw [hunscored] at hresult
  obtain ⟨row, hrow, hledger⟩ := tenure_ledger hne h hunscored
  have hslot := cell_member_of_holds (wellFormed_after lq policy (pre ++ a)) (holds_rows.mpr hi)
  obtain rfl := Option.some.inj (hrow.symm.trans hslot)
  have hempty : (after lq policy (pre ++ a)).ledger i = EpisodeLog.zero := hledger
  constructor
  · intro hblank
    exact hresult.symm.trans hblank.result
  · intro hzero
    refine ⟨hresult.trans hzero, ?_, ?_⟩
    · rw [hempty]
      rfl
    · rw [hempty]
      rfl

theorem showsOwn_iff {a : List Event} (hne : a ≠ []) (h : Tenure lq policy mac pre a)
    (hclean : Undisturbed lq policy mac pre a)
    (hi : Holds (after lq policy (pre ++ a)).map.slots mac i) :
    ShowsOwn lq policy mac a (after lq policy (pre ++ a)) i ↔
      (after lq policy pre : Engine D).result i = Result.zero ∨
        scoredTicks lq mac (after lq policy pre) a ≠ [] := by
  have hresult := tenure_result hne h hi
  obtain ⟨row, hrow, hfresh⟩ := hclean.fresh_row hne h
  have hslot := cell_member_of_holds (wellFormed_after lq policy (pre ++ a)) (holds_rows.mpr hi)
  obtain rfl := Option.some.inj (hrow.symm.trans hslot)
  have hshown : ∀ j, Holds (after lq policy (a.filter (concerns mac)) : Engine D).map.slots mac j →
      (after lq policy (a.filter (concerns mac)) : Engine D).result j =
        ((scoredTicks lq mac (after lq policy pre) a).getLast?.map ScoredTick.result).getD
          Result.zero ∧
      (after lq policy (pre ++ a)).ledger i =
        (after lq policy (a.filter (concerns mac)) : Engine D).ledger j := by
    intro j hj
    have hwf := wellFormed_after (D := D) lq policy (a.filter (concerns mac))
    have hrow' := cell_member_of_holds hwf (holds_rows.mpr hj)
    rw [freshCell_eq, hfresh] at hrow'
    have hne' : a.filter (concerns mac) ≠ [] := by
      intro hnil
      rw [hnil] at hj
      exact not_member_create policy mac ⟨j, hj⟩
    have hresult' := tenure_result hne' (hclean.fresh_tenure h) hj
    rw [hclean.fresh_ticks h]
    exact ⟨hresult', congrArg Row.ledger (Option.some.inj hrow')⟩
  obtain ⟨j, hj⟩ : Member (after lq policy (a.filter (concerns mac)) : Engine D) mac :=
    member_of_row ((congrArg Cell.member (freshCell_eq lq policy mac a)).trans hfresh)
  cases hlast : (scoredTicks lq mac (after lq policy pre) a).getLast? with
  | none =>
    have hnil := List.getLast?_eq_none_iff.mp hlast
    rw [hlast] at hresult hshown
    rw [or_iff_left (not_not.mpr hnil)]
    constructor
    · intro ⟨k, hk, hsame, _⟩
      exact hresult.symm.trans (hsame.trans (hshown k hk).1)
    · intro hzero
      exact ⟨j, hj, (hresult.trans hzero).trans (hshown j hj).1.symm, (hshown j hj).2⟩
  | some t =>
    have hscored : scoredTicks lq mac (after lq policy pre) a ≠ [] := by
      intro hnil
      rw [hnil] at hlast
      cases hlast
    rw [hlast] at hresult hshown
    refine iff_of_true ⟨j, hj, hresult.trans (hshown j hj).1.symm, (hshown j hj).2⟩ (Or.inr hscored)

/-- A slot whose client was not scored since its admission is blank exactly if the
slot showed the initial result before, which it does as long as nobody was scored in
it; the ledger is always empty. Beyond that a slot shows nothing but its client's own
records, in a tenure that the tracker does not disturb, exactly if it was blank before
or the client was scored since. -/
theorem reused_slot_iff (es : List Event)
    (hi : Holds (after lq policy es : Engine D).map.slots mac i) :
    ∃ pre a, es = pre ++ a ∧ a ≠ [] ∧ Tenure lq policy mac pre a ∧
      (scoredTicks lq mac (after lq policy pre) a = [] →
        (Blank (after lq policy es) i ↔
          (after lq policy pre : Engine D).result i = Result.zero)) ∧
      (0 < policy.videoDegradeBand →
        ((after lq policy pre : Engine D).result i = Result.zero ↔
          NeverScored lq policy i pre)) ∧
      (Undisturbed lq policy mac pre a →
        (ShowsOwn lq policy mac a (after lq policy es) i ↔
          (after lq policy pre : Engine D).result i = Result.zero ∨
            scoredTicks lq mac (after lq policy pre) a ≠ [])) := by
  obtain ⟨pre, a, rfl, hne, h⟩ := exists_tenure lq policy es ⟨i, hi⟩
  exact ⟨pre, a, rfl, hne, h, blank_iff hne h hi, fun hband => result_zero_iff hband pre,
    fun hclean => showsOwn_iff hne h hclean hi⟩

end Runs

/-! ## A slot that changes hands -/

/-- The first slot. -/
def firstSlot : Fin maxClients := ⟨0, by decide⟩

omit [CDouble D] in
/-- Into an empty map a client is admitted at the first slot. -/
theorem stage_vacant {eng : Engine D} (h : ∀ j, (eng.map.slots j).inUse = false) (mac : Mac)
    (rec : ConnMetric.Record) (now : Int) :
    Holds (stageRecord eng mac rec now).map.slots mac firstSlot ∧
      (stageRecord eng mac rec now).snapshot firstSlot = rec := by
  unfold stageRecord
  rw [scan_vacant h mac (show firstSlot.val = 0 from rfl)]
  simp [Holds, inUse, key]

def successor : Mac := Vector.replicate 6 1

/-- A client is scored once, by the tick that reaps it. -/
def vacated : List Event := [.stage roamer ConnMetric.Record.zero 1, .tick 40000]

/-- Another one is admitted a millisecond later. -/
def handover : List Event := vacated ++ [.stage successor ConnMetric.Record.zero 40001]

section Handover

variable (lq : LinkQty D)

theorem vacated_first :
    Holds (after lq wireDefaultPolicy
        [.stage roamer ConnMetric.Record.zero 1] : Engine D).map.slots roamer firstSlot ∧
      (after lq wireDefaultPolicy
        [.stage roamer ConnMetric.Record.zero 1] : Engine D).snapshot firstSlot =
          ConnMetric.Record.zero := by
  have hempty : ∀ j, ((create wireDefaultPolicy : Engine D).map.slots j).inUse = false :=
    fun _ => rfl
  exact stage_vacant hempty roamer ConnMetric.Record.zero 1

theorem vacated_vacant (j : Fin maxClients) :
    ((after lq wireDefaultPolicy vacated : Engine D).map.slots j).inUse = false := by
  have hgone : ¬ Member (after lq wireDefaultPolicy vacated : Engine D) roamer := by
    refine (leaves_iff lq wireDefaultPolicy ⟨firstSlot, (vacated_first lq).1⟩ (.tick 40000)).mpr ?_
    exact ⟨40000, ⟨ConnMetric.Record.zero, 1⟩, rfl, rfl, by decide⟩
  have hmacs : macs vacated = {roamer} := by
    simp [macs, vacated, Event.mac?, List.filterMap_cons]
  by_contra hfull
  have hin : ((after lq wireDefaultPolicy vacated : Engine D).map.slots j).inUse = true :=
    Bool.of_not_eq_false hfull
  have hmem := (within_after lq wireDefaultPolicy vacated).member
    (mem_keys_iff_holds.mpr ⟨j, holds_rows.mpr ⟨hin, rfl⟩⟩)
  rw [hmacs, Finset.mem_singleton] at hmem
  exact hgone ⟨j, hin, hmem⟩

theorem handover_holds :
    Holds (after lq wireDefaultPolicy handover : Engine D).map.slots successor firstSlot :=
  (stage_vacant (vacated_vacant lq) successor ConnMetric.Record.zero 40001).1

theorem handover_tenure : Tenure lq wireDefaultPolicy successor vacated
    [.stage successor ConnMetric.Record.zero 40001] := by
  refine ⟨fun ⟨j, hj⟩ => ?_, fun b hb hne => ?_⟩
  · exact Bool.false_ne_true ((vacated_vacant lq j).symm.trans hj.1)
  · rcases List.prefix_concat_iff.mp
      (show b <+: [] ++ [.stage successor ConnMetric.Record.zero 40001] from hb) with rfl | hb
    · exact ⟨firstSlot, handover_holds lq⟩
    · exact absurd (List.prefix_nil.mp hb) hne

end Handover

theorem reused_slot_iff_handover :
    ∃ pre a, handover = pre ++ a ∧ a ≠ [] ∧
      Tenure (⟨0, 0⟩ : LinkQty ℝ) wireDefaultPolicy successor pre a ∧
      (scoredTicks (⟨0, 0⟩ : LinkQty ℝ) successor (after ⟨0, 0⟩ wireDefaultPolicy pre) a = [] →
        (Blank (after (⟨0, 0⟩ : LinkQty ℝ) wireDefaultPolicy handover) firstSlot ↔
          (after (⟨0, 0⟩ : LinkQty ℝ) wireDefaultPolicy pre).result firstSlot = Result.zero)) := by
  obtain ⟨pre, a, hsplit, hne, h, hblank, _⟩ :=
    reused_slot_iff handover (handover_holds (⟨0, 0⟩ : LinkQty ℝ))
  exact ⟨pre, a, hsplit, hne, h, hblank⟩

/-- The new client was never scored, and its slot shows the result of the one before. -/
theorem leftover_shown :
    Holds (after (⟨0, 0⟩ : LinkQty ℝ) wireDefaultPolicy handover).map.slots successor firstSlot ∧
      Tenure (⟨0, 0⟩ : LinkQty ℝ) wireDefaultPolicy successor vacated
        [.stage successor ConnMetric.Record.zero 40001] ∧
      scoredTicks (⟨0, 0⟩ : LinkQty ℝ) successor (after ⟨0, 0⟩ wireDefaultPolicy vacated)
        [.stage successor ConnMetric.Record.zero 40001] = [] ∧
      (after (⟨0, 0⟩ : LinkQty ℝ) wireDefaultPolicy handover).result firstSlot ≠ Result.zero := by
  have htenure := handover_tenure (⟨0, 0⟩ : LinkQty ℝ)
  have hholds := handover_holds (⟨0, 0⟩ : LinkQty ℝ)
  have hunscored : scoredTicks (⟨0, 0⟩ : LinkQty ℝ) successor
      (after ⟨0, 0⟩ wireDefaultPolicy vacated)
      [.stage successor ConnMetric.Record.zero 40001] = [] := rfl
  refine ⟨hholds, htenure, hunscored, fun hzero => ?_⟩
  have hshown := tenure_result (List.cons_ne_nil _ _) htenure hholds
  rw [hunscored] at hshown
  have hbefore := (result_zero_iff (by decide) vacated).mp (hshown.symm.trans hzero)
  have hidle := hbefore [.stage roamer ConnMetric.Record.zero 1] 40000 (List.prefix_refl _)
  obtain ⟨hfirst, hsnapshot⟩ := vacated_first (⟨0, 0⟩ : LinkQty ℝ)
  have hscored : scorable (after (⟨0, 0⟩ : LinkQty ℝ) wireDefaultPolicy
      [.stage roamer ConnMetric.Record.zero 1]) firstSlot = true := by
    rw [scorable, Bool.and_eq_true]
    exact ⟨hfirst.1, (congrArg ConnMetric.Record.usable hsnapshot).trans rfl⟩
  rw [hscored] at hidle
  cases hidle

end Wei.Infer
