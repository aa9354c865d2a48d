import Mathlib.Data.List.TakeWhile
import Wei.Perfreport.Publish

/-!
# The cadence of one client's reports

A call touches the slot of its own MAC only. Read over a run, the warm-up
counter counts the enabled calls up to its bound and the baseline is the
verdict of the last event that was published, so the gate is a function of the
client's own history; what follows is the edge-triggered contract.
-/
namespace Wei.Perfreport

open Wei.Lib Wei.Lib.SlotTable
open Infer (Result Verdict)
open Track (maxClients)

/-! ## One call, in the slot of its client -/

/-- The gates and the publish, on the slot that was found. -/
def clientStep (s : ClientState) (buf : Option Buffer) (c : Call) : ClientState × Outcome :=
  match shouldEmit c.env.enabled s c.result.verdict with
  | (s, false) => (s, .suppressed)
  | (s, true) =>
    let out := (publish buf c.mac c.result c.metrics c.env).2
    (if out.succeeded then { s with lastEmittedClass := c.result.verdict } else s, out)

/-- The slot a MAC has, or would be admitted to. -/
def cadence (tbl : Fin maxClients → ClientState) (mac : Mac) : ClientState :=
  (lookup tbl mac).getD (ClientState.admitted mac)

theorem cadence_member (tbl : Fin maxClients → ClientState) (mac : Mac) :
    (cadence tbl mac).inUse = true ∧ (cadence tbl mac).mac = mac := by
  unfold cadence
  cases hl : lookup tbl mac with
  | none => exact ⟨rfl, rfl⟩
  | some s => exact key_of_lookup hl

theorem shouldEmit_member (enabled : Bool) (s : ClientState) (v : Verdict) :
    (shouldEmit enabled s v).1.inUse = s.inUse ∧ (shouldEmit enabled s v).1.mac = s.mac := by
  unfold shouldEmit
  split
  · exact ⟨rfl, rfl⟩
  · split
    · exact ⟨rfl, rfl⟩
    · split <;> exact ⟨rfl, rfl⟩

theorem clientStep_member (s : ClientState) (buf : Option Buffer) (c : Call) :
    (clientStep s buf c).1.inUse = s.inUse ∧ (clientStep s buf c).1.mac = s.mac := by
  have h := shouldEmit_member c.env.enabled s c.result.verdict
  unfold clientStep
  split
  · rename_i s' he
    rw [he] at h
    exact h
  · rename_i s' he
    rw [he] at h
    dsimp only
    split
    · exact h
    · exact h

/-- The slot after a call: the gates change the warm-up, a success the baseline. -/
theorem clientStep_state (s : ClientState) (buf : Option Buffer) (c : Call) :
    (clientStep s buf c).1 = if (clientStep s buf c).2.succeeded
      then { (shouldEmit c.env.enabled s c.result.verdict).1 with
        lastEmittedClass := c.result.verdict }
      else (shouldEmit c.env.enabled s c.result.verdict).1 := by
  unfold clientStep
  cases he : shouldEmit c.env.enabled s c.result.verdict with
  | mk s' emit =>
    cases emit with
    | false => rfl
    | true => rfl

/-- What a call does to the table when its client finds or is granted a slot. -/
structure StepSpec (st : State) (c : Call) (r : State × Outcome) : Prop where
  distinct : Distinct r.1.tbl
  self : lookup r.1.tbl c.mac = some (clientStep (cadence st.tbl c.mac) st.buf c).1
  other : ∀ mac, mac ≠ c.mac → lookup r.1.tbl mac = lookup st.tbl mac
  outcome : r.2 = (clientStep (cadence st.tbl c.mac) st.buf c).2
  keys : keys r.1.tbl = insert c.mac (keys st.tbl)

theorem publishTick_found (st : State) (c : Call) {i : Fin maxClients}
    {tbl : Fin maxClients → ClientState} (hf : stateFindOrAdd st.tbl c.mac = (tbl, some i)) :
    ∃ buf, machine.step st c =
      (⟨Function.update tbl i (clientStep (tbl i) st.buf c).1, buf⟩,
        (clientStep (tbl i) st.buf c).2) := by
  change ∃ buf, publishTick st c.mac c.result c.metrics c.env = _
  unfold publishTick clientStep
  rw [hf]
  dsimp only
  cases he : shouldEmit c.env.enabled (tbl i) c.result.verdict with
  | mk s emit =>
    cases emit with
    | false => exact ⟨st.buf, rfl⟩
    | true => exact ⟨(publish st.buf c.mac c.result c.metrics c.env).1, rfl⟩

theorem step_spec {st : State} (hd : Distinct st.tbl) {c : Call}
    (hroom : scan st.tbl c.mac ≠ .full) : StepSpec st c (machine.step st c) := by
  obtain ⟨hu, hk⟩ := cadence_member st.tbl c.mac
  obtain ⟨hu', hk'⟩ := clientStep_member (cadence st.tbl c.mac) st.buf c
  have hput : ∀ i buf, CanPut st.tbl c.mac i → StepSpec st c
      (⟨Function.update st.tbl i (clientStep (cadence st.tbl c.mac) st.buf c).1, buf⟩,
        (clientStep (cadence st.tbl c.mac) st.buf c).2) := by
    intro i buf hc
    have hu'' := hu'.trans hu
    have hk'' := hk'.trans hk
    exact ⟨distinct_put hd hc hu'' hk'', lookup_put_self hd hc hu'' hk'',
      fun mac hne => lookup_put_of_ne hd hc hu'' hk'' hne, rfl, keys_put hc hu'' hk''⟩
  cases hs : scan st.tbl c.mac with
  | hit i =>
    have hf : stateFindOrAdd st.tbl c.mac = (st.tbl, some i) := by rw [stateFindOrAdd, hs]
    have hcad : st.tbl i = cadence st.tbl c.mac := by
      rw [cadence, lookup_of_holds hd (scan_hit hs)]
      rfl
    obtain ⟨buf, hstep⟩ := publishTick_found _ _ hf
    rw [hstep, hcad]
    exact hput i buf (canPut_of_hit hs)
  | free i =>
    have hf : stateFindOrAdd st.tbl c.mac =
        (Function.update st.tbl i (ClientState.admitted c.mac), some i) := by
      rw [stateFindOrAdd, hs]
    have hcad : ClientState.admitted c.mac = cadence st.tbl c.mac := by
      rw [cadence, lookup_of_absent (scan_free hs).2]
      rfl
    obtain ⟨buf, hstep⟩ := publishTick_found _ _ hf
    rw [hstep, Function.update_self, Function.update_idem, hcad]
    exact hput i buf (canPut_of_free hs)
  | full => exact absurd hs hroom

/-- A full table of other clients: the call is skipped and leaves no trace. -/
theorem step_full {st : State} {c : Call} (hfull : scan st.tbl c.mac = .full) :
    machine.step st c = (st, .tableFull) := by
  change publishTick st c.mac c.result c.metrics c.env = _
  rw [publishTick, stateFindOrAdd, hfull]

/-! ## What the gate lets through -/

/-- The gate of a client whose warm-up counter and baseline are known. -/
structure ClientSpec (s : ClientState) (c : Call) (r : ClientState × Outcome) : Prop where
  attempted : r.2.attempted = true ↔ c.env.enabled = true ∧ warmupIntervals ≤ s.warmupTicksSeen ∧
    c.result.verdict ≠ s.lastEmittedClass
  warm : r.1.warmupTicksSeen = if c.env.enabled = true ∧ s.warmupTicksSeen < warmupIntervals
    then s.warmupTicksSeen + 1 else s.warmupTicksSeen
  last : r.1.lastEmittedClass = if r.2.succeeded then c.result.verdict else s.lastEmittedClass
  failed : r.2.attempted = true → r.2.succeeded = false → r.1 = s

theorem publish_attempted (buf : Option Buffer) (c : Call) :
    (publish buf c.mac c.result c.metrics c.env).2.attempted = true := by
  unfold publish
  split
  · rfl
  · split
    · rfl
    · dsimp only
      split <;> rfl

/-- Nothing outside this file refuses the report of the call. -/
structure Accepted (buf : Option Buffer) (c : Call) : Prop where
  handle : c.env.handle = true
  descriptor : c.env.descriptor = true
  publishFn : c.env.publishFn = true
  built : (buildJson c.env.json c.mac c.result c.metrics buf).2.isSome = true
  publishRc : c.env.publishRc = .success

theorem publish_succeeded (buf : Option Buffer) (c : Call) :
    (publish buf c.mac c.result c.metrics c.env).2.succeeded = true ↔ Accepted buf c := by
  unfold publish
  split
  · next hnot =>
    refine iff_of_false Bool.false_ne_true fun h => ?_
    simp [h.handle, h.descriptor, h.publishFn] at hnot
  · next hready =>
    simp only [not_or, Bool.not_eq_false] at hready
    obtain ⟨hhandle, hdescriptor, hfn⟩ := hready
    split
    · next buf' hbuild =>
      refine iff_of_false Bool.false_ne_true fun h => ?_
      have hbuilt := h.built
      rw [hbuild] at hbuilt
      cases hbuilt
    · next buf' doc text hbuild =>
      dsimp only
      split
      · next hrc => exact iff_of_false Bool.false_ne_true fun h => hrc h.publishRc
      · next hrc =>
        exact iff_of_true rfl ⟨hhandle, hdescriptor, hfn, by rw [hbuild]; rfl, not_not.mp hrc⟩

theorem attempted_of_succeeded {out : Outcome} (h : out.succeeded = true) :
    out.attempted = true := by
  cases out <;> first | rfl | cases h

/-- A client's call succeeds if the gates let it through and nothing refuses it. -/
theorem clientStep_succeeded (s : ClientState) (buf : Option Buffer) (c : Call) :
    (clientStep s buf c).2.succeeded = true ↔
      (clientStep s buf c).2.attempted = true ∧ Accepted buf c := by
  unfold clientStep
  split
  · exact iff_of_false Bool.false_ne_true fun h => Bool.false_ne_true h.1
  · dsimp only
    rw [publish_succeeded, publish_attempted]
    exact (and_iff_right rfl).symm

theorem clientStep_spec (s : ClientState) (buf : Option Buffer) (c : Call) :
    ClientSpec s c (clientStep s buf c) := by
  unfold clientStep shouldEmit
  by_cases hen : c.env.enabled = false
  · rw [if_pos hen]
    exact ⟨by simp [Outcome.attempted, hen], by simp [hen], rfl, fun h => by cases h⟩
  have hen' : c.env.enabled = true := by simpa using hen
  rw [if_neg hen]
  by_cases hw : s.warmupTicksSeen < warmupIntervals
  · rw [if_pos hw]
    refine ⟨?_, by simp [hen', hw], rfl, fun h => by cases h⟩
    simp [Outcome.attempted, UInt16.not_le.mpr hw]
  rw [if_neg hw]
  by_cases hv : c.result.verdict = s.lastEmittedClass
  · rw [if_pos hv]
    exact ⟨by simp [Outcome.attempted, hv], by simp [hw], rfl, fun h => by cases h⟩
  rw [if_neg hv]
  have hatt := publish_attempted buf c
  dsimp only
  refine ⟨?_, ?_, ?_, ?_⟩
  · simp [hatt, hen', hv, UInt16.not_lt.mp hw]
  · split <;> simp [hw]
  · split <;> rfl
  · intro _ hs
    rw [hs]
    rfl

/-! ## The history of one client -/

/-- The enabled calls made for `mac`. -/
def enabledCalls (mac : Mac) (calls : List Call) : Nat :=
  calls.countP fun c => decide (c.mac = mac) && c.env.enabled

/-- The verdicts of the events published for `mac`, in order. -/
def publishedVerdicts (mac : Mac) (calls : List Call) : List Verdict :=
  (calls.zip (machine.outputs State.init calls)).filterMap fun x =>
    if x.1.mac = mac ∧ x.2.succeeded = true then some x.1.result.verdict else none

/-- The verdict of the last published event, `smooth` before the first. -/
def lastPublished (mac : Mac) (calls : List Call) : Verdict :=
  (publishedVerdicts mac calls).getLast?.getD .smooth

/-- Strict alternation that begins with a degradation. -/
def alternation (n : Nat) : List Verdict :=
  (List.range n).map fun i => if i % 2 = 0 then .degraded else .smooth

theorem enabledCalls_concat (mac : Mac) (calls : List Call) (c : Call) :
    enabledCalls mac (calls ++ [c]) =
      enabledCalls mac calls + if c.mac = mac ∧ c.env.enabled = true then 1 else 0 := by
  simp [enabledCalls, List.countP_append, List.countP_cons]

theorem publishedVerdicts_concat (mac : Mac) (calls : List Call) (c : Call) :
    publishedVerdicts mac (calls ++ [c]) = publishedVerdicts mac calls ++
      if c.mac = mac ∧ (outcome calls c).succeeded = true then [c.result.verdict] else [] := by
  rw [publishedVerdicts, Mealy.outputs_concat,
    List.zip_append (machine.length_outputs State.init calls).symm, List.filterMap_append,
    ← publishedVerdicts]
  congr 1
  by_cases h : c.mac = mac ∧ (outcome calls c).succeeded = true <;> simp [h]

/-! ## Which clients hold a slot -/

/-- Fewer than `maxClients` MACs came before the first call for `mac`. -/
def Granted (mac : Mac) (calls : List Call) : Prop :=
  (callMacs (calls.takeWhile fun c => decide (c.mac ≠ mac))).card < maxClients

theorem mem_callMacs {mac : Mac} {calls : List Call} :
    mac ∈ callMacs calls ↔ ∃ c ∈ calls, c.mac = mac := by
  simp [callMacs]

theorem callMacs_concat (calls : List Call) (c : Call) :
    callMacs (calls ++ [c]) = insert c.mac (callMacs calls) := by
  ext mac
  simp [callMacs, eq_comm]

theorem granted_of_mem {mac : Mac} {calls : List Call} (h : mac ∈ callMacs calls) (c : Call) :
    Granted mac (calls ++ [c]) ↔ Granted mac calls := by
  obtain ⟨d, hd, hmac⟩ := mem_callMacs.mp h
  have hstop : ∃ d ∈ calls, decide (d.mac ≠ mac) = false := ⟨d, hd, by simp [hmac]⟩
  have htake : (calls ++ [c]).takeWhile (fun c => decide (c.mac ≠ mac)) =
      calls.takeWhile (fun c => decide (c.mac ≠ mac)) := by
    induction calls with
    | nil => cases hd
    | cons a calls ih =>
      rw [List.cons_append, List.takeWhile_cons, List.takeWhile_cons]
      by_cases ha : a.mac = mac
      · simp [ha]
      · have hd' : d ∈ calls := by
          rcases List.mem_cons.mp hd with rfl | hd
          · exact absurd hmac ha
          · exact hd
        rw [ih (mem_callMacs.mpr ⟨d, hd', hmac⟩) hd' ⟨d, hd', by simp [hmac]⟩]
  rw [Granted, htake, ← Granted]

theorem takeWhile_of_absent {mac : Mac} {calls : List Call} (h : mac ∉ callMacs calls) :
    calls.takeWhile (fun c => decide (c.mac ≠ mac)) = calls := by
  rw [List.takeWhile_eq_self_iff]
  intro c hc
  exact decide_eq_true fun he => h (mem_callMacs.mpr ⟨c, hc, he⟩)

theorem granted_of_absent {mac : Mac} {calls : List Call} (h : mac ∉ callMacs calls) :
    Granted mac calls ↔ (callMacs calls).card < maxClients := by
  rw [Granted, takeWhile_of_absent h]

/-- A call does not count against itself. -/
theorem granted_self (calls : List Call) (c : Call) :
    Granted c.mac (calls ++ [c]) ↔ Granted c.mac calls := by
  by_cases hin : c.mac ∈ callMacs calls
  · exact granted_of_mem hin c
  · have htake : (calls ++ [c]).takeWhile (fun d => decide (d.mac ≠ c.mac)) = calls := by
      rw [List.takeWhile_append_of_pos, List.takeWhile_cons]
      · simp
      · intro d hd
        exact decide_eq_true fun he => hin (mem_callMacs.mpr ⟨d, hd, he⟩)
    rw [Granted, htake, Granted, takeWhile_of_absent hin]

/-- The table admits the first MACs it is called for and releases none. -/
structure Slots (calls : List Call) (st : State) : Prop where
  distinct : Distinct st.tbl
  subset : keys st.tbl ⊆ callMacs calls
  filled : keys st.tbl = callMacs calls ∨ (keys st.tbl).card = maxClients
  granted : ∀ mac ∈ callMacs calls, mac ∈ keys st.tbl ↔ Granted mac calls

theorem Slots.room_iff {calls : List Call} {st : State} (h : Slots calls st) (mac : Mac) :
    scan st.tbl mac ≠ .full ↔ Granted mac calls := by
  have hle := card_keys_le h.distinct
  rw [Ne, scan_full_iff h.distinct, not_and_or, not_not]
  by_cases hm : mac ∈ callMacs calls
  · rw [← h.granted mac hm]
    refine or_iff_left_of_imp fun hne => ?_
    rcases h.filled with heq | hfull
    · rw [heq]
      exact hm
    · exact absurd hfull hne
  · have hnot : mac ∉ keys st.tbl := fun hk => hm (h.subset hk)
    rw [granted_of_absent hm]
    rcases h.filled with heq | hfull
    · rw [heq] at hle hnot ⊢
      simp only [hnot, false_or]
      omega
    · have hsub := Finset.card_le_card h.subset
      simp only [hnot, false_or]
      omega

theorem slots_init : Slots [] State.init := by
  have hkeys : keys State.init.tbl = ∅ := by
    ext mac
    simp [mem_keys_iff_holds, Holds, State.init, ClientState.zero, inUse]
  refine ⟨?_, by simp [hkeys], Or.inl (by simp [hkeys, callMacs]), by simp [callMacs]⟩
  intro mac i j hi
  exact absurd hi.1 (by simp [State.init, ClientState.zero, inUse])

theorem slots_step {calls : List Call} {st : State} (h : Slots calls st) (c : Call) :
    Slots (calls ++ [c]) (machine.step st c).1 := by
  by_cases hroom : scan st.tbl c.mac = .full
  · have hng : ¬ Granted c.mac calls := by
      rw [← h.room_iff, not_not]
      exact hroom
    obtain ⟨hnot, hfull⟩ := (scan_full_iff h.distinct).mp hroom
    rw [step_full hroom]
    refine ⟨h.distinct, ?_, Or.inr hfull, ?_⟩
    · rw [callMacs_concat]
      exact h.subset.trans (Finset.subset_insert _ _)
    intro mac hm
    rw [callMacs_concat] at hm
    by_cases hin : mac ∈ callMacs calls
    · rw [granted_of_mem hin]
      exact h.granted mac hin
    · obtain rfl : mac = c.mac := by
        rw [Finset.mem_insert] at hm
        exact hm.resolve_right hin
      rw [granted_self]
      exact iff_of_false hnot hng
  · have hg : Granted c.mac calls := (h.room_iff c.mac).mp hroom
    have hs := step_spec h.distinct hroom
    refine ⟨hs.distinct, ?_, ?_, ?_⟩
    · rw [hs.keys, callMacs_concat]
      exact Finset.insert_subset_insert _ h.subset
    · rw [hs.keys, callMacs_concat]
      rcases h.filled with heq | hfull
      · exact Or.inl (by rw [heq])
      · right
        have hin : c.mac ∈ keys st.tbl := by
          by_contra hnot
          exact hroom ((scan_full_iff h.distinct).mpr ⟨hnot, hfull⟩)
        rw [Finset.insert_eq_of_mem hin]
        exact hfull
    · intro mac hm
      rw [hs.keys]
      rw [callMacs_concat, Finset.mem_insert] at hm
      by_cases hin : mac ∈ callMacs calls
      · rw [granted_of_mem hin, Finset.mem_insert, ← h.granted mac hin]
        refine or_iff_right_of_imp ?_
        rintro rfl
        exact (h.granted _ hin).mpr hg
      · obtain rfl : mac = c.mac := hm.resolve_right hin
        rw [granted_self]
        exact iff_of_true (Finset.mem_insert_self _ _) hg

theorem slots_after (calls : List Call) : Slots calls (after calls) :=
  machine.final_history slots_init (fun _ c _ h => slots_step h c) calls

theorem room_of_call {calls : List Call} {c : Call} (hg : Granted c.mac calls) :
    scan (after calls).tbl c.mac ≠ .full := (slots_after calls).room_iff c.mac |>.mpr hg

theorem after_concat (calls : List Call) (c : Call) :
    after (calls ++ [c]) = (machine.step (after calls) c).1 := machine.final_concat _ _ _

/-- A call leaves the slots of other clients alone, whether it is served or skipped. -/
theorem lookup_other (calls : List Call) {c : Call} {mac : Mac} (hne : mac ≠ c.mac) :
    lookup (after (calls ++ [c])).tbl mac = lookup (after calls).tbl mac := by
  rw [after_concat]
  by_cases hroom : scan (after calls).tbl c.mac = .full
  · rw [step_full hroom]
  · exact (step_spec (slots_after calls).distinct hroom).other mac hne

/-! ## What a slot records of the history -/

theorem alternation_succ (n : Nat) :
    alternation (n + 1) = alternation n ++ [if n % 2 = 0 then .degraded else .smooth] := by
  rw [alternation, List.range_succ, List.map_append]
  rfl

theorem alternation_last (n : Nat) :
    (alternation n).getLast?.getD .smooth = if n % 2 = 0 then .smooth else .degraded := by
  cases n with
  | zero => rfl
  | succ n =>
    rw [alternation_succ, List.getLast?_concat, Option.getD_some]
    by_cases h : n % 2 = 0
    · rw [if_pos h, if_neg (by omega)]
    · rw [if_neg h, if_pos (by omega)]

structure ClientHistory (mac : Mac) (calls : List Call) (s : ClientState) : Prop where
  warm : s.warmupTicksSeen.toNat = min 3 (enabledCalls mac calls)
  last : s.lastEmittedClass = lastPublished mac calls
  alternates : publishedVerdicts mac calls = alternation (publishedVerdicts mac calls).length

/-- One served call of the client itself. -/
theorem clientHistory_step {calls : List Call} {c : Call} {s : ClientState}
    (h : ClientHistory c.mac calls s) {r : ClientState × Outcome} (hs : ClientSpec s c r)
    (hout : outcome calls c = r.2) : ClientHistory c.mac (calls ++ [c]) r.1 := by
  have hpub := publishedVerdicts_concat c.mac calls c
  rw [hout] at hpub
  refine ⟨?_, ?_, ?_⟩
  · rw [hs.warm, enabledCalls_concat]
    have hwarm := h.warm
    by_cases hen : c.env.enabled = true
    · by_cases hw : s.warmupTicksSeen < warmupIntervals
      · have hlt : s.warmupTicksSeen.toNat < 3 := by
          simpa [UInt16.lt_iff_toNat_lt, warmupIntervals] using hw
        have hone : (1 : UInt16).toNat = 1 := rfl
        rw [if_pos ⟨hen, hw⟩, if_pos ⟨rfl, hen⟩, UInt16.toNat_add, hone,
          Nat.mod_eq_of_lt (by omega)]
        omega
      · have hge : ¬ s.warmupTicksSeen.toNat < 3 := by
          simpa [UInt16.lt_iff_toNat_lt, warmupIntervals] using hw
        rw [if_neg (fun hn => hw hn.2), if_pos ⟨rfl, hen⟩]
        omega
    · rw [if_neg (fun hn => hen hn.1), if_neg (fun hn => hen hn.2), Nat.add_zero]
      exact hwarm
  · rw [hs.last, lastPublished, hpub]
    by_cases hsucc : r.2.succeeded = true
    · rw [if_pos hsucc, if_pos ⟨rfl, hsucc⟩, List.getLast?_concat, Option.getD_some]
    · rw [if_neg hsucc, if_neg (fun hn => hsucc hn.2), List.append_nil, h.last, lastPublished]
  · rw [hpub]
    by_cases hsucc : r.2.succeeded = true
    · obtain ⟨_, _, hne⟩ := hs.attempted.mp (attempted_of_succeeded hsucc)
      rw [h.last, lastPublished, h.alternates, alternation_last] at hne
      rw [if_pos ⟨rfl, hsucc⟩, List.length_append, List.length_singleton, alternation_succ,
        ← h.alternates]
      congr 1
      by_cases hpar : (publishedVerdicts c.mac calls).length % 2 = 0
      · rw [if_pos hpar] at hne ⊢
        cases hv : c.result.verdict with
        | smooth => exact absurd hv hne
        | degraded => rfl
      · rw [if_neg hpar] at hne ⊢
        cases hv : c.result.verdict with
        | smooth => rfl
        | degraded => exact absurd hv hne
    · rw [if_neg (fun hn => hsucc hn.2), List.append_nil]
      exact h.alternates

theorem clientHistory (mac : Mac) (calls : List Call)
    (hg : mac ∈ callMacs calls → Granted mac calls) :
    ClientHistory mac calls (cadence (after calls).tbl mac) := by
  induction calls using List.reverseRecOn with
  | nil =>
    have hnone : lookup State.init.tbl mac = none :=
      lookup_of_absent fun i hi => absurd hi.1 (by simp [State.init, ClientState.zero, inUse])
    have hcad : cadence (after []).tbl mac = ClientState.admitted mac := by
      rw [cadence, after, Mealy.final_nil, hnone]
      rfl
    rw [hcad]
    exact ⟨rfl, rfl, rfl⟩
  | append_singleton calls c ih =>
    have hprev : mac ∈ callMacs calls → Granted mac calls := by
      intro hin
      refine (granted_of_mem hin c).mp (hg ?_)
      rw [callMacs_concat]
      exact Finset.mem_insert_of_mem hin
    by_cases hm : mac = c.mac
    · subst hm
      have hroom := room_of_call ((granted_self calls c).mp
        (hg (by rw [callMacs_concat]; exact Finset.mem_insert_self _ _)))
      have hspec := step_spec (slots_after calls).distinct hroom
      have hcad : cadence (after (calls ++ [c])).tbl c.mac =
          (clientStep (cadence (after calls).tbl c.mac) (after calls).buf c).1 := by
        rw [cadence, after_concat, hspec.self, Option.getD_some]
      rw [hcad]
      exact clientHistory_step (ih hprev) (clientStep_spec _ _ c) hspec.outcome
    · have h := ih hprev
      have hpub : publishedVerdicts mac (calls ++ [c]) = publishedVerdicts mac calls := by
        rw [publishedVerdicts_concat, if_neg (fun hn => hm hn.1.symm), List.append_nil]
      have hen : enabledCalls mac (calls ++ [c]) = enabledCalls mac calls := by
        rw [enabledCalls_concat, if_neg (fun hn => hm hn.1.symm), Nat.add_zero]
      have hcad : cadence (after (calls ++ [c])).tbl mac = cadence (after calls).tbl mac := by
        rw [cadence, lookup_other calls hm, cadence]
      rw [hcad]
      exact ⟨by rw [hen]; exact h.warm, by rw [lastPublished, hpub]; exact h.last,
        by rw [hpub]; exact h.alternates⟩

/-! ## The contract of every call -/

/-- The gate of a served call, in terms of its client's history. -/
theorem attempted_iff {calls : List Call} {c : Call} (hg : Granted c.mac calls) :
    (outcome calls c).attempted = true ↔ c.env.enabled = true ∧ 3 ≤ enabledCalls c.mac calls ∧
      c.result.verdict ≠ lastPublished c.mac calls := by
  have hroom := room_of_call hg
  have hspec := step_spec (slots_after calls).distinct hroom
  have hhist := clientHistory c.mac calls fun _ => hg
  have hle : warmupIntervals ≤ (cadence (after calls).tbl c.mac).warmupTicksSeen ↔
      3 ≤ enabledCalls c.mac calls := by
    have hwarm := hhist.warm
    rw [UInt16.le_iff_toNat_le]
    change 3 ≤ _ ↔ _
    omega
  rw [show outcome calls c = _ from hspec.outcome, (clientStep_spec _ _ c).attempted, hle,
    hhist.last]

/-- A call succeeds exactly if it attempts and nothing outside refuses its report. -/
theorem succeeded_iff (calls : List Call) (c : Call) :
    (outcome calls c).succeeded = true ↔
      (outcome calls c).attempted = true ∧ Accepted (after calls).buf c := by
  by_cases hroom : scan (after calls).tbl c.mac = .full
  · rw [outcome, step_full hroom]
    exact iff_of_false Bool.false_ne_true fun h => Bool.false_ne_true h.1
  · rw [outcome, (step_spec (slots_after calls).distinct hroom).outcome]
    exact clientStep_succeeded _ _ c

theorem fired_attempted {out : Outcome} (h : out.fired ≠ []) : out.attempted = true := by
  cases out <;> first | rfl | exact absurd rfl h

theorem fired_length (out : Outcome) : out.fired.length ≤ 1 := by
  cases out <;> simp [Outcome.fired]

/-- What a call that attempts has passed, whether its client was granted a slot or not. -/
theorem attempted_gate {calls : List Call} {c : Call} (h : (outcome calls c).attempted = true) :
    c.env.enabled = true ∧ 3 ≤ enabledCalls c.mac calls ∧
      c.result.verdict ≠ lastPublished c.mac calls := by
  by_cases hroom : scan (after calls).tbl c.mac = .full
  · rw [outcome, step_full hroom] at h
    cases h
  · exact (attempted_iff (((slots_after calls).room_iff c.mac).mp hroom)).mp h

/-- Nothing is published for a client in its first three enabled calls. -/
theorem publishedVerdicts_warming {mac : Mac} {calls : List Call}
    (h : enabledCalls mac calls ≤ 3) : publishedVerdicts mac calls = [] := by
  induction calls using List.reverseRecOn with
  | nil => rfl
  | append_singleton calls c ih =>
    rw [enabledCalls_concat] at h
    rw [publishedVerdicts_concat, ih (by omega), if_neg, List.append_nil]
    intro hpublished
    obtain ⟨rfl, hsucceeded⟩ := hpublished
    obtain ⟨henabled, hwarm, _⟩ := attempted_gate (attempted_of_succeeded hsucceeded)
    rw [if_pos ⟨rfl, henabled⟩] at h
    omega

/-- A failed attempt leaves the whole table as it was. -/
theorem failed_tbl {st : State} {c : Call} (hroom : scan st.tbl c.mac ≠ .full)
    (ha : (machine.step st c).2.attempted = true) (hf : (machine.step st c).2.succeeded = false) :
    (machine.step st c).1.tbl = st.tbl := by
  cases hs : scan st.tbl c.mac with
  | full => exact absurd hs hroom
  | hit i =>
    obtain ⟨buf, hstep⟩ := publishTick_found st c (i := i)
      (show stateFindOrAdd st.tbl c.mac = (st.tbl, some i) by rw [stateFindOrAdd, hs])
    rw [hstep] at ha hf ⊢
    rw [(clientStep_spec _ _ c).failed ha hf, Function.update_eq_self]
  | free i =>
    obtain ⟨buf, hstep⟩ := publishTick_found st c (i := i)
      (by rw [stateFindOrAdd, hs])
    rw [hstep, Function.update_self] at ha
    have hwarm : warmupIntervals ≤ 0 := ((clientStep_spec _ _ c).attempted.mp ha).2.1
    exact absurd hwarm (by decide)

theorem granted_append {mac : Mac} {calls : List Call} (h : mac ∈ callMacs calls)
    (more : List Call) : Granted mac (calls ++ more) ↔ Granted mac calls := by
  induction more using List.reverseRecOn with
  | nil => rw [List.append_nil]
  | append_singleton more c ih =>
    rw [← List.append_assoc, granted_of_mem, ih]
    obtain ⟨d, hd, hmac⟩ := mem_callMacs.mp h
    exact mem_callMacs.mpr ⟨d, List.mem_append_left _ hd, hmac⟩

theorem granted_of_few {calls : List Call} (hfew : (callMacs calls).card ≤ maxClients) {mac : Mac}
    (hm : mac ∈ callMacs calls) : Granted mac calls := by
  have hsub : callMacs (calls.takeWhile fun c => decide (c.mac ≠ mac)) ⊆
      (callMacs calls).erase mac := by
    intro x hx
    obtain ⟨d, hd, hmac⟩ := mem_callMacs.mp hx
    refine Finset.mem_erase.mpr ⟨?_, mem_callMacs.mpr ⟨d, List.takeWhile_subset _ hd, hmac⟩⟩
    rintro rfl
    have hne := List.mem_takeWhile_imp hd
    exact of_decide_eq_true hne hmac
  have hle := Finset.card_le_card hsub
  rw [Finset.card_erase_of_mem hm] at hle
  have hpos := Finset.card_pos.mpr ⟨mac, hm⟩
  rw [Granted]
  omega

/-- What holds of the call `c` made after `pre` and before `post`. -/
structure EdgeTriggered (pre : List Call) (c : Call) (post : List Call) : Prop where
  /-- Nothing is fired while disabled or during the warm-up of three enabled calls. -/
  gated : (outcome pre c).fired ≠ [] → c.env.enabled = true ∧ 3 ≤ enabledCalls c.mac pre
  /-- Only enabled calls count for the warm-up, and nothing else holds an edge back. -/
  attempts : (outcome pre c).attempted = true ↔ c.env.enabled = true ∧
    3 ≤ enabledCalls c.mac pre ∧ c.result.verdict ≠ lastPublished c.mac pre
  /-- An attempt fails only where the bus, the heap or the publish refuses it. -/
  succeeds : (outcome pre c).succeeded = true ↔
    (outcome pre c).attempted = true ∧ Accepted (after pre).buf c
  /-- Past the warm-up the bus knows the verdict, unless an attempt failed. -/
  settled : c.env.enabled = true → 3 ≤ enabledCalls c.mac pre →
    ((outcome pre c).attempted = true → (outcome pre c).succeeded = true) →
    lastPublished c.mac (pre ++ [c]) = c.result.verdict
  unchanged : (outcome pre c).attempted = true → (outcome pre c).succeeded = false →
    (after (pre ++ [c])).tbl = (after pre).tbl
  /-- The client's next call with the same verdict attempts again. -/
  retried : (outcome pre c).attempted = true → (outcome pre c).succeeded = false →
    ∀ mid d rest, post = mid ++ d :: rest → (∀ e ∈ mid, e.mac ≠ c.mac) → d.mac = c.mac →
      d.env.enabled = true → d.result.verdict = c.result.verdict →
      (outcome (pre ++ c :: mid) d).attempted = true
  single : (outcome pre c).fired.length ≤ 1
  isolated : ∀ mac, mac ≠ c.mac →
    lookup (after (pre ++ [c])).tbl mac = lookup (after pre).tbl mac

theorem history_others {mac : Mac} (calls : List Call) {mid : List Call}
    (hmid : ∀ e ∈ mid, e.mac ≠ mac) :
    enabledCalls mac (calls ++ mid) = enabledCalls mac calls ∧
      lastPublished mac (calls ++ mid) = lastPublished mac calls := by
  induction mid using List.reverseRecOn with
  | nil => simp
  | append_singleton mid e ih =>
    obtain ⟨hen, hlast⟩ := ih fun e he => hmid e (List.mem_append_left _ he)
    have hne : e.mac ≠ mac := hmid e (by simp)
    rw [← List.append_assoc]
    constructor
    · rw [enabledCalls_concat, if_neg (fun hn => hne hn.1), Nat.add_zero, hen]
    · rw [lastPublished, publishedVerdicts_concat, if_neg (fun hn => hne hn.1), List.append_nil,
        ← lastPublished, hlast]

theorem edge_of_granted {pre : List Call} {c : Call} (hg : Granted c.mac pre)
    (post : List Call) : EdgeTriggered pre c post where
  gated := fun hf =>
    have h := (attempted_iff hg).mp (fired_attempted hf)
    ⟨h.1, h.2.1⟩
  attempts := attempted_iff hg
  succeeds := succeeded_iff pre c
  settled := by
    intro hen hwarm hok
    rw [lastPublished, publishedVerdicts_concat]
    by_cases hv : c.result.verdict = lastPublished c.mac pre
    · have hno : (outcome pre c).succeeded ≠ true := by
        intro hs
        exact ((attempted_iff hg).mp (attempted_of_succeeded hs)).2.2 hv
      rw [if_neg (fun hn => hno hn.2), List.append_nil, hv, lastPublished]
    · rw [if_pos ⟨rfl, hok ((attempted_iff hg).mpr ⟨hen, hwarm, hv⟩)⟩, List.getLast?_concat,
        Option.getD_some]
  unchanged := by
    intro ha hf
    rw [after_concat]
    exact failed_tbl (room_of_call hg) ha hf
  retried := by
    intro ha hf mid d rest _ hmid hmac hen hv
    obtain ⟨_, hwarm, hne⟩ := (attempted_iff hg).mp ha
    have hin : c.mac ∈ callMacs (pre ++ [c]) := mem_callMacs.mpr ⟨c, by simp, rfl⟩
    have hsplit : pre ++ c :: mid = (pre ++ [c]) ++ mid := by simp
    have hg' : Granted d.mac (pre ++ c :: mid) := by
      rw [hmac, hsplit, granted_append hin, granted_self]
      exact hg
    obtain ⟨hcount, hlast⟩ := history_others (pre ++ [c]) hmid
    refine (attempted_iff hg').mpr ⟨hen, ?_, ?_⟩
    · rw [hmac, hsplit, hcount, enabledCalls_concat]
      omega
    · rw [hv, hmac, hsplit, hlast, lastPublished, publishedVerdicts_concat,
        if_neg (fun hn => by rw [hf] at hn; cases hn.2), List.append_nil]
      exact hne
  single := fired_length _
  isolated := fun _ hne => lookup_other pre hne

/-- Every call of a run over few clients is edge triggered, and the verdicts
published for a client alternate. -/
theorem edge_triggered_reporting (calls : List Call)
    (hfew : (callMacs calls).card ≤ maxClients) :
    (∀ pre c post, calls = pre ++ c :: post → EdgeTriggered pre c post) ∧
    ∀ mac, publishedVerdicts mac calls = alternation (publishedVerdicts mac calls).length := by
  have hsub : ∀ a b : List Call, callMacs a ⊆ callMacs (a ++ b) := by
    intro a b x hx
    obtain ⟨d, hd, hmac⟩ := mem_callMacs.mp hx
    exact mem_callMacs.mpr ⟨d, List.mem_append_left _ hd, hmac⟩
  constructor
  · intro pre c post hcalls
    apply edge_of_granted
    rw [← granted_self]
    refine granted_of_few ((Finset.card_le_card ?_).trans hfew) (mem_callMacs.mpr ⟨c, by simp, rfl⟩)
    rw [hcalls, show pre ++ c :: post = (pre ++ [c]) ++ post by simp]
    exact hsub _ _
  · intro mac
    exact (clientHistory mac calls fun hin => granted_of_few hfew hin).alternates

/-- An enabled call for a degraded client, on a bus and a heap that work. -/
def degradedCall : Call where
  mac := Vector.replicate 6 1
  result := ⟨20, .degraded, .snr, false, 0⟩
  metrics := ConnMetric.Record.zero
  env := ⟨true, true, true, true,
    ⟨true, fun _ => true, "", fun _ => true, fun _ _ => some "report"⟩, .success⟩

theorem degraded_accepted (buf : Option Buffer) {c : Call} (h : c.env = degradedCall.env) :
    Accepted buf c := by
  have hbuilt : (buildJson degradedCall.env.json c.mac c.result c.metrics buf).2.isSome = true := by
    cases buf with
    | none => simp [buildJson, jsonSerialize, jsonSerializeLoop, degradedCall]
    | some b => simp [buildJson, jsonSerialize, jsonSerializeLoop, degradedCall]
  constructor <;> rw [h]
  · rfl
  · rfl
  · rfl
  · exact hbuilt
  · rfl

/-- The fourth call for a client is past the warm-up and fires an event if it shows the
client degraded: nothing was published before. -/
theorem fourth_published {mac : Mac} {calls : List Call}
    (hcalls : ∀ c ∈ calls, c.mac = mac ∧ c.env = degradedCall.env) (hthree : calls.length = 3)
    {c : Call} (hmac : c.mac = mac) (henv : c.env = degradedCall.env)
    (hdegraded : c.result.verdict = .degraded) : ∃ event, outcome calls c = .published event := by
  subst hmac
  have hcount : enabledCalls c.mac calls = 3 := by
    rw [enabledCalls, List.countP_eq_length.mpr, hthree]
    intro d hd
    obtain ⟨hsame, hgate⟩ := hcalls d hd
    simp [hsame, hgate, degradedCall]
  have hgranted : Granted c.mac calls := by
    have hnone : calls.takeWhile (fun d => decide (d.mac ≠ c.mac)) = [] := by
      rw [List.takeWhile_eq_nil_iff]
      intro hpos hother
      exact of_decide_eq_true hother (hcalls _ (List.getElem_mem hpos)).1
    rw [Granted, hnone]
    decide
  have hlast : lastPublished c.mac calls = .smooth := by
    rw [lastPublished, publishedVerdicts_warming (Nat.le_of_eq hcount)]
    rfl
  have hattempted := (attempted_iff hgranted).mpr
    ⟨by rw [henv]; rfl, hcount.ge, by rw [hlast, hdegraded]; decide⟩
  have hsucceeded := (succeeded_iff calls c).mpr ⟨hattempted, degraded_accepted _ henv⟩
  cases hout : outcome calls c with
  | published event => exact ⟨event, rfl⟩
  | _ => rw [hout] at hsucceeded; cases hsucceeded

theorem edge_triggered_reporting_degraded :
    EdgeTriggered (List.replicate 3 degradedCall) degradedCall [] :=
  (edge_triggered_reporting (List.replicate 3 degradedCall ++ [degradedCall]) (by decide)).1
    _ _ _ rfl

end Wei.Perfreport
