import Wei.Daemon
import Wei.Infer.VerdictExact

/-!
# Clients do not interfere

Two runs that look alike to one client, that is, with the same ticks and the
same records staged for it, whatever the other stations do. As long as few MACs
occur, the client's cell and its cadence slot are equal in both runs at every
point, and so is what is emitted and published for it.
-/
namespace Wei.Daemon

open Wei.Lib Wei.Lib.SlotTable Wei.ConnScorer
open Infer (Engine Policy Scored Emission cell emissionOf)
open Perfreport (Call Outcome Doc clientStep cadence)
open Track (maxClients)

variable {D : Type} [CDouble D]

/-! ## Serving the calls of one tick -/

/-- What a list of calls does for `mac`: at most one of them is its own. -/
inductive Serves (mac : Mac) (st st' : Perfreport.State) :
    Option Call → List (Call × Outcome) → Prop
  | idle (h : lookup st'.tbl mac = lookup st.tbl mac) : Serves mac st st' none []
  | served (c : Call) (buf : Option Perfreport.Buffer)
      (h : lookup st'.tbl mac = some (clientStep (cadence st.tbl mac) buf c).1) :
      Serves mac st st' (some c) [(c, (clientStep (cadence st.tbl mac) buf c).2)]

/-- The calls made for `mac` among those of an event, with what they led to. -/
def ownCalls (mac : Mac) (out : List (Call × Outcome)) : List (Call × Outcome) :=
  out.filter fun x => decide (x.1.mac = mac)

theorem serves {S : Finset Mac} (hS : S.card ≤ maxClients) (mac : Mac) (calls : List Call)
    (hnd : (calls.map Call.mac).Nodup) (hin : ∀ c ∈ calls, c.mac ∈ S) (st : Perfreport.State)
    (hd : Distinct st.tbl) (hk : keys st.tbl ⊆ S) :
    Serves mac st (Perfreport.machine.final st calls)
      (calls.find? fun c => decide (c.mac = mac))
      (ownCalls mac (calls.zip (Perfreport.machine.outputs st calls))) := by
  induction calls generalizing st with
  | nil => exact .idle rfl
  | cons c calls ih =>
    have hmem : c.mac ∈ S := hin c (by simp)
    have hspec := Perfreport.step_spec hd (c := c) (scan_ne_full hd hk hS hmem)
    rw [List.map_cons, List.nodup_cons] at hnd
    have hrest := ih hnd.2 (fun d hd' => hin d (by simp [hd'])) (Perfreport.machine.step st c).1
      hspec.distinct (by rw [hspec.keys]; exact Finset.insert_subset hmem hk)
    rw [Mealy.final_cons, Mealy.outputs, List.zip_cons_cons, ownCalls]
    by_cases hm : c.mac = mac
    · subst hm
      have hnone : calls.find? (fun d => decide (d.mac = c.mac)) = none := by
        rw [List.find?_eq_none]
        intro d hd' he
        exact hnd.1 (of_decide_eq_true he ▸ List.mem_map.mpr ⟨d, hd', rfl⟩)
      rw [hnone] at hrest
      rw [List.find?_cons_of_pos (by simp), List.filter_cons_of_pos (by simp), ← ownCalls,
        hspec.outcome]
      generalize ownCalls c.mac _ = rest at hrest ⊢
      cases hrest with
      | idle h => exact .served c st.buf (h.trans hspec.self)
    · have hcad : cadence (Perfreport.machine.step st c).1.tbl mac = cadence st.tbl mac := by
        rw [cadence, hspec.other mac (Ne.symm hm), cadence]
      rw [List.find?_cons_of_neg (by simpa using hm), List.filter_cons_of_neg (by simpa using hm),
        ← ownCalls]
      generalize ownCalls mac _ = rest at hrest ⊢
      generalize calls.find? _ = found at hrest ⊢
      cases hrest with
      | idle h => exact .idle (h.trans (hspec.other mac (Ne.symm hm)))
      | served d buf h =>
        rw [hcad] at h ⊢
        exact .served d buf h

/-- The call a tick makes for `mac`, read off its emission. -/
theorem find_callOf (mac : Mac) (env : Mac → Perfreport.Env) (out : List Scored) :
    (out.map (callOf env)).find? (fun c => decide (c.mac = mac)) =
      (emissionOf mac out).map fun em => ⟨mac, em.result, em.metrics, env mac⟩ := by
  rw [List.find?_map, emissionOf, Option.map_map]
  change (Infer.callFor mac out).map (callOf env) = _
  cases hc : Infer.callFor mac out with
  | none => rfl
  | some s =>
    have hmac : s.mac = mac := by simpa using List.find?_some hc
    simp [callOf, Infer.Scored.emission, hmac]

section Runs

variable (lq : LinkQty D) (policy : Policy)

/-- The calls for `mac` at the event that follows `pre`. -/
def ownCallsAt (mac : Mac) (pre : List Event) (e : Event) : List (Call × Outcome) :=
  ownCalls mac ((machine lq).step (after lq policy pre : World D) e).2

theorem serves_tick (mac : Mac) {es : List Event} (now : Int) (env : Mac → Perfreport.Env)
    (hfew : (Infer.macs (es.map Event.infer)).card ≤ maxClients) :
    Serves mac (after lq policy es : World D).report
      (after lq policy (es ++ [.tick now env]) : World D).report
      ((emissionOf mac (Infer.tick lq (after lq policy es : World D).engine now).2).map fun em =>
        ⟨mac, em.result, em.metrics, env mac⟩)
      (ownCallsAt (D := D) lq policy mac es (.tick now env)) := by
  have hslots := Perfreport.slots_after (publishCalls lq policy es)
  have hwf := Infer.wellFormed_after (D := D) lq policy (es.map Event.infer)
  rw [after_concat, step_report, ownCallsAt, step_calls, ← find_callOf]
  refine serves hfew mac _ ?_ ?_ _ ?_ ?_
  · rw [callsOf, List.map_map, engine_after]
    exact Infer.tick_calls_nodup lq now hwf
  · intro c hc
    obtain ⟨s, hs, rfl⟩ := List.mem_map.mp hc
    rw [engine_after] at hs
    exact Infer.scoredAt_subset_macs lq policy _ now (Infer.mem_scoredAt.mpr ⟨s, hs, rfl⟩)
  · rw [report_after]
    exact hslots.distinct
  · rw [report_after]
    exact hslots.subset.trans (callMacs_subset lq policy es)

end Runs

/-! ## The content of a report -/

/-- A document apart from its stamp. -/
def content (doc : Doc) : Doc := doc.filter fun x => decide (x.1 ≠ "report_time")

/-- The document of the event that was published. -/
def publishedDoc : Outcome → Option Doc
  | .published event => some event.doc
  | _ => none

/-- The same attempt at a publish: it succeeds or fails alike, with the same
members added to the document. -/
def SameOutcome (x y : Call × Outcome) : Prop :=
  x.2.attempted = true → y.2.attempted = true → x.2.succeeded = y.2.succeeded ∧
    ∀ name, name ≠ "report_time" → x.1.env.json.addMember name = y.1.env.json.addMember name

theorem content_members (env env' : Perfreport.JsonEnv) (mac : Mac) (result : Infer.Result)
    (metrics : ConnMetric.Record) : content (Perfreport.members env mac result metrics) =
      content (Perfreport.members env' mac result metrics) := by
  simp [content, Perfreport.members]

/-- The published document is what was added of the members. -/
theorem publishedDoc_publish {buf : Option Perfreport.Buffer} {c : Call} {doc : Doc}
    (h : publishedDoc (Perfreport.publish buf c.mac c.result c.metrics c.env).2 = some doc) :
    doc = (Perfreport.members c.env.json c.mac c.result c.metrics).filter
      fun x => c.env.json.addMember x.1 := by
  unfold Perfreport.publish at h
  split at h
  · cases h
  · split at h
    · cases h
    · rename_i buf' doc' text hb
      have hdoc : doc' = (Perfreport.members c.env.json c.mac c.result c.metrics).filter
          fun x => c.env.json.addMember x.1 := by
        unfold Perfreport.buildJson at hb
        split at hb
        · cases hb
        · obtain ⟨-, hb⟩ := Prod.mk.inj hb
          obtain ⟨t, -, ht⟩ := Option.map_eq_some_iff.mp hb
          rw [← (Prod.mk.inj ht).1, Perfreport.foldl_addToObject, List.nil_append]
      dsimp only at h
      split at h
      · cases h
      · rw [← Option.some.inj h]
        exact hdoc

theorem publishedDoc_isSome (out : Outcome) : (publishedDoc out).isSome = out.succeeded := by
  cases out <;> rfl

theorem clientStep_attempted {s : Perfreport.ClientState} {buf : Option Perfreport.Buffer}
    {c : Call} (h : (clientStep s buf c).2.attempted = true) :
    (clientStep s buf c).2 = (Perfreport.publish buf c.mac c.result c.metrics c.env).2 := by
  unfold clientStep at h ⊢
  split
  · rename_i hs
    rw [hs] at h
    cases h
  · rfl

/-- Two calls that differ in their environment only, with the same outcome. -/
structure Alike (s : Perfreport.ClientState) (buf buf' : Option Perfreport.Buffer)
    (c c' : Call) : Prop where
  state : (clientStep s buf c).1 = (clientStep s buf' c').1
  docs : (publishedDoc (clientStep s buf c).2).map content =
    (publishedDoc (clientStep s buf' c').2).map content

theorem alike {s : Perfreport.ClientState} {buf buf' : Option Perfreport.Buffer} (c c' : Call)
    (hmac : c.mac = c'.mac) (hresult : c.result = c'.result) (hmetrics : c.metrics = c'.metrics)
    (hen : c.env.enabled = c'.env.enabled)
    (hsame : SameOutcome (c, (clientStep s buf c).2) (c', (clientStep s buf' c').2)) :
    Alike s buf buf' c c' := by
  have hatt : (clientStep s buf c).2.attempted = (clientStep s buf' c').2.attempted := by
    rw [Bool.eq_iff_iff, (Perfreport.clientStep_spec s buf c).attempted,
      (Perfreport.clientStep_spec s buf' c').attempted, hen, hresult]
  have hidle : ∀ {out : Outcome}, out.attempted = false → out.succeeded = false := by
    intro out h
    cases out <;> first | rfl | cases h
  have hsucc : (clientStep s buf c).2.succeeded = (clientStep s buf' c').2.succeeded := by
    cases ha : (clientStep s buf c).2.attempted with
    | false => rw [hidle ha, hidle (hatt ▸ ha)]
    | true => exact (hsame ha (hatt ▸ ha)).1
  refine ⟨?_, ?_⟩
  · rw [Perfreport.clientStep_state, Perfreport.clientStep_state, hsucc, hen, hresult]
  · cases hd : publishedDoc (clientStep s buf c).2 with
    | none =>
      have hs := publishedDoc_isSome (clientStep s buf c).2
      rw [hd, hsucc, ← publishedDoc_isSome] at hs
      rw [Option.isSome_eq_false_iff.mp hs.symm |> Option.isNone_iff_eq_none.mp]
    | some doc =>
      have hs := publishedDoc_isSome (clientStep s buf c).2
      rw [hd, hsucc, ← publishedDoc_isSome] at hs
      obtain ⟨doc', hd'⟩ := Option.isSome_iff_exists.mp hs.symm
      have ha := Perfreport.attempted_of_succeeded
        ((publishedDoc_isSome _).symm.trans (by rw [hd]; rfl))
      obtain ⟨_, hadd⟩ := hsame ha (hatt ▸ ha)
      rw [clientStep_attempted ha] at hd
      rw [hd']
      rw [clientStep_attempted (hatt ▸ ha)] at hd'
      have hcongr : ∀ ms : Doc, content (ms.filter fun x => c.env.json.addMember x.1) =
          (content ms).filter fun x => c'.env.json.addMember x.1 := by
        intro ms
        rw [content, List.filter_comm, content]
        refine List.filter_congr fun x hx => hadd x.1 ?_
        simpa using (List.mem_filter.mp hx).2
      have hcomm : ∀ ms : Doc, content (ms.filter fun x => c'.env.json.addMember x.1) =
          (content ms).filter fun x => c'.env.json.addMember x.1 := fun ms => List.filter_comm ..
      rw [publishedDoc_publish hd, publishedDoc_publish hd', Option.map_some, Option.map_some,
        hcongr, hcomm, hmac, hresult, hmetrics, content_members c.env.json c'.env.json]

/-! ## Two runs -/

/-- What one client sees of an event. -/
inductive View where
  | stage (rec : ConnMetric.Record) (now : Int)
  | tick (now : Int) (enabled : Bool)

def view (mac : Mac) : Event → Option View
  | .stage mac' rec now => if mac' = mac then some (.stage rec now) else none
  | .tick now env => some (.tick now (env mac).enabled)

section Runs

variable (lq : LinkQty D) (policy : Policy)

/-- The reports published for `mac`, in order and apart from their stamps. -/
def publishedReports (mac : Mac) (es : List Event) : List Doc :=
  ((machine lq).outputs (start policy) es).flatten.filterMap fun x =>
    if x.1.mac = mac then (publishedDoc x.2).map content else none

theorem publishedReports_concat (mac : Mac) (es : List Event) (e : Event) :
    publishedReports lq policy mac (es ++ [e]) = publishedReports lq policy mac es ++
      (ownCallsAt (D := D) lq policy mac es e).filterMap fun x => (publishedDoc x.2).map content := by
  rw [publishedReports, Mealy.outputs_concat, List.flatten_append, List.filterMap_append,
    ← publishedReports, List.flatten_cons, List.flatten_nil, List.append_nil, ownCallsAt, ownCalls,
    List.filterMap_filter]
  congr 2
  funext x
  by_cases h : x.1.mac = mac <;> simp [h]

/-- At ticks that correspond, the attempts made for `mac` have the same outcome. -/
def SameOutcomes (mac : Mac) (es fs : List Event) : Prop :=
  ∀ pre e post pre' e' post', es = pre ++ e :: post → fs = pre' ++ e' :: post' →
    pre.filterMap (view mac) = pre'.filterMap (view mac) →
    ∀ x ∈ ownCallsAt (D := D) lq policy mac pre e, ∀ y ∈ ownCallsAt (D := D) lq policy mac pre' e',
      SameOutcome x y

/-- The cell of a client on its own sees no more than its view. -/
theorem solo_view (mac : Mac) (c : Infer.Cell D) (es fs : List Event)
    (h : es.filterMap (view mac) = fs.filterMap (view mac)) :
    (Infer.solo lq policy mac).final c (es.map Event.infer) =
      (Infer.solo lq policy mac).final c (fs.map Event.infer) := by
  have hhidden : ∀ es e, view mac e = none →
      (Infer.solo lq policy mac).final c ((es ++ [e]).map Event.infer) =
        (Infer.solo lq policy mac).final c (es.map Event.infer) := by
    intro es e he
    rw [List.map_append, List.map_singleton, Mealy.final_concat]
    cases e with
    | tick _ _ => cases he
    | stage mac' rec now =>
      have hne : mac' ≠ mac := by
        rintro rfl
        simp [view] at he
      simp [Infer.solo, Infer.cellStep, Event.infer, hne]
  refine view_induction (view mac) (p := fun es fs =>
    (Infer.solo lq policy mac).final c (es.map Event.infer) =
      (Infer.solo lq policy mac).final c (fs.map Event.infer)) rfl ?_ ?_ ?_ es fs h
  · intro es fs e he ih
    rw [hhidden es e he, ih]
  · intro es fs f hf ih
    rw [hhidden fs f hf, ih]
  · intro es fs e f v _ he hf ih
    have hsame : ∀ c : Infer.Cell D, ((Infer.solo lq policy mac).step c e.infer).1 =
        ((Infer.solo lq policy mac).step c f.infer).1 := by
      intro c
      cases e with
      | tick now env =>
        cases f with
        | tick now' env' =>
          obtain rfl := Option.some.inj he
          obtain ⟨rfl, -⟩ := View.tick.inj (Option.some.inj hf)
          rfl
        | stage mac' rec now' =>
          obtain rfl := Option.some.inj he
          simp [view] at hf
      | stage mac' rec now =>
        by_cases hm : mac' = mac
        · subst hm
          rw [view, if_pos rfl] at he
          obtain rfl := Option.some.inj he
          cases f with
          | tick _ _ => cases hf
          | stage mac'' rec' now' =>
            by_cases hm' : mac'' = mac'
            · subst hm'
              rw [view, if_pos rfl] at hf
              obtain ⟨rfl, rfl⟩ := View.stage.inj (Option.some.inj hf)
              rfl
            · simp [view, hm'] at hf
        · simp [view, hm] at he
    rw [List.map_append, List.map_append, List.map_singleton, List.map_singleton,
      Mealy.final_concat, Mealy.final_concat, ih, hsame]

theorem ownCallsAt_stage (mac mac' : Mac) (es : List Event) (rec : ConnMetric.Record) (now : Int) :
    ownCallsAt (D := D) lq policy mac es (.stage mac' rec now) = [] := rfl

theorem publishedReports_stage (mac mac' : Mac) (es : List Event) (rec : ConnMetric.Record)
    (now : Int) : publishedReports (D := D) lq policy mac (es ++ [.stage mac' rec now]) =
      publishedReports (D := D) lq policy mac es := by
  rw [publishedReports_concat, ownCallsAt_stage]
  exact List.append_nil _

theorem report_stage (mac' : Mac) (es : List Event) (rec : ConnMetric.Record) (now : Int) :
    (after lq policy (es ++ [.stage mac' rec now]) : World D).report =
      (after lq policy es : World D).report := by
  rw [after_concat]
  rfl

theorem cell_view (mac : Mac) {es fs : List Event}
    (hes : (Infer.macs (es.map Event.infer)).card ≤ maxClients)
    (hfs : (Infer.macs (fs.map Event.infer)).card ≤ maxClients)
    (h : es.filterMap (view mac) = fs.filterMap (view mac)) :
    cell (after lq policy es : World D).engine mac =
      cell (after lq policy fs : World D).engine mac := by
  rw [engine_after, engine_after, (Infer.run_solo lq policy mac _ hes).1,
    (Infer.run_solo lq policy mac _ hfs).1, solo_view lq policy mac _ es fs h]

theorem emission_view (mac : Mac) {es fs : List Event} (now : Int)
    (hes : (Infer.macs (es.map Event.infer)).card ≤ maxClients)
    (hfs : (Infer.macs (fs.map Event.infer)).card ≤ maxClients)
    (h : es.filterMap (view mac) = fs.filterMap (view mac)) :
    emissionOf mac (Infer.tick lq (after lq policy es : World D).engine now).2 =
      emissionOf mac (Infer.tick lq (after lq policy fs : World D).engine now).2 := by
  have hcell := cell_view (D := D) lq policy mac hes hfs h
  rw [engine_after, engine_after] at hcell ⊢
  rw [(Infer.tick_few lq policy mac now hes).2, (Infer.tick_few lq policy mac now hfs).2, hcell]

theorem few_of_append {es more : List Event}
    (h : (Infer.macs ((es ++ more).map Event.infer)).card ≤ maxClients) :
    (Infer.macs (es.map Event.infer)).card ≤ maxClients := by
  rw [List.map_append] at h
  exact (Finset.card_le_card (Infer.macs_subset_append _ _)).trans h

/-- What the cadence table and the bus have seen of `mac` in two runs. -/
structure SameReports (mac : Mac) (es fs : List Event) : Prop where
  slot : lookup (after lq policy es : World D).report.tbl mac =
    lookup (after lq policy fs : World D).report.tbl mac
  reports : publishedReports (D := D) lq policy mac es = publishedReports (D := D) lq policy mac fs

theorem sameReports_tick (mac : Mac) {es fs : List Event} {now : Int}
    {env env' : Mac → Perfreport.Env} (h : SameReports (D := D) lq policy mac es fs)
    (hes : (Infer.macs (es.map Event.infer)).card ≤ maxClients)
    (hfs : (Infer.macs (fs.map Event.infer)).card ≤ maxClients)
    (hview : es.filterMap (view mac) = fs.filterMap (view mac))
    (hen : (env mac).enabled = (env' mac).enabled)
    (hsame : ∀ x ∈ ownCallsAt (D := D) lq policy mac es (.tick now env),
      ∀ y ∈ ownCallsAt (D := D) lq policy mac fs (.tick now env'), SameOutcome x y) :
    SameReports (D := D) lq policy mac (es ++ [.tick now env]) (fs ++ [.tick now env']) := by
  have hs := serves_tick (D := D) lq policy mac now env hes
  have hs' := serves_tick (D := D) lq policy mac now env' hfs
  have hslot := h.slot
  have hcad : cadence (after lq policy es : World D).report.tbl mac =
      cadence (after lq policy fs : World D).report.tbl mac := by
    rw [cadence, hslot, cadence]
  rw [← emission_view lq policy mac now hes hfs hview] at hs'
  suffices hgoal : lookup (after lq policy (es ++ [.tick now env]) : World D).report.tbl mac =
      lookup (after lq policy (fs ++ [.tick now env']) : World D).report.tbl mac ∧
      (ownCallsAt (D := D) lq policy mac es (.tick now env)).filterMap
        (fun x => (publishedDoc x.2).map content) =
      (ownCallsAt (D := D) lq policy mac fs (.tick now env')).filterMap
        (fun x => (publishedDoc x.2).map content) by
    refine ⟨hgoal.1, ?_⟩
    rw [publishedReports_concat, publishedReports_concat, h.reports, hgoal.2]
  generalize ownCallsAt (D := D) lq policy mac es (.tick now env) = own at hs hsame ⊢
  generalize ownCallsAt (D := D) lq policy mac fs (.tick now env') = own' at hs' hsame ⊢
  generalize after lq policy (es ++ [.tick now env]) = w at hs ⊢
  generalize after lq policy (fs ++ [.tick now env']) = w' at hs' ⊢
  cases hem : emissionOf mac (Infer.tick lq (after lq policy es : World D).engine now).2 with
  | none =>
    rw [hem] at hs hs'
    cases hs with
    | idle h₁ =>
      cases hs' with
      | idle h₂ => exact ⟨h₁.trans (hslot.trans h₂.symm), rfl⟩
  | some em =>
    rw [hem] at hs hs'
    cases hs with
    | served _ buf h₁ =>
      cases hs' with
      | served _ buf' h₂ =>
        have hsame' := hsame _ (List.mem_singleton_self _) _ (List.mem_singleton_self _)
        rw [← hcad] at h₂ hsame' ⊢
        obtain ⟨hst, hdoc⟩ := alike ⟨mac, em.result, em.metrics, env mac⟩
          ⟨mac, em.result, em.metrics, env' mac⟩ rfl rfl rfl hen hsame'
        refine ⟨by rw [h₁, h₂, hst], ?_⟩
        rw [List.filterMap_cons, List.filterMap_cons, hdoc]

theorem sameReports (mac : Mac) (es fs : List Event)
    (hview : es.filterMap (view mac) = fs.filterMap (view mac))
    (hes : (Infer.macs (es.map Event.infer)).card ≤ maxClients)
    (hfs : (Infer.macs (fs.map Event.infer)).card ≤ maxClients)
    (hsame : SameOutcomes (D := D) lq policy mac es fs) :
    SameReports (D := D) lq policy mac es fs := by
  have hhidden : ∀ e, view mac e = none → ∃ mac' rec now, e = .stage mac' rec now := by
    intro e he
    cases e with
    | stage mac' rec now => exact ⟨mac', rec, now, rfl⟩
    | tick _ _ => cases he
  -- dropping the last event of either run keeps the hypotheses
  have hleft : ∀ {es fs e}, SameOutcomes (D := D) lq policy mac (es ++ [e]) fs →
      SameOutcomes (D := D) lq policy mac es fs := by
    intro es fs e h pre a post pre' b post' hes hfs
    exact h pre a (post ++ [e]) pre' b post' (by rw [hes]; simp) hfs
  have hright : ∀ {es fs f}, SameOutcomes (D := D) lq policy mac es (fs ++ [f]) →
      SameOutcomes (D := D) lq policy mac es fs := by
    intro es fs f h pre a post pre' b post' hes hfs
    exact h pre a post pre' b (post' ++ [f]) hes (by rw [hfs]; simp)
  refine view_induction (view mac) (p := fun es fs =>
    (Infer.macs (es.map Event.infer)).card ≤ maxClients →
    (Infer.macs (fs.map Event.infer)).card ≤ maxClients →
    SameOutcomes (D := D) lq policy mac es fs → SameReports (D := D) lq policy mac es fs)
    ?_ ?_ ?_ ?_ es fs hview hes hfs hsame
  · exact fun _ _ _ => ⟨rfl, rfl⟩
  · intro es fs e he ih hes hfs hsame
    obtain ⟨mac', rec, now, rfl⟩ := hhidden e he
    obtain ⟨hslot, hreports⟩ := ih (few_of_append hes) hfs (hleft hsame)
    exact ⟨by rw [report_stage, hslot], by rw [publishedReports_stage, hreports]⟩
  · intro es fs f hf ih hes hfs hsame
    obtain ⟨mac', rec, now, rfl⟩ := hhidden f hf
    obtain ⟨hslot, hreports⟩ := ih hes (few_of_append hfs) (hright hsame)
    exact ⟨by rw [report_stage, hslot], by rw [publishedReports_stage, hreports]⟩
  · intro es fs e f v hv he hf ih hes hfs hsame
    have h := ih (few_of_append hes) (few_of_append hfs) (hleft (hright hsame))
    cases e with
    | tick now env =>
      cases f with
      | tick now' env' =>
        obtain rfl := Option.some.inj he
        obtain ⟨rfl, hen⟩ := View.tick.inj (Option.some.inj hf)
        exact sameReports_tick lq policy mac h (few_of_append hes) (few_of_append hfs) hv hen.symm
          (hsame es _ [] fs _ [] rfl rfl hv)
      | stage mac' rec now' =>
        obtain rfl := Option.some.inj he
        simp [view] at hf
    | stage mac' rec now =>
      cases f with
      | tick now' env' =>
        obtain rfl := Option.some.inj hf
        simp [view] at he
      | stage mac'' rec' now' =>
        exact ⟨by rw [report_stage, report_stage, h.slot],
          by rw [publishedReports_stage, publishedReports_stage, h.reports]⟩

/-- Two runs that look alike to a client and treat its publish attempts alike
emit, log and publish the same for it, whatever the other stations do. -/
theorem clients_do_not_interfere (mac : Mac) (es fs : List Event)
    (hes : (Infer.macs (es.map Event.infer)).card ≤ maxClients)
    (hfs : (Infer.macs (fs.map Event.infer)).card ≤ maxClients)
    (hview : es.filterMap (view mac) = fs.filterMap (view mac))
    (hsame : SameOutcomes (D := D) lq policy mac es fs) :
    (∀ pre now env post pre' now' env' post', es = pre ++ .tick now env :: post →
      fs = pre' ++ .tick now' env' :: post' →
      pre.filterMap (view mac) = pre'.filterMap (view mac) →
      emissionOf mac (Infer.tick lq (after lq policy pre : World D).engine now).2 =
        emissionOf mac (Infer.tick lq (after lq policy pre' : World D).engine now').2 ∧
      (cell (after lq policy (pre ++ [.tick now env]) : World D).engine mac).member.map
          Infer.Row.ledger =
        (cell (after lq policy (pre' ++ [.tick now' env']) : World D).engine mac).member.map
          Infer.Row.ledger) ∧
    publishedReports (D := D) lq policy mac es = publishedReports (D := D) lq policy mac fs := by
  refine ⟨?_, (sameReports lq policy mac es fs hview hes hfs hsame).reports⟩
  intro pre now env post pre' now' env' post' hpre hpre' hv
  -- the ticks that follow equal views are the same tick
  have htick : now = now' ∧ (env mac).enabled = (env' mac).enabled := by
    rw [hpre, hpre', List.filterMap_append, List.filterMap_append, hv,
      List.append_cancel_left_eq] at hview
    have hcons : ∀ (now : Int) (env : Mac → Perfreport.Env) (post : List Event),
        (Event.tick now env :: post).filterMap (view mac) =
          .tick now (env mac).enabled :: post.filterMap (view mac) := fun _ _ _ => rfl
    rw [hcons, hcons] at hview
    exact View.tick.inj (List.cons.inj hview).1
  obtain ⟨rfl, hen⟩ := htick
  have hsplit : es = (pre ++ [.tick now env]) ++ post := by rw [hpre]; simp
  have hsplit' : fs = (pre' ++ [.tick now env']) ++ post' := by rw [hpre']; simp
  rw [hsplit] at hes
  rw [hsplit'] at hfs
  refine ⟨emission_view lq policy mac now (few_of_append (few_of_append hes))
    (few_of_append (few_of_append hfs)) hv,
    ?_⟩
  rw [cell_view lq policy mac (few_of_append hes) (few_of_append hfs)]
  rw [List.filterMap_append, List.filterMap_append, hv, List.append_cancel_left_eq]
  simp [view, hen]

end Runs

/-! ## A client alone and with a visitor -/

section Beats

open Infer (Beat beats beatAt inTurn rated)
open Perfreport (degradedCall)

/-- Everything outside grants what is asked for a client. -/
def Granting (mac : Mac) (es : List Event) : Prop :=
  ∀ now env, Event.tick now env ∈ es → env mac = degradedCall.env

theorem sameOutcomes_of_granting (lq : LinkQty D) (policy : Policy) {mac : Mac} {es fs : List Event}
    (hes : (Infer.macs (es.map Event.infer)).card ≤ maxClients)
    (hfs : (Infer.macs (fs.map Event.infer)).card ≤ maxClients)
    (hg : Granting mac es) (hg' : Granting mac fs) :
    SameOutcomes (D := D) lq policy mac es fs := by
  have hown : ∀ {es pre e post}, (Infer.macs (es.map Event.infer)).card ≤ maxClients →
      Granting mac es → es = pre ++ e :: post →
      ∀ x ∈ ownCallsAt (D := D) lq policy mac pre e,
        x.1.env = degradedCall.env ∧ (x.2.attempted = true → x.2.succeeded = true) := by
    intro es pre e post hfew hg hsplit x hx
    subst hsplit
    cases e with
    | stage mac' rec now => cases hx
    | tick now env =>
      have hs := serves_tick (D := D) lq policy mac now env (few_of_append hfew)
      have henv : env mac = degradedCall.env := hg now env (by simp)
      generalize ownCallsAt (D := D) lq policy mac pre (.tick now env) = own at hs hx
      cases hem : emissionOf mac (Infer.tick lq (after lq policy pre : World D).engine now).2 with
      | none =>
        rw [hem] at hs
        cases hs with
        | idle _ => cases hx
      | some em =>
        rw [hem] at hs
        cases hs with
        | served _ buf _ =>
          rw [List.mem_singleton.mp hx]
          refine ⟨henv, fun ha => ?_⟩
          exact (Perfreport.clientStep_succeeded _ _ _).mpr
            ⟨ha, Perfreport.degraded_accepted buf henv⟩
  intro pre e post pre' e' post' hsplit hsplit' _ x hx y hy ha ha'
  obtain ⟨henv, hsucceeds⟩ := hown hes hg hsplit x hx
  obtain ⟨henv', hsucceeds'⟩ := hown hfs hg' hsplit' y hy
  exact ⟨by rw [hsucceeds ha, hsucceeds' ha'], fun name _ => by rw [henv, henv']⟩

variable (lq : LinkQty D) (policy : Policy) (mac : Mac)

/-- A run of the engine whose reports all are granted. -/
def granted (es : List Infer.Event) : List Event := es.map (Event.ofInfer degradedCall.env)

theorem granting_granted (es : List Infer.Event) : Granting mac (granted es) := by
  intro now env h
  obtain ⟨e, _, heq⟩ := List.mem_map.mp h
  cases e with
  | stage mac' rec now' => cases heq
  | tick now' =>
    obtain ⟨-, rfl⟩ := Event.tick.inj heq
    rfl

theorem infer_granted (es : List Infer.Event) : (granted es).map Event.infer = es :=
  infer_ofInfer degradedCall.env es

/-- The tick behind a beat makes the one call for the client. -/
theorem beat_calls {bs : List Beat} {b : Beat} (h : ∀ b ∈ bs, b.Fresh) (hb : b.Fresh) :
    ∃ s ∈ (Infer.tick lq (Infer.after lq policy (beats mac bs ++ [b.stage mac])) b.now).2,
      s.mac = mac ∧
      callsOf lq (after lq policy (granted (beats mac bs ++ [b.stage mac])) : World D).engine
          (.tick b.now fun _ => degradedCall.env) = [callOf (fun _ => degradedCall.env) s] := by
  obtain ⟨s, halone, hmac, -⟩ := Infer.beats_alone lq policy mac h hb
  refine ⟨s, by rw [halone]; exact List.mem_singleton_self s, hmac, ?_⟩
  rw [callsOf, engine_after, infer_granted, halone]
  rfl

theorem granted_concat (es : List Infer.Event) (e : Infer.Event) :
    granted (es ++ [e]) = granted es ++ [Event.ofInfer degradedCall.env e] := by
  rw [granted, List.map_append]
  rfl

theorem publishCalls_staged (es : List Infer.Event) (b : Beat) :
    publishCalls (D := D) lq policy (granted (es ++ [b.stage mac])) =
      publishCalls (D := D) lq policy (granted es) := by
  rw [granted_concat, publishCalls_concat]
  exact List.append_nil _

/-- Each beat made one call. -/
theorem beats_calls {bs : List Beat} (h : ∀ b ∈ bs, b.Fresh) :
    (publishCalls (D := D) lq policy (granted (beats mac bs))).length = bs.length ∧
      ∀ c ∈ publishCalls (D := D) lq policy (granted (beats mac bs)),
        c.mac = mac ∧ c.env = degradedCall.env := by
  induction bs using List.reverseRecOn with
  | nil => simp [granted, beats, publishCalls, Mealy.outputs]
  | append_singleton bs b ih =>
    have hbefore : ∀ c ∈ bs, c.Fresh := fun c hc => h c (List.mem_append_left _ hc)
    obtain ⟨hlength, hcalls⟩ := ih hbefore
    obtain ⟨s, -, hmac, hcall⟩ := beat_calls lq policy mac hbefore (h b (by simp))
    rw [Infer.beats_concat, granted_concat, publishCalls_concat, publishCalls_staged,
      show Event.ofInfer degradedCall.env (.tick b.now) = .tick b.now fun _ => degradedCall.env from rfl,
      hcall]
    refine ⟨by rw [List.length_append, hlength, List.length_append]; rfl, ?_⟩
    intro c hc
    rcases List.mem_append.mp hc with hc | hc
    · exact hcalls c hc
    · obtain rfl := List.mem_singleton.mp hc
      exact ⟨hmac, rfl⟩

/-- The fourth beat of a client has its report published if it finds the client degraded. -/
theorem fourth_beat {bs : List Beat} {b : Beat} (h : ∀ b ∈ bs, b.Fresh) (hb : b.Fresh)
    (hthree : bs.length = 3)
    (hdegraded : ∀ s ∈ (Infer.tick lq (Infer.after lq policy (beats mac bs ++ [b.stage mac])) b.now).2,
      s.mac = mac → s.result.verdict = .degraded) :
    publishedReports (D := D) lq policy mac (granted (beats mac (bs ++ [b]))) ≠ [] := by
  obtain ⟨s, hs, hmac, hcall⟩ := beat_calls lq policy mac h hb
  obtain ⟨hlength, hcalls⟩ := beats_calls (D := D) lq policy mac h
  have hcallMac : (callOf (fun _ => degradedCall.env) s).mac = mac := hmac
  obtain ⟨event, hevent⟩ := Perfreport.fourth_published hcalls (hlength.trans hthree) hcallMac rfl
    (hdegraded s hs hmac)
  have hown : ownCallsAt (D := D) lq policy mac (granted (beats mac bs ++ [b.stage mac]))
      (.tick b.now fun _ => degradedCall.env) =
        [(callOf (fun _ => degradedCall.env) s, .published event)] := by
    rw [Perfreport.outcome] at hevent
    rw [ownCallsAt, step_calls, hcall, report_after, publishCalls_staged, Mealy.outputs, hevent]
    exact List.filter_cons_of_pos (decide_eq_true hcallMac)
  rw [Infer.beats_concat, granted_concat, publishedReports_concat,
    show Event.ofInfer degradedCall.env (.tick b.now) = .tick b.now fun _ => degradedCall.env from rfl,
    hown]
  simp [publishedDoc]

end Beats

noncomputable section

open Infer (beats beatAt inTurn rated)

/-- A station whose rate swings, up to its fourth tick. -/
def swinging : List Infer.Event :=
  beats (Vector.replicate 6 1) (inTurn ([300000, 6000, 300000].map rated)) ++
    [(beatAt 3 (rated 6000)).stage (Vector.replicate 6 1)]

/-- Another takes the slot before it, and is heard of once more. -/
def visited : List Event :=
  .stage (Vector.replicate 6 2) ConnMetric.Record.zero 1 :: ((granted swinging).take 3 ++
    .stage (Vector.replicate 6 2) (rated 24000) 5001 :: (granted swinging).drop 3)

def fourthTick : Event := .tick 15002 fun _ => Perfreport.degradedCall.env

theorem swinging_degraded (lq : LinkQty ℝ) : ∀ s ∈ (Infer.tick lq
    (Infer.after lq Infer.wireDefaultPolicy swinging) 15002).2, s.mac = Vector.replicate 6 1 →
      s.result.verdict = .degraded := by
  intro s hs hmac
  have hfour : inTurn ([300000, 6000, 300000].map rated) ++ [beatAt 3 (rated 6000)] =
      inTurn ([300000, 6000, 300000, 6000].map rated) := rfl
  have hvariance : Infer.rateVariance ([300000, 6000, 300000, 6000].map rated) = 21609 := by
    rw [Infer.rateVariance_eq]
    decide
  refine Infer.beats_degraded (by decide) ?_ ?_ ?_ ?_ hs hmac
  · rw [hfour]
    exact Infer.paced_inTurn _
  · rw [hfour]
    exact Infer.fresh_inTurn (by decide)
  · rw [hfour, Infer.map_metrics_inTurn, Infer.WholeRates]
    decide
  · rw [hfour, Infer.map_metrics_inTurn, hvariance]
    decide

/-- The visitor changes neither what the fourth tick emits for the station, nor its
ledger, nor its reports, of which there is one. -/
theorem clients_do_not_interfere_visited :
    (emissionOf (Vector.replicate 6 1) (Infer.tick (⟨0, 0⟩ : LinkQty ℝ)
        (after ⟨0, 0⟩ Infer.wireDefaultPolicy (granted swinging)).engine 15002).2 =
      emissionOf (Vector.replicate 6 1) (Infer.tick (⟨0, 0⟩ : LinkQty ℝ)
        (after ⟨0, 0⟩ Infer.wireDefaultPolicy visited).engine 15002).2 ∧
      (cell (after (⟨0, 0⟩ : LinkQty ℝ) Infer.wireDefaultPolicy
          (granted swinging ++ [fourthTick])).engine (Vector.replicate 6 1)).member.map
        Infer.Row.ledger =
      (cell (after (⟨0, 0⟩ : LinkQty ℝ) Infer.wireDefaultPolicy
          (visited ++ [fourthTick])).engine (Vector.replicate 6 1)).member.map Infer.Row.ledger) ∧
    publishedReports (⟨0, 0⟩ : LinkQty ℝ) Infer.wireDefaultPolicy (Vector.replicate 6 1)
        (granted swinging ++ [fourthTick]) =
      publishedReports (⟨0, 0⟩ : LinkQty ℝ) Infer.wireDefaultPolicy (Vector.replicate 6 1)
        (visited ++ [fourthTick]) ∧
    publishedReports (⟨0, 0⟩ : LinkQty ℝ) Infer.wireDefaultPolicy (Vector.replicate 6 1)
        (granted swinging ++ [fourthTick]) ≠ [] := by
  have hes : (Infer.macs ((granted swinging ++ [fourthTick]).map Event.infer)).card ≤ maxClients := by
    decide
  have hfs : (Infer.macs ((visited ++ [fourthTick]).map Event.infer)).card ≤ maxClients := by
    decide
  have hview : (granted swinging).filterMap (view (Vector.replicate 6 1)) =
      visited.filterMap (view (Vector.replicate 6 1)) := rfl
  have hgranting : Granting (Vector.replicate 6 1) (granted swinging ++ [fourthTick]) :=
    granting_granted _ (swinging ++ [.tick 15002])
  have hgranting' : Granting (Vector.replicate 6 1) (visited ++ [fourthTick]) := by
    intro now env h
    refine hgranting now env ?_
    simp only [visited, List.cons_append, List.append_assoc, List.mem_cons, List.mem_append,
      reduceCtorEq, false_or] at h ⊢
    rcases h with h | h | h
    · exact .inl (List.mem_of_mem_take h)
    · exact .inl (List.mem_of_mem_drop h)
    · exact .inr h
  obtain ⟨hticks, hreports⟩ := clients_do_not_interfere (⟨0, 0⟩ : LinkQty ℝ)
    Infer.wireDefaultPolicy (Vector.replicate 6 1) (granted swinging ++ [fourthTick])
    (visited ++ [fourthTick]) hes hfs
    (by rw [List.filterMap_append, List.filterMap_append, hview])
    (sameOutcomes_of_granting _ _ hes hfs hgranting hgranting')
  refine ⟨hticks (granted swinging) 15002 _ [] visited 15002 _ [] rfl rfl hview, hreports, ?_⟩
  exact fourth_beat (⟨0, 0⟩ : LinkQty ℝ) Infer.wireDefaultPolicy (Vector.replicate 6 1)
    (Infer.fresh_inTurn (by decide)) ⟨by decide, by decide⟩ rfl
    (swinging_degraded ⟨0, 0⟩)

end

end Wei.Daemon
