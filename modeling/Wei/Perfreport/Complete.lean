import Wei.Perfreport.Cadence

/-!
# What a published report contains

`wei_perfreport_build_json` ignores the results of its eleven insertions, so the
document holds the members whose insertion succeeded and is printed all the same.
-/
namespace Wei.Perfreport

open Wei.Lib Wei.Lib.SlotTable
open Infer (Verdict)

/-! ## The document -/

/-- Under distinct names every member of a document is the one its name finds. -/
theorem lookup_of_mem {doc : Doc} (hnames : (doc.map Prod.fst).Nodup) {m : String × Value}
    (hm : m ∈ doc) : doc.lookup m.1 = some m.2 := by
  obtain ⟨before, behind, rfl⟩ := List.append_of_mem hm
  refine List.lookup_eq_some_iff.mpr ⟨before, behind, rfl, fun other hother => ?_⟩
  rw [List.map_append, List.map_cons, List.nodup_append] at hnames
  have hne := hnames.2.2 other.1 (List.mem_map_of_mem hother) m.1 List.mem_cons_self
  simpa using hne.symm

theorem members_nodup (env : JsonEnv) (c : Call) :
    ((members env c.mac c.result c.metrics).map Prod.fst).Nodup := by
  simp [members]

/-- The members of the report a call stands for. -/
def Call.report (c : Call) : Doc := members c.env.json c.mac c.result c.metrics

/-- The document of a call. -/
def Call.built (c : Call) : Doc := c.report.foldl (addToObject c.env.json) []

/-- A document has every member of the report of a call, with its value. -/
def Complete (c : Call) (doc : Doc) : Prop := ∀ m ∈ c.report, doc.lookup m.1 = some m.2

/-- No insertion of the call fails. -/
def AllAdded (c : Call) : Prop := ∀ m ∈ c.report, c.env.json.addMember m.1 = true

theorem built_eq (c : Call) :
    c.built = c.report.filter fun m => c.env.json.addMember m.1 := by
  rw [Call.built, foldl_addToObject, List.nil_append]

theorem built_complete_iff (c : Call) : Complete c c.built ↔ AllAdded c := by
  rw [built_eq]
  constructor
  · intro h m hm
    by_contra hfailed
    -- a member whose insertion failed is not found
    have hnone : (c.report.filter fun m => c.env.json.addMember m.1).lookup m.1 = none := by
      rw [List.lookup_eq_none_iff]
      intro other hother
      have hadded := (List.mem_filter.mp hother).2
      rw [bne_iff_ne]
      intro he
      exact hfailed (he ▸ hadded)
    rw [h m hm] at hnone
    cases hnone
  · intro h
    have hall : (c.report.filter fun m => c.env.json.addMember m.1) = c.report :=
      List.filter_eq_self.mpr h
    rw [hall]
    exact fun m hm => lookup_of_mem (members_nodup c.env.json c) hm

/-! ## The event -/

/-- A printed text is what the library made of the document at some capacity. -/
theorem jsonSerializeLoop_printed {env : JsonEnv} {doc : Doc} {buf : Buffer} {text : String}
    (h : (jsonSerializeLoop env doc buf).2 = some text) :
    ∃ cap, env.printPreallocated doc cap = some text := by
  fun_induction jsonSerializeLoop env doc buf with
  | case1 buf text' hprint => exact ⟨buf.cap, hprint.trans h⟩
  | case2 => cases h
  | case3 => cases h
  | case4 buf _ _ _ ih => exact ih h

theorem jsonSerialize_printed {env : JsonEnv} {doc : Doc} {buf : Option Buffer} {text : String}
    (h : (jsonSerialize env doc buf).2 = some text) :
    ∃ cap, env.printPreallocated doc cap = some text := by
  unfold jsonSerialize at h
  cases buf with
  | some buf => exact jsonSerializeLoop_printed h
  | none =>
    dsimp only at h
    split at h
    · cases h
    · exact jsonSerializeLoop_printed h

/-- The event of a call carries the document that call built, printed. -/
structure Carries (c : Call) (event : Event) : Prop where
  name : event.name = reportEvent
  doc : event.doc = c.built
  text : ∃ cap, c.env.json.printPreallocated c.built cap = some event.text

theorem buildJson_doc {c : Call} {buf buf' : Option Buffer} {doc : Doc} {text : String}
    (h : buildJson c.env.json c.mac c.result c.metrics buf = (buf', some (doc, text))) :
    doc = c.built ∧ ∃ cap, c.env.json.printPreallocated c.built cap = some text := by
  unfold buildJson at h
  split at h
  · cases h
  · dsimp only at h
    obtain ⟨_, hmap⟩ := Prod.mk.inj h
    obtain ⟨printed, hprinted, hpair⟩ := Option.map_eq_some_iff.mp hmap
    obtain ⟨rfl, rfl⟩ := Prod.mk.inj hpair
    exact ⟨rfl, jsonSerialize_printed hprinted⟩

theorem publish_carries {buf : Option Buffer} {c : Call} {event : Event}
    (h : event ∈ (publish buf c.mac c.result c.metrics c.env).2.fired) : Carries c event := by
  unfold publish at h
  split at h
  · cases h
  · cases hbuild : buildJson c.env.json c.mac c.result c.metrics buf with
    | mk buf' built =>
      rw [hbuild] at h
      cases built with
      | none => cases h
      | some pair =>
        obtain ⟨hdoc, htext⟩ := buildJson_doc hbuild
        dsimp only at h
        split at h
        · obtain rfl := List.mem_singleton.mp h
          exact ⟨rfl, hdoc, htext⟩
        · obtain rfl := List.mem_singleton.mp h
          exact ⟨rfl, hdoc, htext⟩

theorem clientStep_carries {s : ClientState} {buf : Option Buffer} {c : Call} {event : Event}
    (h : event ∈ (clientStep s buf c).2.fired) : Carries c event := by
  unfold clientStep at h
  split at h
  · cases h
  · exact publish_carries h

/-- The report of a degraded client, whose insertion of `verdict` fails. -/
def truncatedCall : Call :=
  { degradedCall with env := { degradedCall.env with json := { degradedCall.env.json with
    addMember := fun name => decide (name ≠ "verdict") } } }

theorem cadence_warm : cadence (after (List.replicate 3 degradedCall)).tbl degradedCall.mac =
    ⟨degradedCall.mac, true, .smooth, 3⟩ := by decide +kernel

theorem room_warm : scan (after (List.replicate 3 degradedCall)).tbl truncatedCall.mac ≠ .full := by
  decide +kernel

theorem jsonSerialize_truncated (doc : Doc) (buf : Option Buffer) :
    (jsonSerialize truncatedCall.env.json doc buf).2 = some "report" := by
  cases buf with
  | none =>
    rw [jsonSerialize]
    dsimp only
    rw [if_neg (by decide), jsonSerializeLoop]
    rfl
  | some buf =>
    rw [jsonSerialize]
    dsimp only
    rw [jsonSerializeLoop]
    rfl

theorem truncated_outcome : outcome (List.replicate 3 degradedCall) truncatedCall =
    .published ⟨reportEvent, truncatedCall.built, "report", 7⟩ := by
  have hspec := step_spec (slots_after (List.replicate 3 degradedCall)).distinct room_warm
  have hwarm : cadence (after (List.replicate 3 degradedCall)).tbl truncatedCall.mac =
      ⟨degradedCall.mac, true, .smooth, 3⟩ := cadence_warm
  rw [outcome, hspec.outcome, hwarm]
  generalize (after (List.replicate 3 degradedCall)).buf = buf
  have hbuilt : buildJson truncatedCall.env.json truncatedCall.mac truncatedCall.result
      truncatedCall.metrics buf =
        ((jsonSerialize truncatedCall.env.json truncatedCall.built buf).1,
          some (truncatedCall.built, "report")) := by
    rw [buildJson, if_neg (by decide)]
    refine Prod.ext rfl ?_
    change Option.map _ (jsonSerialize truncatedCall.env.json truncatedCall.built buf).2 = _
    exact congrArg (Option.map _) (jsonSerialize_truncated truncatedCall.built buf)
  have hsize : UInt32.ofNat ("report".utf8ByteSize + 1) = 7 := by decide
  have hready : ¬ (truncatedCall.env.handle = false ∨ truncatedCall.env.descriptor = false ∨
      truncatedCall.env.publishFn = false) := by decide
  change (publish buf truncatedCall.mac truncatedCall.result truncatedCall.metrics
    truncatedCall.env).2 = _
  rw [publish, if_neg hready, hbuilt]
  dsimp only
  rw [if_neg (by decide), hsize]

end Wei.Perfreport
