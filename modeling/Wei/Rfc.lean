import Mathlib.Data.List.TakeWhile
import Wei.Perfreport.Publish

/-!
# The enable of record

`weid_rfc.c`: the cached enable of the connected-performance pillar and the file
it is loaded from, with the accessors of `wei_connperf_dml.c` over it. cJSON is
outside this repository: which of its calls fail is part of a call's
environment, and what it prints and parses is any library that prints the two
documents of this file as texts it parses back.
-/
namespace Wei.Rfc

open Perfreport (BusError)

/-- `WEID_RFC_BUF_MAX` -/
def bufMax : Nat := 4096

/-- `WEID_RFC_OBJECT` -/
def rfcObject : String := "RFC"

/-- `WEID_RFC_CONNPERF` -/
def rfcConnperf : String := "WhenConnected"

/-- A cJSON item, as far as this file tells items apart. -/
inductive Json where
  | bool (b : Bool)
  | object (members : List (String × Json))
  | other

structure CJson where
  /-- The text of `cJSON_PrintPreallocated`, without its NUL. -/
  print : Json → List UInt8
  /-- `cJSON_Parse` -/
  parse : List UInt8 → Option Json

/-- `cJSON_GetObjectItemCaseSensitive` -/
def getObjectItem (item : Option Json) (name : String) : Option Json :=
  match item with
  | some (.object members) => members.lookup name
  | _ => none

/-- The cached enable and the file at `WEID_RFC_NVRAM_PATH`, if there is one. -/
structure State where
  connperfEnabled : Bool
  file : Option (List UInt8)
  deriving DecidableEq

/-- The C string at the start of some bytes. -/
def cString (bytes : List UInt8) : List UInt8 := bytes.takeWhile (· ≠ 0)

/-- `weid_rfc_read_file` -/
def readFile (file : Option (List UInt8)) : List UInt8 := (file.getD []).take (bufMax - 1)

/-- `weid_rfc_load` -/
def load (lib : CJson) (s : State) : State :=
  let s := { s with connperfEnabled := false }
  let buf := readFile s.file
  if buf.length = 0 then s
  else
    match lib.parse (cString buf) with
    | none => s
    | some doc =>
      match getObjectItem (getObjectItem (some doc) rfcObject) rfcConnperf with
      | some (.bool b) => { s with connperfEnabled := b }
      | _ => s

/-- What `weid_rfc_connperf_set` meets. -/
structure SetEnv where
  createObject : Bool
  addObject : Bool
  addBool : Bool
  print : Bool
  fopen : Bool
  fputs : Bool
  fclose : Bool
  /-- How much of the text is in the file after a failed write or close. -/
  reached : Nat

/-- The document of an enable. -/
def document (enabled : Bool) : Json :=
  .object [(rfcObject, .object [(rfcConnperf, .bool enabled)])]

/-- `weid_rfc_connperf_set`; opening for write empties the file. -/
def connperfSet (lib : CJson) (s : State) (enabled : Bool) (env : SetEnv) : State × Int :=
  let s := { s with connperfEnabled := enabled }
  if env.createObject = false then (s, -1)
  else if env.addObject = false ∨ env.addBool = false then (s, -1)
  else
    let text := lib.print (document enabled)
    if env.print = false ∨ bufMax < text.length + 1 then (s, -1)
    else if env.fopen = false then (s, -1)
    else if env.fputs && env.fclose then ({ s with file := some (cString text) }, 0)
    else ({ s with file := some ((cString text).take env.reached) }, -1)

/-- `raw_data_t`, of which only a boolean is looked into. -/
inductive RawData where
  | boolean (b : Bool)
  | other

/-- `wei_connperf_enable_get`; `none` for a `NULL` argument. -/
def enableGet (s : State) (name : Option String) (data : Option RawData) :
    Option RawData × BusError :=
  match name, data with
  | some _, some _ => (some (.boolean s.connperfEnabled), .success)
  | _, _ => (data, .invalidInput)

/-- `wei_connperf_enable_set` -/
def enableSet (lib : CJson) (s : State) (name : Option String) (data : Option RawData)
    (env : SetEnv) : State × BusError :=
  match name, data with
  | some _, some (.boolean b) =>
    let (s, rc) := connperfSet lib s b env
    if rc ≠ 0 then (s, .general) else (s, .success)
  | _, _ => (s, .invalidInput)

/-! ## Loading -/

/-- What a load makes of the file. -/
def persisted (lib : CJson) (s : State) : Bool := (load lib s).connperfEnabled

/-- The library prints the two documents of this file as non-empty C strings,
parses them back, and does not parse one that is cut short. -/
structure CJson.Faithful (lib : CJson) : Prop where
  ne_nil : ∀ b, lib.print (document b) ≠ []
  no_nul : ∀ b, 0 ∉ lib.print (document b)
  parse_print : ∀ b, lib.parse (lib.print (document b)) = some (document b)
  parse_cut : ∀ b part, part <+: lib.print (document b) → part ≠ lib.print (document b) →
    lib.parse part = none

theorem persisted_congr (lib : CJson) {s s' : State} (h : s.file = s'.file) :
    persisted lib s = persisted lib s' := by
  obtain ⟨cached, file⟩ := s
  obtain ⟨cached', file'⟩ := s'
  subst h
  rfl

theorem cString_eq {bytes : List UInt8} (h : 0 ∉ bytes) : cString bytes = bytes := by
  refine List.takeWhile_eq_self_iff.mpr fun b hb => ?_
  rw [decide_eq_true_eq]
  exact fun hzero => h (hzero ▸ hb)

theorem persisted_empty {lib : CJson} {s : State} (h : readFile s.file = []) :
    persisted lib s = false := by
  rw [persisted, load]
  dsimp only
  rw [h, if_pos List.length_nil]

theorem persisted_of_ne {lib : CJson} {s : State} (h : readFile s.file ≠ []) :
    persisted lib s = match getObjectItem (getObjectItem (lib.parse (cString (readFile s.file)))
      rfcObject) rfcConnperf with
      | some (.bool b) => b
      | _ => false := by
  rw [persisted, load]
  dsimp only
  rw [if_neg (fun hlen => h (List.eq_nil_of_length_eq_zero hlen))]
  cases lib.parse (cString (readFile s.file)) with
  | none => rfl
  | some doc =>
    dsimp only
    split <;> rfl

@[simp] theorem getObjectItem_document (b : Bool) :
    getObjectItem (getObjectItem (some (document b)) rfcObject) rfcConnperf = some (.bool b) := by
  simp [getObjectItem, document]

section Faithful

variable {lib : CJson} (hlib : lib.Faithful)

include hlib

/-- A file that holds the start of a document loads its value if it holds all of
it, and the default otherwise. -/
theorem persisted_part {enabled : Bool} {s : State} {k : Nat}
    (hfits : (lib.print (document enabled)).length + 1 ≤ bufMax)
    (hfile : s.file = some ((lib.print (document enabled)).take k)) :
    persisted lib s = if (lib.print (document enabled)).length ≤ k then enabled else false := by
  have hread : readFile s.file = (lib.print (document enabled)).take k := by
    have hlen := List.length_take_le k (lib.print (document enabled))
    rw [readFile, hfile, Option.getD_some]
    exact List.take_of_length_le (by rw [List.length_take]; omega)
  have hstring : cString (readFile s.file) = readFile s.file := by
    rw [hread]
    exact cString_eq fun hzero => hlib.no_nul enabled (List.mem_of_mem_take hzero)
  by_cases hwhole : (lib.print (document enabled)).length ≤ k
  · have htext : readFile s.file = lib.print (document enabled) :=
      hread.trans (List.take_of_length_le hwhole)
    rw [if_pos hwhole, persisted_of_ne (htext ▸ hlib.ne_nil enabled), hstring, htext,
      hlib.parse_print, getObjectItem_document]
  · rw [if_neg hwhole]
    by_cases hnil : readFile s.file = []
    · exact persisted_empty hnil
    · have hcut : lib.parse (readFile s.file) = none := by
        refine hlib.parse_cut enabled _ (hread ▸ List.take_prefix _ _) fun heq => hwhole ?_
        rw [hread] at heq
        exact List.take_eq_self_iff _ |>.mp heq
      rw [persisted_of_ne hnil, hstring, hcut]
      rfl

end Faithful

/-! ## Setting -/

/-- The call comes as far as opening the file, which then is empty. -/
def Opened (lib : CJson) (enabled : Bool) (env : SetEnv) : Prop :=
  env.createObject = true ∧ env.addObject = true ∧ env.addBool = true ∧ env.print = true ∧
    (lib.print (document enabled)).length + 1 ≤ bufMax ∧ env.fopen = true

/-- The ways through `weid_rfc_connperf_set`. -/
inductive SetStep (lib : CJson) (s : State) (enabled : Bool) (env : SetEnv) : State × Int → Prop
  | early (h : ¬ Opened lib enabled env) :
      SetStep lib s enabled env ({ s with connperfEnabled := enabled }, -1)
  | written (h : Opened lib enabled env) (hwrite : env.fputs = true ∧ env.fclose = true) :
      SetStep lib s enabled env
        (⟨enabled, some (cString (lib.print (document enabled)))⟩, 0)
  | cut (h : Opened lib enabled env) (hwrite : ¬ (env.fputs = true ∧ env.fclose = true)) :
      SetStep lib s enabled env
        (⟨enabled, some ((cString (lib.print (document enabled))).take env.reached)⟩, -1)

theorem set_step (lib : CJson) (s : State) (enabled : Bool) (env : SetEnv) :
    SetStep lib s enabled env (connperfSet lib s enabled env) := by
  unfold connperfSet
  dsimp only
  split
  next hobject => exact .early fun h => by simp [h.1] at hobject
  next hobject =>
    split
    next hmember => exact .early fun h => by simp [h.2.1, h.2.2.1] at hmember
    next hmember =>
      split
      next hprint =>
        refine .early fun ⟨_, _, _, hprinted, hfits, _⟩ => ?_
        rcases hprint with hprint | hprint
        · simp [hprinted] at hprint
        · omega
      next hprint =>
        split
        next hfopen => exact .early fun h => by simp [h.2.2.2.2.2] at hfopen
        next hfopen =>
          rw [Bool.not_eq_false] at hobject hfopen
          rw [not_or, Bool.not_eq_false, Bool.not_eq_false] at hmember
          rw [not_or, Bool.not_eq_false] at hprint
          have hopened : Opened lib enabled env :=
            ⟨hobject, hmember.1, hmember.2, hprint.1, by omega, hfopen⟩
          split
          next hwrite => exact .written hopened (Bool.and_eq_true_iff.mp hwrite)
          next hwrite => exact .cut hopened fun h => hwrite (Bool.and_eq_true_iff.mpr h)

/-- What a call does to the two stores. -/
structure SetOutcome (lib : CJson) (s : State) (enabled : Bool) (env : SetEnv)
    (r : State × Int) : Prop where
  rc : r.2 = 0 ∨ r.2 = -1
  cached : r.1.connperfEnabled = enabled
  succeeded : r.2 = 0 → persisted lib r.1 = enabled
  early : r.2 = -1 → ¬ Opened lib enabled env → persisted lib r.1 = persisted lib s
  cut : r.2 = -1 → Opened lib enabled env → persisted lib r.1 =
    if (lib.print (document enabled)).length ≤ env.reached then enabled else false

section Faithful

variable {lib : CJson} (hlib : lib.Faithful)

include hlib

theorem set_outcome (s : State) (enabled : Bool) (env : SetEnv) :
    SetOutcome lib s enabled env (connperfSet lib s enabled env) := by
  have hstring := cString_eq (hlib.no_nul enabled)
  have hstep := set_step lib s enabled env
  generalize connperfSet lib s enabled env = r at hstep ⊢
  cases hstep with
  | early h =>
    refine ⟨Or.inr rfl, rfl, fun hrc => ?_, fun _ _ => persisted_congr lib rfl,
      fun _ hopened => absurd hopened h⟩
    cases hrc
  | written h =>
    refine ⟨Or.inl rfl, rfl, fun _ => ?_, fun hrc => ?_, fun hrc => ?_⟩
    · have hpart := persisted_part hlib (k := (lib.print (document enabled)).length)
        (s := ⟨enabled, some (cString (lib.print (document enabled)))⟩) h.2.2.2.2.1
        (by rw [hstring, List.take_length])
      rw [hpart, if_pos (Nat.le_refl _)]
    · cases hrc
    · cases hrc
  | cut h =>
    refine ⟨Or.inr rfl, rfl, fun hrc => ?_, fun _ hearly => absurd h hearly, fun _ _ => ?_⟩
    · cases hrc
    · exact persisted_part hlib h.2.2.2.2.1 (by rw [hstring])

/-- A failed call changes neither store exactly if it sets the cached value again
and leaves the file, or leaves in it what loads as before. -/
theorem failed_set_unchanged_iff {s : State} {enabled : Bool} {env : SetEnv}
    (hfailed : (connperfSet lib s enabled env).2 = -1) :
    (connperfSet lib s enabled env).1.connperfEnabled = s.connperfEnabled ∧
        persisted lib (connperfSet lib s enabled env).1 = persisted lib s ↔
      enabled = s.connperfEnabled ∧ (Opened lib enabled env → persisted lib s =
        if (lib.print (document enabled)).length ≤ env.reached then enabled else false) := by
  have hout := set_outcome hlib s enabled env
  rw [hout.cached]
  refine and_congr_right fun _ => ?_
  by_cases hopened : Opened lib enabled env
  · rw [hout.cut hfailed hopened]
    exact ⟨fun h _ => h.symm, fun h => (h hopened).symm⟩
  · exact iff_of_true (hout.early hfailed hopened) fun h => absurd h hopened

/-- The cache always takes the value; the file keeps its own until it is opened,
and then has the new one or loads the default. -/
theorem enable_set_outcome (s : State) (enabled : Bool) (env : SetEnv) :
    SetOutcome lib s enabled env (connperfSet lib s enabled env) ∧
      ∀ name, enableSet lib s (some name) (some (.boolean enabled)) env =
        ((connperfSet lib s enabled env).1,
          if (connperfSet lib s enabled env).2 = 0 then .success else .general) := by
  refine ⟨set_outcome hlib s enabled env, fun name => ?_⟩
  by_cases hrc : (connperfSet lib s enabled env).2 = 0
  · rw [enableSet, if_pos hrc]
    exact if_neg (not_not.mpr hrc)
  · rw [enableSet, if_neg hrc]
    exact if_pos hrc

end Faithful

/-! ## A library -/

/-- The text cJSON prints for a document of this file. -/
def enableText (b : Bool) : List UInt8 :=
  ("\x7b\"RFC\":\x7b\"WhenConnected\":" ++ (if b then "true" else "false") ++ "\x7d\x7d").toList.map
    fun c => UInt8.ofNat c.toNat

def textLib : CJson where
  print
    | .object [("RFC", .object [("WhenConnected", .bool b)])] => enableText b
    | _ => []
  parse text :=
    if text = enableText true then some (document true)
    else if text = enableText false then some (document false)
    else none

theorem textLib_print (b : Bool) : textLib.print (document b) = enableText b := rfl

theorem textLib_parse (text : List UInt8) : textLib.parse text =
    if text = enableText true then some (document true)
    else if text = enableText false then some (document false) else none := rfl

/-- Neither text is the start of the other. -/
theorem enableText_prefix_iff : ∀ b b', enableText b <+: enableText b' ↔ b = b' := by
  decide +kernel

theorem textLib_faithful : textLib.Faithful where
  ne_nil := by
    simp only [textLib_print]
    decide +kernel
  no_nul := by
    simp only [textLib_print]
    decide +kernel
  parse_print b := by
    have hne : enableText false ≠ enableText true := by decide +kernel
    rw [textLib_print, textLib_parse]
    cases b with
    | false => rw [if_neg hne, if_pos rfl]
    | true => rw [if_pos rfl]
  parse_cut b part hpart hne := by
    rw [textLib_print] at hpart hne
    have hno : ∀ b', part ≠ enableText b' := by
      intro b' h
      obtain rfl := (enableText_prefix_iff b' b).mp (h ▸ hpart)
      exact hne h
    rw [textLib_parse, if_neg (hno true), if_neg (hno false)]

/-- A call in which every step works. -/
def workingSet : SetEnv := ⟨true, true, true, true, true, true, true, 0⟩

theorem enable_set_outcome_working :
    SetOutcome textLib ⟨false, none⟩ true workingSet
        (connperfSet textLib ⟨false, none⟩ true workingSet) ∧
      ∀ name, enableSet textLib ⟨false, none⟩ (some name) (some (.boolean true)) workingSet =
        ((connperfSet textLib ⟨false, none⟩ true workingSet).1,
          if (connperfSet textLib ⟨false, none⟩ true workingSet).2 = 0 then .success
          else .general) :=
  enable_set_outcome textLib_faithful ⟨false, none⟩ true workingSet

/-- Without memory for the document the enable is refused and in force; a write
that fails takes a persisted enable away. -/
theorem failed_set_changes :
    (connperfSet textLib ⟨false, none⟩ true { workingSet with createObject := false }).2 = -1 ∧
      (connperfSet textLib ⟨false, none⟩ true
        { workingSet with createObject := false }).1.connperfEnabled = true ∧
      (connperfSet textLib ⟨true, some (enableText true)⟩ true
        { workingSet with fputs := false }).2 = -1 ∧
      persisted textLib ⟨true, some (enableText true)⟩ = true ∧
      persisted textLib (connperfSet textLib ⟨true, some (enableText true)⟩ true
        { workingSet with fputs := false }).1 = false := by
  refine ⟨rfl, rfl, by decide +kernel, by decide +kernel, by decide +kernel⟩

end Wei.Rfc
