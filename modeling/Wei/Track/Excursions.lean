import Mathlib.Algebra.BigOperators.Group.Finset.Basic
import Mathlib.Algebra.GroupWithZero.Nat
import Mathlib.Algebra.Ring.Int.Defs
import Mathlib.Data.List.Infix
import Wei.Lib.Mealy
import Wei.Lib.Runs
import Wei.Track.Table

/-!
# What the tracker counts

The ticks of one client, read as a sequence of samples, fall into maximal runs
below their band. One tick keeps the entry's open mark equal to the first time
of the run still open, counts an onset and adds a closed run that reaches its
floor. Summed over any interleaving of operations on the table, what was
collected and what is pending account for exactly those runs.
-/
namespace Wei.Track

open Wei.Lib Wei.Lib.SlotTable

/-- The arguments of one `wei_track_tick`. -/
structure Sample where
  metric : Int32
  now : Int
  band : Int32
  floorMs : Int

def Sample.Below (s : Sample) : Prop := s.metric < s.band

/-! ## One entry -/

/-- What a closed run contributes: its length, if the closing tick's floor is reached. -/
def sustained (xs : List Sample) (r : Nat × Nat) : Int :=
  match xs[r.1]?, xs[r.2]? with
  | some first, some last => if last.floorMs ≤ last.now - first.now then last.now - first.now else 0
  | _, _ => 0

noncomputable def sustainedTotal (xs : List Sample) : Int :=
  ∑ r ∈ Runs.closedRuns Sample.Below xs, sustained xs r

/-- The open mark of an entry that has seen the samples `xs`. -/
structure Timed (xs : List Sample) (startTs : Int) : Prop where
  closed : startTs = 0 ↔ ¬ ∃ i, Runs.Open Sample.Below xs i
  started : ∀ i s, Runs.Open Sample.Below xs i → xs[i]? = some s → startTs = s.now

theorem timed_nil : Timed [] 0 where
  closed := by simp [Runs.not_open_nil]
  started := fun _ _ h => absurd h Runs.not_open_nil

/-- Appending a sample keeps what the runs closed before it contribute. -/
theorem sustained_append {xs : List Sample} {s : Sample} {r : Nat × Nat}
    (hr : r ∈ Runs.closedRuns Sample.Below xs) : sustained (xs ++ [s]) r = sustained xs r := by
  have h := Runs.mem_closedRuns.mp hr
  have hj := h.bound
  have hi := h.lt.trans hj
  rw [sustained, List.getElem?_append_left hi, List.getElem?_append_left hj, sustained]

theorem sum_sustained_append (xs : List Sample) (s : Sample) :
    ∑ r ∈ Runs.closedRuns Sample.Below xs, sustained (xs ++ [s]) r = sustainedTotal xs :=
  Finset.sum_congr rfl fun _ hr => sustained_append hr

theorem sustainedTotal_of_none {xs : List Sample} {s : Sample}
    (h : s.Below ∨ ¬ ∃ i, Runs.Open Sample.Below xs i) :
    sustainedTotal (xs ++ [s]) = sustainedTotal xs := by
  rw [sustainedTotal, Runs.closedRuns_append_of_none h, sum_sustained_append]

theorem sustainedTotal_of_open {xs : List Sample} {s first : Sample} {i : Nat} (hs : ¬ s.Below)
    (ho : Runs.Open Sample.Below xs i) (hfirst : xs[i]? = some first) :
    sustainedTotal (xs ++ [s]) = sustainedTotal xs +
      if s.floorMs ≤ s.now - first.now then s.now - first.now else 0 := by
  have hnew : sustained (xs ++ [s]) (i, xs.length) =
      if s.floorMs ≤ s.now - first.now then s.now - first.now else 0 := by
    simp [sustained, List.getElem?_append_left ho.lt, hfirst]
  rw [sustainedTotal, Runs.closedRuns_append_of_open hs ho,
    Finset.sum_insert Runs.not_mem_closedRuns_length, hnew, sum_sustained_append]
  exact add_comm _ _

/-- One `wei_track_tick`, against the samples seen before it. -/
structure TickSpec (xs : List Sample) (s : Sample) (e e' : Entry) : Prop where
  timed : Timed (xs ++ [s]) e'.startTs
  accumulated : e'.accumulated + sustainedTotal xs = e.accumulated + sustainedTotal (xs ++ [s])
  count : (e'.count = e.count ∧ Runs.onsets Sample.Below (xs ++ [s]) = Runs.onsets Sample.Below xs) ∨
    (e'.count = e.count + 1 ∧
      Runs.onsets Sample.Below (xs ++ [s]) = Runs.onsets Sample.Below xs + 1)

theorem tick_spec {xs : List Sample} {e : Entry} (h : Timed xs e.startTs) (s : Sample)
    (hpos : 0 < s.now) : TickSpec xs s e (tick e s.metric s.now s.band s.floorMs) := by
  by_cases hs : s.Below
  · have hs' : s.metric < s.band := hs
    by_cases ho : ∃ i, Runs.Open Sample.Below xs i
    · -- the run goes on
      have hstart : e.startTs ≠ 0 := fun h0 => h.closed.mp h0 ho
      obtain ⟨i, hi⟩ := ho
      have hi' := Runs.open_append_of_open hs hi
      rw [tick, if_pos hs', if_neg hstart]
      refine ⟨⟨?_, ?_⟩, ?_, Or.inl ⟨rfl, ?_⟩⟩
      · exact iff_of_false hstart (not_not.mpr ⟨i, hi'⟩)
      · intro j a hj ha
        obtain rfl := Runs.open_unique hj hi'
        rw [List.getElem?_append_left hi.lt] at ha
        exact h.started j a hi ha
      · rw [sustainedTotal_of_none (Or.inl hs)]
      · rw [Runs.onsets_append, if_neg (fun hn => hn.2 ⟨i, hi⟩), Nat.add_zero]
    · -- a run begins
      have hopen := Runs.open_append_of_not_open hs ho
      have hstart : e.startTs = 0 := h.closed.mpr ho
      rw [tick, if_pos hs', if_pos hstart]
      refine ⟨⟨?_, ?_⟩, ?_, Or.inr ⟨rfl, ?_⟩⟩
      · exact iff_of_false hpos.ne' (not_not.mpr ⟨_, hopen⟩)
      · intro j a hj ha
        obtain rfl := Runs.open_unique hj hopen
        rw [List.getElem?_concat_length] at ha
        exact congrArg Sample.now (Option.some.inj ha)
      · rw [sustainedTotal_of_none (Or.inl hs)]
      · rw [Runs.onsets_append, if_pos ⟨hs, ho⟩]
  · have hs' : ¬ s.metric < s.band := hs
    have hnone : ¬ ∃ i, Runs.Open Sample.Below (xs ++ [s]) i := Runs.not_open_append hs
    have htimed : Timed (xs ++ [s]) 0 :=
      ⟨iff_of_true rfl hnone, fun i _ hi => absurd ⟨i, hi⟩ hnone⟩
    have honsets : Runs.onsets Sample.Below (xs ++ [s]) = Runs.onsets Sample.Below xs := by
      rw [Runs.onsets_append, if_neg (fun hn => hs hn.1), Nat.add_zero]
    by_cases ho : ∃ i, Runs.Open Sample.Below xs i
    · -- the open run closes
      have hstart : e.startTs ≠ 0 := fun h0 => h.closed.mp h0 ho
      obtain ⟨i, hi⟩ := ho
      obtain ⟨first, hfirst⟩ : ∃ first, xs[i]? = some first :=
        ⟨xs.get ⟨i, hi.lt⟩, List.getElem?_eq_getElem hi.lt⟩
      have htotal := sustainedTotal_of_open hs hi hfirst
      rw [← h.started i _ hi hfirst] at htotal
      rw [tick, if_neg hs', if_pos hstart]
      dsimp only
      by_cases hf : s.floorMs ≤ s.now - e.startTs
      · rw [if_pos hf] at htotal ⊢
        refine ⟨htimed, ?_, Or.inl ⟨rfl, honsets⟩⟩
        rw [htotal]
        dsimp only
        omega
      · rw [if_neg hf] at htotal ⊢
        refine ⟨htimed, ?_, Or.inl ⟨rfl, honsets⟩⟩
        rw [htotal]
        dsimp only
        omega
    · have hstart : e.startTs = 0 := h.closed.mpr ho
      rw [tick, if_neg hs', if_neg (not_not.mpr hstart)]
      refine ⟨hstart ▸ htimed, ?_, Or.inl ⟨rfl, honsets⟩⟩
      rw [sustainedTotal_of_none (Or.inr ho)]

/-! ## Operations on the table -/

/-- One use of the table: `wei_track_get` with the tick or the collect that
follows it, or a reap. A `NULL` entry makes both of them do nothing. -/
inductive Op where
  | tick (mac : Mac) (s : Sample)
  | collect (mac : Mac) (now : Int)
  | reap (now absence : Int)

/-- `wei_track_get`, and the use of the entry it hands out. -/
def withEntry (t : Table) (mac : Mac) (now : Int) (f : Entry → Entry × Option (Mac × Record)) :
    Table × Option (Mac × Record) :=
  match get t mac now with
  | (t', some i) => (Function.update t' i (f (t' i)).1, (f (t' i)).2)
  | (t', none) => (t', none)

def step (t : Table) : Op → Table × Option (Mac × Record)
  | .tick mac s => withEntry t mac s.now fun e => (tick e s.metric s.now s.band s.floorMs, none)
  | .collect mac now => withEntry t mac now fun e => ((collect e).1, some (mac, (collect e).2))
  | .reap now absence => (reap t now absence, none)

def machine : Mealy Table Op (Option (Mac × Record)) := ⟨step⟩

/-- The table after a sequence of operations. -/
abbrev after (ops : List Op) : Table := machine.final init ops

/-- The ticks of one client, in order. -/
def ticksOf (mac : Mac) (ops : List Op) : List Sample :=
  ops.filterMap fun op => match op with
    | .tick mac' s => if mac' = mac then some s else none
    | _ => none

/-- The records collected for one client, in order. -/
def recordsOf (mac : Mac) (outs : List (Option (Mac × Record))) : List Record :=
  outs.filterMap fun out => match out with
    | some (mac', r) => if mac' = mac then some r else none
    | none => none

/-- The entry `wei_track_get` hands out for `mac`. -/
def entryFor (t : Table) (mac : Mac) (now : Int) : Entry :=
  ((lookup t mac).getD (Entry.claimed mac now)).seen now

theorem entryFor_member (t : Table) (mac : Mac) (now : Int) :
    (entryFor t mac now).inUse = true ∧ (entryFor t mac now).mac = mac := by
  unfold entryFor
  cases hl : lookup t mac with
  | none => exact ⟨rfl, rfl⟩
  | some e => exact key_of_lookup hl

/-- The table after a write through the entry that was handed out. -/
structure Wrote (t : Table) (mac : Mac) (e : Entry) (t' : Table) : Prop where
  distinct : Distinct t'
  self : lookup t' mac = some e
  other : ∀ mac', mac' ≠ mac → lookup t' mac' = lookup t mac'

theorem wrote_put {t : Table} (hd : Distinct t) {mac : Mac} {i : Fin maxClients}
    (hc : CanPut t mac i) {e : Entry} (hu : e.inUse = true) (hk : e.mac = mac) :
    Wrote t mac e (Function.update t i e) :=
  ⟨distinct_put hd hc hu hk, lookup_put_self hd hc hu hk,
    fun _ hne => lookup_put_of_ne hd hc hu hk hne⟩

/-- Either the entry is used and written back, or the table is full and nothing happens. -/
theorem withEntry_spec {t : Table} (hd : Distinct t) (mac : Mac) (now : Int)
    {f : Entry → Entry × Option (Mac × Record)}
    (hf : ∀ e, (f e).1.inUse = e.inUse ∧ (f e).1.mac = e.mac) :
    (Wrote t mac (f (entryFor t mac now)).1 (withEntry t mac now f).1 ∧
      (withEntry t mac now f).2 = (f (entryFor t mac now)).2) ∨
    (lookup t mac = none ∧ withEntry t mac now f = (t, none)) := by
  have hspec := get_spec t mac now
  obtain ⟨hu, hk⟩ := entryFor_member t mac now
  obtain ⟨hu', hk'⟩ := hf (entryFor t mac now)
  have hwrote : ∀ i, CanPut t mac i → Wrote t mac (f (entryFor t mac now)).1
      (Function.update t i (f (entryFor t mac now)).1) :=
    fun i hc => wrote_put hd hc (hu'.trans hu) (hk'.trans hk)
  unfold withEntry
  generalize get t mac now = r at hspec ⊢
  cases hspec with
  | found i hs =>
    have he : (t i).seen now = entryFor t mac now := by
      rw [entryFor, lookup_of_holds hd (scan_hit hs)]
      rfl
    dsimp only
    rw [Function.update_self, Function.update_idem, he]
    exact Or.inl ⟨hwrote i (canPut_of_hit hs), rfl⟩
  | claimed i hs =>
    have he : Entry.claimed mac now = entryFor t mac now := by
      rw [entryFor, lookup_of_absent (scan_free hs).2]
      rfl
    dsimp only
    rw [Function.update_self, Function.update_idem, he]
    exact Or.inl ⟨hwrote i (canPut_of_free hs), rfl⟩
  | full hs => exact Or.inr ⟨lookup_of_absent fun i hi => (scan_full hs i).2 hi.2, rfl⟩

theorem tick_member (s : Sample) (e : Entry) :
    (tick e s.metric s.now s.band s.floorMs).inUse = e.inUse ∧
      (tick e s.metric s.now s.band s.floorMs).mac = e.mac :=
  ⟨tick_inUse e _ _ _ _, tick_mac e _ _ _ _⟩

theorem distinct_step {t : Table} (hd : Distinct t) (op : Op) : Distinct (step t op).1 := by
  cases op with
  | reap now absence => exact distinct_reap hd now absence
  | tick mac s =>
    rcases withEntry_spec hd mac s.now (f := fun e => (tick e s.metric s.now s.band s.floorMs, none))
      (tick_member s) with ⟨hw, _⟩ | ⟨_, ht⟩
    · exact hw.distinct
    · rw [step, ht]
      exact hd
  | collect mac now =>
    rcases withEntry_spec hd mac now (f := fun e => ((collect e).1, some (mac, (collect e).2)))
      (fun _ => ⟨rfl, rfl⟩) with ⟨hw, _⟩ | ⟨_, ht⟩
    · exact hw.distinct
    · rw [step, ht]
      exact hd

/-- What one operation does to the entry of `mac`, if `mac` has one afterwards. -/
inductive StepSpec (mac : Mac) (t : Table) : Op → Table × Option (Mac × Record) → Prop
  | tick (s : Sample) (t' : Table) (h : lookup t' mac =
      some (Track.tick (entryFor t mac s.now) s.metric s.now s.band s.floorMs)) :
      StepSpec mac t (.tick mac s) (t', none)
  | collect (now : Int) (t' : Table)
      (h : lookup t' mac = some (Track.collect (entryFor t mac now)).1) :
      StepSpec mac t (.collect mac now) (t', some (mac, (Track.collect (entryFor t mac now)).2))
  | idle (op : Op) (t' : Table) (out : Option (Mac × Record)) (hticks : ticksOf mac [op] = [])
      (hcollect : ∀ now, op ≠ .collect mac now) (hrecords : recordsOf mac [out] = [])
      (h : lookup t' mac = lookup t mac) : StepSpec mac t op (t', out)

theorem step_spec {t : Table} (hd : Distinct t) (mac : Mac) (op : Op)
    (hlive : (lookup (step t op).1 mac).isSome = true) : StepSpec mac t op (step t op) := by
  cases op with
  | reap now absence =>
    refine .idle _ _ _ rfl (by simp) rfl ?_
    have hl : lookup (reap t now absence) mac =
      (lookup t mac).filter (fun e => !e.absent now absence) := lookup_reap hd now absence mac
    have hlive' : (lookup (reap t now absence) mac).isSome = true := hlive
    rw [hl] at hlive' ⊢
    obtain ⟨e, he⟩ := Option.isSome_iff_exists.mp hlive'
    rw [he, Option.eq_some_of_filter_eq_some he]
  | tick mac' s =>
    have hspec := withEntry_spec hd mac' s.now
      (f := fun e => (Track.tick e s.metric s.now s.band s.floorMs, none)) (tick_member s)
    rw [step] at hlive ⊢
    generalize withEntry t mac' s.now _ = r at hspec hlive ⊢
    obtain ⟨t', out⟩ := r
    by_cases hm : mac' = mac
    · subst hm
      rcases hspec with ⟨hw, hout⟩ | ⟨hnone, ht⟩
      · obtain rfl : out = none := hout
        exact .tick s t' hw.self
      · obtain ⟨rfl, -⟩ := Prod.mk.inj ht
        rw [hnone] at hlive
        cases hlive
    · have hticks : ticksOf mac [Op.tick mac' s] = [] := by simp [ticksOf, hm]
      rcases hspec with ⟨hw, hout⟩ | ⟨_, ht⟩
      · obtain rfl : out = none := hout
        exact .idle _ _ _ hticks (by simp) rfl (hw.other mac (Ne.symm hm))
      · obtain ⟨rfl, rfl⟩ := Prod.mk.inj ht
        exact .idle _ _ _ hticks (by simp) rfl rfl
  | collect mac' now =>
    have hspec := withEntry_spec hd mac' now
      (f := fun e => ((Track.collect e).1, some (mac', (Track.collect e).2))) (fun _ => ⟨rfl, rfl⟩)
    rw [step] at hlive ⊢
    generalize withEntry t mac' now _ = r at hspec hlive ⊢
    obtain ⟨t', out⟩ := r
    by_cases hm : mac' = mac
    · subst hm
      rcases hspec with ⟨hw, hout⟩ | ⟨hnone, ht⟩
      · obtain rfl : out = _ := hout
        exact .collect now t' hw.self
      · obtain ⟨rfl, -⟩ := Prod.mk.inj ht
        rw [hnone] at hlive
        cases hlive
    · rcases hspec with ⟨hw, hout⟩ | ⟨_, ht⟩
      · obtain rfl : out = _ := hout
        exact .idle _ _ _ rfl (by simp [hm]) (by simp [recordsOf, hm]) (hw.other mac (Ne.symm hm))
      · obtain ⟨rfl, rfl⟩ := Prod.mk.inj ht
        exact .idle _ _ _ rfl (by simp [hm]) rfl rfl

/-! ## The account of one client -/

/-- What the table holds for `mac`; nothing is pending for an absent client. -/
def pending (t : Table) (mac : Mac) : Entry := (lookup t mac).getD Entry.zero

theorem entryFor_pending (t : Table) (mac : Mac) (now : Int) :
    (entryFor t mac now).startTs = (pending t mac).startTs ∧
      (entryFor t mac now).accumulated = (pending t mac).accumulated ∧
      (entryFor t mac now).count = (pending t mac).count := by
  unfold entryFor pending
  cases lookup t mac <;> exact ⟨rfl, rfl, rfl⟩

def collectedCount (mac : Mac) (outs : List (Option (Mac × Record))) : Nat :=
  ((recordsOf mac outs).map (fun r => r.count.toNat)).sum

def collectedDuration (mac : Mac) (outs : List (Option (Mac × Record))) : Int :=
  ((recordsOf mac outs).map Record.durationMs).sum

/-- The runs in the ticks of `mac`. -/
noncomputable def runCount (mac : Mac) (ops : List Op) : Nat :=
  Runs.onsets Sample.Below (ticksOf mac ops)

/-- What was collected and what is pending, against the ticks of `mac`. -/
structure Account (mac : Mac) (ops : List Op) (outs : List (Option (Mac × Record)))
    (e : Entry) : Prop where
  timed : Timed (ticksOf mac ops) e.startTs
  duration : collectedDuration mac outs + e.accumulated = sustainedTotal (ticksOf mac ops)
  count : collectedCount mac outs + e.count.toNat = runCount mac ops
  since : ∃ a b, ops = a ++ b ∧ (∀ now, Op.collect mac now ∉ b) ∧
    runCount mac a = collectedCount mac outs

theorem account_nil (mac : Mac) : Account mac [] [] Entry.zero where
  timed := timed_nil
  duration := by simp [collectedDuration, recordsOf, sustainedTotal, ticksOf, Runs.closedRuns_nil,
    Entry.zero]
  count := by simp [collectedCount, recordsOf, runCount, ticksOf, Runs.onsets_nil, Entry.zero]
  since := ⟨[], [], rfl, by simp, by
    simp [runCount, ticksOf, Runs.onsets_nil, collectedCount, recordsOf]⟩

theorem ticksOf_append (mac : Mac) (ops : List Op) (op : Op) :
    ticksOf mac (ops ++ [op]) = ticksOf mac ops ++ ticksOf mac [op] := List.filterMap_append

theorem recordsOf_append (mac : Mac) (outs : List (Option (Mac × Record)))
    (out : Option (Mac × Record)) :
    recordsOf mac (outs ++ [out]) = recordsOf mac outs ++ recordsOf mac [out] :=
  List.filterMap_append

theorem recordsOf_none (mac : Mac) (outs : List (Option (Mac × Record))) :
    recordsOf mac (outs ++ [none]) = recordsOf mac outs := by
  rw [recordsOf_append]
  exact List.append_nil _

section AccountStep

variable {mac : Mac} {ops : List Op} {outs : List (Option (Mac × Record))} {e e₀ : Entry}

theorem Account.undisturbed (h : Account mac ops outs e) {op : Op} {out : Option (Mac × Record)}
    (hidle : ticksOf mac [op] = []) (hcollect : ∀ now, op ≠ .collect mac now)
    (hrecords : recordsOf mac [out] = []) : Account mac (ops ++ [op]) (outs ++ [out]) e := by
  obtain ⟨a, b, hops, hb, hsince⟩ := h.since
  have hticks : ticksOf mac (ops ++ [op]) = ticksOf mac ops := by
    rw [ticksOf_append, hidle, List.append_nil]
  have hrecs : recordsOf mac (outs ++ [out]) = recordsOf mac outs := by
    rw [recordsOf_append, hrecords, List.append_nil]
  refine ⟨hticks ▸ h.timed, ?_, ?_, a, b ++ [op], by rw [hops, List.append_assoc], ?_, ?_⟩
  · rw [hticks, collectedDuration, hrecs]
    exact h.duration
  · rw [runCount, hticks, collectedCount, hrecs]
    exact h.count
  · intro now hm
    rcases List.mem_append.mp hm with hm | hm
    · exact hb now hm
    · exact hcollect now (List.mem_singleton.mp hm).symm
  · rw [collectedCount, hrecs]
    exact hsince

/-- A tick of `mac`, on an entry `e₀` with the same pending values. -/
theorem Account.ticked (h : Account mac ops outs e) (hstart : e₀.startTs = e.startTs)
    (hacc : e₀.accumulated = e.accumulated) (hcnt : e₀.count = e.count) (s : Sample)
    (hclock : 0 < s.now)
    (hbound : ∀ a b, ops ++ [.tick mac s] = a ++ b → (∀ now, Op.collect mac now ∉ b) →
      runCount mac (ops ++ [.tick mac s]) < runCount mac a + 2 ^ 32) :
    Account mac (ops ++ [.tick mac s]) (outs ++ [none])
      (Track.tick e₀ s.metric s.now s.band s.floorMs) := by
  obtain ⟨a, b, hops, hb, hsince⟩ := h.since
  have hcount := h.count
  have hticks : ticksOf mac (ops ++ [.tick mac s]) = ticksOf mac ops ++ [s] := by
    rw [ticksOf_append]
    simp [ticksOf]
  have hspec := tick_spec (e := e₀) (hstart ▸ h.timed) s hclock
  have hops' : ops ++ [.tick mac s] = a ++ (b ++ [.tick mac s]) := by rw [hops, List.append_assoc]
  have hb' : ∀ now, Op.collect mac now ∉ b ++ [Op.tick mac s] := by
    simpa using hb
  have hlt := hbound a (b ++ [.tick mac s]) hops' hb'
  rw [hsince] at hlt
  refine ⟨hticks ▸ hspec.timed, ?_, ?_, a, b ++ [.tick mac s], hops', hb', ?_⟩
  · have hdur := h.duration
    have hspent := hspec.accumulated
    rw [hacc] at hspent
    rw [hticks, collectedDuration, recordsOf_none, ← collectedDuration]
    omega
  · rw [collectedCount, recordsOf_none, ← collectedCount]
    rw [runCount, hticks] at hlt ⊢
    rw [runCount] at hcount
    rcases hspec.count with ⟨hc, hn⟩ | ⟨hc, hn⟩
    · rw [hc, hcnt, hn]
      exact hcount
    · rw [hn] at hlt
      have hone : (1 : UInt32).toNat = 1 := rfl
      rw [hc, hcnt, hn, UInt32.toNat_add, hone, Nat.mod_eq_of_lt (by omega)]
      omega
  · rw [collectedCount, recordsOf_none]
    exact hsince

/-- A collect of `mac`, which leaves nothing pending. -/
theorem Account.collected (h : Account mac ops outs e) (hstart : e₀.startTs = e.startTs)
    (hacc : e₀.accumulated = e.accumulated) (hcnt : e₀.count = e.count) (now : Int) :
    Account mac (ops ++ [.collect mac now]) (outs ++ [some (mac, (Track.collect e₀).2)])
      (Track.collect e₀).1 := by
  have hticks : ticksOf mac (ops ++ [.collect mac now]) = ticksOf mac ops := by
    rw [ticksOf_append]
    exact List.append_nil _
  have hruns : runCount mac (ops ++ [.collect mac now]) = runCount mac ops := by
    rw [runCount, hticks, runCount]
  have hrecords : recordsOf mac (outs ++ [some (mac, (Track.collect e₀).2)]) =
      recordsOf mac outs ++ [(Track.collect e₀).2] := by
    rw [recordsOf_append]
    simp [recordsOf]
  have hsum : collectedCount mac (outs ++ [some (mac, (Track.collect e₀).2)]) =
      runCount mac ops := by
    rw [collectedCount, hrecords, List.map_append, List.sum_append, ← collectedCount, ← h.count,
      ← hcnt]
    simp [Track.collect]
  refine ⟨hticks ▸ hstart ▸ h.timed, ?_, ?_, ops ++ [.collect mac now], [], by simp, by simp, ?_⟩
  · rw [hticks, ← h.duration, ← hacc, collectedDuration, hrecords, collectedDuration]
    simp [Track.collect]
  · rw [hsum, hruns]
    exact Nat.add_zero _
  · rw [hruns, hsum]

end AccountStep

/-- One operation keeps the account of `mac`, unless the onset counter wraps. -/
theorem account_step {mac : Mac} {ops : List Op} {outs : List (Option (Mac × Record))} {t : Table}
    (hd : Distinct t) (h : Account mac ops outs (pending t mac)) (op : Op)
    (hlive : (lookup (step t op).1 mac).isSome = true)
    (hclock : ∀ s ∈ ticksOf mac [op], 0 < s.now)
    (hbound : ∀ a b, ops ++ [op] = a ++ b → (∀ now, Op.collect mac now ∉ b) →
      runCount mac (ops ++ [op]) < runCount mac a + 2 ^ 32) :
    Account mac (ops ++ [op]) (outs ++ [(step t op).2]) (pending (step t op).1 mac) := by
  have hspec := step_spec hd mac op hlive
  generalize step t op = r at hspec ⊢
  cases hspec with
  | tick s t' hl =>
    obtain ⟨hstart, hacc, hcnt⟩ := entryFor_pending t mac s.now
    rw [pending, hl, Option.getD_some]
    exact h.ticked hstart hacc hcnt s (hclock s (by simp [ticksOf])) hbound
  | collect now t' hl =>
    obtain ⟨hstart, hacc, hcnt⟩ := entryFor_pending t mac now
    rw [pending, hl, Option.getD_some]
    exact h.collected hstart hacc hcnt now
  | idle _ t' out hidle hcollect hrecords hl =>
    rw [pending, hl, ← pending]
    exact h.undisturbed hidle hcollect hrecords

/-! ## The life of an entry -/

/-- `post` runs from the creation of the entry of `mac` to before it is reaped,
under a positive clock and without an overflow of the onset counter. -/
structure Epoch (mac : Mac) (pre post : List Op) : Prop where
  fresh : lookup (after pre) mac = none
  live : ∀ a b, post = a ++ b → a ≠ [] → (lookup (after (pre ++ a)) mac).isSome = true
  clock : ∀ s ∈ ticksOf mac post, 0 < s.now
  onsets : ∀ a b c, post = a ++ b ++ c → (∀ now, Op.collect mac now ∉ b) →
    runCount mac (a ++ b) < runCount mac a + 2 ^ 32

theorem Epoch.of_append {mac : Mac} {pre post : List Op} {op : Op}
    (h : Epoch mac pre (post ++ [op])) : Epoch mac pre post where
  fresh := h.fresh
  live := fun a b hab hne => h.live a (b ++ [op]) (by rw [hab, List.append_assoc]) hne
  clock := fun s hs => h.clock s (by rw [ticksOf_append]; exact List.mem_append_left _ hs)
  onsets := fun a b c habc hb =>
    h.onsets a b (c ++ [op]) (by rw [habc, List.append_assoc, List.append_assoc]) hb

theorem distinct_after (ops : List Op) : Distinct (after ops) :=
  machine.final_induction (p := Distinct) (fun _ op hd => distinct_step hd op) distinct_init ops

theorem account_run {mac : Mac} {pre post : List Op} (h : Epoch mac pre post) :
    Account mac post (machine.outputs (after pre) post) (pending (after (pre ++ post)) mac) := by
  induction post using List.reverseRecOn with
  | nil =>
    rw [List.append_nil, pending, h.fresh]
    exact account_nil mac
  | append_singleton post op ih =>
    have hlive := h.live (post ++ [op]) [] (by simp) (by simp)
    have hafter : after (pre ++ (post ++ [op])) = (step (after (pre ++ post)) op).1 := by
      rw [← List.append_assoc]
      exact machine.final_concat _ _ _
    have hout : machine.final (after pre) post = after (pre ++ post) :=
      (machine.final_append _ _ _).symm
    rw [hafter] at hlive ⊢
    rw [Mealy.outputs_concat, hout]
    refine account_step (distinct_after _) (ih h.of_append) op hlive ?_ ?_
    · intro s hs
      exact h.clock s (by rw [ticksOf_append]; exact List.mem_append_right _ hs)
    · intro a b hab hb
      have := h.onsets a b [] (by rw [List.append_nil, hab]) hb
      rwa [← hab] at this

/-- Onsets collected and pending over `post`. -/
def totalCount (mac : Mac) (pre post : List Op) : Nat :=
  collectedCount mac (machine.outputs (after pre) post) +
    (pending (after (pre ++ post)) mac).count.toNat

/-- Durations collected and pending over `post`. -/
def totalDuration (mac : Mac) (pre post : List Op) : Int :=
  collectedDuration mac (machine.outputs (after pre) post) +
    (pending (after (pre ++ post)) mac).accumulated

/-- The account is exact, and depends on nothing but the ticks of `mac`. -/
theorem excursion_accounting_exact {mac : Mac} {pre post : List Op} (h : Epoch mac pre post) :
    totalCount mac pre post = Runs.onsets Sample.Below (ticksOf mac post) ∧
    totalDuration mac pre post =
      ∑ r ∈ Runs.closedRuns Sample.Below (ticksOf mac post), sustained (ticksOf mac post) r ∧
    ∀ pre' post', Epoch mac pre' post' → ticksOf mac post' = ticksOf mac post →
      totalCount mac pre' post' = totalCount mac pre post ∧
        totalDuration mac pre' post' = totalDuration mac pre post := by
  have hrun := account_run h
  refine ⟨hrun.count, hrun.duration, ?_⟩
  intro pre' post' h' hticks
  have hrun' := account_run h'
  constructor
  · rw [totalCount, totalCount, hrun.count, hrun'.count, runCount, hticks, runCount]
  · rw [totalDuration, totalDuration, hrun.duration, hrun'.duration, hticks]

theorem epoch_of_prefixes {mac : Mac} {pre post : List Op} (hfresh : lookup (after pre) mac = none)
    (hlive : ∀ a ∈ post.inits, a ≠ [] → (lookup (after (pre ++ a)) mac).isSome = true)
    (hclock : ∀ s ∈ ticksOf mac post, 0 < s.now) (hlen : post.length < 2 ^ 32) :
    Epoch mac pre post where
  fresh := hfresh
  live := fun a b hab hne => hlive a ((List.mem_inits a post).mpr ⟨b, hab.symm⟩) hne
  clock := hclock
  onsets := by
    intro a b c habc _
    have hle : runCount mac (a ++ b) ≤ (ticksOf mac (a ++ b)).length := Runs.onsets_le_length
    have hticks : (ticksOf mac (a ++ b)).length ≤ (a ++ b).length := List.length_filterMap_le _ _
    have hsub : (a ++ b).length ≤ post.length := by
      rw [habc, @List.length_append _ (a ++ b)]
      omega
    omega

/-- An excursion that outlasts a collect. -/
def outlasting (mac : Mac) : List Op :=
  [.tick mac ⟨0, 1, 5, 10⟩, .collect mac 5, .tick mac ⟨9, 20, 5, 10⟩]

theorem excursion_accounting_exact_outlasting :
    totalDuration (Vector.replicate 6 1) [] (outlasting (Vector.replicate 6 1)) =
      ∑ r ∈ Runs.closedRuns Sample.Below (ticksOf (Vector.replicate 6 1)
        (outlasting (Vector.replicate 6 1))),
        sustained (ticksOf (Vector.replicate 6 1) (outlasting (Vector.replicate 6 1))) r :=
  (excursion_accounting_exact (epoch_of_prefixes (by decide +kernel) (by decide +kernel)
    (by simp [outlasting, ticksOf]) (by simp [outlasting]))).2.1

end Wei.Track
