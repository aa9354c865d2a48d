import Wei.Lib.Blocks
import Wei.Infer.Client

/-!
# The episode ledger

`wei_infer_ledger_update` keeps no state of its own beside the ledger: whether an
episode is open is read off the stop stamp of the newest ring entry. The ledger
holds the maximal stretches of `DEGRADED` calls, the last `WEI_INFER_EPISODE_CAP`
of them in its ring.
-/
namespace Wei.Infer

open Wei.Lib Wei.Lib.Blocks

/-- The ledger after the calls of `cs`, each with its verdict and its time. -/
def ledgerAfter (cs : List (Verdict × Int)) : EpisodeLog :=
  cs.foldl (fun log c => ledgerUpdate log c.1 c.2) EpisodeLog.zero

/-- The entries of the ring from the newest back. -/
def EpisodeLog.recent (log : EpisodeLog) : List Episode :=
  (List.range log.fill).map fun back => log.ring (log.head - Fin.ofNat episodeCap back)

def isDegraded (c : Verdict × Int) : Bool := decide (c.1 = .degraded)

@[simp] theorem isDegraded_degraded (now : Int) : isDegraded (.degraded, now) = true := rfl

@[simp] theorem isDegraded_smooth (now : Int) : isDegraded (.smooth, now) = false := rfl

/-- The episode of a stretch that began with a call and was ended by another; 0
stands for a stop stamp that is not there. -/
def Episode.ofBlock (b : (Verdict × Int) × Option (Verdict × Int)) : Episode :=
  ⟨b.1.2, (b.2.map Prod.snd).getD 0⟩

/-- The stretches of `DEGRADED` calls, oldest first. -/
def degradedRuns (cs : List (Verdict × Int)) : List Episode :=
  (blocks isDegraded cs).map Episode.ofBlock

/-! ## The ring of the ledger -/

/-- The ring with its head one cell on, where the next episode goes. -/
def EpisodeLog.asRing (log : EpisodeLog) : Ring Episode episodeCap where
  buf := log.ring
  head := if 0 < log.fill then log.head + 1 else 0
  fill := log.fill
  fill_le := Nat.le_of_lt_succ log.fill.isLt

def EpisodeLog.isOpen (log : EpisodeLog) : Bool :=
  decide (0 < log.fill) && decide ((log.ring log.head).stopMs = 0)

theorem asRing_head {log : EpisodeLog} (h : 0 < log.fill) :
    log.asRing.head.val = (log.head.val + 1) % 8 := by
  rw [show log.asRing.head = log.head + 1 from if_pos h, Fin.val_add]
  rfl

theorem asRing_newest {log : EpisodeLog} (h : 0 < log.fill) : log.asRing.newest = log.head := by
  have hhead := asRing_head h
  have hlt : log.head.val < 8 := log.head.isLt
  apply Fin.ext
  change (log.asRing.head.val + 8 - 1) % 8 = log.head.val
  omega

theorem fill_pos_of_isOpen {log : EpisodeLog} (h : log.isOpen = true) : 0 < log.fill := by
  rw [EpisodeLog.isOpen, Bool.and_eq_true] at h
  exact of_decide_eq_true h.1

theorem ledgerUpdate_open {log : EpisodeLog} (h : log.isOpen = true) (now : Int) :
    ledgerUpdate log .degraded now = log := by
  rw [EpisodeLog.isOpen] at h
  simp [ledgerUpdate, h]

theorem ledgerUpdate_closed {log : EpisodeLog} (h : log.isOpen = false) (now : Int) :
    ledgerUpdate log .smooth now = log := by
  rw [EpisodeLog.isOpen] at h
  simp [ledgerUpdate, h]

/-- What a call does that opens an episode. -/
structure Opens (log log' : EpisodeLog) (now : Int) : Prop where
  ring : log'.asRing = log.asRing.push ⟨now, 0⟩
  episodes : log'.episodes = if log.episodes < 4294967295 then log.episodes + 1 else log.episodes
  isOpen : log'.isOpen = true

theorem ledgerUpdate_opens {log : EpisodeLog} (h : log.isOpen = false) (now : Int) :
    Opens log (ledgerUpdate log .degraded now) now := by
  rw [EpisodeLog.isOpen] at h
  have hpos : 0 < (if h : log.fill.val < episodeCap then
      (⟨log.fill.val + 1, by omega⟩ : Fin (episodeCap + 1)) else log.fill) := by
    rw [Fin.lt_def]
    split
    · exact Nat.succ_pos _
    · have hcap : episodeCap = 8 := rfl
      exact Nat.lt_of_lt_of_le (by decide) (show 8 ≤ log.fill.val by omega)
  simp only [ledgerUpdate, h]
  refine ⟨?_, rfl, ?_⟩
  · simp only [EpisodeLog.asRing, Wei.Lib.Ring.push, Wei.Lib.Ring.mk.injEq, hpos, if_true]
    refine ⟨by trivial, Fin.ext (Fin.val_add _ _), ?_⟩
    by_cases hfull : log.fill.val < episodeCap <;> simp [hfull]
  · simp [EpisodeLog.isOpen, hpos]

/-- What a call does that ends an episode. -/
structure Closes (log log' : EpisodeLog) (now : Int) : Prop where
  ring : log'.asRing = { log.asRing with
    buf := Function.update log.asRing.buf log.asRing.newest ⟨(log.ring log.head).startMs, now⟩ }
  episodes : log'.episodes = log.episodes
  isOpen : 0 < now → log'.isOpen = false

theorem ledgerUpdate_closes {log : EpisodeLog} (h : log.isOpen = true) (now : Int) :
    Closes log (ledgerUpdate log .smooth now) now := by
  have hnewest := asRing_newest (fill_pos_of_isOpen h)
  rw [EpisodeLog.isOpen] at h
  simp only [ledgerUpdate, h, if_true]
  refine ⟨?_, rfl, ?_⟩
  · rw [hnewest]
    rfl
  · intro hnow
    simp [EpisodeLog.isOpen]
    omega

/-! ## Over a run of calls -/

/-- What the ledger holds after the calls of `cs`. -/
structure Logged (cs : List (Verdict × Int)) (log : EpisodeLog) : Prop where
  ring : Ring.Represents log.asRing (degradedRuns cs)
  episodes : log.episodes.toNat = min (degradedRuns cs).length 4294967295
  isOpen : log.isOpen = endsInside isDegraded cs

theorem logged_zero : Logged [] EpisodeLog.zero where
  ring := by
    have hempty : EpisodeLog.zero.asRing = Ring.empty (⟨0, 0⟩ : Episode) := rfl
    rw [hempty, degradedRuns, blocks, List.map_nil]
    exact Ring.represents_empty _
  episodes := by simp [degradedRuns, blocks, EpisodeLog.zero]
  isOpen := rfl

theorem Logged.step {cs : List (Verdict × Int)} {log : EpisodeLog} (h : Logged cs log)
    {c : Verdict × Int} (hpos : 0 < c.2) : Logged (cs ++ [c]) (ledgerUpdate log c.1 c.2) := by
  obtain ⟨verdict, now⟩ := c
  have hring := h.ring
  have hepisodes := h.episodes
  obtain ⟨hout, hin⟩ := blocks_concat isDegraded cs (verdict, now)
  rw [← h.isOpen] at hout hin
  have hends := endsInside_concat (p := isDegraded) cs (verdict, now)
  cases hopen : log.isOpen with
  | false =>
    have hruns := hout hopen
    cases verdict with
    | smooth =>
      have hsame : degradedRuns (cs ++ [(.smooth, now)]) = degradedRuns cs := by
        rw [degradedRuns, hruns, isDegraded_smooth, if_neg Bool.false_ne_true, List.append_nil,
          degradedRuns]
      rw [ledgerUpdate_closed hopen]
      exact ⟨hsame ▸ hring, hsame ▸ hepisodes, hopen.trans hends.symm⟩
    | degraded =>
      have hnew : degradedRuns (cs ++ [(.degraded, now)]) = degradedRuns cs ++ [⟨now, 0⟩] := by
        rw [degradedRuns, hruns, isDegraded_degraded, if_pos rfl, List.map_append, degradedRuns]
        rfl
      obtain ⟨hpush, hcount, hopen'⟩ := ledgerUpdate_opens hopen now
      refine ⟨?_, ?_, hopen'.trans hends.symm⟩
      · rw [hpush, hnew]
        exact Ring.represents_push hring _
      · rw [hcount, hnew, List.length_append, List.length_singleton]
        split
        · rename_i hlt
          have hlt' : log.episodes.toNat < 4294967295 := UInt32.lt_iff_toNat_lt.mp hlt
          have hone : (1 : UInt32).toNat = 1 := rfl
          rw [UInt32.toNat_add, hone, Nat.mod_eq_of_lt (by omega)]
          omega
        · rename_i hge
          have hge' : ¬ log.episodes.toNat < 4294967295 := fun hlt =>
            hge (UInt32.lt_iff_toNat_lt.mpr hlt)
          omega
  | true =>
    obtain ⟨bs, a, hruns, hruns'⟩ := hin hopen
    have hold : degradedRuns cs = bs.map Episode.ofBlock ++ [⟨a.2, 0⟩] := by
      rw [degradedRuns, hruns, List.map_append]
      rfl
    cases verdict with
    | degraded =>
      have hsame : degradedRuns (cs ++ [(.degraded, now)]) = degradedRuns cs := by
        rw [degradedRuns, hruns', isDegraded_degraded, if_pos rfl, degradedRuns, hruns]
      rw [ledgerUpdate_open hopen]
      exact ⟨hsame ▸ hring, hsame ▸ hepisodes, hopen.trans hends.symm⟩
    | smooth =>
      have hnew : degradedRuns (cs ++ [(.smooth, now)]) =
          bs.map Episode.ofBlock ++ [⟨a.2, now⟩] := by
        rw [degradedRuns, hruns', isDegraded_smooth, if_neg Bool.false_ne_true, List.map_append]
        rfl
      rw [hold] at hring hepisodes
      obtain ⟨hamend, hcount, hclosed⟩ := ledgerUpdate_closes hopen now
      have hhead : log.ring log.head = ⟨a.2, 0⟩ := by
        have hlast := Ring.buf_newest hring (by simp)
        rw [List.getLast_concat, asRing_newest (fill_pos_of_isOpen hopen)] at hlast
        exact hlast
      refine ⟨?_, ?_, (hclosed hpos).trans hends.symm⟩
      · rw [hamend, hnew, hhead]
        exact Ring.represents_amend hring _
      · rw [hcount, hnew, hepisodes, List.length_append, List.length_append, List.length_singleton,
          List.length_singleton]

theorem logged_after {cs : List (Verdict × Int)} (hpos : ∀ c ∈ cs, 0 < c.2) :
    Logged cs (ledgerAfter cs) := by
  induction cs using List.reverseRecOn with
  | nil => exact logged_zero
  | append_singleton cs c ih =>
    rw [ledgerAfter, List.foldl_append]
    exact (ih fun c hc => hpos c (List.mem_append_left _ hc)).step (hpos c (by simp))

/-- The ring read back from its head is the end of the history. -/
theorem Logged.recent_eq {cs : List (Verdict × Int)} {log : EpisodeLog} (h : Logged cs log) :
    log.recent = (degradedRuns cs).reverse.take 8 := by
  have hring := h.ring
  have hfill : log.fill.val = min (degradedRuns cs).length 8 := hring.fill_eq
  unfold EpisodeLog.recent
  apply List.ext_getElem
  · rw [List.length_map, List.length_range, List.length_take, List.length_reverse, hfill]
    exact Nat.min_comm _ _
  · intro back hback _
    rw [List.length_map, List.length_range] at hback
    have hlen : back < (degradedRuns cs).length := by omega
    have hpos : 0 < log.fill := by
      rw [Fin.lt_def]
      exact Nat.lt_of_le_of_lt (Nat.zero_le back) hback
    have hcell := hring.cells ((degradedRuns cs).length - 1 - back) (by omega)
      (by have : episodeCap = 8 := rfl; omega)
    have hhead : log.head.val = ((degradedRuns cs).length - 1) % 8 := by
      rw [← asRing_newest hpos]
      exact Ring.newest_val hring (List.ne_nil_of_length_pos (by omega))
    rw [List.getElem_map, List.getElem_range, List.getElem_take, List.getElem_reverse, ← hcell]
    refine congrArg log.ring (Fin.ext ?_)
    have hback' : (Fin.ofNat episodeCap back).val = back := Nat.mod_eq_of_lt (by omega)
    rw [Fin.sub_def]
    change (8 - (Fin.ofNat episodeCap back).val + log.head.val) % 8 = _ % 8
    omega

theorem degradedRuns_stop {cs : List (Verdict × Int)} (hpos : ∀ c ∈ cs, 0 < c.2)
    {b : (Verdict × Int) × Option (Verdict × Int)} (hb : b ∈ blocks isDegraded cs) :
    (Episode.ofBlock b).stopMs = 0 ↔ b.2 = none := by
  have hmem := (mem_of_mem_blocks hb).2
  obtain ⟨first, last⟩ := b
  cases last with
  | none => simp [Episode.ofBlock]
  | some c =>
    have hc := hpos c (hmem c rfl)
    simp [Episode.ofBlock]
    omega

/-- Only the newest of the stretches can be without an end. -/
theorem degradedRuns_ended {cs : List (Verdict × Int)} (hpos : ∀ c ∈ cs, 0 < c.2) {ep : Episode}
    (hep : ep ∈ (degradedRuns cs).dropLast) : ep.stopMs ≠ 0 := by
  rw [degradedRuns, ← List.map_dropLast] at hep
  obtain ⟨b, hb, rfl⟩ := List.mem_map.mp hep
  have hended := (settled isDegraded cs).1 b hb
  exact fun h => hended ((degradedRuns_stop hpos (List.mem_of_mem_dropLast hb)).mp h)

theorem degradedRuns_open {cs : List (Verdict × Int)} (hpos : ∀ c ∈ cs, 0 < c.2) :
    (∃ ep, (degradedRuns cs).getLast? = some ep ∧ ep.stopMs = 0) ↔
      endsInside isDegraded cs = true := by
  constructor
  · intro ⟨ep, hlast, hstop⟩
    by_contra hout
    rw [degradedRuns, List.getLast?_map] at hlast
    obtain ⟨b, hb, rfl⟩ := Option.map_eq_some_iff.mp hlast
    have hmem := List.mem_of_getLast? hb
    have hended := (settled isDegraded cs).2 (Bool.eq_false_iff.mpr hout) b hmem
    exact hended ((degradedRuns_stop hpos hmem).mp hstop)
  · intro hin
    obtain ⟨bs, first, hblocks, _⟩ := (blocks_concat isDegraded cs (.smooth, 0)).2 hin
    exact ⟨Episode.ofBlock (first, none), by simp [degradedRuns, hblocks], rfl⟩

theorem endsInside_isDegraded (cs : List (Verdict × Int)) :
    endsInside isDegraded cs = true ↔ ∃ now, cs.getLast? = some (.degraded, now) := by
  rw [endsInside, Option.any_eq_true]
  constructor
  · intro h
    obtain ⟨⟨verdict, now⟩, hlast, hverdict⟩ := h
    cases verdict with
    | smooth => cases hverdict
    | degraded => exact ⟨now, hlast⟩
  · intro h
    obtain ⟨now, hlast⟩ := h
    exact ⟨_, hlast, rfl⟩

/-- The ledger is the recent history of the `DEGRADED` stretches. -/
theorem ledger_history_exact {cs : List (Verdict × Int)} (hpos : ∀ c ∈ cs, 0 < c.2) :
    (ledgerAfter cs).episodes.toNat = min (degradedRuns cs).length (2 ^ 32 - 1) ∧
      (ledgerAfter cs).fill.val = min (degradedRuns cs).length 8 ∧
      (ledgerAfter cs).head.val < 8 ∧
      (ledgerAfter cs).recent = (degradedRuns cs).reverse.take 8 ∧
      (∀ ep ∈ (ledgerAfter cs).recent.tail, ep.stopMs ≠ 0) ∧
      ((∃ ep, (ledgerAfter cs).recent.head? = some ep ∧ ep.stopMs = 0) ↔
        ∃ now, cs.getLast? = some (.degraded, now)) := by
  have hlogged := logged_after hpos
  refine ⟨hlogged.episodes, hlogged.ring.fill_eq, (ledgerAfter cs).head.isLt, hlogged.recent_eq,
    ?_, ?_⟩
  · intro ep hep
    rw [hlogged.recent_eq] at hep
    -- behind the newest entry the ring holds ended stretches only
    have hdrop : ep ∈ (degradedRuns cs).reverse.tail := by
      rw [List.tail_take_eq_take_tail] at hep
      exact List.mem_of_mem_take hep
    rw [List.tail_reverse, List.mem_reverse] at hdrop
    exact degradedRuns_ended hpos hdrop
  · rw [hlogged.recent_eq, List.head?_take, if_neg (by decide), List.head?_reverse,
      degradedRuns_open hpos]
    exact endsInside_isDegraded cs

/-- Two stretches, the second still open. -/
theorem ledger_history_exact_two :
    (ledgerAfter [(.degraded, 5), (.degraded, 7), (.smooth, 9), (.degraded, 12)]).recent =
      [⟨12, 0⟩, ⟨5, 9⟩] :=
  (ledger_history_exact (by decide)).2.2.2.1.trans (by
    simp [degradedRuns, blocks, isDegraded, Episode.ofBlock])

end Wei.Infer
