import Wei.Lib.Guard
import Wei.Util.Log

/-!
# The log under its lock

`wei_util_file_write` access by access, called by any number of threads. The poll
thread is cancelled when the daemon stops, and the writes to the file are where a
cancellation may take effect.
-/
namespace Wei.Util

open Wei.Lib

/-- Where a thread is in `wei_util_file_write`. -/
inductive Point where
  /-- The tests of `wei_log_fp` and `wei_log_bytes`. -/
  | test (call : FileWrite)
  | fopen (call : FileWrite)
  | freopen (call : FileWrite)
  /-- `wei_log_bytes = 0` -/
  | zero (call : FileWrite)
  | fwrite (call : FileWrite)
  /-- `wei_log_bytes +=` -/
  | count (call : FileWrite) (n : Nat)
  | fflush (call : FileWrite)

/-- One access to the log. -/
def access (s : LogFile) : Point → LogFile × (Point ⊕ Unit)
  | .test call =>
    (s, .inl (if s.fp = false then .fopen call
      else if fileMaxBytes ≤ s.bytes then .freopen call else .fwrite call))
  | .fopen call => (s.fopen call.io, .inl (.zero call))
  | .freopen call => (s.freopen call.io, .inl (.zero call))
  | .zero call => ({ s with bytes := 0 }, .inl (.fwrite call))
  | .fwrite call =>
    if s.fp = true ∧ 0 < call.line.text.length then
      (s.fwrite call.io call.line, .inl (.count call (call.line.text.take call.io.written).length))
    else (s, .inr ())
  | .count call n => ({ s with bytes := s.bytes + n }, .inl (.fflush call))
  | .fflush call => (s.fflush call.io, .inr ())

def code : Guard.Code LogFile FileWrite Point Unit := ⟨.test, fun p s => access s p⟩

theorem code_access (p : Point) (s : LogFile) : code.access p s = access s p := rfl

/-! ## Run alone -/

theorem exec_append (s : LogFile) (call : FileWrite) :
    Guard.Exec code (.fwrite call) s (s.append call) () := by
  by_cases h : s.fp = true ∧ 0 < call.line.text.length
  · have hwrite : access s (.fwrite call) = (s.fwrite call.io call.line,
        .inl (.count call (call.line.text.take call.io.written).length)) := if_pos h
    rw [LogFile.append, if_pos h]
    exact .next hwrite (.next rfl (.done rfl))
  · rw [LogFile.append, if_neg h]
    exact .done (if_neg h)

theorem code_implements : Guard.Implements code writes := by
  intro call s
  show Guard.Exec code (.test call) s ((s.ready call.io).append call) ()
  have htest : access s (.test call) = (s, .inl (if s.fp = false then .fopen call
      else if fileMaxBytes ≤ s.bytes then .freopen call else .fwrite call)) := rfl
  unfold LogFile.ready
  by_cases hfp : s.fp = false
  · rw [if_pos hfp] at htest ⊢
    exact .next htest (.next rfl (.next rfl (exec_append _ call)))
  · rw [if_neg hfp] at htest ⊢
    by_cases hfull : fileMaxBytes ≤ s.bytes
    · rw [if_pos hfull] at htest ⊢
      exact .next htest (.next rfl (.next rfl (exec_append _ call)))
    · rw [if_neg hfull] at htest ⊢
      exact .next htest (exec_append _ call)

/-! ## The cap, at every access -/

/-- What holds at a point of the code. -/
def Assertion : Point → LogFile → Prop
  | .test _, s => Capped s
  | .fopen _, s => Capped s ∧ s.fp = false
  | .freopen _, s => Capped s
  | .zero _, s =>
    s.extent < capacity ∧ (s.fp = true → s.extent = 0) ∧ (s.fp = false → s.buffered = []) ∧
      s.bytes < capacity
  | .fwrite _, s => Capped s ∧ (s.fp = true → s.bytes < fileMaxBytes)
  | .count _ n, s =>
    s.fp = true ∧ s.extent ≤ s.bytes + n ∧ s.bytes < fileMaxBytes ∧ n < lineSize
  | .fflush _, s => Capped s

theorem extent_fflush (s : LogFile) (io : Stdio) : (s.fflush io).extent = s.extent := by
  simp only [LogFile.extent, LogFile.fflush, List.length_append, List.length_take,
    List.length_drop]
  omega

theorem Capped.fopen {s : LogFile} (h : Capped s) (hfp : s.fp = false) (call : FileWrite) :
    Assertion (.zero call) (s.fopen call.io) := by
  have hbytes := h.bytes
  unfold LogFile.fopen
  by_cases hio : call.io.opened = true
  · rw [if_pos hio]
    exact ⟨capacity_pos, fun _ => rfl, fun _ => rfl, hbytes⟩
  · rw [if_neg hio]
    exact ⟨h.extent, (fun he => by cases he), fun _ => h.closed hfp, hbytes⟩

theorem Capped.freopen {s : LogFile} (h : Capped s) (call : FileWrite) :
    Assertion (.zero call) (s.freopen call.io) := by
  have hbytes := h.bytes
  unfold LogFile.freopen
  by_cases hio : call.io.opened = true
  · rw [if_pos hio]
    exact ⟨capacity_pos, fun _ => rfl, fun _ => rfl, hbytes⟩
  · rw [if_neg hio]
    refine ⟨?_, (fun he => by cases he), fun _ => rfl, hbytes⟩
    have hextent := h.extent
    simp only [LogFile.extent, List.length_append, List.length_take, List.length_nil] at hextent ⊢
    omega

theorem annotated : Guard.Annotated code Capped Assertion where
  entry := fun _ _ h => h
  next := by
    intro p s s' p' h hacc
    rw [code_access] at hacc
    cases p with
    | test call =>
      obtain ⟨rfl, hp⟩ := Prod.mk.inj hacc
      obtain rfl := Sum.inl.inj hp
      by_cases hfp : s.fp = false
      · rw [if_pos hfp]
        exact ⟨h, hfp⟩
      · rw [if_neg hfp]
        by_cases hfull : fileMaxBytes ≤ s.bytes
        · rw [if_pos hfull]
          exact h
        · rw [if_neg hfull]
          exact ⟨h, fun _ => Nat.lt_of_not_le hfull⟩
    | fopen call =>
      cases hacc
      exact h.1.fopen h.2 call
    | freopen call =>
      cases hacc
      exact Capped.freopen h call
    | zero call =>
      cases hacc
      obtain ⟨hextent, hopen, hclosed, _⟩ := h
      exact ⟨⟨hextent, fun hfp => Nat.le_of_eq (hopen hfp), capacity_pos, hclosed⟩,
        fun _ => fileMaxBytes_pos⟩
    | fwrite call =>
      by_cases hcond : s.fp = true ∧ 0 < call.line.text.length
      · rw [access, if_pos hcond] at hacc
        cases hacc
        have hcounted := h.1.counted hcond.1
        have hfits := call.line.fits
        refine ⟨hcond.1, ?_, h.2 hcond.1, ?_⟩
        · simp only [LogFile.extent, LogFile.fwrite, List.length_append] at hcounted ⊢
          omega
        · rw [List.length_take]
          omega
      · rw [access, if_neg hcond] at hacc
        cases hacc
    | count call n =>
      cases hacc
      obtain ⟨hfp, hextent, hbytes, hn⟩ := h
      have hcap : s.bytes + n < capacity := by
        unfold capacity
        omega
      refine ⟨Nat.lt_of_le_of_lt hextent hcap, fun _ => hextent, hcap, fun hclosed => ?_⟩
      rw [hfp] at hclosed
      cases hclosed
    | fflush call => cases hacc
  done := by
    intro p s s' r h hacc
    rw [code_access] at hacc
    cases p with
    | fwrite call =>
      by_cases hcond : s.fp = true ∧ 0 < call.line.text.length
      · rw [access, if_pos hcond] at hacc
        cases hacc
      · rw [access, if_neg hcond] at hacc
        cases hacc
        exact h.1
    | fflush call =>
      cases hacc
      refine ⟨?_, ?_, h.bytes, fun hfp => ?_⟩
      · rw [extent_fflush]
        exact h.extent
      · rw [extent_fflush]
        exact h.counted
      · show s.buffered.drop call.io.flushed = []
        rw [h.closed hfp, List.drop_nil]
    | _ => cases hacc

/-- No point lets the file or its count pass the cap. -/
theorem extent_lt {s : LogFile} (h : Capped s ∨ ∃ p, Assertion p s) :
    s.extent < capacity ∧ s.bytes < capacity := by
  rcases h with h | ⟨p, h⟩
  · exact ⟨h.extent, h.bytes⟩
  · cases p with
    | test call => exact ⟨h.extent, h.bytes⟩
    | fopen call => exact ⟨h.1.extent, h.1.bytes⟩
    | freopen call => exact ⟨h.extent, h.bytes⟩
    | zero call => exact ⟨h.1, h.2.2.2⟩
    | fwrite call => exact ⟨h.1.extent, h.1.bytes⟩
    | count call n =>
      obtain ⟨_, hextent, hbytes, hn⟩ := h
      unfold capacity
      omega
    | fflush call => exact ⟨h.extent, h.bytes⟩

/-! ## Any number of threads -/

section Threads

variable {τ : Type} [DecidableEq τ]

/-- The log and its threads after an interleaving of their steps; an earlier daemon left `old`. -/
abbrev logAfter (old : List UInt8) (ls : List (Guard.Label FileWrite τ)) :
    Guard.State LogFile FileWrite Point Unit τ :=
  (Guard.machine code).final (Guard.State.init (.init old)) ls

/-- The lines of the calls that came through, in the order in which they did. -/
def linesOf (log : List (Guard.Done τ FileWrite Unit)) : List Line :=
  log.map fun d => d.call.line

theorem capped_init {old : List UInt8} (h : old.length < capacity) : Capped (.init old) :=
  ⟨h, (fun he => by cases he), capacity_pos, fun _ => rfl⟩

/-- Under every interleaving, cancellation and failure of the device, at every access:
the file and the count of its bytes stay below the cap and one line, as the file that
the daemon found was. The lines of a thread come through in its order. While the device takes everything, the file between
two calls is a sequence of whole lines, the last ones that came through; those before
them were dropped in blocks that had reached the cap with their last line. -/
theorem log_capped_and_whole {old : List UInt8} (hold : old.length < capacity)
    (ls : List (Guard.Label FileWrite τ)) :
    (logAfter old ls).shared.file.length < capacity ∧
    (logAfter old ls).shared.bytes < capacity ∧
    (∀ t, Guard.doneBy t (logAfter old ls).log <+: Guard.callsOf t (logAfter old ls).made) ∧
    ((∀ t call, (t, call) ∈ (logAfter old ls).made → call.Through) →
      (logAfter old ls).owner = none → (logAfter old ls).log ≠ [] →
      ∃ gone : List (List Line), ∃ kept : List Line,
        linesOf (logAfter old ls).log = gone.flatten ++ kept ∧
        (∀ block ∈ gone, Rotation.Full Line.size fileMaxBytes block) ∧
        Rotation.Open Line.size fileMaxBytes kept ∧
        (logAfter old ls).shared.file = kept.flatMap Line.text) := by
  have hserial := Guard.serialises code_implements (.init old) ls
  have hthrough := Guard.through code (.init old) ls
  have hbound := extent_lt (Guard.asserted code_implements annotated (capped_init hold) ls).always
  refine ⟨Nat.lt_of_le_of_lt (Nat.le_add_right _ _) hbound.1, hbound.2, hthrough, ?_⟩
  intro hio hfree hlog
  obtain ⟨gone, hlines, hfull⟩ := @Rotation.kept_blocks _ Line.size _ fileMaxBytes_pos
    (linesOf (logAfter old ls).log)
  refine ⟨gone, _, hlines, hfull, Rotation.kept_open fileMaxBytes_pos _, ?_⟩
  have hcalls : ∀ call ∈ (logAfter old ls).log.map Guard.Done.call, call.Through := by
    intro call hcall
    obtain ⟨d, hd, rfl⟩ := List.mem_map.mp hcall
    exact hio _ _ (Guard.mem_made hthrough hd)
  rw [hserial.free hfree]
  rcases holds_run old hcalls with ⟨_, hnil⟩ | hholds
  · exact absurd (List.map_eq_nil_iff.mp hnil) hlog
  · rw [List.map_map] at hholds
    exact hholds.file

/-- A short line that the device takes. -/
def shortWrite : FileWrite := ⟨⟨true, 8, 8, 0⟩, ⟨[119, 101, 105, 10], by decide⟩⟩

/-- Thread `true` writes the first line while thread `false` waits for the lock. -/
def contended : List (Guard.Label FileWrite Bool) :=
  [.call true shortWrite, .lock true, .access true, .call false shortWrite, .lock false,
    .access true, .access true, .access true, .access true, .access true, .unlock true]

theorem log_capped_and_whole_contended :
    ∃ gone : List (List Line), ∃ kept : List Line,
      linesOf (logAfter [] contended).log = gone.flatten ++ kept ∧
      (∀ block ∈ gone, Rotation.Full Line.size fileMaxBytes block) ∧
      Rotation.Open Line.size fileMaxBytes kept ∧
      (logAfter [] contended).shared.file = kept.flatMap Line.text := by
  have hmade : (logAfter [] contended).made = [(true, shortWrite), (false, shortWrite)] := rfl
  have hempty : ([] : List UInt8).length < capacity := capacity_pos
  refine (log_capped_and_whole hempty contended).2.2.2 ?_ rfl (List.cons_ne_nil _ _)
  rw [hmade]
  intro t call hcall
  have hshort : call = shortWrite := by
    rcases List.mem_cons.mp hcall with h | h
    · exact (Prod.mk.inj h).2
    · exact (Prod.mk.inj (List.mem_singleton.mp h)).2
  rw [hshort]
  exact ⟨rfl, by decide, by decide⟩

/-- The daemon stops: the body is cancelled wherever it is, no other thread was, and the
main thread prints. Its last line comes through, for some order of the steps that are
left, exactly when the body was not between lock and unlock; if it was, no thread's line
ever comes through again. -/
theorem shutdown_prints_iff (old : List UInt8) (ls : List (Guard.Label FileWrite τ))
    {body main : τ} (hne : main ≠ body) (hidle : (logAfter old ls).threads main = .idle)
    (hlive : ∀ t, (logAfter old ls).threads t ≠ .cancelled) (call : FileWrite) :
    ((∃ ls' more, (logAfter old (ls ++ .cancel body :: ls')).log =
        (logAfter old ls).log ++ more ++ [⟨main, call, ()⟩]) ↔
      ¬ ((logAfter old ls).threads body).Holds) ∧
    (((logAfter old ls).threads body).Holds → ∀ ls',
      (logAfter old (ls ++ .cancel body :: ls')).log = (logAfter old ls).log ∧
      (logAfter old (ls ++ .cancel body :: ls')).shared = (logAfter old ls).shared) := by
  have hserial := Guard.serialises code_implements (.init old) ls
  have hfinal : ∀ ls', logAfter old (ls ++ .cancel body :: ls') =
      (Guard.machine code).final ((logAfter old ls).put body .cancelled) ls' := fun ls' => by
    rw [logAfter, Mealy.final_append, Mealy.final_cons]
    rfl
  have hcancelled : Guard.Serial code writes (.init old) ((logAfter old ls).put body .cancelled) :=
    hserial.outside body .cancelled id (Or.inl rfl)
  have hstuck : ((logAfter old ls).threads body).Holds → ∀ ls',
      (logAfter old (ls ++ .cancel body :: ls')).log = (logAfter old ls).log ∧
      (logAfter old (ls ++ .cancel body :: ls')).shared = (logAfter old ls).shared := by
    intro hholds ls'
    have htaken : Guard.Taken ((logAfter old ls).put body .cancelled) body :=
      ⟨hserial.holder body hholds, Guard.put_self _ _ _⟩
    rw [hfinal]
    exact (hcancelled.stuck code_implements htaken ls').2
  refine ⟨⟨?_, ?_⟩, hstuck⟩
  · rintro ⟨ls', more, hlog⟩ hholds
    rw [(hstuck hholds ls').1, List.append_assoc] at hlog
    have hlen := congrArg List.length hlog
    simp at hlen
  · intro hfree
    have hmain : ((logAfter old ls).put body .cancelled).threads main = .idle := by
      rw [Guard.put_of_ne _ _ hne]
      exact hidle
    have hholder : ∀ u, ((logAfter old ls).put body .cancelled).owner = some u →
        ((logAfter old ls).put body .cancelled).threads u ≠ .cancelled := by
      intro u howner
      have hu : u ≠ body := by
        rintro rfl
        exact hfree ((hserial.owned u howner).resolve_right (hlive u))
      rw [Guard.put_of_ne _ _ hu]
      exact hlive u
    obtain ⟨ls', more, _, hlog⟩ := hcancelled.passable code_implements hmain hholder call
    exact ⟨ls', more, (congrArg Guard.State.log (hfinal ls')).trans hlog⟩

/-- The body is cancelled while `fwrite` is at work on its line. -/
theorem shutdown_prints_iff_inside :
    ¬ ∃ ls' more, (logAfter [] ([.call true shortWrite, .lock true, .access true, .access true] ++
      .cancel true :: ls')).log = (logAfter []
        ([.call true shortWrite, .lock true, .access true, .access true])).log ++ more ++
          [⟨false, shortWrite, ()⟩] := by
  refine (not_congr (shutdown_prints_iff []
    [.call true shortWrite, .lock true, .access true, .access true] Bool.false_ne_true rfl ?_
    shortWrite).1).mpr (not_not_intro trivial)
  rintro (_ | _) h <;> cases h

end Threads

end Wei.Util
