import Wei.Lib.Heap
import Wei.Lib.Turns
import Wei.Perfreport.Json

/-!
# The reused serialization buffer

`wei_perfreport_json_serialize` with what `Buffer` leaves out: the pointer and
the capacity are two variables, set one after the other around a `realloc` that
may fail, the block they are about lives in the heap, and the loop is one that
ends from inside. The allocator answers every request of a call as it likes.
-/
namespace Wei.Perfreport

open Wei.Lib Wei.Lib.Heap

/-- A document's text, and the capacity its printing needs: the terminating NUL is
part of it. -/
structure Printer where
  text : Doc → String
  need : Doc → Nat
  fits : ∀ doc, (text doc).utf8ByteSize < need doc

/-- `cJSON_PrintPreallocated` -/
def Printer.printPreallocated (p : Printer) (doc : Doc) (cap : Nat) : Option String :=
  if p.need doc ≤ cap then some (p.text doc) else none

section Model

variable {α : Type} [DecidableEq α]

/-- `wei_perfreport_json_buf`, `wei_perfreport_json_buf_cap` and the blocks this file
allocated; the text in a block is lost once a print fails in it. -/
structure Static (α : Type) where
  buf : Option α
  cap : Nat
  heap : Heap α (Option String)

def Static.init : Static α := ⟨none, 0, ∅⟩

/-- A request for this many bytes, answered with an address or `NULL`. -/
structure Request (α : Type) where
  size : Nat
  answer : Option α

structure SerializeCall (α : Type) where
  doc : Doc
  /-- What the allocator answers to the requests of the call, in order. -/
  answers : Nat → Option α

/-- Between two turns of the loop, with the requests of the call so far. -/
structure Progress (α : Type) where
  static : Static α
  asked : List (Request α)

def Progress.request (s : Progress α) (c : SerializeCall α) (size : Nat) : Request α :=
  ⟨size, c.answers s.asked.length⟩

/-- `next` -/
def nextCap (cap : Nat) : Nat := if bufMax < cap * 2 then bufMax else cap * 2

/-- A turn from the print on, with the buffer at `a`; a return comes with its pointer. -/
def fill (p : Printer) (c : SerializeCall α) (a : α) (s : Progress α) :
    Progress α ⊕ Progress α × Option α :=
  let st := s.static
  -- the cast of the capacity to `int` is left out: it never exceeds `bufMax`
  match p.printPreallocated c.doc st.cap with
  | some text => .inr (⟨{ st with heap := st.heap.store a (some text) }, s.asked⟩, some a)
  | none =>
    let st := { st with heap := st.heap.store a none }
    if bufMax ≤ st.cap then .inr (⟨st, s.asked⟩, none)
    else
      let next := nextCap st.cap
      let grown := s.request c next
      let st := { st with heap := st.heap.realloc a next grown.answer }
      match grown.answer with
      | none => .inr (⟨st, s.asked ++ [grown]⟩, none)
      | some b => .inl ⟨{ st with buf := some b, cap := next }, s.asked ++ [grown]⟩

/-- A turn of the loop of `wei_perfreport_json_serialize`. -/
def turn (p : Printer) (c : SerializeCall α) (s : Progress α) :
    Progress α ⊕ Progress α × Option α :=
  match s.static.buf with
  | some a => fill p c a s
  | none =>
    let opened := s.request c bufInit
    let st := { s.static with
      buf := opened.answer
      heap := s.static.heap.malloc bufInit none opened.answer }
    match opened.answer with
    | none => .inr (⟨st, s.asked ++ [opened]⟩, none)
    | some a => fill p c a ⟨{ st with cap := bufInit }, s.asked ++ [opened]⟩

/-- `wei_perfreport_json_serialize`, as far as it gets in so many turns. -/
def serialize (p : Printer) (fuel : Nat) (st : Static α) (c : SerializeCall α) :
    Option (Progress α × Option α) :=
  Turns.run (turn p c) fuel ⟨st, []⟩

/-- The static data after a sequence of calls, each with so many turns. -/
def serialized (p : Printer) (fuel : Nat) (calls : List (SerializeCall α)) : Option (Static α) :=
  calls.foldlM (fun st c => (serialize p fuel st c).map (·.1.static)) Static.init

/-! ## What a turn does -/

/-- Pointer, capacity and heap agree: the capacity is the size of the block held,
no other block is left, and a block is between the two bounds. -/
structure Consistent (st : Static α) : Prop where
  owned : Owned st.heap st.buf st.cap
  fresh : st.buf = none → st.cap = 0
  opened : st.buf ≠ none → bufInit ≤ st.cap
  bounded : st.cap ≤ bufMax

omit [DecidableEq α] in
theorem consistent_init : Consistent (Static.init : Static α) where
  owned := .null 0
  fresh _ := rfl
  opened h := absurd rfl h
  bounded := Nat.zero_le _

/-- The block held in `st`, or a larger one, is held in `st'`. -/
def Kept (st st' : Static α) : Prop :=
  ∀ a block, st.buf = some a → st.heap.lookup a = some block →
    ∃ b block', st'.buf = some b ∧ st'.heap.lookup b = some block' ∧
      (b = a ∧ block'.size = block.size ∨ block.size < block'.size)

/-- A buffer at `a`. -/
def holding (a : α) (cap : Nat) (content : Option String) : Static α :=
  ⟨some a, cap, Finmap.singleton a ⟨cap, content⟩⟩

omit [DecidableEq α] in
theorem consistent_holding {a : α} {cap : Nat} (content : Option String) (hinit : bufInit ≤ cap)
    (hmax : cap ≤ bufMax) : Consistent (holding a cap content) where
  owned := .block a cap content
  fresh h := by cases h
  opened _ := hinit
  bounded := hmax

omit [DecidableEq α] in
/-- A consistent state holds no buffer, or one of its capacity. -/
theorem Consistent.cases {st : Static α} (h : Consistent st) :
    st = Static.init ∨ ∃ a content, st = holding a st.cap content := by
  obtain ⟨buf, cap, heap⟩ := st
  have howned := h.owned
  have hfresh := h.fresh
  dsimp only at howned hfresh
  cases howned with
  | null =>
    obtain rfl := hfresh rfl
    exact Or.inl rfl
  | block a _ content => exact Or.inr ⟨a, content, rfl⟩

theorem lt_nextCap {cap : Nat} (hinit : bufInit ≤ cap) (h : cap < bufMax) : cap < nextCap cap := by
  unfold nextCap
  have hpos : bufInit = 512 := rfl
  split <;> omega

theorem nextCap_le (cap : Nat) : nextCap cap ≤ bufMax := by
  unfold nextCap
  split <;> omega

section Turn

variable {p : Printer} {c : SerializeCall α}

/-- The ways through a turn with a buffer held. -/
inductive FillStep (p : Printer) (c : SerializeCall α) (a : α) (cap : Nat)
    (asked : List (Request α)) : Progress α ⊕ Progress α × Option α → Prop where
  | printed (hfits : p.need c.doc ≤ cap) :
      FillStep p c a cap asked (.inr (⟨holding a cap (some (p.text c.doc)), asked⟩, some a))
  | tooLong (hlong : cap < p.need c.doc) (hfull : bufMax ≤ cap) :
      FillStep p c a cap asked (.inr (⟨holding a cap none, asked⟩, none))
  | refused (hlong : cap < p.need c.doc) (hroom : cap < bufMax) :
      FillStep p c a cap asked
        (.inr (⟨holding a cap none, asked ++ [⟨nextCap cap, none⟩]⟩, none))
  | grown (b : α) (hlong : cap < p.need c.doc) (hroom : cap < bufMax) :
      FillStep p c a cap asked
        (.inl ⟨holding b (nextCap cap) none, asked ++ [⟨nextCap cap, some b⟩]⟩)

theorem fill_step (p : Printer) (c : SerializeCall α) (a : α) (cap : Nat) (content : Option String)
    (asked : List (Request α)) :
    FillStep p c a cap asked (fill p c a ⟨holding a cap content, asked⟩) := by
  unfold fill Printer.printPreallocated Progress.request
  dsimp only [holding]
  by_cases hfits : p.need c.doc ≤ cap
  · rw [if_pos hfits]
    dsimp only
    rw [store_singleton]
    exact .printed hfits
  · rw [if_neg hfits]
    dsimp only
    rw [store_singleton]
    by_cases hfull : bufMax ≤ cap
    · rw [if_pos hfull]
      exact .tooLong (Nat.lt_of_not_le hfits) hfull
    · rw [if_neg hfull]
      cases c.answers asked.length with
      | none => exact .refused (Nat.lt_of_not_le hfits) (Nat.lt_of_not_le hfull)
      | some b =>
        rw [realloc_singleton]
        exact .grown b (Nat.lt_of_not_le hfits) (Nat.lt_of_not_le hfull)

/-- A turn without a buffer asks for one first. -/
theorem turn_init (p : Printer) (c : SerializeCall α) (asked : List (Request α)) :
    turn p c ⟨Static.init, asked⟩ =
      match c.answers asked.length with
      | none => .inr (⟨Static.init, asked ++ [⟨bufInit, none⟩]⟩, none)
      | some a => fill p c a ⟨holding a bufInit none, asked ++ [⟨bufInit, some a⟩]⟩ := by
  simp only [turn, Static.init, Progress.request, holding]
  cases c.answers asked.length with
  | none => rfl
  | some a => rw [malloc_empty]

end Turn

/-! ## What a call does -/

theorem Kept.refl (st : Static α) : Kept st st := fun a block hbuf hblock =>
  ⟨a, block, hbuf, hblock, Or.inl ⟨rfl, rfl⟩⟩

theorem Kept.trans {st st' st'' : Static α} (h : Kept st st') (h' : Kept st' st'') :
    Kept st st'' := by
  intro a block hbuf hblock
  obtain ⟨a', block', hbuf', hblock', hsize⟩ := h a block hbuf hblock
  obtain ⟨a'', block'', hbuf'', hblock'', hsize'⟩ := h' a' block' hbuf' hblock'
  refine ⟨a'', block'', hbuf'', hblock'', ?_⟩
  rcases hsize with ⟨rfl, heq⟩ | hlt
  · rcases hsize' with ⟨rfl, heq'⟩ | hlt'
    · exact Or.inl ⟨rfl, heq'.trans heq⟩
    · exact Or.inr (heq ▸ hlt')
  · right
    rcases hsize' with ⟨_, heq'⟩ | hlt'
    · omega
    · omega

theorem kept_of_null {st : Static α} (st' : Static α) (h : st.buf = none) : Kept st st' := by
  intro a block hbuf
  rw [h] at hbuf
  cases hbuf

theorem kept_content (a : α) (cap : Nat) (content content' : Option String) :
    Kept (holding a cap content) (holding a cap content') := by
  intro a' block hbuf hblock
  obtain rfl := Option.some.inj hbuf
  obtain rfl := Option.some.inj (Finmap.lookup_singleton_eq.symm.trans hblock)
  exact ⟨a, _, rfl, Finmap.lookup_singleton_eq, Or.inl ⟨rfl, rfl⟩⟩

theorem kept_grown (a b : α) {cap cap' : Nat} (content content' : Option String)
    (h : cap < cap') : Kept (holding a cap content) (holding b cap' content') := by
  intro a' block hbuf hblock
  obtain rfl := Option.some.inj hbuf
  obtain rfl := Option.some.inj (Finmap.lookup_singleton_eq.symm.trans hblock)
  exact ⟨b, _, rfl, Finmap.lookup_singleton_eq, Or.inr h⟩

/-- The pointer is that of the block held, which has the whole text in it. -/
def Full (p : Printer) (doc : Doc) (st : Static α) (ptr : Option α) : Prop :=
  ∃ a block, ptr = some a ∧ st.buf = some a ∧ st.heap.lookup a = some block ∧
    block.content = some (p.text doc) ∧ (p.text doc).utf8ByteSize < block.size

/-- Each request is for more than the one before. -/
def Increasing (asked : List (Request α)) : Prop := asked.Pairwise fun r r' => r.size < r'.size

/-- What holds before each turn of a call made in `st`. -/
structure During (st : Static α) (s : Progress α) : Prop where
  consistent : Consistent s.static
  cap_le : st.cap ≤ s.static.cap
  kept : Kept st s.static
  answered : ∀ r ∈ s.asked, r.answer ≠ none
  increasing : Increasing s.asked
  asked_le : ∀ r ∈ s.asked, r.size ≤ s.static.cap

/-- What a call made in `st` leaves behind and returns. -/
structure Ended (p : Printer) (c : SerializeCall α) (st : Static α) (s : Progress α)
    (ptr : Option α) : Prop where
  consistent : Consistent s.static
  cap_le : st.cap ≤ s.static.cap
  kept : Kept st s.static
  null : ptr = none → (∃ r ∈ s.asked, r.answer = none) ∨ bufMax < p.need c.doc
  full : ptr ≠ none → Full p c.doc s.static ptr
  increasing : Increasing s.asked

theorem during_start {st : Static α} (h : Consistent st) : During st ⟨st, []⟩ where
  consistent := h
  cap_le := Nat.le_refl _
  kept := Kept.refl st
  answered := by simp
  increasing := List.Pairwise.nil
  asked_le := by simp

theorem During.increasing_concat {st : Static α} {s : Progress α} (h : During st s) {n : Nat}
    (hn : s.static.cap < n) (answer : Option α) :
    Increasing (s.asked ++ [⟨n, answer⟩]) := by
  refine List.pairwise_append.mpr ⟨h.increasing, List.pairwise_singleton _ _, ?_⟩
  intro r hr r' hr'
  obtain rfl := List.mem_singleton.mp hr'
  exact Nat.lt_of_le_of_lt (h.asked_le r hr) hn

/-- A request is answered, and its block is held from then on. -/
theorem During.hold {st : Static α} {s : Progress α} (h : During st s) {b : α} {n : Nat}
    (hinit : bufInit ≤ n) (hmax : n ≤ bufMax) (hn : s.static.cap < n)
    (hkept : Kept s.static (holding b n none)) :
    During st ⟨holding b n none, s.asked ++ [⟨n, some b⟩]⟩ where
  consistent := consistent_holding none hinit hmax
  cap_le := Nat.le_trans h.cap_le (Nat.le_of_lt hn)
  kept := h.kept.trans hkept
  answered := by
    intro r hr
    rcases List.mem_append.mp hr with hr | hr
    · exact h.answered r hr
    · obtain rfl := List.mem_singleton.mp hr
      exact Option.some_ne_none b
  increasing := h.increasing_concat hn _
  asked_le := by
    intro r hr
    rcases List.mem_append.mp hr with hr | hr
    · exact Nat.le_trans (h.asked_le r hr) (Nat.le_of_lt hn)
    · obtain rfl := List.mem_singleton.mp hr
      exact Nat.le_refl n

/-- How many turns may follow one that starts with this capacity. -/
def turnsLeft (cap : Nat) : Nat :=
  if cap < 2 * bufInit then 2 else if cap < bufMax then 1 else 0

/-- Opened at the first capacity, the buffer is at the last after two more. -/
def maxTurns : Nat := 3

theorem turnsLeft_lt (cap : Nat) : turnsLeft cap < maxTurns := by
  unfold turnsLeft
  split
  · decide
  · split <;> decide

theorem turnsLeft_nextCap {cap : Nat} (hinit : bufInit ≤ cap) (h : cap < bufMax) :
    turnsLeft (nextCap cap) < turnsLeft cap := by
  have hbufInit : bufInit = 512 := rfl
  have hbufMax : bufMax = 2048 := rfl
  unfold turnsLeft nextCap
  split_ifs <;> omega

section Calls

variable {p : Printer} {c : SerializeCall α} {st : Static α}

/-- A return leaves the buffer where it is. -/
theorem During.ended {a : α} {cap : Nat} {content : Option String} {asked : List (Request α)}
    (h : During st ⟨holding a cap content, asked⟩) {content' : Option String}
    {asked' : List (Request α)} {ptr : Option α}
    (hnull : ptr = none → (∃ r ∈ asked', r.answer = none) ∨ bufMax < p.need c.doc)
    (hfull : ptr ≠ none → Full p c.doc (holding a cap content') ptr) (hasked : Increasing asked') :
    Ended p c st ⟨holding a cap content', asked'⟩ ptr where
  consistent := consistent_holding _ (h.consistent.opened (Option.some_ne_none a))
    h.consistent.bounded
  cap_le := h.cap_le
  kept := h.kept.trans (kept_content a cap content content')
  null := hnull
  full := hfull
  increasing := hasked

theorem fill_during {a : α} {cap : Nat} {content : Option String} {asked : List (Request α)}
    (h : During st ⟨holding a cap content, asked⟩) :
    (∀ s', fill p c a ⟨holding a cap content, asked⟩ = .inl s' →
      During st s' ∧ turnsLeft s'.static.cap < turnsLeft cap) ∧
    ∀ r, fill p c a ⟨holding a cap content, asked⟩ = .inr r → Ended p c st r.1 r.2 := by
  have hinit : bufInit ≤ cap := h.consistent.opened (Option.some_ne_none a)
  have hstep := fill_step p c a cap content asked
  generalize fill p c a ⟨holding a cap content, asked⟩ = out at hstep ⊢
  cases hstep with
  | printed hfits =>
    refine ⟨fun s' hs => (by cases hs), fun r hr => ?_⟩
    obtain rfl := Sum.inr.inj hr
    have hroom := Nat.lt_of_lt_of_le (p.fits c.doc) hfits
    refine h.ended (fun hnull => by cases hnull) (fun _ => ?_) h.increasing
    exact ⟨a, _, rfl, rfl, Finmap.lookup_singleton_eq, rfl, hroom⟩
  | tooLong hlong hfull =>
    refine ⟨fun s' hs => (by cases hs), fun r hr => ?_⟩
    obtain rfl := Sum.inr.inj hr
    exact h.ended (fun _ => Or.inr (Nat.lt_of_le_of_lt hfull hlong))
      (fun hsome => absurd rfl hsome) h.increasing
  | refused _ hroom =>
    refine ⟨fun s' hs => (by cases hs), fun r hr => ?_⟩
    obtain rfl := Sum.inr.inj hr
    exact h.ended (fun _ => Or.inl ⟨⟨nextCap cap, none⟩, by simp, rfl⟩)
      (fun hsome => absurd rfl hsome) (h.increasing_concat (lt_nextCap hinit hroom) none)
  | grown b _ hroom =>
    refine ⟨fun s' hs => ?_, fun r hr => (by cases hr)⟩
    obtain rfl := Sum.inl.inj hs
    have hlt := lt_nextCap hinit hroom
    exact ⟨h.hold (Nat.le_trans hinit (Nat.le_of_lt hlt)) (nextCap_le cap) hlt
      (kept_grown a b _ _ hlt), turnsLeft_nextCap hinit hroom⟩

theorem turn_during {s : Progress α} (h : During st s) :
    (∀ s', turn p c s = .inl s' → During st s' ∧ turnsLeft s'.static.cap < turnsLeft s.static.cap) ∧
    ∀ r, turn p c s = .inr r → Ended p c st r.1 r.2 := by
  obtain ⟨sst, asked⟩ := s
  rcases h.consistent.cases with hnull | ⟨a, content, hheld⟩
  · dsimp only at hnull
    subst hnull
    rw [turn_init]
    cases c.answers asked.length with
    | none =>
      refine ⟨fun s' hs => (by cases hs), fun r hr => ?_⟩
      obtain rfl := Sum.inr.inj hr
      exact {
        consistent := consistent_init
        cap_le := h.cap_le
        kept := h.kept
        null := fun _ => Or.inl ⟨⟨bufInit, none⟩, by simp, rfl⟩
        full := fun hsome => absurd rfl hsome
        increasing := h.increasing_concat (show 0 < bufInit by decide) none }
    | some a =>
      -- the block just opened counts as held before the print
      exact fill_during (h.hold (Nat.le_refl bufInit) (by decide)
        (show 0 < bufInit by decide) (kept_of_null _ rfl))
  · dsimp only at hheld
    rw [hheld] at h ⊢
    exact fill_during h

/-- Called in a consistent state, the function returns within three turns. -/
theorem serialize_ended (p : Printer) (c : SerializeCall α) (h : Consistent st) :
    ∃ s ptr, (∀ fuel, maxTurns ≤ fuel → serialize p fuel st c = some (s, ptr)) ∧
      Ended p c st s ptr := by
  have hagain : ∀ s s', During st s → turn p c s = .inl s' →
      During st s' ∧ turnsLeft s'.static.cap < turnsLeft s.static.cap :=
    fun _ s' hs => (turn_during hs).1 s'
  have hdone : ∀ s r, During st s → turn p c s = .inr r → Ended p c st r.1 r.2 :=
    fun _ r hs => (turn_during hs).2 r
  obtain ⟨⟨s, ptr⟩, hrun, hended⟩ := Turns.run_total _ hagain hdone (during_start h)
  refine ⟨s, ptr, fun fuel hfuel => hrun fuel ?_, hended⟩
  exact Nat.lt_of_lt_of_le (turnsLeft_lt _) hfuel

/-- Every sequence of calls runs to its end, in a consistent state. -/
theorem serialized_consistent (p : Printer) (calls : List (SerializeCall α)) :
    ∃ st, (∀ fuel, maxTurns ≤ fuel → serialized p fuel calls = some st) ∧ Consistent st := by
  induction calls using List.reverseRecOn with
  | nil => exact ⟨Static.init, fun _ _ => rfl, consistent_init⟩
  | append_singleton calls c ih =>
    obtain ⟨st, hrun, h⟩ := ih
    obtain ⟨s, ptr, hcall, hended⟩ := serialize_ended p c h
    refine ⟨s.static, fun fuel hfuel => ?_, hended.consistent⟩
    have hbefore : calls.foldlM (fun st c => (serialize p fuel st c).map (·.1.static)) Static.init =
      some st := hrun fuel hfuel
    rw [serialized, List.foldlM_append, hbefore]
    simp [hcall fuel hfuel]

/-- After every sequence of calls, and between the turns of the next one, the
capacity is the size of the block held; the call returns within three turns, never
with less capacity or without the block it had, with a null pointer only after a
failed allocation or for a document that is too long, and otherwise with the whole
text. -/
theorem reused_buffer_consistent (p : Printer) (calls : List (SerializeCall α))
    (c : SerializeCall α) :
    ∃ st, (∀ fuel, maxTurns ≤ fuel → serialized p fuel calls = some st) ∧ Consistent st ∧
      (∀ s, Turns.Reaches (turn p c) ⟨st, []⟩ s → Consistent s.static ∧ st.cap ≤ s.static.cap) ∧
      ∃ s ptr, (∀ fuel, maxTurns ≤ fuel → serialize p fuel st c = some (s, ptr)) ∧
        Consistent s.static ∧ st.cap ≤ s.static.cap ∧
        (ptr = none → ((∃ r ∈ s.asked, r.answer = none) ∨ bufMax < p.need c.doc) ∧
          Kept st s.static) ∧
        (p.need c.doc ≤ bufMax → (∀ r ∈ s.asked, r.answer ≠ none) →
          Full p c.doc s.static ptr) := by
  obtain ⟨st, hrun, h⟩ := serialized_consistent p calls
  obtain ⟨s, ptr, hcall, hended⟩ := serialize_ended p c h
  have hturns : ∀ s, Turns.Reaches (turn p c) ⟨st, []⟩ s → During st s := fun s hs =>
    Turns.reaches_inv (fun s s' hs hagain => ((turn_during hs).1 s' hagain).1) (during_start h) hs
  refine ⟨st, hrun, h, fun s hs => ⟨(hturns s hs).consistent, (hturns s hs).cap_le⟩, s, ptr, hcall,
    hended.consistent, hended.cap_le, fun hnull => ⟨hended.null hnull, hended.kept⟩, ?_⟩
  intro hshort hanswered
  apply hended.full
  intro hnull
  rcases hended.null hnull with ⟨r, hr, hnone⟩ | hlong
  · exact hanswered r hr hnone
  · exact Nat.not_lt.mpr hshort hlong

/-! ## The buffer without its pointer -/

/-- `buf` is the buffer of `st`, less its address and its content. -/
structure Represents (st : Static α) (buf : Option Buffer) : Prop where
  held : st.buf.isSome = buf.isSome
  cap : ∀ b, buf = some b → b.cap = st.cap

/-- The text that the pointer returned points to. -/
def returned (out : Progress α × Option α) : Option String :=
  out.2.bind fun a => (out.1.static.heap.lookup a).bind Block.content

/-- `env` prints as `p` does and answers the requests as they were answered. -/
structure Matches (env : JsonEnv) (p : Printer) (asked : List (Request α)) : Prop where
  print : env.printPreallocated = p.printPreallocated
  alloc : ∀ r ∈ asked, env.alloc r.size = r.answer.isSome

omit [DecidableEq α] in
theorem represents_holding {a : α} {cap : Nat} {content : Option String} {b : Buffer}
    (h : b.cap = cap) : Represents (holding a cap content) (some b) where
  held := rfl
  cap _ hb := Option.some.inj hb ▸ h

/-- With a buffer held, the loop is the one over its capacity. -/
theorem holding_refines (env : JsonEnv) {fuel : Nat} {a : α} {b : Buffer} {content : Option String}
    {asked : List (Request α)} {out : Progress α × Option α}
    (hrun : Turns.run (turn p c) fuel ⟨holding a b.cap content, asked⟩ = some out) :
    asked <+: out.1.asked ∧ (Matches env p out.1.asked →
      Represents out.1.static (some (jsonSerializeLoop env c.doc b).1) ∧
        returned out = (jsonSerializeLoop env c.doc b).2) := by
  induction fuel generalizing a b content asked with
  | zero => cases hrun
  | succ fuel ih =>
    have hturn : turn p c ⟨holding a b.cap content, asked⟩ =
      fill p c a ⟨holding a b.cap content, asked⟩ := rfl
    have hstep := fill_step p c a b.cap content asked
    generalize fill p c a ⟨holding a b.cap content, asked⟩ = turned at hturn hstep
    cases hstep with
    | printed hfits =>
      obtain rfl := Option.some.inj ((Turns.run_return hturn fuel).symm.trans hrun)
      refine ⟨List.prefix_refl asked, fun hmatches => ?_⟩
      rw [jsonSerializeLoop, hmatches.print, Printer.printPreallocated, if_pos hfits]
      refine ⟨represents_holding rfl, ?_⟩
      simp [returned, holding, Finmap.lookup_singleton_eq]
    | tooLong hlong hfull =>
      obtain rfl := Option.some.inj ((Turns.run_return hturn fuel).symm.trans hrun)
      refine ⟨List.prefix_refl asked, fun hmatches => ?_⟩
      rw [jsonSerializeLoop, hmatches.print, Printer.printPreallocated,
        if_neg (Nat.not_le.mpr hlong), dif_pos hfull]
      exact ⟨represents_holding rfl, rfl⟩
    | refused hlong hroom =>
      obtain rfl := Option.some.inj ((Turns.run_return hturn fuel).symm.trans hrun)
      refine ⟨List.prefix_append _ _, fun hmatches => ?_⟩
      have hrefused : env.alloc b.next.cap = false := hmatches.alloc ⟨nextCap b.cap, none⟩ (by simp)
      rw [jsonSerializeLoop, hmatches.print, Printer.printPreallocated,
        if_neg (Nat.not_le.mpr hlong), dif_neg (Nat.not_le.mpr hroom), if_pos hrefused]
      exact ⟨represents_holding rfl, rfl⟩
    | grown a' hlong hroom =>
      obtain ⟨hasked, hnext⟩ := ih (b := b.next) ((Turns.run_again hturn fuel).symm.trans hrun)
      refine ⟨(List.prefix_append _ _).trans hasked, fun hmatches => ?_⟩
      have hgrown : env.alloc b.next.cap = true :=
        hmatches.alloc ⟨nextCap b.cap, some a'⟩ (hasked.mem (by simp))
      rw [jsonSerializeLoop, hmatches.print, Printer.printPreallocated,
        if_neg (Nat.not_le.mpr hlong), dif_neg (Nat.not_le.mpr hroom),
        if_neg (Bool.not_eq_false _ ▸ hgrown)]
      exact hnext hmatches

/-- Without one, it is opened first. -/
theorem init_refines {env : JsonEnv} {fuel : Nat} {out : Progress α × Option α}
    (hrun : serialize p fuel Static.init c = some out) (hmatches : Matches env p out.1.asked) :
    Represents out.1.static (jsonSerialize env c.doc none).1 ∧
      returned out = (jsonSerialize env c.doc none).2 := by
  have hturn := turn_init p c []
  cases hanswer : c.answers ([] : List (Request α)).length with
  | none =>
    rw [hanswer] at hturn
    obtain rfl : (⟨Static.init, [⟨bufInit, none⟩]⟩, none) = out := by
      cases fuel with
      | zero => cases hrun
      | succ fuel => exact Option.some.inj ((Turns.run_return hturn fuel).symm.trans hrun)
    have hrefused : env.alloc bufInit = false :=
      hmatches.alloc ⟨bufInit, none⟩ (List.mem_singleton_self _)
    rw [jsonSerialize, if_pos hrefused]
    exact ⟨⟨rfl, fun b hb => by cases hb⟩, rfl⟩
  | some a =>
    rw [hanswer] at hturn
    have hopened : turn p c ⟨Static.init, []⟩ =
      turn p c ⟨holding a bufInit none, [⟨bufInit, some a⟩]⟩ := hturn
    obtain ⟨hasked, hloop⟩ := holding_refines env (b := ⟨bufInit, by decide⟩)
      ((Turns.run_congr hopened fuel).symm.trans hrun)
    have hgranted : env.alloc bufInit = true :=
      hmatches.alloc ⟨bufInit, some a⟩ (hasked.mem (List.mem_singleton_self _))
    rw [jsonSerialize, if_neg (Bool.not_eq_false _ ▸ hgranted)]
    exact hloop hmatches

omit [DecidableEq α] in
/-- Requests for different sizes can be answered by their size. -/
theorem exists_alloc {asked : List (Request α)} (h : Increasing asked) :
    ∃ alloc : Nat → Bool, ∀ r ∈ asked, alloc r.size = r.answer.isSome := by
  refine ⟨fun n => asked.any fun r => r.size = n ∧ r.answer.isSome, fun r hr => ?_⟩
  have hsizes : (asked.map Request.size).Nodup :=
    (List.pairwise_map.mpr h).imp fun hlt => Nat.ne_of_lt hlt
  rw [Bool.eq_iff_iff, List.any_eq_true]
  constructor
  · intro ⟨r', hr', hsame⟩
    obtain ⟨hsize, hsome⟩ := of_decide_eq_true hsame
    rwa [← List.inj_on_of_nodup_map hsizes hr' hr hsize]
  · intro hsome
    exact ⟨r, hr, decide_eq_true ⟨rfl, hsome⟩⟩

/-- A call in a consistent state is `jsonSerialize` with an allocator that goes by
the size of a request, whatever the allocator went by. -/
theorem serialize_refines {buf : Option Buffer} (h : Consistent st) (hbuf : Represents st buf)
    {fuel : Nat} {out : Progress α × Option α} (hrun : serialize p fuel st c = some out) :
    ∃ alloc, ∀ env : JsonEnv, env.alloc = alloc → env.printPreallocated = p.printPreallocated →
      Represents out.1.static (jsonSerialize env c.doc buf).1 ∧
        returned out = (jsonSerialize env c.doc buf).2 := by
  obtain ⟨s, ptr, hends, hended⟩ := serialize_ended p c h
  have hout : (s, ptr) = out := Option.some.inj <|
    (hends (max fuel maxTurns) (Nat.le_max_right _ _)).symm.trans
      (Turns.run_mono hrun (Nat.le_max_left _ _))
  subst hout
  obtain ⟨alloc, halloc⟩ := exists_alloc hended.increasing
  refine ⟨alloc, fun env henv hprint => ?_⟩
  have hmatches : Matches env p s.asked := ⟨hprint, henv ▸ halloc⟩
  rcases h.cases with rfl | ⟨a, content, hheld⟩
  · obtain rfl : buf = none := by simpa [Static.init] using hbuf.held.symm
    exact init_refines hrun hmatches
  · obtain ⟨b, rfl⟩ : ∃ b, buf = some b := by
      rw [← Option.isSome_iff_exists, ← hbuf.held, hheld]
      rfl
    rw [hheld, ← hbuf.cap b rfl] at hrun
    exact (holding_refines env hrun).2 hmatches

end Calls

end Model

/-! ## A document that outgrows the first buffer -/

def valueText : Value → String
  | .str s => "\"" ++ s ++ "\""
  | .num n => toString n

/-- A document on one line, its strings free of what needs an escape. -/
def oneLine (doc : Doc) : String :=
  "\x7b" ++ ",".intercalate (doc.map fun m => "\"" ++ m.1 ++ "\":" ++ valueText m.2) ++ "\x7d"

/-- The printer that needs no more than the text and its NUL. -/
def oneLinePrinter : Printer where
  text := oneLine
  need doc := (oneLine doc).utf8ByteSize + 1
  fits _ := Nat.lt_succ_self _

def longDoc : Doc := [("report_time", .str (String.ofList (List.replicate 600 'x')))]

/-- The first block is granted, more is refused. -/
def refusedCall : SerializeCall Nat := ⟨longDoc, fun n => if n = 0 then some 1 else none⟩

def grantedCall : SerializeCall Nat := ⟨longDoc, fun _ => some 2⟩

theorem longDoc_need : oneLinePrinter.need longDoc = 619 := by decide +kernel

theorem longDoc_print (cap : Nat) : oneLinePrinter.printPreallocated longDoc cap =
    if 619 ≤ cap then some (oneLine longDoc) else none := by
  rw [Printer.printPreallocated, longDoc_need]
  rfl

theorem refused_run :
    serialized oneLinePrinter maxTurns [refusedCall] = some (holding 1 512 none) := by
  have hturn : turn oneLinePrinter refusedCall ⟨Static.init, []⟩ =
      .inr (⟨holding 1 512 none, [⟨512, some 1⟩, ⟨1024, none⟩]⟩, none) := by
    rw [turn_init]
    simp [refusedCall, fill, Progress.request, holding, longDoc_print, store_singleton, bufInit,
      bufMax, nextCap, realloc]
  rw [serialized, List.foldlM_cons, serialize, maxTurns, Turns.run_return hturn]
  rfl

theorem granted_run : serialize oneLinePrinter maxTurns (holding 1 512 none) grantedCall =
    some (⟨holding 2 1024 (some (oneLine longDoc)), [⟨1024, some 2⟩]⟩, some 2) := by
  have hgrow : turn oneLinePrinter grantedCall ⟨holding 1 512 none, []⟩ =
      .inl ⟨holding 2 1024 none, [⟨1024, some 2⟩]⟩ := by
    simp [turn, grantedCall, fill, Progress.request, holding, longDoc_print, store_singleton,
      bufMax, nextCap, realloc_singleton]
  have hprint : turn oneLinePrinter grantedCall ⟨holding 2 1024 none, [⟨1024, some 2⟩]⟩ =
      .inr (⟨holding 2 1024 (some (oneLine longDoc)), [⟨1024, some 2⟩]⟩, some 2) := by
    simp [turn, grantedCall, fill, holding, longDoc_print, store_singleton]
  rw [serialize, maxTurns, Turns.run_again hgrow, Turns.run_return hprint]

/-- A call whose `realloc` is refused leaves the first block; the next call gets a larger
one and prints the document whole. -/
theorem reused_buffer_consistent_grown :
    ∃ st s ptr, serialized oneLinePrinter maxTurns [refusedCall] = some st ∧
      serialize oneLinePrinter maxTurns st grantedCall = some (s, ptr) ∧
      st.cap = 512 ∧ s.static.cap = 1024 ∧ Consistent s.static ∧
      Full oneLinePrinter longDoc s.static ptr := by
  obtain ⟨st, hrun, -, -, s, ptr, hcall, hconsistent, -, -, hfull⟩ :=
    reused_buffer_consistent oneLinePrinter [refusedCall] grantedCall
  obtain rfl := Option.some.inj ((hrun maxTurns le_rfl).symm.trans refused_run)
  have hcalled := hcall maxTurns le_rfl
  obtain ⟨rfl, rfl⟩ := Prod.mk.inj (Option.some.inj (hcalled.symm.trans granted_run))
  refine ⟨_, _, _, refused_run, granted_run, rfl, rfl, hconsistent, hfull ?_ (by simp)⟩
  rw [show grantedCall.doc = longDoc from rfl, longDoc_need]
  decide

end Wei.Perfreport
