import Wei.Lib.Mealy
import Wei.Perfreport.Publish

/-!
# The daemon's bus handle

`weid_bus.c` opens the handle and `wei_connperf_dml.c` registers the
data-model elements on it. Each file keeps a flag of its own: `opened` follows
the handle, `registered` is set once and never cleared. The bus itself is
outside: a session is what one successful `bus_open_fn` opened.
-/
namespace Wei.Bus

open Wei.Lib
open Perfreport (BusError reportEvent)

inductive ElementType where
  | property
  | event
  deriving DecidableEq

inductive DataType where
  | boolean
  | uint32
  | bytes
  deriving DecidableEq

/-- The callbacks of `wei_connperf_dml.c`. -/
inductive Handler where
  | enableGet
  | enableSet
  | configGet
  | configSet
  | eventSub
  deriving DecidableEq

/-- What `bus_data_element_t` is given here; the other fields are zero. -/
structure DataElement where
  fullName : String
  type : ElementType
  get : Option Handler
  set : Option Handler
  sub : Option Handler
  dataType : DataType
  permission : Bool
  deriving DecidableEq

/-- `data_elements` of `wei_connperf_dml_register` -/
def dataElements : List DataElement :=
  [⟨"Device.WiFi.X_RDK_ConnPerf.Enable", .property, some .enableGet, some .enableSet, none,
      .boolean, true⟩,
    ⟨"Device.WiFi.X_RDK_ConnPerf.ConfigFlags", .property, some .configGet, some .configSet, none,
      .uint32, true⟩,
    ⟨reportEvent, .event, none, none, some .eventSub, .bytes, false⟩]

/-- A session with the elements registered on it, in order. -/
structure Session where
  elements : List DataElement
  closed : Bool

/-- `g_weid_bus`, `g_wei_connperf_dml.registered`, and every session opened so far. -/
structure State where
  opened : Bool
  /-- The session the handle names; read only while `opened`. -/
  handle : Nat
  registered : Bool
  sessions : List Session

def State.init : State := ⟨false, 0, false, []⟩

/-- Which entries of `wifi_bus_desc_t` are not NULL. -/
structure Descriptor where
  openFn : Bool
  closeFn : Bool
  regDataElementFn : Bool

/-- `bus_close_fn` -/
def closeSession (sessions : List Session) (handle : Nat) : List Session :=
  sessions.modify handle fun s => { s with closed := true }

/-- `wei_connperf_dml_register`, with `get_bus_descriptor` and the registration's outcome. -/
def dmlRegister (st : State) (handle : Option Nat) (desc : Option Descriptor) (regRc : BusError) :
    State × BusError :=
  match handle with
  | none => (st, .invalidInput)
  | some h =>
    if st.registered then (st, .success)
    else
      match desc with
      | none => (st, .general)
      | some d =>
        if d.regDataElementFn = false then (st, .general)
        else if regRc ≠ .success then (st, regRc)
        else
          ({ st with
              registered := true
              sessions := st.sessions.modify h fun s =>
                { s with elements := s.elements ++ dataElements } },
            .success)

/-- What a call of `weid_bus_open` meets outside the two files. -/
structure OpenEnv where
  desc : Option Descriptor
  openRc : BusError
  /-- The descriptor `wei_connperf_dml_register` gets. -/
  regDesc : Option Descriptor
  regRc : BusError

/-- A successful `bus_open_fn` on the static handle, and the flag set after it. -/
def openSession (st : State) : State :=
  { st with
    opened := true
    handle := st.sessions.length
    sessions := st.sessions ++ [⟨[], false⟩] }

/-- The part of `weid_bus_open` behind `bus_open_fn`. -/
def registerOrClose (st : State) (env : OpenEnv) : State × BusError :=
  let (st, rc) := dmlRegister st (some st.handle) env.regDesc env.regRc
  if rc ≠ .success then
    ({ st with opened := false, sessions := closeSession st.sessions st.handle }, rc)
  else (st, .success)

/-- `weid_bus_open` -/
def busOpen (st : State) (env : OpenEnv) : State × BusError :=
  if st.opened then (st, .success)
  else
    match env.desc with
    | none => (st, .general)
    | some d =>
      if d.openFn = false ∨ d.closeFn = false then (st, .general)
      else if env.openRc ≠ .success then (st, env.openRc)
      else registerOrClose (openSession st) env

/-- `weid_bus_close`; without a descriptor the session stays open. -/
def busClose (st : State) (desc : Option Descriptor) : State :=
  if st.opened = false then st
  else
    match desc with
    | none => { st with opened := false }
    | some d =>
      if d.closeFn then
        { st with opened := false, sessions := closeSession st.sessions st.handle }
      else { st with opened := false }

/-- `weid_bus_handle` -/
def busHandle (st : State) : Option Nat := if st.opened then some st.handle else none

inductive Call where
  | open (env : OpenEnv)
  | close (desc : Option Descriptor)

/-- A call and what it returns. -/
def machine : Mealy State Call (Option BusError) where
  step st
    | .open env => ((busOpen st env).1, some (busOpen st env).2)
    | .close desc => (busClose st desc, none)

abbrev after (calls : List Call) : State := machine.final State.init calls

/-- `bus_open_fn` is reached and succeeds. -/
def OpenEnv.Connects (env : OpenEnv) : Prop :=
  (∃ d, env.desc = some d ∧ d.openFn = true ∧ d.closeFn = true) ∧ env.openRc = .success

/-- And the registration, were it reached, would succeed too. -/
def OpenEnv.Registers (env : OpenEnv) : Prop :=
  env.Connects ∧ (∃ d, env.regDesc = some d ∧ d.regDataElementFn = true) ∧ env.regRc = .success

/-! ## What one call does -/

section Steps

variable {st : State} {env : OpenEnv}

theorem open_opened (h : st.opened = true) : busOpen st env = (st, .success) := by
  simp [busOpen, h]

/-- An open that does not connect changes nothing and reports it. -/
theorem open_unconnected (h : st.opened = false) (hc : ¬ env.Connects) :
    ∃ rc, rc ≠ BusError.success ∧ busOpen st env = (st, rc) := by
  unfold busOpen
  rw [if_neg (by simp [h])]
  cases hd : env.desc with
  | none => exact ⟨.general, by simp, rfl⟩
  | some d =>
    by_cases hf : d.openFn = false ∨ d.closeFn = false
    · exact ⟨.general, by simp, if_pos hf⟩
    · have hrc : env.openRc ≠ .success := by
        intro hrc
        rw [not_or, Bool.not_eq_false, Bool.not_eq_false] at hf
        exact hc ⟨⟨d, hd, hf⟩, hrc⟩
      exact ⟨env.openRc, hrc, by simp [hf, hrc]⟩

theorem open_connected (h : st.opened = false) (hc : env.Connects) :
    busOpen st env = registerOrClose (openSession st) env := by
  obtain ⟨⟨d, hd, ho, hcl⟩, hrc⟩ := hc
  simp [busOpen, h, hd, ho, hcl, hrc]

/-- The flag of the data model lets a second session through unregistered. -/
theorem open_stale (h : st.opened = false) (hr : st.registered = true) (hc : env.Connects) :
    busOpen st env = (openSession st, .success) := by
  rw [open_connected h hc]
  simp [registerOrClose, dmlRegister, openSession, hr]

/-- The first registration puts the three elements on the new session. -/
theorem open_first (h : st.opened = false) (hr : st.registered = false) (he : env.Registers) :
    busOpen st env =
      ({ openSession st with
          registered := true
          sessions := st.sessions ++ [⟨dataElements, false⟩] }, .success) := by
  obtain ⟨hc, ⟨d, hd, hf⟩, hrc⟩ := he
  rw [open_connected h hc]
  simp [registerOrClose, dmlRegister, openSession, hr, hd, hf, hrc, List.modify_eq_take_cons_drop]

/-- A registration that does not go through leaves the state as it was and reports it. -/
theorem dmlRegister_failed (st : State) (hr : st.registered = false) (hc : env.Connects)
    (he : ¬ env.Registers) (handle : Nat) :
    ∃ rc, rc ≠ BusError.success ∧
      dmlRegister st (some handle) env.regDesc env.regRc = (st, rc) := by
  cases hd : env.regDesc with
  | none => exact ⟨.general, by simp, by simp [dmlRegister, hr]⟩
  | some d =>
    cases hf : d.regDataElementFn with
    | false => exact ⟨.general, by simp, by simp [dmlRegister, hr, hf]⟩
    | true =>
      have hrc : env.regRc ≠ .success := fun hrc => he ⟨hc, ⟨d, hd, hf⟩, hrc⟩
      exact ⟨env.regRc, hrc, by simp [dmlRegister, hr, hf, hrc]⟩

/-- Then the open closes its session again. -/
theorem open_unregistered (h : st.opened = false) (hr : st.registered = false)
    (hc : env.Connects) (he : ¬ env.Registers) :
    ∃ rc, rc ≠ BusError.success ∧ busOpen st env =
      ({ openSession st with opened := false, sessions := st.sessions ++ [⟨[], true⟩] }, rc) := by
  obtain ⟨rc, hrc, hreg⟩ := dmlRegister_failed (openSession st) hr hc he st.sessions.length
  refine ⟨rc, hrc, ?_⟩
  rw [open_connected h hc, registerOrClose,
    show (openSession st).handle = st.sessions.length from rfl, hreg]
  simp [hrc, openSession, closeSession, List.modify_eq_take_cons_drop]

/-- The ways through `weid_bus_open`. -/
inductive OpenStep (st : State) (env : OpenEnv) : State × BusError → Prop where
  | already (h : st.opened = true) : OpenStep st env (st, .success)
  | unconnected (rc : BusError) (h : st.opened = false) (hc : ¬ env.Connects)
      (hrc : rc ≠ .success) : OpenStep st env (st, rc)
  | stale (h : st.opened = false) (hr : st.registered = true) (hc : env.Connects) :
      OpenStep st env (openSession st, .success)
  | first (h : st.opened = false) (hr : st.registered = false) (he : env.Registers) :
      OpenStep st env
        ({ openSession st with
            registered := true
            sessions := st.sessions ++ [⟨dataElements, false⟩] }, .success)
  | unregistered (rc : BusError) (h : st.opened = false) (hr : st.registered = false)
      (he : ¬ env.Registers) (hrc : rc ≠ .success) :
      OpenStep st env
        ({ openSession st with opened := false, sessions := st.sessions ++ [⟨[], true⟩] }, rc)

theorem open_step (st : State) (env : OpenEnv) : OpenStep st env (busOpen st env) := by
  cases h : st.opened with
  | true => simpa only [open_opened h] using OpenStep.already h
  | false =>
    by_cases hc : env.Connects
    · cases hr : st.registered with
      | true => simpa only [open_stale h hr hc] using OpenStep.stale h hr hc
      | false =>
        by_cases he : env.Registers
        · simpa only [open_first h hr he] using OpenStep.first h hr he
        · obtain ⟨rc, hrc, heq⟩ := open_unregistered h hr hc he
          simpa only [heq] using OpenStep.unregistered rc h hr he hrc
    · obtain ⟨rc, hrc, heq⟩ := open_unconnected h hc
      simpa only [heq] using OpenStep.unconnected rc h hc hrc

theorem close_opened (desc : Option Descriptor) : (busClose st desc).opened = false := by
  unfold busClose
  split
  · assumption
  · cases desc with
    | none => rfl
    | some d => cases hd : d.closeFn <;> simp [hd]

theorem close_registered (desc : Option Descriptor) :
    (busClose st desc).registered = st.registered := by
  unfold busClose
  split
  · rfl
  · cases desc with
    | none => rfl
    | some d => cases hd : d.closeFn <;> simp [hd]

end Steps

/-! ## The law of an open handle -/

/-- An open handle names the newest session, and each element stands on it once. -/
def Registered (st : State) : Prop :=
  ∀ h, busHandle st = some h → h + 1 = st.sessions.length ∧
    ∃ session, st.sessions[h]? = some session ∧ session.closed = false ∧
      ∀ element ∈ dataElements, session.elements.count element = 1

/-- What an open returns agrees with the handle it leaves, and a failing one
leaves no session of its own open. -/
structure OpenSound (st : State) (env : OpenEnv) : Prop where
  handle : (busOpen st env).2 = .success ↔ busHandle (busOpen st env).1 ≠ none
  closed : (busOpen st env).2 ≠ .success → ∀ k session, st.sessions.length ≤ k →
    (busOpen st env).1.sessions[k]? = some session → session.closed = true

section Steps

variable {st : State} {env : OpenEnv}

theorem open_sound (st : State) (env : OpenEnv) : OpenSound st env := by
  have hstep := open_step st env
  constructor
  · generalize busOpen st env = r at hstep ⊢
    cases hstep with
    | already h => simp [busHandle, h]
    | unconnected rc h _ hrc => simp [busHandle, h, hrc]
    | stale => simp [busHandle, openSession]
    | first => simp [busHandle, openSession]
    | unregistered rc _ _ _ hrc => simp [busHandle, hrc]
  · intro hrc k session hk hs
    generalize busOpen st env = r at hstep hrc hs
    cases hstep with
    | unconnected => exact absurd (List.getElem?_eq_some_iff.mp hs).1 (Nat.not_lt.mpr hk)
    | unregistered =>
      rw [List.getElem?_append_right hk] at hs
      obtain rfl := List.mem_singleton.mp (List.mem_of_getElem? hs)
      rfl
    | _ => exact absurd rfl hrc

/-- The session an open leaves behind the handle carries the elements, unless the
flag was set before it. -/
theorem open_registered (hst : Registered st)
    (hstale : st.opened = false → st.registered = true → ¬ env.Connects) :
    Registered (busOpen st env).1 := by
  have hstep := open_step st env
  generalize busOpen st env = r at hstep ⊢
  cases hstep with
  | already => exact hst
  | unconnected => exact hst
  | stale h hr hc => exact absurd hc (hstale h hr)
  | first =>
    intro h hh
    obtain rfl : st.sessions.length = h := by simpa [busHandle, openSession] using hh
    exact ⟨by simp, ⟨dataElements, false⟩, by simp, rfl, by decide⟩
  | unregistered => simp [Registered, busHandle]

theorem close_registered_handle (desc : Option Descriptor) : Registered (busClose st desc) := by
  simp [Registered, busHandle, close_opened]

/-- A second session opens without any element on it. -/
theorem not_registered_stale (h : st.opened = false) (hr : st.registered = true)
    (hc : env.Connects) : ¬ Registered (busOpen st env).1 := by
  rw [open_stale h hr hc]
  intro hreg
  obtain ⟨_, session, hs, _, hcount⟩ := hreg st.sessions.length (by simp [busHandle, openSession])
  obtain rfl : session = ⟨[], false⟩ := by simpa [openSession] using hs.symm
  exact absurd (hcount _ (List.mem_cons_self ..)) (by simp)

end Steps

/-! ## Over a history of calls -/

section Runs

open scoped List

variable {calls : List Call} {c : Call} {e : OpenEnv} {desc : Option Descriptor}

/-- The law of the two files, at every point of a history. -/
def AlwaysRegistered (calls : List Call) : Prop :=
  (∀ seen, seen <+: calls → Registered (after seen)) ∧
    ∀ seen env, seen ++ [.open env] <+: calls → OpenSound (after seen) env

/-- No open that connects comes after a close that comes after an open that registered. -/
def NeverReopened (calls : List Call) : Prop :=
  ∀ e desc e', [.open e, .close desc, .open e'] <+ calls → e.Registers → ¬ e'.Connects

theorem after_concat : after (calls ++ [c]) = (machine.step (after calls) c).1 :=
  machine.final_concat _ _ _

/-- What the two flags say of the calls so far. -/
structure Flags (calls : List Call) (st : State) : Prop where
  opened : st.opened = true → st.registered = true
  registered : st.registered = true ↔ ∃ e, Call.open e ∈ calls ∧ e.Registers
  closed : st.opened = false → st.registered = true →
    ∃ e desc, [.open e, .close desc] <+ calls ∧ e.Registers

theorem Flags.open {st : State} (h : Flags calls st) (e : OpenEnv) :
    Flags (calls ++ [.open e]) (busOpen st e).1 := by
  have hstep := open_step st e
  have hkeep : ∀ e₁ desc, [.open e₁, .close desc] <+ calls →
      [.open e₁, .close desc] <+ calls ++ [.open e] :=
    fun _ _ hs => hs.trans (List.sublist_append_left _ _)
  have hmem : (∃ e₁, Call.open e₁ ∈ calls ++ [.open e] ∧ e₁.Registers) ↔
      (∃ e₁, Call.open e₁ ∈ calls ∧ e₁.Registers) ∨ e.Registers := by
    simp only [List.mem_append, List.mem_singleton, Call.open.injEq]
    constructor
    · rintro ⟨e₁, h₁ | rfl, hr⟩
      · exact Or.inl ⟨e₁, h₁, hr⟩
      · exact Or.inr hr
    · rintro (⟨e₁, h₁, hr⟩ | hr)
      · exact ⟨e₁, Or.inl h₁, hr⟩
      · exact ⟨e, Or.inr rfl, hr⟩
  generalize busOpen st e = r at hstep ⊢
  constructor
  · cases hstep with
    | already => exact h.opened
    | unconnected => exact h.opened
    | stale _ hr => exact fun _ => hr
    | first => exact fun _ => rfl
    | unregistered => simp
  · rw [hmem, ← h.registered]
    cases hstep with
    | already ho => simp [h.opened ho]
    | unconnected _ _ hc => simp [mt And.left hc, OpenEnv.Registers]
    | stale _ hr => simp [openSession, hr]
    | first _ _ he => simp [he]
    | unregistered _ _ hr he => simp [openSession, hr, he]
  · intro hopened hreg
    cases hstep with
    | already ho => exact absurd (ho.symm.trans hopened) (by simp)
    | unconnected _ ho =>
      obtain ⟨e₁, desc, hs, hr⟩ := h.closed ho hreg
      exact ⟨e₁, desc, hkeep _ _ hs, hr⟩
    | unregistered _ ho hr => exact absurd hreg (by simp [openSession, hr])
    | _ => exact absurd hopened (by simp [openSession])

theorem Flags.close {st : State} (h : Flags calls st) (desc : Option Descriptor) :
    Flags (calls ++ [.close desc]) (busClose st desc) where
  opened := by simp [close_opened]
  registered := by simp [close_registered, h.registered]
  closed := by
    intro _ hreg
    rw [close_registered, h.registered] at hreg
    obtain ⟨e, he, hr⟩ := hreg
    exact ⟨e, desc, List.Sublist.append (List.singleton_sublist.mpr he) (List.Sublist.refl _), hr⟩

theorem flags (calls : List Call) : Flags calls (after calls) := by
  refine machine.final_history (p := Flags) ⟨by simp [State.init], by simp [State.init],
    by simp [State.init]⟩ ?_ calls
  intro es c st h
  cases c with
  | «open» e => exact h.open e
  | close desc => exact h.close desc

theorem NeverReopened.of_sublist {calls' : List Call} (h : NeverReopened calls)
    (hs : calls' <+ calls) : NeverReopened calls' :=
  fun e desc e' hsub => h e desc e' (hsub.trans hs)

/-- Without a reopening every handle is a registered one. -/
theorem registered_of_never (h : NeverReopened calls) : Registered (after calls) := by
  induction calls using List.reverseRecOn with
  | nil => simp [Registered, busHandle, State.init]
  | append_singleton calls c ih =>
    have hst := ih (h.of_sublist (List.sublist_append_left _ _))
    rw [after_concat]
    cases c with
    | close desc => exact close_registered_handle desc
    | «open» e' =>
      refine open_registered hst ?_
      intro hopened hreg hc
      obtain ⟨e, desc, hs, hr⟩ := (flags calls).closed hopened hreg
      exact h e desc e' (hs.append (List.Sublist.refl _)) hr hc

theorem pair_sublist_of_open {e' : OpenEnv}
    (hs : [.open e, .close desc] <+ calls ++ [.open e']) : [.open e, .close desc] <+ calls := by
  have hrev := List.reverse_sublist.mpr hs
  rw [List.reverse_append, List.reverse_singleton, List.singleton_append] at hrev
  rcases List.cons_sublist_cons'.mp hrev with h | ⟨h, _⟩
  · exact List.reverse_sublist.mp h
  · exact absurd h (by simp)

/-- An open bus after a registered one was closed: some open connected in between. -/
theorem connects_of_opened (ho : (after calls).opened = true)
    (hs : [.open e, .close desc] <+ calls) :
    ∃ seen e', seen ++ [.open e'] <+: calls ∧ [.open e, .close desc] <+ seen ∧
      (after seen).opened = false ∧ e'.Connects := by
  induction calls using List.reverseRecOn with
  | nil => simp at hs
  | append_singleton calls c ih =>
    rw [after_concat] at ho
    cases c with
    | close desc' => exact absurd ho (by simp [machine, close_opened])
    | «open» e' =>
      have hs' := pair_sublist_of_open hs
      cases hopened : (after calls).opened with
      | true =>
        obtain ⟨seen, e₁, hp, h⟩ := ih hopened hs'
        exact ⟨seen, e₁, hp.trans (List.prefix_append _ _), h⟩
      | false =>
        refine ⟨calls, e', List.prefix_refl _, hs', hopened, ?_⟩
        by_contra hc
        obtain ⟨rc, _, heq⟩ := open_unconnected hopened hc
        exact absurd ho (by simp [machine, heq, hopened])

/-- A reopening passes through an open that connects a closed bus. -/
theorem exists_stale_open {e' : OpenEnv} (hs : [.open e, .close desc, .open e'] <+ calls)
    (hc : e'.Connects) :
    ∃ seen e₁, seen ++ [.open e₁] <+: calls ∧ [.open e, .close desc] <+ seen ∧
      (after seen).opened = false ∧ e₁.Connects := by
  rw [show [Call.open e, .close desc, .open e'] = [.open e, .close desc] ++ [.open e'] from rfl,
    List.append_sublist_iff] at hs
  obtain ⟨r₁, r₂, rfl, hpair, hlast⟩ := hs
  obtain ⟨s, t, rfl⟩ := List.append_of_mem (List.singleton_sublist.mp hlast)
  have hpair' : [.open e, .close desc] <+ r₁ ++ s := hpair.trans (List.sublist_append_left _ _)
  cases hopened : (after (r₁ ++ s)).opened with
  | false => exact ⟨r₁ ++ s, e', ⟨t, by simp⟩, hpair', hopened, hc⟩
  | true =>
    obtain ⟨seen, e₁, hp, h⟩ := connects_of_opened hopened hpair'
    exact ⟨seen, e₁, hp.trans ⟨.open e' :: t, by simp⟩, h⟩

/-- The law holds of exactly the histories without a reopening. -/
theorem open_handle_registered_iff (calls : List Call) :
    AlwaysRegistered calls ↔ NeverReopened calls := by
  constructor
  · intro h e desc e' hs hr hc
    obtain ⟨seen, e₁, hp, hpair, hopened, hc₁⟩ := exists_stale_open hs hc
    have hreg : (after seen).registered = true :=
      (flags seen).registered.mpr ⟨e, hpair.subset (List.mem_cons_self ..), hr⟩
    have hafter := h.1 _ hp
    rw [after_concat] at hafter
    exact not_registered_stale hopened hreg hc₁ hafter
  · intro h
    refine ⟨fun seen hp => registered_of_never (h.of_sublist hp.sublist), ?_⟩
    intro seen env _
    exact open_sound _ _

/-- An open that meets no failure. -/
def OpenEnv.ok : OpenEnv :=
  ⟨some ⟨true, true, true⟩, .success, some ⟨true, true, true⟩, .success⟩

/-- Open, close, open: the second handle is open and nothing is registered on it. -/
theorem open_handle_unregistered :
    busHandle (after [.open .ok, .close (some ⟨true, true, true⟩), .open .ok]) = some 1 ∧
      (after [.open .ok, .close (some ⟨true, true, true⟩), .open .ok]).sessions =
        [⟨dataElements, true⟩, ⟨[], false⟩] ∧
      ¬ AlwaysRegistered [.open .ok, .close (some ⟨true, true, true⟩), .open .ok] := by
  refine ⟨rfl, rfl, ?_⟩
  intro h
  obtain ⟨_, session, hs, _, hcount⟩ := h.1 _ (List.prefix_refl _) 1 rfl
  obtain rfl : (⟨[], false⟩ : Session) = session := Option.some_inj.mp hs
  exact absurd (hcount _ (List.mem_cons_self ..)) (by simp)

end Runs

end Wei.Bus
