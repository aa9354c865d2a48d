import Mathlib.Data.List.Range
import Wei.Lib.Bytes
import Wei.Lib.RealDouble
import Wei.Infer.Engine

/-!
# The datagram receiver

From the socket of `wei_poll.c` to the stage calls of `weid_wire.c`. The payload
struct `stats_arg_t` is declared in the staged `run_qmgr.h`, outside this
repository: its size and the reading of its bytes are a parameter, and so is the
byte order of the host. Reads go through `Wei.Lib.Bytes`, so a receiver that left
the received bytes would have no result at all.
-/
namespace Wei.Wire

open Wei.Lib Wei.Lib.Bytes
open Infer (Engine stageRecord)

/-- The fields of `stats_arg_t` that the daemon reads. -/
structure StatsArg where
  cliMacAddress : Mac
  cliActive : Bool
  cliSnr : Int
  cliLastDataUplinkRate : Int
  cliPacketsSent : Int
  cliErrorsSent : Int
  channelUtilization : Int
  deriving DecidableEq

/-- The staged header's `stats_arg_t`: its size, and what its bytes stand for. -/
structure Layout where
  size : Nat
  size_pos : 0 < size
  size_le : size ≤ 65535
  decode : Vector UInt8 size → StatsArg

/-- `weid_wire_map_record` -/
def mapRecord (entry : StatsArg) : ConnMetric.Record where
  version := ConnMetric.version
  activityState := if entry.cliActive then .active else .idle
  status := .ok
  linkSnrDb := Int32.ofInt entry.cliSnr
  phyRateKbps := UInt32.ofInt entry.cliLastDataUplinkRate * 1000
  txFrames := UInt32.ofInt entry.cliPacketsSent
  txErrFrames := UInt32.ofInt entry.cliErrorsSent
  chanUtilPct := UInt8.ofInt
    (if entry.channelUtilization < 0 then 0
      else if 100 < entry.channelUtilization then 100 else entry.channelUtilization)

/-- `LQ_IPC_WIRE_VERSION` and `LQ_IPC_MSG_PERIODIC_STATS` -/
def wireVersion : UInt8 := 1
def msgPeriodicStats : UInt8 := 1

/-- `offsetof(weid_tlv_t, value)`: type, version, `elem_size` and `len` come first. -/
abbrev valueOffset : Nat := 6

/-- The reason a datagram is dropped with, in the order of the checks. -/
inductive Drop where
  | runt
  | version
  | length
  | msgType
  | elemSize
  | ragged
  deriving DecidableEq, Repr

/-- The checks of `weid_on_datagram`, up to the entry count it goes on with. -/
def checkFrame (order : ByteOrder) (size : Nat) (buf : List UInt8) :
    Option (Except Drop Nat) := do
  if buf.length < valueOffset then
    return .error .runt
  let payloadLen := buf.length - valueOffset
  let version ← readU8 buf 1
  if version ≠ wireVersion then
    return .error .version
  let len ← readU16 order buf 4
  if len ≠ payloadLen then
    return .error .length
  let type ← readU8 buf 0
  if type ≠ msgPeriodicStats then
    return .error .msgType
  let elemSize ← readU16 order buf 2
  if elemSize ≠ size then
    return .error .elemSize
  if payloadLen % size ≠ 0 then
    return .error .ragged
  return .ok (payloadLen / size)

/-- One call of `wei_infer_stage_record`, with the clock reading it takes. -/
structure StageCall where
  mac : Mac
  metrics : ConnMetric.Record
  now : Int

/-- The receiving side of the daemon: its engine, and the stage calls made so far. -/
structure Receiver (D : Type) where
  engine : Engine D
  calls : List StageCall

/-- `WEI_DGRAM_MAX` -/
def dgramMax : Nat := 65535 + 64

/-- What `recv` leaves in the receive buffer of a datagram. -/
def recv (dgram : List UInt8) : List UInt8 := dgram.take dgramMax

/-- What one call of `recv` comes back with. -/
inductive RecvResult where
  | datagram (dgram : List UInt8)
  | interrupted
  | failed

section Receive

variable {D : Type}

-- `clock n` is the reading of the `n`-th stage call
variable (order : ByteOrder) (layout : Layout) (clock : Nat → Int)

/-- The stage call an entry leads to. -/
def stageCall (n : Nat) (chunk : Vector UInt8 layout.size) : StageCall :=
  let entry := layout.decode chunk
  ⟨entry.cliMacAddress, mapRecord entry, clock n⟩

/-- One turn of the staging loop, after the `memcpy`. -/
def stageEntry (rx : Receiver D) (chunk : Vector UInt8 layout.size) : Receiver D :=
  let call := stageCall layout clock rx.calls.length chunk
  ⟨stageRecord rx.engine call.mac call.metrics call.now, rx.calls ++ [call]⟩

/-- `weid_on_datagram` -/
def onDatagram (rx : Receiver D) (buf : List UInt8) : Option (Receiver D) := do
  match ← checkFrame order layout.size buf with
  | .error _ => return rx
  | .ok count =>
    (List.range count).foldlM (fun rx i => do
      let chunk ← readBytes buf (valueOffset + i * layout.size) layout.size
      return stageEntry layout clock rx chunk) rx

/-- One datagram of `wei_sock_drain`. -/
def deliver (rx : Receiver D) (dgram : List UInt8) : Option (Receiver D) :=
  let buf := recv dgram
  if 0 < buf.length then onDatagram order layout clock rx buf else some rx

/-- `wei_sock_drain`, against what its calls of `recv` come back with. -/
def sockDrain (rx : Receiver D) : List RecvResult → Option (Receiver D)
  | [] => some rx
  | .interrupted :: rest => sockDrain rx rest
  | .failed :: _ => some rx
  | .datagram dgram :: rest => do
    let rx ← deliver order layout clock rx dgram
    sockDrain rx rest

end Receive

/-! ## The frame grammar -/

/-- A complete frame of periodic statistics. -/
structure IsFrame (order : ByteOrder) (size : Nat) (dgram : List UInt8) : Prop where
  header : valueOffset ≤ dgram.length
  type : readU8 dgram 0 = some msgPeriodicStats
  version : readU8 dgram 1 = some wireVersion
  elemSize : readU16 order dgram 2 = some size
  len : readU16 order dgram 4 = some (dgram.length - valueOffset)
  aligned : size ∣ dgram.length - valueOffset

/-- The frame a sender builds from its entries. -/
def frame (order : ByteOrder) {size : Nat} (entries : List (Vector UInt8 size)) : List UInt8 :=
  [msgPeriodicStats, wireVersion] ++ ofU16 order size ++ ofU16 order (entries.length * size) ++
    concat entries

section Grammar

variable {order : ByteOrder} {size : Nat}

theorem length_frame (entries : List (Vector UInt8 size)) :
    (frame order entries).length = valueOffset + entries.length * size := by
  simp [frame, valueOffset]
  omega

/-- The entries of a frame lie back to back behind its header. -/
theorem frame_eq_append (order : ByteOrder) (entries : List (Vector UInt8 size)) :
    ∃ header : List UInt8, header.length = valueOffset ∧
      frame order entries = header ++ concat entries :=
  ⟨[msgPeriodicStats, wireVersion] ++ ofU16 order size ++ ofU16 order (entries.length * size),
    by simp [valueOffset], rfl⟩

theorem count_frame (order : ByteOrder) (hsize : 0 < size) (entries : List (Vector UInt8 size)) :
    ((frame order entries).length - valueOffset) / size = entries.length := by
  rw [length_frame, Nat.add_sub_cancel_left]
  exact Nat.mul_div_cancel _ hsize

theorem take_drop_frame (entries : List (Vector UInt8 size)) {i : Nat} (hi : i < entries.length) :
    ((frame order entries).drop (valueOffset + i * size)).take size = entries[i].toList := by
  have h := take_drop_concat ([msgPeriodicStats, wireVersion] ++ ofU16 order size ++
    ofU16 order (entries.length * size)) entries hi
  simpa [frame] using h

theorem IsFrame.length_le {dgram : List UInt8} (h : IsFrame order size dgram) :
    dgram.length ≤ valueOffset + 65535 := by
  have hheader : 6 ≤ dgram.length := h.header
  obtain ⟨n, hn, hread⟩ := readU16_of_lt order (show 4 + 1 < dgram.length by omega)
  obtain rfl := Option.some.inj (hread.symm.trans h.len)
  omega

theorem isFrame_frame (order : ByteOrder) (hsize : size ≤ 65535) (entries : List (Vector UInt8 size))
    (hlen : entries.length * size ≤ 65535) : IsFrame order size (frame order entries) where
  header := by rw [length_frame]; omega
  type := rfl
  version := rfl
  elemSize := by
    have h := readU16_append order [msgPeriodicStats, wireVersion]
      (ofU16 order (entries.length * size) ++ concat entries) (show size < 65536 by omega)
    simpa [frame] using h
  len := by
    have h := readU16_append order ([msgPeriodicStats, wireVersion] ++ ofU16 order size)
      (concat entries) (show entries.length * size < 65536 by omega)
    rw [length_frame]
    simpa [frame] using h
  aligned := by
    rw [length_frame, Nat.add_sub_cancel_left]
    exact Nat.dvd_mul_left size entries.length

/-- The frames of the grammar are the ones a sender builds. -/
theorem IsFrame.exists_entries {dgram : List UInt8} (h : IsFrame order size dgram) :
    ∃ entries : List (Vector UInt8 size), entries.length * size ≤ 65535 ∧
      dgram = frame order entries := by
  obtain ⟨k, hk⟩ := h.aligned
  have hheader := h.header
  have hpayload : (dgram.drop valueOffset).length = k * size := by
    rw [List.length_drop, hk, Nat.mul_comm]
  obtain ⟨entries, hentries, hconcat⟩ := exists_concat (dgram.drop valueOffset) hpayload
  have hlen : entries.length * size = dgram.length - valueOffset := by
    rw [hentries, hk, Nat.mul_comm]
  refine ⟨entries, by have hle := h.length_le; omega, ?_⟩
  have helem := ofU16_of_readU16 h.elemSize
  have hfield := ofU16_of_readU16 h.len
  rw [frame, hconcat, hlen, ← helem, ← hfield]
  match dgram, h.type, h.version, hheader with
  | a :: b :: c :: d :: e :: f :: rest, htype, hversion, _ =>
    obtain rfl := Option.some.inj htype
    obtain rfl := Option.some.inj hversion
    rfl

/-- The receive buffer is wide enough that cutting a datagram never makes or
unmakes a frame. -/
theorem isFrame_recv (dgram : List UInt8) :
    IsFrame order size (recv dgram) ↔ IsFrame order size dgram := by
  by_cases hfit : dgram.length ≤ dgramMax
  · rw [recv, List.take_of_length_le hfit]
  · have hlong : dgramMax < dgram.length := Nat.lt_of_not_le hfit
    have hcut : (recv dgram).length = dgramMax := List.length_take_of_le hlong.le
    constructor
    · intro h
      have hle := h.length_le
      rw [hcut] at hle
      exact absurd hle (by decide)
    · intro h
      exact absurd (hlong.trans_le h.length_le) (by decide)

theorem recv_of_isFrame {dgram : List UInt8} (h : IsFrame order size dgram) :
    recv dgram = dgram :=
  List.take_of_length_le (h.length_le.trans (by decide))

theorem checkFrame_of_isFrame {dgram : List UInt8} (h : IsFrame order size dgram) :
    checkFrame order size dgram = some (.ok ((dgram.length - valueOffset) / size)) := by
  have hrunt : ¬ dgram.length < valueOffset := Nat.not_lt.mpr h.header
  have haligned := Nat.mod_eq_zero_of_dvd h.aligned
  simp [checkFrame, hrunt, h.version, h.len, h.type, h.elemSize, haligned]

/-- Anything else is dropped for a reason, and the checks never read past its end. -/
theorem checkFrame_of_not_isFrame {dgram : List UInt8} (h : ¬ IsFrame order size dgram) :
    ∃ reason, checkFrame order size dgram = some (.error reason) := by
  by_cases hrunt : dgram.length < valueOffset
  · exact ⟨.runt, by simp [checkFrame, hrunt]⟩
  have hheader : 6 ≤ dgram.length := Nat.not_lt.mp hrunt
  have hversion := readU8_of_lt (show 1 < dgram.length by omega)
  have htype := readU8_of_lt (show 0 < dgram.length by omega)
  obtain ⟨len, -, hlen⟩ := readU16_of_lt order (show 4 + 1 < dgram.length by omega)
  obtain ⟨elemSize, -, helem⟩ := readU16_of_lt order (show 2 + 1 < dgram.length by omega)
  by_cases hv : dgram[1] = wireVersion
  case neg => exact ⟨.version, by simp [checkFrame, hrunt, hversion, hv]⟩
  by_cases hl : len = dgram.length - valueOffset
  case neg => exact ⟨.length, by simp [checkFrame, hrunt, hversion, hv, hlen, hl]⟩
  by_cases ht : dgram[0] = msgPeriodicStats
  case neg => exact ⟨.msgType, by simp [checkFrame, hrunt, hversion, hv, hlen, hl, htype, ht]⟩
  by_cases he : elemSize = size
  case neg =>
    exact ⟨.elemSize, by simp [checkFrame, hrunt, hversion, hv, hlen, hl, htype, ht, helem, he]⟩
  by_cases ha : size ∣ dgram.length - valueOffset
  case neg =>
    have hmod : (dgram.length - valueOffset) % size ≠ 0 := fun h0 => ha (Nat.dvd_of_mod_eq_zero h0)
    exact ⟨.ragged,
      by simp [checkFrame, hrunt, hversion, hv, hlen, hl, htype, ht, helem, he, hmod]⟩
  exact absurd ⟨hheader, ht ▸ htype, hv ▸ hversion, he ▸ helem, hl ▸ hlen, ha⟩ h

end Grammar

/-! ## What a datagram does -/

section Decode

variable {D : Type}
variable (order : ByteOrder) (layout : Layout) (clock : Nat → Int)

/-- The stage calls that entries lead to, in their order, from the `n`-th on. -/
def stageCalls (n : Nat) (chunks : List (Vector UInt8 layout.size)) : List StageCall :=
  chunks.mapIdx fun i chunk => stageCall layout clock (n + i) chunk

def stageAll (eng : Engine D) (calls : List StageCall) : Engine D :=
  calls.foldl (fun eng call => stageRecord eng call.mac call.metrics call.now) eng

/-- Staging is the engine's own run over the stage events. -/
theorem stageAll_eq_final [CDouble D] (lq : ConnScorer.LinkQty D) (eng : Engine D)
    (calls : List StageCall) :
    stageAll eng calls = (Infer.machine lq).final eng
      (calls.map fun call => .stage call.mac call.metrics call.now) := by
  rw [Mealy.final, List.foldl_map]
  rfl

/-- The receiver once exactly these entries were staged. -/
def staged (rx : Receiver D) (chunks : List (Vector UInt8 layout.size)) : Receiver D :=
  let calls := stageCalls layout clock rx.calls.length chunks
  ⟨stageAll rx.engine calls, rx.calls ++ calls⟩

theorem foldl_stageEntry (rx : Receiver D) (chunks : List (Vector UInt8 layout.size)) :
    chunks.foldl (stageEntry layout clock) rx = staged layout clock rx chunks := by
  induction chunks generalizing rx with
  | nil => simp [staged, stageCalls, stageAll]
  | cons chunk chunks ih =>
    rw [List.foldl_cons, ih]
    simp [staged, stageCalls, stageAll, stageEntry, List.mapIdx_cons, Nat.add_assoc,
      Nat.add_comm 1]

theorem onDatagram_frame (rx : Receiver D) (entries : List (Vector UInt8 layout.size))
    (hlen : entries.length * layout.size ≤ 65535) :
    onDatagram order layout clock rx (frame order entries) =
      some (staged layout clock rx entries) := by
  have hframe := isFrame_frame order layout.size_le entries hlen
  have hcount := count_frame order layout.size_pos entries
  have hloop := foldlM_readBytes (stageEntry (D := D) layout clock)
    ([msgPeriodicStats, wireVersion] ++ ofU16 order layout.size ++
      ofU16 order (entries.length * layout.size)) entries rx
  rw [foldl_stageEntry] at hloop
  simp only [onDatagram, checkFrame_of_isFrame hframe, hcount]
  simpa [frame] using hloop

theorem onDatagram_drop (rx : Receiver D) {buf : List UInt8}
    (h : ¬ IsFrame order layout.size buf) : onDatagram order layout clock rx buf = some rx := by
  obtain ⟨reason, hreason⟩ := checkFrame_of_not_isFrame h
  simp [onDatagram, hreason]

theorem deliver_frame (rx : Receiver D) (entries : List (Vector UInt8 layout.size))
    (hlen : entries.length * layout.size ≤ 65535) :
    deliver order layout clock rx (frame order entries) =
      some (staged layout clock rx entries) := by
  have hframe := isFrame_frame order layout.size_le entries hlen
  have hpos : 0 < (frame order entries).length := Nat.lt_of_lt_of_le (by decide) hframe.header
  simp only [deliver, recv_of_isFrame hframe, if_pos hpos]
  exact onDatagram_frame order layout clock rx entries hlen

theorem deliver_drop (rx : Receiver D) {dgram : List UInt8}
    (h : ¬ IsFrame order layout.size dgram) : deliver order layout clock rx dgram = some rx := by
  have hrecv : ¬ IsFrame order layout.size (recv dgram) := fun hf => h ((isFrame_recv dgram).mp hf)
  simp only [deliver, onDatagram_drop order layout clock rx hrecv, ite_self]

@[simp] theorem length_stageCalls (n : Nat) (chunks : List (Vector UInt8 layout.size)) :
    (stageCalls layout clock n chunks).length = chunks.length := List.length_mapIdx

theorem stageCalls_append (n : Nat) (front back : List (Vector UInt8 layout.size)) :
    stageCalls layout clock n (front ++ back) =
      stageCalls layout clock n front ++ stageCalls layout clock (n + front.length) back := by
  simp only [stageCalls, List.mapIdx_append, Nat.add_assoc, Nat.add_comm front.length]

theorem staged_nil (rx : Receiver D) : staged layout clock rx [] = rx := by
  simp [staged, stageCalls, stageAll]

theorem staged_append (rx : Receiver D) (front back : List (Vector UInt8 layout.size)) :
    staged layout clock (staged layout clock rx front) back =
      staged layout clock rx (front ++ back) := by
  rw [← foldl_stageEntry, ← foldl_stageEntry, ← foldl_stageEntry, List.foldl_append]

/-- The entries of a datagram: those of a frame, and none of anything else. -/
def chunksOf (buf : List UInt8) : List (Vector UInt8 layout.size) :=
  match checkFrame order layout.size buf with
  | some (.ok count) =>
    (List.range count).filterMap fun i => readBytes buf (valueOffset + i * layout.size) layout.size
  | _ => []

theorem chunksOf_frame (entries : List (Vector UInt8 layout.size))
    (hlen : entries.length * layout.size ≤ 65535) :
    chunksOf order layout (frame order entries) = entries := by
  have hframe := isFrame_frame order layout.size_le entries hlen
  obtain ⟨header, hheader, heq⟩ := frame_eq_append order entries
  rw [chunksOf, checkFrame_of_isFrame hframe, count_frame order layout.size_pos entries]
  dsimp only
  rw [heq, ← hheader]
  exact filterMap_readBytes header entries

theorem chunksOf_drop {buf : List UInt8} (h : ¬ IsFrame order layout.size buf) :
    chunksOf order layout buf = [] := by
  obtain ⟨reason, hreason⟩ := checkFrame_of_not_isFrame h
  rw [chunksOf, hreason]

/-- A datagram with entries is a frame of them. -/
theorem eq_frame_of_chunksOf {buf : List UInt8} (h : chunksOf order layout buf ≠ []) :
    buf = frame order (chunksOf order layout buf) := by
  by_cases hf : IsFrame order layout.size buf
  · obtain ⟨entries, hlen, rfl⟩ := hf.exists_entries
    rw [chunksOf_frame order layout entries hlen]
  · exact absurd (chunksOf_drop order layout hf) h

/-- The receiver stages the entries of a datagram, whatever it is. -/
theorem onDatagram_chunks (rx : Receiver D) (buf : List UInt8) :
    onDatagram order layout clock rx buf =
      some (staged layout clock rx (chunksOf order layout buf)) := by
  by_cases hf : IsFrame order layout.size buf
  · obtain ⟨entries, hlen, rfl⟩ := hf.exists_entries
    rw [chunksOf_frame order layout entries hlen]
    exact onDatagram_frame order layout clock rx entries hlen
  · rw [chunksOf_drop order layout hf, staged_nil]
    exact onDatagram_drop order layout clock rx hf

theorem deliver_staged (rx : Receiver D) (dgram : List UInt8) :
    ∃ chunks, deliver order layout clock rx dgram = some (staged layout clock rx chunks) ∧
      (chunks ≠ [] → IsFrame order layout.size dgram) := by
  by_cases h : IsFrame order layout.size dgram
  · obtain ⟨entries, hlen, rfl⟩ := h.exists_entries
    exact ⟨entries, deliver_frame order layout clock rx entries hlen, fun _ => h⟩
  · refine ⟨[], ?_, fun hne => absurd rfl hne⟩
    rw [staged_nil]
    exact deliver_drop order layout clock rx h

/-- Whatever is queued on the socket, draining it reads inside the datagrams and
stages entries of frames only. -/
theorem sockDrain_staged (rx : Receiver D) (queue : List RecvResult) :
    ∃ chunks, sockDrain order layout clock rx queue = some (staged layout clock rx chunks) ∧
      (chunks ≠ [] → ∃ dgram, .datagram dgram ∈ queue ∧ IsFrame order layout.size dgram) := by
  have hnone : some rx = some (staged layout clock rx []) := by rw [staged_nil]
  induction queue generalizing rx with
  | nil => exact ⟨[], hnone, fun hne => absurd rfl hne⟩
  | cons result rest ih =>
    cases result with
    | failed => exact ⟨[], hnone, fun hne => absurd rfl hne⟩
    | interrupted =>
      obtain ⟨chunks, hdrain, hframe⟩ := ih rx hnone
      refine ⟨chunks, hdrain, fun hne => ?_⟩
      obtain ⟨dgram, hmem, hdgram⟩ := hframe hne
      exact ⟨dgram, List.mem_cons_of_mem _ hmem, hdgram⟩
    | datagram dgram =>
      obtain ⟨front, hdeliver, hfront⟩ := deliver_staged order layout clock rx dgram
      obtain ⟨back, hdrain, hback⟩ := ih (staged layout clock rx front)
        (by rw [staged_nil])
      refine ⟨front ++ back, ?_, fun hne => ?_⟩
      · simp only [sockDrain, hdeliver, Option.bind_eq_bind, Option.bind_some, hdrain,
          staged_append]
      · by_cases hnil : front = []
        · obtain ⟨dgram', hmem, hdgram'⟩ := hback (by simpa [hnil] using hne)
          exact ⟨dgram', List.mem_cons_of_mem _ hmem, hdgram'⟩
        · exact ⟨dgram, List.mem_cons_self, hfront hnil⟩

/-- The record of an entry, member by member. -/
structure Mapped (entry : StatsArg) (metrics : ConnMetric.Record) : Prop where
  version : metrics.version = ConnMetric.version
  activity : metrics.activityState = if entry.cliActive then .active else .idle
  status : metrics.status = .ok
  snr : metrics.linkSnrDb.toInt = entry.cliSnr.bmod (2 ^ 32)
  rate : (metrics.phyRateKbps.toNat : Int) = entry.cliLastDataUplinkRate * 1000 % 2 ^ 32
  frames : (metrics.txFrames.toNat : Int) = entry.cliPacketsSent % 2 ^ 32
  errors : (metrics.txErrFrames.toNat : Int) = entry.cliErrorsSent % 2 ^ 32
  util : (metrics.chanUtilPct.toNat : Int) = max 0 (min 100 entry.channelUtilization)

theorem toNat_ofInt (x : Int) : ((UInt32.ofInt x).toNat : Int) = x % 2 ^ 32 := by
  have hnonneg : 0 ≤ x % 2 ^ 32 := Int.emod_nonneg x (by decide)
  have hlt : x % 2 ^ 32 < 2 ^ 32 := Int.emod_lt_of_pos x (by decide)
  rw [UInt32.ofInt, UInt32.toNat_ofNat']
  omega

theorem mapped_mapRecord (entry : StatsArg) : Mapped entry (mapRecord entry) where
  version := rfl
  activity := rfl
  status := rfl
  snr := Int32.toInt_ofInt
  rate := by
    have hrate : (mapRecord entry).phyRateKbps =
        UInt32.ofInt (entry.cliLastDataUplinkRate * 1000) := by
      rw [UInt32.ofInt_mul]
      rfl
    rw [hrate]
    exact toNat_ofInt _
  frames := toNat_ofInt _
  errors := toNat_ofInt _
  util := by
    have hclamp : ∀ x : Int, 0 ≤ x → x ≤ 100 → ((UInt8.ofInt x).toNat : Int) = x := by
      intro x hlow hhigh
      rw [UInt8.ofInt, UInt8.toNat_ofNat']
      omega
    rw [mapRecord]
    dsimp only
    split
    · rw [hclamp 0 (by decide) (by decide)]
      omega
    · split
      · rw [hclamp 100 (by decide) (by decide)]
        omega
      · rw [hclamp _ (by omega) (by omega)]
        omega

/-- From `rx` to `rx'` exactly one stage call was made on each of the chunks, in
their order: for the MAC and the record of what the chunk decodes to. -/
structure Stages (rx : Receiver D) (chunks : List (Vector UInt8 layout.size)) (rx' : Receiver D) :
    Prop where
  earlier : rx'.calls.take rx.calls.length = rx.calls
  count : rx'.calls.length = rx.calls.length + chunks.length
  call : ∀ i chunk call, chunks[i]? = some chunk → rx'.calls[rx.calls.length + i]? = some call →
    call.mac = (layout.decode chunk).cliMacAddress ∧ Mapped (layout.decode chunk) call.metrics ∧
      call.now = clock (rx.calls.length + i)
  engine : rx'.engine = (rx'.calls.drop rx.calls.length).foldl
    (fun eng call => stageRecord eng call.mac call.metrics call.now) rx.engine

theorem staged_stages (rx : Receiver D) (chunks : List (Vector UInt8 layout.size)) :
    Stages layout clock rx chunks (staged layout clock rx chunks) where
  earlier := List.take_left
  count := by simp [staged]
  call := by
    intro i chunk call hchunk hcall
    rw [staged, List.getElem?_append_right (Nat.le_add_right _ _), Nat.add_sub_cancel_left,
      stageCalls, List.getElem?_mapIdx, hchunk, Option.map_some] at hcall
    obtain rfl := Option.some.inj hcall
    exact ⟨rfl, mapped_mapRecord _, rfl⟩
  engine := by rw [staged, List.drop_left]; rfl

/-- The receiver accepts exactly the frames of the grammar. On a frame it makes
one stage call per entry, in wire order, each on its own bytes; on any other
datagram it does nothing; and what a sender can build always arrives. -/
theorem datagrams_decode_exactly (rx : Receiver D) :
    (∀ dgram, ∃ rx', deliver order layout clock rx dgram = some rx' ∧
      (¬ IsFrame order layout.size dgram → rx' = rx) ∧
      (IsFrame order layout.size dgram → ∃ chunks : List (Vector UInt8 layout.size),
        chunks.length = (dgram.length - valueOffset) / layout.size ∧
        (∀ i (hi : i < chunks.length), chunks[i].toList =
          (dgram.drop (valueOffset + i * layout.size)).take layout.size) ∧
        Stages layout clock rx chunks rx')) ∧
    (∀ entries : List (Vector UInt8 layout.size), entries.length * layout.size ≤ 65535 →
      recv (frame order entries) = frame order entries ∧
      IsFrame order layout.size (frame order entries) ∧
      ∃ rx', deliver order layout clock rx (frame order entries) = some rx' ∧
        Stages layout clock rx entries rx') := by
  constructor
  · intro dgram
    by_cases h : IsFrame order layout.size dgram
    · obtain ⟨entries, hlen, rfl⟩ := h.exists_entries
      refine ⟨_, deliver_frame order layout clock rx entries hlen, fun hn => absurd h hn,
        fun _ => ⟨entries, (count_frame order layout.size_pos entries).symm, fun i hi => ?_,
          staged_stages layout clock rx entries⟩⟩
      exact (take_drop_frame entries hi).symm
    · exact ⟨rx, deliver_drop order layout clock rx h, fun _ => rfl, fun hf => absurd hf h⟩
  · intro entries hlen
    have hframe := isFrame_frame order layout.size_le entries hlen
    exact ⟨recv_of_isFrame hframe, hframe, _, deliver_frame order layout clock rx entries hlen,
      staged_stages layout clock rx entries⟩

end Decode

section Packed

/-- Four bytes of an entry, the low one first. -/
def word (chunk : Vector UInt8 24) (i : Fin 6) : Nat :=
  chunk[4 * i.val].toNat + 256 * chunk[4 * i.val + 1].toNat + 65536 * chunk[4 * i.val + 2].toNat +
    16777216 * chunk[4 * i.val + 3].toNat

/-- A packed payload struct: the MAC, the active flag, the utilisation, and four
words for SNR, rate, packets and errors. -/
def packedLayout : Layout where
  size := 24
  size_pos := by decide
  size_le := by decide
  decode chunk :=
    { cliMacAddress := Vector.ofFn fun i : Fin 6 => chunk[i.val]
      cliActive := decide (chunk[6] ≠ 0)
      cliSnr := Int.bmod (word chunk 2) (2 ^ 32)
      cliLastDataUplinkRate := Int.bmod (word chunk 3) (2 ^ 32)
      cliPacketsSent := word chunk 4
      cliErrorsSent := word chunk 5
      channelUtilization := chunk[7].toNat }

noncomputable def idleReceiver : Receiver ℝ := ⟨Infer.create Infer.wireDefaultPolicy, []⟩

/-- An active client at 30 dB and 300 Mbps, on a channel reported as 140 % busy. -/
def busyEntry : Vector UInt8 24 :=
  #v[2, 0, 0, 0, 0, 1, 1, 140, 30, 0, 0, 0, 44, 1, 0, 0, 232, 3, 0, 0, 10, 0, 0, 0]

/-- An idle client at -3 dB and 54 Mbps. -/
def idleEntry : Vector UInt8 24 :=
  #v[2, 0, 0, 0, 0, 2, 0, 20, 253, 255, 255, 255, 54, 0, 0, 0, 5, 0, 0, 0, 0, 0, 0, 0]

/-- A little-endian frame of two entries. -/
theorem datagrams_decode_exactly_two_entries :
    ∃ rx', deliver .little packedLayout (fun n => 100 + n) idleReceiver
        ([1, 1, 24, 0, 48, 0] ++ busyEntry.toList ++ idleEntry.toList) = some rx' ∧
      Stages packedLayout (fun n => 100 + n) idleReceiver [busyEntry, idleEntry] rx' ∧
      packedLayout.decode busyEntry = ⟨#v[2, 0, 0, 0, 0, 1], true, 30, 300, 1000, 10, 140⟩ ∧
      packedLayout.decode idleEntry = ⟨#v[2, 0, 0, 0, 0, 2], false, -3, 54, 5, 0, 20⟩ := by
  obtain ⟨_, _, rx', hdeliver, hstages⟩ := (datagrams_decode_exactly .little packedLayout
    (fun n => 100 + n) idleReceiver).2 [busyEntry, idleEntry] (by decide)
  exact ⟨rx', hdeliver, hstages, by decide, by decide⟩

end Packed

end Wei.Wire
