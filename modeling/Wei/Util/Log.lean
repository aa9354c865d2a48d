import Wei.Lib.Mealy
import Wei.Lib.Rotation

/-!
# The debug log

`wei_util.c`: a line is put together in a buffer of fixed size and appended to one
file, which is emptied when it has reached its cap. What the standard library did
at one call is part of that call: the stamp, the formatted message, and how far
each request to the file got. The copy of the line on `stdout` is left out.
-/
namespace Wei.Util

open Wei.Lib

/-- `wei_log_level_t` -/
inductive LogLevel where
  | debug
  | info
  | error
  | max
  deriving DecidableEq

def LogLevel.toNat : LogLevel → Nat
  | .debug => 0
  | .info => 1
  | .error => 2
  | .max => 3

/-- `wei_dbg_type_t` -/
inductive DbgType where
  | connected
  | aff
  | apps
  deriving DecidableEq

def ascii (s : String) : List UInt8 := s.toList.map fun c => UInt8.ofNat c.toNat

/-- `wei_lvl_str` -/
def lvlStr : LogLevel → List UInt8
  | .debug => ascii "DBG"
  | .info => ascii "INF"
  | .error => ascii "ERR"
  | .max => ascii "LOG"

/-- `wei_zone_str` -/
def zoneStr : DbgType → List UInt8
  | .connected => ascii "CONNECTED"
  | .aff => ascii "AFFINITY"
  | .apps => ascii "APPS"

/-! ## One line -/

/-- The size of `line` in `wei_util_print`. -/
def lineSize : Nat := 1024

/-- What fits the buffer beside the NUL. -/
structure Line where
  text : List UInt8
  fits : text.length < lineSize

/-- What one call of `wei_util_print` met. -/
structure PrintEnv where
  /-- What `strftime` wrote; `none` if it or `localtime_r` failed. -/
  stamp : Option (List UInt8)
  /-- `ts.tv_nsec / 1000000L` -/
  millis : Nat
  /-- Whether `snprintf` returned a length. -/
  snprintf : Bool
  /-- The message as `vsnprintf` would write it to a buffer large enough; `none` if it failed. -/
  message : Option (List UInt8)

/-- The digits of `%03ld` -/
def pad3 (n : Nat) : List UInt8 := ascii (String.ofList (Nat.toDigits 10 n |>.leftpad 3 '0'))

/-- What `snprintf` has to write. -/
def header (env : PrintEnv) (level : LogLevel) (module : DbgType) : List UInt8 :=
  match env.stamp with
  | some stamp =>
    stamp ++ ascii "." ++ pad3 env.millis ++ ascii " [wei][" ++ lvlStr level ++ ascii "][" ++
      zoneStr module ++ ascii "] "
  | none => ascii "[wei][" ++ lvlStr level ++ ascii "][" ++ zoneStr module ++ ascii "] "

/-- `off` behind the two checks. -/
def clampOff (off : Int) : Int :=
  let off := if off < 0 then 0 else off
  if off > (lineSize : Int) - 1 then (lineSize : Int) - 1 else off

/-- What `vsnprintf` appends at `off`, and the new `off`. -/
def appendMessage (line : List UInt8) (off : Int) (message : Option (List UInt8)) :
    List UInt8 × Int :=
  let avail := (lineSize : Int) - off
  match message with
  | none => (line, off)
  | some message =>
    let n : Int := message.length
    let off' := if n > 0 then off + (if n < avail then n else avail - 1) else off
    (line.take off.toNat ++ message.take (avail - 1).toNat, off')

/-- The first `off` bytes of `line`. -/
def lineText (env : PrintEnv) (level : LogLevel) (module : DbgType) : List UInt8 :=
  let text := header env level module
  let off := clampOff (if env.snprintf then text.length else -1)
  let (line, off) := appendMessage (text.take (lineSize - 1)) off env.message
  line.take off.toNat

theorem clampOff_nat (n : Nat) : clampOff n = (min n (lineSize - 1) : Nat) := by
  simp only [clampOff, lineSize]
  split_ifs <;> omega

/-- The message takes what the buffer has left. -/
theorem appendMessage_eq (line : List UInt8) {off : Nat} (hoff : off ≤ lineSize - 1)
    (hline : off ≤ line.length) (message : Option (List UInt8)) :
    (appendMessage line off message).1.take (appendMessage line off message).2.toNat =
      line.take off ++ (message.getD []).take (lineSize - 1 - off) := by
  have hlen : (line.take off).length = off := List.length_take_of_le hline
  have hsize : lineSize = 1024 := rfl
  cases message with
  | none => simp [appendMessage]
  | some message =>
    have hroom : ((lineSize : Int) - off - 1).toNat = lineSize - 1 - off := by omega
    have hend : (appendMessage line off (some message)).2.toNat =
        off + min message.length (lineSize - 1 - off) := by
      simp only [appendMessage]
      split_ifs <;> omega
    rw [hend]
    simp only [appendMessage, Int.toNat_natCast, hroom]
    rw [List.take_append, hlen, List.take_take, Nat.add_sub_cancel_left, List.take_take,
      Option.getD_some, Nat.min_eq_right (Nat.le_add_right _ _), Nat.min_assoc, Nat.min_self,
      ← List.take_take]
    exact congrArg _ (List.take_of_length_le (List.length_take_le' _ _))

/-- The line is what the buffer holds of header and message. -/
theorem lineText_eq (env : PrintEnv) (level : LogLevel) (module : DbgType) :
    lineText env level module =
      ((if env.snprintf then header env level module else []) ++ env.message.getD []).take
        (lineSize - 1) := by
  unfold lineText
  generalize header env level module = text
  cases env.snprintf with
  | true =>
    simp only [if_true, clampOff_nat]
    have hlen : (text.take (lineSize - 1)).length = min text.length (lineSize - 1) := by
      rw [List.length_take, Nat.min_comm]
    rw [appendMessage_eq _ (Nat.min_le_right _ _) (Nat.le_of_eq hlen.symm),
      List.take_append, List.take_of_length_le (Nat.le_of_eq hlen)]
    congr 2
    omega
  | false =>
    have hoff : clampOff (if false = true then (text.length : Int) else -1) = ((0 : Nat) : Int) := rfl
    simp only [hoff]
    rw [appendMessage_eq _ (Nat.zero_le _) (Nat.zero_le _)]
    simp

def formatLine (env : PrintEnv) (level : LogLevel) (module : DbgType) : Line where
  text := lineText env level module
  fits := by
    rw [lineText_eq]
    exact Nat.lt_of_le_of_lt (List.length_take_le _ _) (by decide)

/-! ## The file -/

/-- `WEI_LOG_FILE_MAX_BYTES` -/
def fileMaxBytes : Nat := 8 * 1024 * 1024

/-- How far the requests of one `wei_util_file_write` got. -/
structure Stdio where
  /-- Whether `fopen` or `freopen` returned a stream. -/
  opened : Bool
  /-- What `fwrite` accepted, of the line. -/
  written : Nat
  /-- What `fflush` wrote out of the stream's buffer. -/
  flushed : Nat
  /-- The same of the close inside `freopen`. -/
  closed : Nat

/-- `wei_log_fp` and `wei_log_bytes` with what is behind them: the bytes in the stream's
buffer and those in the file. -/
structure LogFile where
  /-- `wei_log_fp != NULL` -/
  fp : Bool
  bytes : Nat
  buffered : List UInt8
  file : List UInt8

/-- The daemon before its first line, with the file an earlier one left. -/
def LogFile.init (file : List UInt8) : LogFile := ⟨false, 0, [], file⟩

/-- `fopen(WEI_LOG_FILE_PATH, "w")` -/
def LogFile.fopen (s : LogFile) (io : Stdio) : LogFile :=
  if io.opened then { s with fp := true, buffered := [], file := [] } else { s with fp := false }

/-- `freopen(WEI_LOG_FILE_PATH, "w", wei_log_fp)`, which closes the old stream either way. -/
def LogFile.freopen (s : LogFile) (io : Stdio) : LogFile :=
  if io.opened then { s with fp := true, buffered := [], file := [] }
  else { s with fp := false, buffered := [], file := s.file ++ s.buffered.take io.closed }

def LogFile.fwrite (s : LogFile) (io : Stdio) (line : Line) : LogFile :=
  { s with buffered := s.buffered ++ line.text.take io.written }

def LogFile.fflush (s : LogFile) (io : Stdio) : LogFile :=
  { s with file := s.file ++ s.buffered.take io.flushed, buffered := s.buffered.drop io.flushed }

/-- A call of `wei_util_file_write`. -/
structure FileWrite where
  io : Stdio
  line : Line

/-- The stream is opened, or the file emptied, before a line. -/
def LogFile.ready (s : LogFile) (io : Stdio) : LogFile :=
  if s.fp = false then { s.fopen io with bytes := 0 }
  else if fileMaxBytes ≤ s.bytes then { s.freopen io with bytes := 0 }
  else s

def LogFile.append (s : LogFile) (call : FileWrite) : LogFile :=
  if s.fp = true ∧ 0 < call.line.text.length then
    { s.fwrite call.io call.line with
      bytes := s.bytes + (call.line.text.take call.io.written).length }.fflush call.io
  else s

/-- `wei_util_file_write` -/
def fileWrite (s : LogFile) (call : FileWrite) : LogFile := (s.ready call.io).append call

def writes : Mealy LogFile FileWrite Unit := ⟨fun s call => (fileWrite s call, ())⟩

/-- A call of `wei_util_print`, with the format that may be missing. -/
structure PrintCall where
  level : LogLevel
  module : DbgType
  format : Bool
  env : PrintEnv
  io : Stdio

/-- `WEI_LOG_MIN_LEVEL`, unless the build sets it. -/
def minLevel : LogLevel := .debug

/-- `wei_util_print` -/
def print (s : LogFile) (call : PrintCall) : LogFile :=
  if call.format = false ∨ call.level.toNat < minLevel.toNat then s
  else fileWrite s ⟨call.io, formatLine call.env call.level call.module⟩

/-! ## As long as the device takes everything -/

/-- Every request of the call got through. -/
structure FileWrite.Through (call : FileWrite) : Prop where
  opened : call.io.opened = true
  written : call.line.text.length ≤ call.io.written
  flushed : call.line.text.length ≤ call.io.flushed

def Line.size (line : Line) : Nat := line.text.length

/-- The file holds these lines, whole and in order, and nothing else. -/
structure Holds (s : LogFile) (lines : List Line) : Prop where
  fp : s.fp = true
  buffered : s.buffered = []
  file : s.file = lines.flatMap Line.text
  bytes : s.bytes = Rotation.total Line.size lines

theorem holds_ready {s : LogFile} {lines : List Line}
    (h : s.fp = false ∧ lines = [] ∨ Holds s lines) {io : Stdio} (hio : io.opened = true) :
    Holds (s.ready io) (if fileMaxBytes ≤ Rotation.total Line.size lines then [] else lines) := by
  rcases h with ⟨hfp, rfl⟩ | h
  · rw [LogFile.ready, if_pos hfp, LogFile.fopen, if_pos hio, if_neg (by decide)]
    exact ⟨rfl, rfl, rfl, rfl⟩
  · rw [LogFile.ready, if_neg (by simp [h.fp]), h.bytes]
    by_cases hfull : fileMaxBytes ≤ Rotation.total Line.size lines
    · rw [if_pos hfull, if_pos hfull, LogFile.freopen, if_pos hio]
      exact ⟨rfl, rfl, rfl, rfl⟩
    · rw [if_neg hfull, if_neg hfull]
      exact h

theorem Holds.append {s : LogFile} {lines : List Line} (h : Holds s lines) {call : FileWrite}
    (hio : call.Through) : Holds (s.append call) (lines ++ [call.line]) := by
  by_cases hline : 0 < call.line.text.length
  · rw [LogFile.append, if_pos ⟨h.fp, hline⟩, List.take_of_length_le hio.written]
    have hbuffered : s.buffered ++ call.line.text.take call.io.written = call.line.text := by
      rw [h.buffered, List.take_of_length_le hio.written]
      rfl
    refine ⟨h.fp, ?_, ?_, ?_⟩
    · simp only [LogFile.fflush, LogFile.fwrite, hbuffered]
      exact List.drop_eq_nil_of_le hio.flushed
    · simp only [LogFile.fflush, LogFile.fwrite, hbuffered]
      rw [List.take_of_length_le hio.flushed, h.file, List.flatMap_append, List.flatMap_singleton]
    · rw [Rotation.total_concat, ← h.bytes]
      rfl
  · have hempty : call.line.text = [] := List.eq_nil_of_length_eq_zero (by omega)
    rw [LogFile.append, if_neg fun hcond => hline hcond.2]
    refine ⟨h.fp, h.buffered, ?_, ?_⟩
    · rw [h.file, List.flatMap_append, List.flatMap_singleton, hempty, List.append_nil]
    · rw [Rotation.total_concat, ← h.bytes, Line.size, hempty]
      rfl

/-- A line that the device took follows what the store kept. -/
theorem holds_write {s : LogFile} {lines : List Line}
    (h : s.fp = false ∧ lines = [] ∨ Holds s lines) {call : FileWrite} (hio : call.Through) :
    Holds (fileWrite s call) (Rotation.put Line.size fileMaxBytes lines call.line) := by
  have happend := (holds_ready h hio.opened).append hio
  rw [Rotation.put]
  by_cases hfull : fileMaxBytes ≤ Rotation.total Line.size lines
  · rw [if_pos hfull] at happend ⊢
    exact happend
  · rw [if_neg hfull] at happend ⊢
    exact happend

/-- The file holds the lines since it was last emptied. -/
theorem holds_run (old : List UInt8) {calls : List FileWrite}
    (hio : ∀ call ∈ calls, call.Through) :
    (writes.final (.init old) calls).fp = false ∧ calls = [] ∨
      Holds (writes.final (.init old) calls)
        (Rotation.kept Line.size fileMaxBytes (calls.map FileWrite.line)) := by
  induction calls using List.reverseRecOn with
  | nil => exact Or.inl ⟨rfl, rfl⟩
  | append_singleton calls call ih =>
    have hbefore := ih fun c hc => hio c (List.mem_append_left _ hc)
    rw [Mealy.final_concat, List.map_append, List.map_singleton, Rotation.kept_concat]
    refine Or.inr (holds_write ?_ (hio call (by simp)))
    refine hbefore.imp_left fun h => ⟨h.1, ?_⟩
    rw [h.2]
    rfl

/-! ## Whatever the device takes -/

/-- No file is larger: the line that fills it may end beyond the cap. -/
def capacity : Nat := fileMaxBytes + (lineSize - 1)

theorem fileMaxBytes_pos : 0 < fileMaxBytes := by decide

theorem capacity_pos : 0 < capacity := by decide

/-- The bytes behind the stream, buffered or in the file. -/
def LogFile.extent (s : LogFile) : Nat := s.file.length + s.buffered.length

/-- Between two calls. -/
structure Capped (s : LogFile) : Prop where
  extent : s.extent < capacity
  counted : s.fp = true → s.extent ≤ s.bytes
  bytes : s.bytes < capacity
  closed : s.fp = false → s.buffered = []

end Wei.Util
