import Wei.Lib.Bytes
import Wei.Lib.Memory

/-!
# The frame dumper

`wei_sockdump.c`: a tool that takes the socket over and prints what arrives on
it. It receives every datagram into one buffer on its stack and trusts the
header for the number and the size of the entries; what the receive returned
only goes into a remark.
-/
namespace Wei.Sockdump

open Wei.Lib Wei.Lib.Mem Wei.Lib.Bytes

/-- `TLV_HDR_LEN` -/
def tlvHdrLen : Nat := 6

/-- `HEX_PREVIEW` -/
def hexPreviewMax : Nat := 32

/-- `sizeof(buf)` -/
def bufSize : Nat := 65536

/-- `sizeof(mac) - 1` -/
def macLen : Nat := 18

/-- `msg_type_str` -/
def msgTypeStr (t : UInt8) : String :=
  if t = 1 then "PERIODIC_STATS"
  else if t = 2 then "DISCONNECT"
  else if t = 3 then "RAPID_DISCONNECT"
  else if t = 7 then "REGISTER_STA"
  else if t = 8 then "UNREGISTER_STA"
  else "OTHER"

structure Header where
  type : UInt8
  ver : UInt8
  elemSize : Nat
  len : Nat
  deriving DecidableEq

/-- The header at the start of the buffer, its fields little-endian. -/
def header (m : Mem) : Option Header := do
  let type ← m 0
  let ver ← m 1
  let elem0 ← m 2
  let elem1 ← m 3
  let len0 ← m 4
  let len1 ← m 5
  return ⟨type, ver, u16 .little elem0 elem1, u16 .little len0 len1⟩

def Header.count (h : Header) : Nat := if 0 < h.elemSize then h.len / h.elemSize else 0

/-- The MAC as it is printed: up to its NUL, with what is not printable as a dot. -/
def macText (bytes : List UInt8) : List UInt8 :=
  (bytes.takeWhile (· ≠ 0)).map fun b => if b < 0x20 ∨ 0x7e < b then 0x2e else b

/-- `hex_preview`: the bytes, and whether the dots follow. -/
def hexPreview (m : Mem) (start n : Nat) : Option (List UInt8 × Bool) := do
  let n := if hexPreviewMax < n then hexPreviewMax else n
  let bytes ← m.copy start n
  return (bytes, decide (n = hexPreviewMax))

structure Entry where
  mac : List UInt8
  hex : List UInt8
  dots : Bool
  deriving DecidableEq

/-- One turn of the entry loop. -/
def dumpEntry (m : Mem) (h : Header) (i : Nat) : Option Entry := do
  let entry := tlvHdrLen + i * h.elemSize
  let mac ← m.copy entry macLen
  let (hex, dots) ← hexPreview m entry h.elemSize
  return ⟨macText mac, hex, dots⟩

def dumpEntries (m : Mem) (h : Header) : Option (List Entry) :=
  (List.range h.count).mapM (dumpEntry m h)

/-- What is printed for a datagram, the time aside. -/
inductive Dump where
  | runt (r : Nat)
  | frame (r : Nat) (h : Header) (typeStr : String) (count : Nat) (mismatch : Bool)
      (entries : List Entry)
  deriving DecidableEq

/-- A turn of the receive loop behind `recv`, which returned `r`. -/
def dump (m : Mem) (r : Nat) : Option Dump :=
  if r < tlvHdrLen then some (.runt r)
  else do
    let h ← header m
    let entries ← dumpEntries m h
    return .frame r h (msgTypeStr h.type) h.count (decide (h.len ≠ r - tlvHdrLen)) entries

/-- `buf`, on the stack of `main`. -/
abbrev Buffer := Fin bufSize → UInt8

def stack (buf : Buffer) : Mem := fun i => if h : i < bufSize then some (buf ⟨i, h⟩) else none

/-- What `recv` stored. -/
structure Datagram where
  bytes : List UInt8
  fits : bytes.length ≤ bufSize
  deriving DecidableEq

/-- The buffer after `recv`: behind the datagram the bytes of earlier ones. -/
def store (buf : Buffer) (d : Datagram) : Buffer := fun i => d.bytes[i.val]?.getD (buf i)

inductive Recv where
  | data (d : Datagram)
  | interrupted
  | failed

/-- The receive loop of `main`, as far as outcomes of `recv` are given; `none`
when it read past its buffer. -/
def receiveLoop (buf : Buffer) : List Recv → Option (List Dump)
  | [] => some []
  | .interrupted :: rs => receiveLoop buf rs
  | .failed :: _ => some []
  | .data d :: rs => do
    let buf := store buf d
    let first ← dump (stack buf) d.bytes.length
    let rest ← receiveLoop buf rs
    return first :: rest

/-! ## The loads of the entry loop -/

/-- The addresses one turn of the entry loop loads from, in order. -/
def entryLoads (h : Header) (i : Nat) : List Nat :=
  List.range' (tlvHdrLen + i * h.elemSize) macLen ++
    List.range' (tlvHdrLen + i * h.elemSize) (min h.elemSize hexPreviewMax)

def Header.loads (h : Header) : List Nat := (List.range h.count).flatMap (entryLoads h)

theorem hexPreview_isSome_iff (m : Mem) (start n : Nat) :
    (hexPreview m start n).isSome ↔
      ∀ i ∈ List.range' start (min n hexPreviewMax), (m i).isSome := by
  have hcap : (if hexPreviewMax < n then hexPreviewMax else n) = min n hexPreviewMax := by
    split <;> omega
  rw [← copy_isSome_iff, hexPreview, hcap]
  cases m.copy start (min n hexPreviewMax) <;> simp

theorem dumpEntry_isSome_iff (m : Mem) (h : Header) (i : Nat) :
    (dumpEntry m h i).isSome ↔ ∀ a ∈ entryLoads h i, (m a).isSome := by
  rw [entryLoads, List.forall_mem_append, ← copy_isSome_iff, ← hexPreview_isSome_iff, dumpEntry]
  cases m.copy (tlvHdrLen + i * h.elemSize) macLen with
  | none => simp
  | some mac => cases hexPreview m (tlvHdrLen + i * h.elemSize) h.elemSize <;> simp

/-- The entry loop loads exactly from its addresses. -/
theorem dumpEntries_isSome_iff (m : Mem) (h : Header) :
    (dumpEntries m h).isSome ↔ ∀ a ∈ h.loads, (m a).isSome := by
  rw [dumpEntries, mapM_isSome_iff, Header.loads, List.forall_mem_flatMap]
  exact forall₂_congr fun i _ => dumpEntry_isSome_iff m h i

/-- The end of what a turn of the entry loop loads. -/
def Header.entryEnd (h : Header) (i : Nat) : Nat :=
  tlvHdrLen + i * h.elemSize + max macLen (min h.elemSize hexPreviewMax)

theorem entryLoads_within_iff (h : Header) (i r : Nat) :
    (∀ a ∈ entryLoads h i, a < r) ↔ h.entryEnd i ≤ r := by
  have hmac : 0 < macLen := by decide
  rw [entryLoads, List.forall_mem_append, range_within_iff hmac, Header.entryEnd]
  by_cases hsize : 0 < min h.elemSize hexPreviewMax
  · rw [range_within_iff hsize]
    omega
  · have hnone : min h.elemSize hexPreviewMax = 0 := by omega
    rw [hnone]
    simp

/-- The last entry reaches furthest. -/
theorem loads_within_iff (h : Header) (r : Nat) :
    (∀ a ∈ h.loads, a < r) ↔ h.count = 0 ∨ h.entryEnd (h.count - 1) ≤ r := by
  rw [Header.loads, List.forall_mem_flatMap]
  simp only [entryLoads_within_iff, List.mem_range]
  constructor
  · intro hall
    rcases Nat.eq_zero_or_pos h.count with hnone | hsome
    · exact Or.inl hnone
    · exact Or.inr (hall (h.count - 1) (by omega))
  · intro hlast i hi
    have hmul : i * h.elemSize ≤ (h.count - 1) * h.elemSize :=
      Nat.mul_le_mul_right h.elemSize (by omega)
    have hend : h.entryEnd (h.count - 1) ≤ r := hlast.resolve_left (by omega)
    unfold Header.entryEnd at hend ⊢
    omega

/-! ## What is printed -/

theorem header_mono {m m' : Mem} (hm : Extends m m') {h : Header} (hh : header m = some h) :
    header m' = some h := by
  simp only [header, Option.bind_eq_bind, Option.bind_eq_some_iff] at hh ⊢
  obtain ⟨type, htype, ver, hver, e0, he0, e1, he1, l0, hl0, l1, hl1, hval⟩ := hh
  exact ⟨type, hm _ _ htype, ver, hm _ _ hver, e0, hm _ _ he0, e1, hm _ _ he1, l0, hm _ _ hl0,
    l1, hm _ _ hl1, hval⟩

theorem dumpEntry_mono {m m' : Mem} (hm : Extends m m') {h : Header} {i : Nat} {e : Entry}
    (he : dumpEntry m h i = some e) : dumpEntry m' h i = some e := by
  simp only [dumpEntry, hexPreview, Option.bind_eq_bind, Option.bind_eq_some_iff] at he ⊢
  obtain ⟨mac, hmac, preview, ⟨hex, hhex, hpreview⟩, hval⟩ := he
  exact ⟨mac, copy_mono hm hmac, preview, ⟨hex, copy_mono hm hhex, hpreview⟩, hval⟩

theorem dump_mono {m m' : Mem} (hm : Extends m m') {r : Nat} {out : Dump}
    (hd : dump m r = some out) : dump m' r = some out := by
  unfold dump at hd ⊢
  split at hd
  · rw [if_pos ‹_›]
    exact hd
  · rw [if_neg ‹_›]
    simp only [Option.bind_eq_bind, Option.bind_eq_some_iff] at hd ⊢
    obtain ⟨h, hh, entries, hentries, hval⟩ := hd
    exact ⟨h, header_mono hm hh, entries, mapM_mono (fun _ _ he => dumpEntry_mono hm he) hentries,
      hval⟩

/-- The bytes just received are at the front of the buffer. -/
theorem received_extends (buf : Buffer) (d : Datagram) :
    Extends (ofBytes d.bytes) (stack (store buf d)) := by
  intro i b hb
  have hlt : i < bufSize := by
    have hlen := (List.getElem?_eq_some_iff.mp hb).1
    have hfits := d.fits
    omega
  have hget : d.bytes[i]? = some b := hb
  rw [stack, dif_pos hlt, store, hget, Option.getD_some]

theorem header_of_length {bytes : List UInt8} (h6 : tlvHdrLen ≤ bytes.length) :
    ∃ h, header (ofBytes bytes) = some h := by
  have hload : ∀ i, i < 6 → ∃ b, ofBytes bytes i = some b := fun i hi =>
    Option.isSome_iff_exists.mp (ofBytes_isSome.mpr (Nat.lt_of_lt_of_le hi h6))
  obtain ⟨type, htype⟩ := hload 0 (by decide)
  obtain ⟨ver, hver⟩ := hload 1 (by decide)
  obtain ⟨e0, he0⟩ := hload 2 (by decide)
  obtain ⟨e1, he1⟩ := hload 3 (by decide)
  obtain ⟨l0, hl0⟩ := hload 4 (by decide)
  obtain ⟨l1, hl1⟩ := hload 5 (by decide)
  exact ⟨_, by simp [header, htype, hver, he0, he1, hl0, hl1]; rfl⟩

/-- Every load of the entry loop is of a byte just received. -/
def Within (d : Datagram) (h : Header) : Prop := ∀ a ∈ h.loads, a < d.bytes.length

theorem dump_of_within {d : Datagram} {h : Header} (hh : header (ofBytes d.bytes) = some h)
    (hw : Within d h) : ∃ out, dump (ofBytes d.bytes) d.bytes.length = some out := by
  have hentries : (dumpEntries (ofBytes d.bytes) h).isSome :=
    (dumpEntries_isSome_iff _ h).mpr fun a ha => ofBytes_isSome.mpr (hw a ha)
  obtain ⟨entries, he⟩ := Option.isSome_iff_exists.mp hentries
  unfold dump
  split
  · exact ⟨_, rfl⟩
  · exact ⟨_, by rw [hh, Option.bind_eq_bind, Option.bind_some, he]; rfl⟩

/-- The datagrams the loop takes in before a `recv` fails. -/
def received : List Recv → List Datagram
  | [] => []
  | .interrupted :: rs => received rs
  | .failed :: _ => []
  | .data d :: rs => d :: received rs

/-- While every entry loop stays within its datagram, each datagram is printed
from its own bytes alone. -/
theorem receiveLoop_own {rs : List Recv} (buf : Buffer)
    (hw : ∀ d ∈ received rs, ∀ h, header (ofBytes d.bytes) = some h → Within d h) :
    receiveLoop buf rs =
      (received rs).mapM fun d => dump (ofBytes d.bytes) d.bytes.length := by
  induction rs generalizing buf with
  | nil => rfl
  | cons r rs ih =>
    cases r with
    | interrupted => exact ih buf hw
    | failed => rfl
    | data d =>
      rw [received, List.forall_mem_cons] at hw
      have hfirst : ∃ out, dump (ofBytes d.bytes) d.bytes.length = some out := by
        by_cases h6 : tlvHdrLen ≤ d.bytes.length
        · obtain ⟨h, hh⟩ := header_of_length h6
          exact dump_of_within hh (hw.1 h hh)
        · exact ⟨_, if_pos (Nat.lt_of_not_le h6)⟩
      obtain ⟨out, hout⟩ := hfirst
      rw [receiveLoop, received, List.mapM_cons, hout, dump_mono (received_extends buf d) hout,
        ih _ hw.2]

/-- The dumper reads only what it received, and prints the same whatever lay in
its buffer, exactly when the last declared entry ends inside the datagram. -/
theorem reads_received_iff {d : Datagram} (h6 : tlvHdrLen ≤ d.bytes.length) :
    ∃ h, header (ofBytes d.bytes) = some h ∧
      (Within d h ↔ h.count = 0 ∨ h.entryEnd (h.count - 1) ≤ d.bytes.length) ∧
      (Within d h → ∃ out, ∀ buf, dump (stack (store buf d)) d.bytes.length = some out) := by
  obtain ⟨h, hh⟩ := header_of_length h6
  refine ⟨h, hh, loads_within_iff h d.bytes.length, fun hw => ?_⟩
  obtain ⟨out, hout⟩ := dump_of_within hh hw
  exact ⟨out, fun buf => dump_mono (received_extends buf d) hout⟩

/-- One entry of 32 bytes, all of them there. -/
def wholeEntry : Datagram := ⟨[1, 1, 32, 0, 32, 0] ++ List.replicate 32 0, by decide⟩

theorem reads_received_iff_whole : ∃ h, header (ofBytes wholeEntry.bytes) = some h ∧
    (Within wholeEntry h ↔ h.count = 0 ∨ h.entryEnd (h.count - 1) ≤ wholeEntry.bytes.length) ∧
    (Within wholeEntry h →
      ∃ out, ∀ buf, dump (stack (store buf wholeEntry)) wholeEntry.bytes.length = some out) :=
  reads_received_iff (by decide)

/-- A header that declares an entry and nothing behind it. -/
def bareHeader : Datagram := ⟨[1, 1, 1, 0, 1, 0], by decide⟩

/-- What is printed for it are the bytes that lay in the buffer before. -/
theorem stale_printed :
    (∃ h, header (ofBytes bareHeader.bytes) = some h ∧ ¬ Within bareHeader h) ∧
      dump (stack (store (fun _ => 0x41) bareHeader)) 6 ≠
        dump (stack (store (fun _ => 0x42) bareHeader)) 6 := by
  refine ⟨⟨⟨1, 1, 1, 1⟩, by decide, ?_⟩, by decide⟩
  intro hw
  exact absurd (hw 6 (by decide)) (by decide)

end Wei.Sockdump
