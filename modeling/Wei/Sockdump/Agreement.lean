import Wei.Sockdump
import Wei.Wire

/-!
# The dumper and the daemon

Both read the same frames, each with a decoder of its own. On a little-endian host,
for entries with room for a MAC, what the dumper prints of a datagram tells whether
the daemon takes it, and for one that it takes, what it stages.
-/
namespace Wei.Sockdump

open Wei.Lib Wei.Lib.Mem Wei.Lib.Bytes
open Wire (IsFrame chunksOf frame valueOffset)

/-- The bytes behind the address, as many as are copied. -/
theorem copy_ofBytes {bytes : List UInt8} {start n : Nat} (h : start + n ≤ bytes.length) :
    (ofBytes bytes).copy start n = some ((bytes.drop start).take n) := by
  induction n generalizing start with
  | zero => rfl
  | succ n ih =>
    have hlt : start < bytes.length := by omega
    have hroom : start + 1 + n ≤ bytes.length := by omega
    have hrest := ih hroom
    have hfirst : ofBytes bytes start = some bytes[start] := List.getElem?_eq_getElem hlt
    rw [Mem.copy] at hrest ⊢
    rw [List.range'_succ, List.mapM_cons, hfirst, hrest, List.drop_eq_getElem_cons hlt]
    rfl

/-- A loop over the indices of a list that finds its elements. -/
theorem mapM_range {β : Type} {f : Nat → Option β} (xs : List β)
    (h : ∀ i (hi : i < xs.length), f i = some xs[i]) : (List.range xs.length).mapM f = some xs := by
  induction xs using List.reverseRecOn with
  | nil => rfl
  | append_singleton xs x ih =>
    have hbefore := ih fun i hi => by
      rw [h i (by rw [List.length_append]; omega), List.getElem_append_left hi]
    have hlast := h xs.length (by simp)
    rw [List.getElem_append_right (Nat.le_refl _)] at hlast
    rw [List.length_append, List.length_singleton, List.range_succ, List.mapM_append, hbefore]
    simp [hlast]

theorem header_ofBytes_iff {bytes : List UInt8} {h : Header} :
    header (ofBytes bytes) = some h ↔ readU8 bytes 0 = some h.type ∧ readU8 bytes 1 = some h.ver ∧
      readU16 .little bytes 2 = some h.elemSize ∧ readU16 .little bytes 4 = some h.len := by
  obtain ⟨type, ver, elemSize, len⟩ := h
  simp only [header, readU16, Option.bind_eq_bind, Option.bind_eq_some_iff]
  constructor
  · rintro ⟨t, ht, v, hv, e0, he0, e1, he1, l0, hl0, l1, hl1, hval⟩
    cases hval
    exact ⟨ht, hv, ⟨e0, he0, e1, he1, rfl⟩, ⟨l0, hl0, l1, hl1, rfl⟩⟩
  · rintro ⟨ht, hv, ⟨e0, he0, e1, he1, he⟩, ⟨l0, hl0, l1, hl1, hl⟩⟩
    cases he
    cases hl
    exact ⟨type, ht, ver, hv, e0, he0, e1, he1, l0, hl0, l1, hl1, rfl⟩

section Agreement

variable (layout : Wire.Layout)

/-- What is printed for an entry that the daemon stages. -/
def entryOf (chunk : Vector UInt8 layout.size) : Entry :=
  ⟨macText (chunk.toList.take macLen), chunk.toList.take hexPreviewMax,
    decide (hexPreviewMax ≤ layout.size)⟩

variable {layout}

theorem dumpEntry_frame (hsize : macLen ≤ layout.size) (entries : List (Vector UInt8 layout.size))
    {h : Header} (hh : h.elemSize = layout.size) {i : Nat} (hi : i < entries.length) :
    dumpEntry (ofBytes (frame .little entries)) h i = some (entryOf layout entries[i]) := by
  have hend : (i + 1) * layout.size ≤ entries.length * layout.size := Nat.mul_le_mul_right _ hi
  rw [Nat.add_mul, Nat.one_mul] at hend
  have hlen : (frame .little entries).length = 6 + entries.length * layout.size :=
    Wire.length_frame entries
  have hchunk : ((frame .little entries).drop (6 + i * layout.size)).take layout.size =
      entries[i].toList := Wire.take_drop_frame entries hi
  generalize hstart : 6 + i * layout.size = start at hchunk
  -- any part of an entry from its start on is a part of its chunk
  have hpart : ∀ n, n ≤ layout.size → (ofBytes (frame .little entries)).copy start n =
      some (entries[i].toList.take n) := by
    intro n hn
    rw [copy_ofBytes (by omega), ← hchunk, List.take_take, Nat.min_eq_left hn]
  have hmin : (if hexPreviewMax < h.elemSize then hexPreviewMax else h.elemSize) =
      min hexPreviewMax layout.size := by
    rw [hh]
    split <;> omega
  have hhex : entries[i].toList.take (min hexPreviewMax layout.size) =
      entries[i].toList.take hexPreviewMax := by
    have hfull := List.take_length (l := entries[i].toList)
    rw [Vector.length_toList] at hfull
    rw [← List.take_take, hfull]
  have hdots : (min hexPreviewMax layout.size = hexPreviewMax) ↔ hexPreviewMax ≤ layout.size := by
    omega
  rw [dumpEntry, hexPreview, hmin, hh, show tlvHdrLen + i * layout.size = start from hstart,
    hpart macLen hsize, hpart _ (Nat.min_le_right _ _), hhex]
  simp only [Option.bind_eq_bind, Option.bind_some, Option.pure_def, entryOf, hdots]

/-- The datagram the daemon takes is printed as what it stages, whatever lay in the buffer. -/
theorem dump_frame (hsize : macLen ≤ layout.size) (entries : List (Vector UInt8 layout.size))
    (hframe : IsFrame .little layout.size (frame .little entries)) :
    dump (ofBytes (frame .little entries)) (frame .little entries).length =
      some (.frame (frame .little entries).length
        ⟨1, 1, layout.size, (frame .little entries).length - tlvHdrLen⟩ "PERIODIC_STATS"
        entries.length false (entries.map (entryOf layout))) := by
  have hheader : header (ofBytes (frame .little entries)) =
      some ⟨1, 1, layout.size, (frame .little entries).length - tlvHdrLen⟩ :=
    header_ofBytes_iff.mpr ⟨hframe.type, hframe.version, hframe.elemSize, hframe.len⟩
  have hcount : Header.count ⟨1, 1, layout.size, (frame .little entries).length - tlvHdrLen⟩ =
      entries.length := by
    rw [Header.count, if_pos layout.size_pos]
    exact Wire.count_frame .little layout.size_pos entries
  have hentries : dumpEntries (ofBytes (frame .little entries))
      ⟨1, 1, layout.size, (frame .little entries).length - tlvHdrLen⟩ =
        some (entries.map (entryOf layout)) := by
    rw [dumpEntries, hcount, ← List.length_map (entryOf layout)]
    refine mapM_range _ fun i hi => ?_
    rw [List.getElem_map]
    exact dumpEntry_frame hsize entries rfl (by simpa using hi)
  have hrunt : ¬ (frame .little entries).length < tlvHdrLen := Nat.not_lt.mpr hframe.header
  rw [dump, if_neg hrunt, hheader]
  simp only [Option.bind_eq_bind, Option.bind_some, hentries, hcount]
  simp [msgTypeStr]

/-- What the dumper prints tells whether the daemon takes the datagram: it does just when
the printed type, version and element size are those of a statistics frame, the length
is not remarked on and is a multiple of the element size. And then the entries printed
are those that the daemon stages, in order, each with the MAC and the first bytes of its
own chunk, whatever earlier datagrams left in the dumper's buffer. -/
theorem dump_agrees (hsize : macLen ≤ layout.size) (d : Datagram) (buf : Buffer) :
    (IsFrame .little layout.size d.bytes ↔ ∃ r h count entries,
      dump (stack (store buf d)) d.bytes.length =
        some (.frame r h "PERIODIC_STATS" count false entries) ∧
      h.type = 1 ∧ h.ver = 1 ∧ h.elemSize = layout.size ∧ layout.size ∣ h.len) ∧
    (IsFrame .little layout.size d.bytes →
      dump (stack (store buf d)) d.bytes.length = some (.frame d.bytes.length
        ⟨1, 1, layout.size, d.bytes.length - tlvHdrLen⟩ "PERIODIC_STATS"
        (chunksOf .little layout d.bytes).length false
        ((chunksOf .little layout d.bytes).map (entryOf layout)))) := by
  have hprinted : IsFrame .little layout.size d.bytes →
      dump (stack (store buf d)) d.bytes.length = some (.frame d.bytes.length
        ⟨1, 1, layout.size, d.bytes.length - tlvHdrLen⟩ "PERIODIC_STATS"
        (chunksOf .little layout d.bytes).length false
        ((chunksOf .little layout d.bytes).map (entryOf layout))) := by
    intro hframe
    refine dump_mono (received_extends buf d) ?_
    obtain ⟨entries, hlen, heq⟩ := hframe.exists_entries
    rw [heq] at hframe ⊢
    rw [Wire.chunksOf_frame .little layout entries hlen]
    exact dump_frame hsize entries hframe
  refine ⟨⟨fun hframe => ?_, ?_⟩, hprinted⟩
  · exact ⟨_, _, _, _, hprinted hframe, rfl, rfl, rfl, hframe.aligned⟩
  · rintro ⟨r, h, count, entries, hdump, htype, hver, helem, hdvd⟩
    by_cases hrunt : d.bytes.length < tlvHdrLen
    · rw [dump, if_pos hrunt] at hdump
      cases hdump
    · obtain ⟨h', hh'⟩ := header_of_length (Nat.le_of_not_lt hrunt)
      rw [dump, if_neg hrunt, header_mono (received_extends buf d) hh'] at hdump
      simp only [Option.bind_eq_bind, Option.bind_some, Option.bind_eq_some_iff] at hdump
      obtain ⟨entries', _, hval⟩ := hdump
      obtain ⟨_, rfl, _, _, hmismatch, _⟩ := Dump.frame.inj (Option.some.inj hval)
      have hlen : h'.len = d.bytes.length - tlvHdrLen := by
        simpa using of_decide_eq_false hmismatch
      obtain ⟨htype', hver', helem', hlen'⟩ := header_ofBytes_iff.mp hh'
      rw [htype] at htype'
      rw [hver] at hver'
      rw [helem] at helem'
      rw [hlen] at hlen' hdvd
      exact ⟨Nat.le_of_not_lt hrunt, htype', hver', helem', hlen', hdvd⟩

/-- The frame of an active and an idle client. -/
def twoEntries : Datagram :=
  ⟨[1, 1, 24, 0, 48, 0] ++ Wire.busyEntry.toList ++ Wire.idleEntry.toList, by decide⟩

theorem dump_agrees_two_entries :
    (∃ r h count entries, dump (stack (store (fun _ => 0x41) twoEntries)) twoEntries.bytes.length =
      some (.frame r h "PERIODIC_STATS" count false entries) ∧
      h.type = 1 ∧ h.ver = 1 ∧ h.elemSize = Wire.packedLayout.size ∧
        Wire.packedLayout.size ∣ h.len) ∧
    dump (stack (store (fun _ => 0x41) twoEntries)) twoEntries.bytes.length =
      some (.frame 54 ⟨1, 1, 24, 48⟩ "PERIODIC_STATS" 2 false
        [entryOf Wire.packedLayout Wire.busyEntry, entryOf Wire.packedLayout Wire.idleEntry]) := by
  have hagrees := @dump_agrees Wire.packedLayout (by decide) twoEntries fun _ => 0x41
  have hframe : IsFrame .little Wire.packedLayout.size twoEntries.bytes :=
    Wire.isFrame_frame .little Wire.packedLayout.size_le [Wire.busyEntry, Wire.idleEntry] (by decide)
  have hchunks : chunksOf .little Wire.packedLayout twoEntries.bytes =
      [Wire.busyEntry, Wire.idleEntry] :=
    Wire.chunksOf_frame .little Wire.packedLayout [Wire.busyEntry, Wire.idleEntry] (by decide)
  have hprinted := hagrees.2 hframe
  rw [hchunks] at hprinted
  exact ⟨hagrees.1.mp hframe, hprinted⟩

end Agreement

end Wei.Sockdump
