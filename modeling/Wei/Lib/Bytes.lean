import Mathlib.Data.List.Basic
import Mathlib.Data.List.Induction
import Mathlib.Data.List.TakeDrop
import Mathlib.Tactic.Ring

/-!
# Reading bytes

Reads of a byte buffer that say nothing once they leave it, and the buffers they
undo: a 16-bit field in either byte order, and items of one width back to back.
-/
namespace Wei.Lib

inductive ByteOrder where
  | little
  | big
  deriving DecidableEq

namespace Bytes

def readU8 (buf : List UInt8) (i : Nat) : Option UInt8 := buf[i]?

/-- The value of a 16-bit field, given its bytes as they lie in memory. -/
def u16 : ByteOrder → UInt8 → UInt8 → Nat
  | .little, a, b => a.toNat + 256 * b.toNat
  | .big, a, b => 256 * a.toNat + b.toNat

def ofU16 : ByteOrder → Nat → List UInt8
  | .little, n => [UInt8.ofNat n, UInt8.ofNat (n / 256)]
  | .big, n => [UInt8.ofNat (n / 256), UInt8.ofNat n]

def readU16 (order : ByteOrder) (buf : List UInt8) (i : Nat) : Option Nat := do
  let a ← readU8 buf i
  let b ← readU8 buf (i + 1)
  return u16 order a b

/-- The `n` bytes from position `i` on. -/
def readBytes (buf : List UInt8) (i n : Nat) : Option (Vector UInt8 n) :=
  if h : i + n ≤ buf.length then
    some ⟨((buf.drop i).take n).toArray, by simp; omega⟩
  else none

/-- Items of one width, back to back. -/
def concat {n : Nat} (items : List (Vector UInt8 n)) : List UInt8 := items.flatMap Vector.toList

/-! ## Reads inside the buffer succeed -/

theorem readU8_of_lt {buf : List UInt8} {i : Nat} (h : i < buf.length) :
    readU8 buf i = some buf[i] := by
  simp [readU8, h]

theorem u16_lt (order : ByteOrder) (a b : UInt8) : u16 order a b < 65536 := by
  have ha := a.toNat_lt
  have hb := b.toNat_lt
  cases order <;> simp only [u16] <;> omega

theorem readU16_of_lt (order : ByteOrder) {buf : List UInt8} {i : Nat} (h : i + 1 < buf.length) :
    ∃ n < 65536, readU16 order buf i = some n := by
  have hi : i < buf.length := by omega
  refine ⟨_, u16_lt order buf[i] buf[i + 1], ?_⟩
  simp [readU16, readU8_of_lt hi, readU8_of_lt h]

theorem readBytes_of_le {buf : List UInt8} {i n : Nat} (h : i + n ≤ buf.length) :
    ∃ item, readBytes buf i n = some item ∧ item.toList = (buf.drop i).take n := by
  refine ⟨_, dif_pos h, ?_⟩
  simp [Vector.toList]

/-! ## Reads undo the encoding -/

@[simp] theorem length_ofU16 (order : ByteOrder) (n : Nat) : (ofU16 order n).length = 2 := by
  cases order <;> rfl

theorem readU16_append (order : ByteOrder) (before after : List UInt8) {n : Nat}
    (hn : n < 65536) :
    readU16 order (before ++ (ofU16 order n ++ after)) before.length = some n := by
  cases order <;> simp [readU16, readU8, ofU16, u16] <;> omega

/-- A field that reads as `n` holds the bytes of `n`. -/
theorem ofU16_of_readU16 {order : ByteOrder} {buf : List UInt8} {i n : Nat}
    (h : readU16 order buf i = some n) : (buf.drop i).take 2 = ofU16 order n := by
  obtain ⟨a, ha, h⟩ := Option.bind_eq_some_iff.mp h
  obtain ⟨b, hb, h⟩ := Option.bind_eq_some_iff.mp h
  obtain rfl : u16 order a b = n := Option.some.inj h
  obtain ⟨hi, rfl⟩ := List.getElem?_eq_some_iff.mp ha
  obtain ⟨hi', rfl⟩ := List.getElem?_eq_some_iff.mp hb
  have hsplit : (buf.drop i).take 2 = [buf[i], buf[i + 1]] := by
    rw [List.drop_eq_getElem_cons hi, List.drop_eq_getElem_cons hi']
    rfl
  have hlow := buf[i].toNat_lt
  have hhigh := buf[i + 1].toNat_lt
  rw [hsplit]
  cases order <;> simp only [ofU16, u16, List.cons.injEq, and_true] <;>
    constructor <;> apply UInt8.toNat.inj <;> simp <;> omega

theorem concat_cons {n : Nat} (item : Vector UInt8 n) (items : List (Vector UInt8 n)) :
    concat (item :: items) = item.toList ++ concat items := rfl

@[simp] theorem length_concat {n : Nat} (items : List (Vector UInt8 n)) :
    (concat items).length = items.length * n := by
  induction items with
  | nil => simp [concat]
  | cons item items ih =>
    rw [concat_cons, List.length_append, ih, Vector.length_toList, List.length_cons]
    ring

theorem drop_concat {n : Nat} (items : List (Vector UInt8 n)) (i : Nat) :
    (concat items).drop (i * n) = concat (items.drop i) := by
  induction items generalizing i with
  | nil => simp [concat]
  | cons item items ih =>
    cases i with
    | zero => simp
    | succ i =>
      have hpos : (i + 1) * n = item.toList.length + i * n := by
        rw [Vector.length_toList]; ring
      rw [List.drop_succ_cons, ← ih i, hpos, concat_cons]
      exact List.drop_length_add_append (i * n)

/-- Where the bytes of one item lie. -/
theorem take_drop_concat {n : Nat} (before : List UInt8) (items : List (Vector UInt8 n)) {i : Nat}
    (hi : i < items.length) :
    ((before ++ concat items).drop (before.length + i * n)).take n = items[i].toList := by
  rw [List.drop_length_add_append, drop_concat, List.drop_eq_getElem_cons hi, concat_cons]
  exact List.take_left' Vector.length_toList

theorem readBytes_concat {n : Nat} (before : List UInt8) (items : List (Vector UInt8 n)) {i : Nat}
    (hi : i < items.length) :
    readBytes (before ++ concat items) (before.length + i * n) n = some items[i] := by
  have hbound : before.length + i * n + n ≤ (before ++ concat items).length := by
    have hitems : i * n + n ≤ items.length * n := by
      rw [← Nat.succ_mul]
      exact Nat.mul_le_mul_right n hi
    rw [List.length_append, length_concat]
    omega
  obtain ⟨item, hitem, hbytes⟩ := readBytes_of_le hbound
  rw [hitem, Option.some.injEq, ← Vector.toList_inj, hbytes, take_drop_concat before items hi]

theorem filterMap_getElem? {α : Type*} (xs : List α) :
    (List.range xs.length).filterMap (fun i => xs[i]?) = xs := by
  induction xs using List.reverseRecOn with
  | nil => rfl
  | append_singleton xs x ih =>
    have hleft : ∀ i ∈ List.range xs.length, (xs ++ [x])[i]? = xs[i]? := fun i hi =>
      List.getElem?_append_left (List.mem_range.mp hi)
    rw [List.length_append, List.length_singleton, List.range_succ, List.filterMap_append,
      List.filterMap_congr hleft, ih]
    simp

theorem filterMap_readBytes {n : Nat} (before : List UInt8) (items : List (Vector UInt8 n)) :
    (List.range items.length).filterMap
      (fun i => readBytes (before ++ concat items) (before.length + i * n) n) = items := by
  have hread : ∀ i ∈ List.range items.length,
      readBytes (before ++ concat items) (before.length + i * n) n = items[i]? := by
    intro i hi
    have hlt := List.mem_range.mp hi
    rw [readBytes_concat before items hlt, List.getElem?_eq_getElem hlt]
  rw [List.filterMap_congr hread]
  exact filterMap_getElem? items

/-- A buffer of whole items is the items back to back. -/
theorem exists_concat {n k : Nat} (buf : List UInt8) (h : buf.length = k * n) :
    ∃ items : List (Vector UInt8 n), items.length = k ∧ concat items = buf := by
  induction k generalizing buf with
  | zero =>
    rw [Nat.zero_mul] at h
    exact ⟨[], rfl, (List.length_eq_zero_iff.mp h).symm⟩
  | succ k ih =>
    have hlen : buf.length = k * n + n := by rw [h]; ring
    obtain ⟨items, hitems, hconcat⟩ := ih (buf.drop n) (by simp [hlen])
    refine ⟨⟨(buf.take n).toArray, by simp [hlen]⟩ :: items, by simp [hitems], ?_⟩
    rw [concat_cons, hconcat]
    exact List.take_append_drop n buf

/-- A loop that reads the items of a buffer one by one sees them all, in order. -/
theorem foldlM_readBytes {n : Nat} {β : Type} (f : β → Vector UInt8 n → β) (before : List UInt8)
    (items : List (Vector UInt8 n)) (b : β) :
    (List.range items.length).foldlM (fun b i => do
      let item ← readBytes (before ++ concat items) (before.length + i * n) n
      return f b item) b = some (items.foldl f b) := by
  suffices hk : ∀ k ≤ items.length, (List.range k).foldlM (fun b i => do
      let item ← readBytes (before ++ concat items) (before.length + i * n) n
      return f b item) b = some ((items.take k).foldl f b) by
    simpa using hk items.length (Nat.le_refl _)
  intro k hk
  induction k with
  | zero => rfl
  | succ k ih =>
    have hlt : k < items.length := hk
    rw [List.range_succ, List.foldlM_append, ih (Nat.le_of_succ_le hk), List.take_add_one,
      List.foldl_append, List.getElem?_eq_getElem hlt]
    simp [readBytes_concat before items hlt]

end Bytes

end Wei.Lib
