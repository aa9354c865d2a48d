import Mathlib.Data.Option.Basic

/-!
# Writing and reading back

A reader is the one of a writer if it accepts what was written and nothing else.
Codecs compose, so that a record is read member by member.
-/
namespace Wei.Lib

structure Codec (α β : Type) where
  write : α → β
  read : β → Option α
  read_iff : ∀ a b, read b = some a ↔ write a = b

namespace Codec

variable {α β γ : Type}

theorem read_write (c : Codec α β) (a : α) : c.read (c.write a) = some a :=
  (c.read_iff a _).mpr rfl

/-- First by `c`, then by `d`. -/
def trans (c : Codec α β) (d : Codec β γ) : Codec α γ where
  write a := d.write (c.write a)
  read z := (d.read z).bind c.read
  read_iff a z := by
    rw [Option.bind_eq_some_iff]
    constructor
    · intro ⟨b, hd, hc⟩
      rw [(c.read_iff a b).mp hc, (d.read_iff b z).mp hd]
    · intro h
      exact ⟨c.write a, (d.read_iff _ z).mpr h, c.read_write a⟩

/-- A writer with a left inverse: read is what the inverse writes again. -/
def ofInverse [DecidableEq β] (write : α → β) (back : β → α) (h : ∀ a, back (write a) = a) :
    Codec α β where
  write := write
  read b := if write (back b) = b then some (back b) else none
  read_iff a b := by
    constructor
    · intro hread
      split at hread
      · next hback => rw [← Option.some.inj hread, hback]
      · cases hread
    · intro hwrite
      subst hwrite
      rw [h, if_pos rfl]

/-- An enumeration by its names. -/
def named [DecidableEq β] (all : List α) (name : α → β) (hall : ∀ a, a ∈ all)
    (hname : Function.Injective name) : Codec α β where
  write := name
  read b := all.find? fun a => decide (name a = b)
  read_iff a b := by
    constructor
    · intro hfound
      exact of_decide_eq_true (List.find?_some (p := fun a => decide (name a = b)) hfound)
    · intro hnamed
      cases hfind : all.find? fun a => decide (name a = b) with
      | none => exact absurd (decide_eq_true hnamed) (List.find?_eq_none.mp hfind a (hall a))
      | some a' =>
        have hnamed' := of_decide_eq_true
          (List.find?_some (p := fun a => decide (name a = b)) hfind)
        rw [hname (hnamed'.trans hnamed.symm)]

/-- Two parts, side by side. -/
def prod {α' β' : Type} (c : Codec α β) (c' : Codec α' β') : Codec (α × α') (β × β') where
  write a := (c.write a.1, c'.write a.2)
  read b := (c.read b.1).bind fun a => (c'.read b.2).map (a, ·)
  read_iff a b := by
    rw [Option.bind_eq_some_iff]
    constructor
    · intro ⟨a₁, h₁, h⟩
      obtain ⟨a₂, h₂, rfl⟩ := Option.map_eq_some_iff.mp h
      exact Prod.ext ((c.read_iff _ _).mp h₁) ((c'.read_iff _ _).mp h₂)
    · intro h
      subst h
      exact ⟨a.1, c.read_write _, by rw [c'.read_write]; rfl⟩

/-- Parts set apart by a separator, the last one without. -/
def readList [DecidableEq β] (c : Codec α (β × β)) (sep : β) : List β → Option (List α)
  | [x, y] => (c.read (x, y)).map fun a => [a]
  | x :: y :: z :: rest =>
    if z = sep then (c.read (x, y)).bind fun a => (readList c sep rest).map (a :: ·) else none
  | _ => none

/-- What `readList` reads. -/
def writeList (c : Codec α (β × β)) (sep : β) (l : List α) : List β :=
  [sep].intercalate (l.map fun a => [(c.write a).1, (c.write a).2])

theorem writeList_cons (c : Codec α (β × β)) (sep : β) (a : α) {rest : List α} (h : rest ≠ []) :
    writeList c sep (a :: rest) =
      (c.write a).1 :: (c.write a).2 :: sep :: writeList c sep rest := by
  rw [writeList, List.map_cons, List.intercalate_cons_of_ne_nil (by simpa using h)]
  rfl

theorem readList_iff [DecidableEq β] (c : Codec α (β × β)) (sep : β) (l : List α) (bs : List β) :
    readList c sep bs = some l ↔ l ≠ [] ∧ writeList c sep l = bs := by
  fun_induction readList c sep bs generalizing l with
  | case1 x y =>
    rw [Option.map_eq_some_iff]
    constructor
    · intro ⟨a, hread, hl⟩
      subst hl
      have hwrite := (c.read_iff a _).mp hread
      exact ⟨List.cons_ne_nil _ _, by simp [writeList, hwrite]⟩
    · intro ⟨hne, hl⟩
      cases l with
      | nil => exact absurd rfl hne
      | cons a rest =>
        cases rest with
        | nil =>
          obtain ⟨hx, hy, _⟩ : (c.write a).1 = x ∧ (c.write a).2 = y ∧ True := by
            simpa [writeList] using hl
          exact ⟨a, (c.read_iff a _).mpr (Prod.ext hx hy), rfl⟩
        | cons _ _ => simp [writeList] at hl
  | case2 x y rest ih =>
    rw [Option.bind_eq_some_iff]
    constructor
    · intro ⟨a, hread, hrest⟩
      obtain ⟨l', hl', rfl⟩ := Option.map_eq_some_iff.mp hrest
      obtain ⟨hne, hwrite⟩ := (ih l').mp hl'
      have hwritten := (c.read_iff a _).mp hread
      exact ⟨List.cons_ne_nil _ _, by rw [writeList_cons c _ a hne, hwritten, hwrite]⟩
    · intro ⟨hne, hl⟩
      cases l with
      | nil => exact absurd rfl hne
      | cons a l' =>
        have hne' : l' ≠ [] := by
          rintro rfl
          simp [writeList] at hl
        rw [writeList_cons c _ a hne'] at hl
        obtain ⟨hx, hy, hrest⟩ : (c.write a).1 = x ∧ (c.write a).2 = y ∧
            writeList c sep l' = rest := by simpa using hl
        refine ⟨a, (c.read_iff a _).mpr (Prod.ext hx hy), ?_⟩
        rw [(ih l').mpr ⟨hne', hrest⟩, Option.map_some]
  | case3 x y z rest hsep =>
    refine iff_of_false (by simp) fun ⟨hne, hl⟩ => hsep ?_
    cases l with
    | nil => exact absurd rfl hne
    | cons a l' =>
      have hne' : l' ≠ [] := by
        rintro rfl
        simp [writeList] at hl
      rw [writeList_cons c _ a hne'] at hl
      have hall := List.cons.inj (List.cons.inj (List.cons.inj hl).2).2
      exact hall.1.symm
  | case4 bs hpair hmore =>
    refine iff_of_false (by simp) fun ⟨hne, hl⟩ => ?_
    cases l with
    | nil => exact hne rfl
    | cons a l' =>
      cases l' with
      | nil => exact hpair _ _ hl.symm
      | cons b l'' => exact hmore _ _ _ _ hl.symm

end Codec

end Wei.Lib
