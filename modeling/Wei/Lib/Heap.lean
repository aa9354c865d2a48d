import Mathlib.Data.Finmap

/-!
# One block and its owner

A heap of blocks with their sizes, and the calls of an allocator on it. Whether
a call succeeds, and where it puts the block, is up to the allocator. Code that
keeps one block keeps a pointer to it and, on its own, its size; `Owned` says
that the two are right and that no other block was left behind.
-/
namespace Wei.Lib

/-- A block of memory, and what its owner has in it. -/
structure Block (κ : Type*) where
  size : Nat
  content : κ

/-- The blocks that were allocated and not freed, by their addresses. -/
abbrev Heap (α κ : Type*) := Finmap fun _ : α => Block κ

namespace Heap

variable {α κ : Type*} [DecidableEq α]

/-- `malloc` of `n` bytes, answered with an address or `NULL`. -/
def malloc (h : Heap α κ) (n : Nat) (blank : κ) (answer : Option α) : Heap α κ :=
  match answer with
  | none => h
  | some a => h.insert a ⟨n, blank⟩

/-- `realloc` of the block at `a` to more bytes; the block stays when the answer is `NULL`. -/
def realloc (h : Heap α κ) (a : α) (n : Nat) (answer : Option α) : Heap α κ :=
  match answer, h.lookup a with
  | some b, some block => (h.erase a).insert b { block with size := n }
  | _, _ => h

/-- The content of the block at `a` is overwritten. -/
def store (h : Heap α κ) (a : α) (content : κ) : Heap α κ :=
  match h.lookup a with
  | some block => h.insert a { block with content := content }
  | none => h

/-- The heap is the block of size `n` that the pointer holds, or nothing for `NULL`. -/
inductive Owned : Heap α κ → Option α → Nat → Prop where
  | null (n : Nat) : Owned ∅ none n
  | block (a : α) (n : Nat) (content : κ) : Owned (Finmap.singleton a ⟨n, content⟩) (some a) n

theorem insert_empty (a : α) (block : Block κ) :
    (∅ : Heap α κ).insert a block = Finmap.singleton a block := rfl

theorem erase_singleton (a : α) (block : Block κ) :
    (Finmap.singleton a block : Heap α κ).erase a = ∅ := by
  apply Finmap.ext_lookup
  intro b
  rw [Finmap.lookup_empty, Finmap.lookup_eq_none, Finmap.mem_erase, Finmap.mem_singleton]
  exact fun h => h.1 h.2

theorem malloc_empty (n : Nat) (blank : κ) (a : α) :
    malloc (∅ : Heap α κ) n blank (some a) = Finmap.singleton a ⟨n, blank⟩ := insert_empty a _

theorem realloc_singleton (a b : α) (m n : Nat) (content : κ) :
    realloc (Finmap.singleton a ⟨m, content⟩ : Heap α κ) a n (some b) =
      Finmap.singleton b ⟨n, content⟩ := by
  simp only [realloc, Finmap.lookup_singleton_eq, erase_singleton, insert_empty]

theorem store_singleton (a : α) (n : Nat) (old content : κ) :
    store (Finmap.singleton a ⟨n, old⟩ : Heap α κ) a content =
      Finmap.singleton a ⟨n, content⟩ := by
  simp only [store, Finmap.lookup_singleton_eq, Finmap.insert_singleton_eq]

end Heap

end Wei.Lib
