import Mathlib.Data.List.Basic

set_option autoImplicit true

/-- A heap that hands out every address once. Whoever uses an address that is not live has no
defined behaviour, which is `none`. -/
structure Heap (α : Type*) where
  cells : List (Option α)

namespace Heap

variable {α : Type*}

def empty : Heap α := ⟨[]⟩

def read (h : Heap α) (a : Nat) : Option α := h.cells[a]?.join

def alloc (h : Heap α) (x : α) : Heap α × Nat := (⟨h.cells ++ [some x]⟩, h.cells.length)

def free (h : Heap α) (a : Nat) : Option (Heap α) :=
  (h.read a).map fun _ => ⟨h.cells.set a none⟩

@[simp] theorem read_empty (a : Nat) : (empty : Heap α).read a = none := rfl

theorem lt_of_read {h : Heap α} (ha : h.read a = some x) : a < h.cells.length := by
  by_contra hn
  rw [read, List.getElem?_eq_none (Nat.not_lt.1 hn)] at ha
  cases ha

theorem read_alloc (h : Heap α) (x : α) (b : Nat) :
    (h.alloc x).1.read b = if b = (h.alloc x).2 then some x else h.read b := by
  unfold read alloc
  dsimp only
  split
  · rename_i hb
    subst hb
    simp
  · rename_i hb
    rcases Nat.lt_or_ge b h.cells.length with hlt | hge
    · rw [List.getElem?_append_left hlt]
    · rw [List.getElem?_eq_none hge, List.getElem?_eq_none]
      simp only [List.length_append, List.length_singleton]
      omega

@[simp] theorem read_alloc_self (h : Heap α) (x : α) :
    (h.alloc x).1.read (h.alloc x).2 = some x := by
  rw [read_alloc, if_pos rfl]

theorem ne_alloc {h : Heap α} (ha : h.read a = some y) (x : α) : a ≠ (h.alloc x).2 :=
  Nat.ne_of_lt (lt_of_read ha)

theorem free_of_read {h : Heap α} (ha : h.read a = some x) :
    ∃ h', h.free a = some h' ∧ ∀ b, h'.read b = if b = a then none else h.read b := by
  refine ⟨⟨h.cells.set a none⟩, by rw [free, ha]; rfl, fun b => ?_⟩
  have hlt := lt_of_read ha
  unfold read
  dsimp only
  rw [List.getElem?_set]
  by_cases hb : b = a
  · subst hb
    simp [hlt]
  · rw [if_neg fun h => hb h.symm, if_neg hb]

theorem free_alloc (h : Heap α) (x : α) :
    ∃ h', (h.alloc x).1.free (h.alloc x).2 = some h' ∧ ∀ b, h'.read b = h.read b := by
  obtain ⟨h', hf, hr⟩ := free_of_read (h.read_alloc_self x)
  refine ⟨h', hf, fun b => ?_⟩
  rw [hr, read_alloc]
  split
  · rename_i hb
    cases hread : h.read b with
    | none => rfl
    | some y => exact absurd hb (ne_alloc hread x)
  · rfl

end Heap
