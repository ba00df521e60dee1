import Mathlib.Data.List.Basic
import Mathlib.Data.List.Induction
import Mathlib.Tactic.Common
import StupidKv.Lib.Timeline

namespace StupidKv
set_option autoImplicit true

abbrev Bytes := List UInt8

/-- One entry of a version chain; a `none` value is a tombstone. -/
structure Version where
  version : Nat
  value : Option Bytes
deriving DecidableEq, Repr

/-- The index of the last element that satisfies `p`. -/
def rposition (p : α → Bool) : List α → Option Nat
  | [] => none
  | a :: l =>
    match rposition p l with
    | some i => some (i + 1)
    | none => if p a then some 0 else none

/-- The loop of the standard library's binary search: it halves `size` until one slot is left. -/
def partitionLoop (p : α → Bool) (l : List α) : Nat → Nat → Nat → Nat
  | 0, _, base => base
  | fuel + 1, size, base =>
    if size > 1 then
      let half := size / 2
      let mid := base + half
      partitionLoop p l fuel (size - half) (if l[mid]?.any p then mid else base)
    else base

def partitionPoint (p : α → Bool) (l : List α) : Nat :=
  if l.length = 0 then 0
  else
    let base := partitionLoop p l l.length l.length 0
    if l[base]?.any p then base + 1 else base

def findIndexLtVersion (inner : List Version) (version : Nat) : Nat :=
  if inner.getLast?.any (fun last => version > last.version) then inner.length
  else if inner.length ≤ 4 then
    (rposition (fun v => v.version < version) inner).elim 0 (· + 1)
  else partitionPoint (fun v => v.version < version) inner

def findIndexLteVersion (inner : List Version) (version : Nat) : Nat :=
  if inner.getLast?.any (fun last => version ≥ last.version) then inner.length
  else if inner.length ≤ 4 then
    (rposition (fun v => v.version ≤ version) inner).elim 0 (· + 1)
  else partitionPoint (fun v => v.version ≤ version) inner

/-- What an out-of-order push does to the chain; an update names the entry it overwrites. -/
inductive IndexOrUpdate where
  | ignore
  | index (idx : Nat)
  | update (idx : Nat)
deriving DecidableEq, Repr

def fetchIndexOrUpdate (inner : List Version) (value : Version) : IndexOrUpdate :=
  let idx := findIndexLteVersion inner value.version
  if idx = 0 then
    if value.value.isNone then .ignore else .index idx
  else
    match inner[idx - 1]? with
    | some existing =>
      if existing.version = value.version then
        if existing.value = value.value then .ignore else .update (idx - 1)
      else if existing.value = value.value then .ignore
      else .index idx
    | none => .index idx

def pushVersion (inner : List Version) (value : Version) : List Version :=
  match inner.getLast? with
  | some last =>
    if value.version > last.version then
      if value.value ≠ last.value then inner ++ [value] else inner
    else if value.version = last.version then
      if value.value ≠ last.value then inner.dropLast ++ [{ last with value := value.value }]
      else inner
    else
      match fetchIndexOrUpdate inner value with
      | .ignore => inner
      | .index idx => inner.insertIdx idx value
      | .update idx => inner.modify idx fun e => { e with value := value.value }
  | none => if value.value.isSome then inner ++ [value] else inner

def gcOlderVersions (inner : List Version) (version : Nat) : List Version :=
  let lte := findIndexLteVersion inner version
  if lte = 0 then inner
  else
    let visible := lte - 1
    match inner[visible]? with
    | some v => if v.value.isNone then inner.drop lte else inner.drop visible
    | none => inner

def Ascending (inner : List Version) : Prop :=
  inner.Pairwise fun a b => a.version < b.version

theorem eq_of_increasing {l : List α} {f : α → Nat} (h : l.Pairwise fun a b => f a < f b) (ha : a ∈ l)
    (hb : b ∈ l) (he : f a = f b) : a = b := by
  have hp := List.pairwise_iff_getElem.1 h
  obtain ⟨i, hi, rfl⟩ := List.getElem_of_mem ha
  obtain ⟨j, hj, rfl⟩ := List.getElem_of_mem hb
  rcases Nat.lt_trichotomy i j with hij | hij | hij
  · have := hp i j hi hj hij
    omega
  · subst hij
    rfl
  · have := hp j i hj hi hij
    omega

theorem rposition_of_split (p : α → Bool) (h : ∀ a ∈ hi, p a = false)
    (h' : ∀ a ∈ lo, p a = true) :
    (rposition p (lo ++ hi)).elim 0 (· + 1) = lo.length := by
  have hn : rposition p hi = none := by
    induction hi with
    | nil => rfl
    | cons a hi ih =>
      simp only [rposition, ih fun b hb => h b (List.mem_cons_of_mem _ hb),
        h a List.mem_cons_self, Bool.false_eq_true, ↓reduceIte]
  induction lo with
  | nil => simp [hn]
  | cons a lo ih =>
    have ih := ih fun b hb => h' b (List.mem_cons_of_mem _ hb)
    simp only [List.cons_append, rposition]
    cases hr : rposition p (lo ++ hi) with
    | some i =>
      rw [hr] at ih
      simp only [Option.elim_some] at ih
      simp [ih]
    | none =>
      rw [hr] at ih
      simp only [Option.elim_none] at ih
      simp [h' a List.mem_cons_self, ← ih]

/-- A slot of a partitioned list satisfies the predicate exactly below the partition point. -/
theorem split_any {lo hi : List α} (p : α → Bool) (h : ∀ a ∈ hi, p a = false) (h' : ∀ a ∈ lo, p a = true)
    (i : Nat) : (lo ++ hi)[i]?.any p = decide (i < lo.length) := by
  by_cases hi' : i < lo.length
  · rw [List.getElem?_append_left hi', List.getElem?_eq_getElem hi']
    simp [hi', h' _ (List.getElem_mem hi')]
  · rw [List.getElem?_append_right (Nat.le_of_not_lt hi')]
    cases hg : hi[i - lo.length]? with
    | none => simp [hi']
    | some a => simp [hi', h a (List.mem_of_getElem? hg)]

theorem partitionLoop_bounds (p : α → Bool) (l : List α) (n : Nat)
    (hp : ∀ i, l[i]?.any p = decide (i < n)) (fuel size base : Nat)
    (hf : size ≤ fuel + 1) (hs : 0 < size) (hb : base ≤ n) (hn : n ≤ base + size) :
    partitionLoop p l fuel size base ≤ n ∧ n ≤ partitionLoop p l fuel size base + 1 := by
  induction fuel generalizing size base with
  | zero =>
    simp only [partitionLoop]
    omega
  | succ fuel ih =>
    simp only [partitionLoop, hp]
    by_cases h1 : size > 1
    · rw [if_pos h1]
      by_cases hm : base + size / 2 < n
      · simp only [hm, decide_true, ↓reduceIte]
        exact ih _ _ (by omega) (by omega) (by omega) (by omega)
      · simp only [hm, decide_false, Bool.false_eq_true, ↓reduceIte]
        exact ih _ _ (by omega) (by omega) (by omega) (by omega)
    · rw [if_neg h1]
      omega

theorem partitionPoint_of_split (p : α → Bool) (h : ∀ a ∈ hi, p a = false)
    (h' : ∀ a ∈ lo, p a = true) : partitionPoint p (lo ++ hi) = lo.length := by
  have hp := split_any p h h'
  unfold partitionPoint
  by_cases hl : (lo ++ hi).length = 0
  · rw [if_pos hl]
    simp only [List.length_append] at hl
    omega
  · rw [if_neg hl]
    obtain ⟨hb, hb'⟩ := partitionLoop_bounds p (lo ++ hi) lo.length hp _ _ 0
      (Nat.le_succ _) (Nat.pos_of_ne_zero hl) (Nat.zero_le _)
      (by simp only [List.length_append]; omega)
    simp only [hp]
    by_cases hlt : partitionLoop p (lo ++ hi) (lo ++ hi).length (lo ++ hi).length 0 < lo.length
    · simp only [hlt, decide_true, ↓reduceIte]
      omega
    · simp only [hlt, decide_false, Bool.false_eq_true, ↓reduceIte]
      omega

/-- All three search paths agree on a chain split at the searched version. -/
theorem findIndexLteVersion_of_split (h : ∀ a ∈ hi, v < a.version)
    (h' : ∀ a ∈ lo, a.version ≤ v) : findIndexLteVersion (lo ++ hi) v = lo.length := by
  have hp : ∀ a ∈ hi, decide (a.version ≤ v) = false := fun a ha =>
    decide_eq_false (Nat.not_le.2 (h a ha))
  have hp' : ∀ a ∈ lo, decide (a.version ≤ v) = true := fun a ha => decide_eq_true (h' a ha)
  unfold findIndexLteVersion
  split
  · rename_i hl
    cases hi using List.reverseRecOn with
    | nil => simp
    | append_singleton hi a =>
      have ha := h a (by simp)
      simp only [← List.append_assoc, List.getLast?_concat, Option.any_some,
        decide_eq_true_eq] at hl
      omega
  · split
    · exact rposition_of_split _ hp hp'
    · exact partitionPoint_of_split _ hp hp'

theorem findIndexLtVersion_of_split (h : ∀ a ∈ hi, v ≤ a.version)
    (h' : ∀ a ∈ lo, a.version < v) : findIndexLtVersion (lo ++ hi) v = lo.length := by
  have hp : ∀ a ∈ hi, decide (a.version < v) = false := fun a ha =>
    decide_eq_false (Nat.not_lt.2 (h a ha))
  have hp' : ∀ a ∈ lo, decide (a.version < v) = true := fun a ha => decide_eq_true (h' a ha)
  unfold findIndexLtVersion
  split
  · rename_i hl
    cases hi using List.reverseRecOn with
    | nil => simp
    | append_singleton hi a =>
      have ha := h a (by simp)
      simp only [← List.append_assoc, List.getLast?_concat, Option.any_some, gt_iff_lt,
        decide_eq_true_eq] at hl
      omega
  · split
    · exact rposition_of_split _ hp hp'
    · exact partitionPoint_of_split _ hp hp'

end StupidKv
