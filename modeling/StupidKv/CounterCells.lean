import StupidKv.Counters
import StupidKv.Holders

namespace StupidKv
open Std
set_option autoImplicit true

/-- A counter map down to its `Arc`s. An `Arc` is a position in `heap`, which keeps every cell ever
made. -/
structure CounterCells where
  heap : List Counter
  map : SkipMap Nat Nat

/-- A thread that moves alone, with no spurious failure. -/
def Thread.alone (c : Counters) (t : Thread) : Nat → Option (Counters × Thread)
  | 0 => some (c, t)
  | n + 1 => (t.step c false).bind fun p => alone p.1 p.2 n

theorem Thread.alone_succ {c c' : Counters} {t t' : Thread} (h : t.step c false = some (c', t'))
    (n : Nat) : t.alone c (n + 1) = t'.alone c' n := by
  simp only [alone, h, Option.bind_some]

namespace CounterCells

def new : CounterCells := ⟨[], ∅⟩

/-- The map as a scan reads it, through the references. -/
def counts (c : CounterCells) : SkipMap Nat Counter := c.map.filterMap fun _ a => c.heap[a]?

/-- A fresh cell under a missing key. -/
def alloc (c : CounterCells) (v : Nat) : CounterCells :=
  ⟨c.heap ++ [.count 0], c.map.insert v c.heap.length⟩

def getOrInsert (c : CounterCells) (v : Nat) : CounterCells × Nat :=
  match c.map[v]? with
  | some a => (c, a)
  | none => (c.alloc v, c.heap.length)

/-- `register_counter` without interference, the watched atomic at `v`: it returns the cell it has
counted itself on. On a tombstone, or under the floor, it would never return. -/
def register (c : CounterCells) (v : Nat) (gcFloor : Option Nat) : Option (CounterCells × Nat) :=
  let (c, a) := c.getOrInsert v
  match c.heap[a]? with
  | some (.count n) =>
    if gcFloor.all (· ≤ v) then some ({ c with heap := c.heap.set a (.count (n + 1)) }, a)
    else none
  | _ => none

/-- `release_counter` on the cell `a`; `true` tells the last holder. A count of zero would keep it
in its loop. -/
def releaseCounter (c : CounterCells) (a : Nat) : Option (CounterCells × Bool) :=
  match c.heap[a]? with
  | some current =>
    if current.aboveOne then some ({ c with heap := c.heap.set a current.pred }, false)
    else if current = .count 1 then some ({ c with heap := c.heap.set a .tombstone }, true)
    else none
  | none => none

/-- The release of a dropped transaction, with the removal by key that the last holder owes. -/
def release (c : CounterCells) (a v : Nat) : Option CounterCells := do
  let (c, last) ← c.releaseCounter a
  return if last then { c with map := c.map.erase v } else c

/-- Every entry refers to a cell of its own. -/
structure Sound (c : CounterCells) : Prop where
  allocated : ∀ (v a : Nat), c.map[v]? = some a → a < c.heap.length
  injective : ∀ (v w a : Nat), c.map[v]? = some a → c.map[w]? = some a → v = w

theorem Sound.new : CounterCells.new.Sound where
  allocated := by simp [CounterCells.new]
  injective := by simp [CounterCells.new]

variable {c c' : CounterCells}

theorem getElem?_counts (c : CounterCells) (v : Nat) :
    c.counts[v]? = c.map[v]?.bind fun a => c.heap[a]? := by
  simp only [counts, ExtTreeMap.getElem?_filterMap']

theorem counts_at {v a : Nat} (h : c.map[v]? = some a) : c.counts[v]? = c.heap[a]? := by
  rw [getElem?_counts, h, Option.bind_some]

theorem Sound.counts_set {v a : Nat} (h : c.Sound) (hv : c.map[v]? = some a) (x : Counter) :
    ({ c with heap := c.heap.set a x } : CounterCells).counts = c.counts.insert v x := by
  apply ExtTreeMap.ext_getElem?
  intro w
  rw [ExtTreeMap.getElem?_insert, getElem?_counts, getElem?_counts]
  by_cases hw : v = w
  · subst hw
    rw [if_pos ReflCmp.compare_self, hv, Option.bind_some,
      List.getElem?_set_self (h.allocated v a hv)]
  · rw [if_neg (mt Nat.compare_eq_eq.1 hw)]
    cases hb : c.map[w]? with
    | none => rfl
    | some b =>
      have hab : a ≠ b := by
        rintro rfl
        exact hw (h.injective v w a hv hb)
      rw [Option.bind_some, Option.bind_some, List.getElem?_set_ne hab]

theorem Sound.set (h : c.Sound) (a : Nat) (x : Counter) :
    ({ c with heap := c.heap.set a x } : CounterCells).Sound where
  allocated v b hb := by
    rw [List.length_set]
    exact h.allocated v b hb
  injective := h.injective

theorem mem_counts_iff (h : c.Sound) (v : Nat) : v ∈ c.counts ↔ v ∈ c.map := by
  rw [ExtTreeMap.mem_iff_isSome_getElem?, ExtTreeMap.mem_iff_isSome_getElem?, getElem?_counts]
  cases hv : c.map[v]? with
  | none => rfl
  | some a => simp [h.allocated v a hv]

theorem getElem?_alloc (c : CounterCells) (v w : Nat) :
    (c.alloc v).map[w]? = if v = w then some c.heap.length else c.map[w]? := by
  simp only [alloc, ExtTreeMap.getElem?_insert, Nat.compare_eq_eq]

theorem Sound.alloc (h : c.Sound) (v : Nat) : (c.alloc v).Sound where
  allocated w b hw := by
    have hlen : (c.alloc v).heap.length = c.heap.length + 1 := by simp [CounterCells.alloc]
    rw [getElem?_alloc] at hw
    rw [hlen]
    split at hw
    · cases hw
      exact Nat.lt_succ_self _
    · exact Nat.lt_succ_of_lt (h.allocated w b hw)
  injective w u b hw hu := by
    rw [getElem?_alloc] at hw hu
    split at hw
    · split at hu
      · rename_i hvw hvu
        rw [← hvw, hvu]
      · cases hw
        exact absurd (h.allocated u _ hu) (Nat.lt_irrefl _)
    · split at hu
      · cases hu
        exact absurd (h.allocated w _ hw) (Nat.lt_irrefl _)
      · exact h.injective w u b hw hu

theorem Sound.counts_alloc {v : Nat} (h : c.Sound) (hv : c.map[v]? = none) :
    (c.alloc v).counts = c.counts.insertIfNew v (.count 0) := by
  have hn : v ∉ c.counts := by
    rw [mem_counts_iff h, ExtTreeMap.mem_iff_isSome_getElem?, hv]
    simp
  apply ExtTreeMap.ext_getElem?
  intro w
  rw [getElem?_counts, getElem?_alloc, ExtTreeMap.getElem?_insertIfNew, getElem?_counts]
  by_cases hw : v = w
  · subst hw
    simp [hn, CounterCells.alloc]
  · rw [if_neg hw, if_neg fun hc => hw (Nat.compare_eq_eq.1 hc.1)]
    cases hb : c.map[w]? with
    | none => rfl
    | some b =>
      rw [Option.bind_some, Option.bind_some]
      exact List.getElem?_append_left (h.allocated w b hb)

theorem Sound.getOrInsert (h : c.Sound) (hg : c.getOrInsert v = (c', a)) :
    c'.Sound ∧ c'.map[v]? = some a ∧ c'.counts = c.counts.insertIfNew v (.count 0) ∧
      ∀ w b : Nat, c.map[w]? = some b → c'.map[w]? = some b := by
  unfold CounterCells.getOrInsert at hg
  cases hv : c.map[v]? with
  | some b =>
    rw [hv] at hg
    cases hg
    have hm : v ∈ c.counts := by
      rw [mem_counts_iff h, ExtTreeMap.mem_iff_isSome_getElem?, hv]
      rfl
    refine ⟨h, hv, ?_, fun w b hw => hw⟩
    apply ExtTreeMap.ext_getElem?
    intro w
    rw [ExtTreeMap.getElem?_insertIfNew, if_neg fun hc => hc.2 hm]
  | none =>
    rw [hv] at hg
    cases hg
    refine ⟨h.alloc v, by rw [getElem?_alloc, if_pos rfl], h.counts_alloc hv, ?_⟩
    intro w b hw
    rw [getElem?_alloc, if_neg, hw]
    rintro rfl
    rw [hv] at hw
    cases hw

/-- A registration counts in the map what `registerCounter` counts, and blocks where it blocks. -/
theorem Sound.register (h : c.Sound) (v : Nat) (gcFloor : Option Nat) :
    (c.register v gcFloor).map (fun p => p.1.counts) = registerCounter c.counts v gcFloor := by
  rcases hg : c.getOrInsert v with ⟨c₁, a⟩
  obtain ⟨hs, hv, hcounts, -⟩ := h.getOrInsert hg
  have hcell : c₁.heap[a]? = some (c.counts[v]?.getD (.count 0)) := by
    rw [← counts_at hv, hcounts, ExtTreeMap.getElem?_insertIfNew]
    cases hc : c.counts[v]? with
    | none =>
      have hn : v ∉ c.counts := by
        rw [ExtTreeMap.mem_iff_isSome_getElem?, hc]
        simp
      rw [if_pos ⟨ReflCmp.compare_self, hn⟩]
      rfl
    | some x =>
      have hm : v ∈ c.counts := by
        rw [ExtTreeMap.mem_iff_isSome_getElem?, hc]
        rfl
      rw [if_neg fun hn => hn.2 hm]
      rfl
  unfold CounterCells.register registerCounter
  simp only [hg, hcell]
  cases c.counts[v]?.getD (.count 0) with
  | tombstone => rfl
  | count n =>
    simp only
    split
    · rw [Option.map_some, hs.counts_set hv, hcounts]
      congr 1
      apply ExtTreeMap.ext_getElem?
      intro w
      rw [ExtTreeMap.getElem?_insert, ExtTreeMap.getElem?_insert]
      split
      · rfl
      · rename_i hw
        rw [ExtTreeMap.getElem?_insertIfNew, if_neg fun hc => hw hc.1]
    · rfl

theorem Sound.registered (h : c.Sound) (hr : c.register v gcFloor = some (c', a)) :
    c'.Sound ∧ c'.map[v]? = some a ∧ ∀ w b : Nat, c.map[w]? = some b → c'.map[w]? = some b := by
  rcases hg : c.getOrInsert v with ⟨c₁, b⟩
  obtain ⟨hs, hv, -, hkeep⟩ := h.getOrInsert hg
  unfold CounterCells.register at hr
  simp only [hg] at hr
  split at hr
  · obtain ⟨-, hr⟩ := Option.ite_none_right_eq_some.1 hr
    cases hr
    exact ⟨hs.set _ _, hv, hkeep⟩
  · cases hr

theorem Sound.release {v a : Nat} (h : c.Sound) (hv : c.map[v]? = some a)
    (hn : c.counts[v]? = some (.count (n + 1))) :
    ∃ c', c.release a v = some c' ∧ c'.Sound ∧ c'.counts = StupidKv.releaseCounter c.counts v ∧
      ∀ w b : Nat, c'.map[w]? = some b → c.map[w]? = some b := by
  have hcell : c.heap[a]? = some (.count (n + 1)) := by rw [← counts_at hv, hn]
  cases n with
  | zero =>
    have hsub : ∀ w b : Nat, (c.map.erase v)[w]? = some b → c.map[w]? = some b := by
      intro w b hw
      rw [ExtTreeMap.getElem?_erase] at hw
      split at hw
      · cases hw
      · exact hw
    refine ⟨{ heap := c.heap.set a .tombstone, map := c.map.erase v }, ?_, ?_, ?_, hsub⟩
    · simp [CounterCells.release, CounterCells.releaseCounter, hcell, Counter.aboveOne]
    · have hs := h.set a .tombstone
      exact ⟨fun w b hw => hs.allocated w b (hsub w b hw),
        fun w u b hw hu => hs.injective w u b (hsub w b hw) (hsub u b hu)⟩
    · have hset := h.counts_set hv .tombstone
      apply ExtTreeMap.ext_getElem?
      intro w
      have hw := congrArg (fun m : SkipMap Nat Counter => m[w]?) hset
      simp only [getElem?_counts, ExtTreeMap.getElem?_insert] at hw
      rw [getElem?_counts, StupidKv.releaseCounter, ExtTreeMap.getElem?_alter,
        ExtTreeMap.getElem?_erase]
      split
      · rw [hn]
        rfl
      · rename_i hvw
        rw [if_neg hvw] at hw
        rw [hw, getElem?_counts]
  | succ n =>
    refine ⟨{ c with heap := c.heap.set a (.count (n + 1)) }, ?_, h.set _ _, ?_,
      fun w b hw => hw⟩
    · simp [CounterCells.release, CounterCells.releaseCounter, hcell, Counter.aboveOne,
        Counter.pred]
    · rw [h.counts_set hv]
      apply ExtTreeMap.ext_getElem?
      intro w
      rw [StupidKv.releaseCounter, ExtTreeMap.getElem?_alter, ExtTreeMap.getElem?_insert]
      split
      · rw [hn]
      · rfl

/-- The cells as the fine-grained steps see them. -/
def counters (c : CounterCells) (atomic : Nat) (gcFloor : Option Nat) : Counters :=
  ⟨atomic, gcFloor, c.heap, c.map⟩

/-- A registration in one piece is the registering thread moving alone. -/
theorem register_alone (hr : c.register v gcFloor = some (c', a)) :
    ∃ n, Thread.load.alone (c.counters v gcFloor) n =
      some (c'.counters v gcFloor, .registered v a) := by
  rcases hg : c.getOrInsert v with ⟨c₁, b⟩
  have hload : Thread.load.step (c.counters v gcFloor) false =
      some (c.counters v gcFloor, .slot v) := rfl
  have hslot : (Thread.slot v).step (c.counters v gcFloor) false =
      some (c₁.counters v gcFloor, .read v b) := by
    unfold CounterCells.getOrInsert at hg
    cases hv : c.map[v]? with
    | some b =>
      rw [hv] at hg
      cases hg
      simp only [Thread.step, counters, hv]
    | none =>
      rw [hv] at hg
      cases hg
      simp only [Thread.step, counters, hv, alloc]
  unfold CounterCells.register at hr
  simp only [hg] at hr
  split at hr
  · rename_i n hn
    obtain ⟨hf, hr⟩ := Option.ite_none_right_eq_some.1 hr
    cases hr
    have hread : (Thread.read v a).step (c₁.counters v gcFloor) false =
        some (c₁.counters v gcFloor, .cas v a n) := by
      simp only [Thread.step, counters, hn]
    let c' : CounterCells := { c₁ with heap := c₁.heap.set a (.count (n + 1)) }
    have hcas : (Thread.cas v a n).step (c₁.counters v gcFloor) false =
        some (c'.counters v gcFloor, .check v a) := by
      simp only [Thread.step, Counters.compareExchangeWeak, counters, hn, and_self, ↓reduceIte, c']
    cases gcFloor with
    | none =>
      have hcheck : (Thread.check v a).step (c'.counters v none) false =
          some (c'.counters v none, .registered v a) := by
        simp only [Thread.step, counters, beq_self_eq_true, ↓reduceIte]
      refine ⟨5, ?_⟩
      rw [Thread.alone_succ hload, Thread.alone_succ hslot, Thread.alone_succ hread,
        Thread.alone_succ hcas, Thread.alone_succ hcheck]
      rfl
    | some floor =>
      have hcheck : (Thread.check v a).step (c'.counters v (some floor)) false =
          some (c'.counters v (some floor), .floor v a true) := by
        simp only [Thread.step, counters, beq_self_eq_true]
      have hfloor : (Thread.floor v a true).step (c'.counters v (some floor)) false =
          some (c'.counters v (some floor), .registered v a) := by
        rw [Option.all_some] at hf
        simp only [Thread.step, counters, Option.map_some, Bool.true_and, hf, ↓reduceIte]
      refine ⟨6, ?_⟩
      rw [Thread.alone_succ hload, Thread.alone_succ hslot, Thread.alone_succ hread,
        Thread.alone_succ hcas, Thread.alone_succ hcheck, Thread.alone_succ hfloor]
      rfl
  · cases hr

theorem release_alone (hr : c.release a v = some c') (atomic : Nat) (gcFloor : Option Nat) :
    ∃ n, (Thread.registered v a).alone (c.counters atomic gcFloor) n =
      some (c'.counters atomic gcFloor, .done) := by
  obtain ⟨⟨c₁, last⟩, hc, hr⟩ := Option.bind_eq_some_iff.1 hr
  cases hr
  unfold CounterCells.releaseCounter at hc
  cases hcell : c.heap[a]? with
  | none =>
    rw [hcell] at hc
    cases hc
  | some current =>
    simp only [hcell] at hc
    have hdrop : (Thread.registered v a).step (c.counters atomic gcFloor) false =
        some (c.counters atomic gcFloor, .release .drop v a) := rfl
    have hread : (Thread.release .drop v a).step (c.counters atomic gcFloor) false =
        some (c.counters atomic gcFloor, .releaseCas .drop v a current) := by
      simp only [Thread.step, counters, hcell, Option.map_some]
    split at hc
    · rename_i habove
      cases hc
      have hcas : (Thread.releaseCas .drop v a current).step (c.counters atomic gcFloor) false =
          some (({ c with heap := c.heap.set a current.pred } : CounterCells).counters
            atomic gcFloor, .done) := by
        simp only [Thread.step, habove, Counters.compareExchangeWeak, counters, hcell, and_self,
          ↓reduceIte, Exit.afterRelease]
      refine ⟨3, ?_⟩
      rw [Thread.alone_succ hdrop, Thread.alone_succ hread, Thread.alone_succ hcas]
      rfl
    · split at hc
      · rename_i habove hone
        cases hc
        subst hone
        have hcas : (Thread.releaseCas .drop v a (.count 1)).step (c.counters atomic gcFloor)
            false = some (({ c with heap := c.heap.set a .tombstone } : CounterCells).counters
              atomic gcFloor, .remove v a) := by
          simp only [Thread.step, habove, Bool.false_eq_true, Counters.compareExchangeWeak,
            counters, hcell, and_self, ↓reduceIte, Exit.afterRelease]
        refine ⟨4, ?_⟩
        rw [Thread.alone_succ hdrop, Thread.alone_succ hread, Thread.alone_succ hcas]
        rfl
      · cases hc

end CounterCells

end StupidKv
