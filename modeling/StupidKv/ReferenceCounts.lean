import StupidKv.Counters

namespace StupidKv
open Std Processes
set_option autoImplicit true

/-- How many threads have counted themselves on the cell `a`. -/
def holderCount (ts : List Thread) (a : Nat) : Nat := ts.countP fun t => t.holds.any (·.2 == a)

/-- The counter map is exact: every count is the number of its holders, all of which find their
cell in the map, and a buried cell waits in the map for the one thread that buried it. -/
structure Exact (c : Counters) (ts : List Thread) : Prop where
  allocated : ∀ (v a : Nat), c.map[v]? = some a → a < c.heap.length
  injective : ∀ (v w a : Nat), c.map[v]? = some a → c.map[w]? = some a → v = w
  held : ∀ i v a, look ts Thread.holds i = some (v, a) → c.map[v]? = some a ∧
    c.heap[a]? ≠ some .tombstone
  counted : ∀ (a n : Nat), c.heap[a]? = some (.count n) → n = holderCount ts a
  buried : ∀ i v a, look ts Thread.removes i = some (v, a) → c.map[v]? = some a ∧
    c.heap[a]? = some .tombstone
  sole : ∀ i j v a b, look ts Thread.removes i = some (v, a) →
    look ts Thread.removes j = some (v, b) → i = j
  mourned : ∀ (v a : Nat), c.map[v]? = some a → c.heap[a]? = some .tombstone →
    ∃ i, look ts Thread.removes i = some (v, a)
  referred : ∀ i v a, look ts Thread.refers i = some (v, a) →
    c.map[v]? = some a ∨ c.heap[a]? = some .tombstone
  awaited : ∀ (v a : Nat), c.map[v]? = some a → c.heap[a]? = some (.count 0) →
    ∃ i, look ts Thread.refers i = some (v, a)

theorem holderCount_set {ts : List Thread} {t : Thread} {i : Nat} (hi : ts[i]? = some t)
    (t' : Thread) (a : Nat) :
    holderCount (ts.set i t') a + (if t.holds.any (·.2 == a) then 1 else 0) =
      holderCount ts a + if t'.holds.any (·.2 == a) then 1 else 0 := by
  obtain ⟨hlt, rfl⟩ := List.getElem?_eq_some_iff.1 hi
  unfold holderCount
  rw [List.countP_set hlt]
  have hpos : (if ts[i].holds.any (·.2 == a) then 1 else 0) ≤
      ts.countP fun t => t.holds.any (·.2 == a) := by
    split
    · rename_i h
      exact List.countP_pos_iff.2 ⟨_, List.getElem_mem hlt, h⟩
    · exact Nat.zero_le _
  omega

theorem holderCount_set_same {ts : List Thread} {t t' : Thread} {i : Nat} (hi : ts[i]? = some t)
    (h : t'.holds = t.holds) (a : Nat) : holderCount (ts.set i t') a = holderCount ts a := by
  have := holderCount_set hi t' a
  rw [h] at this
  omega

theorem holderCount_pos {ts : List Thread} (h : look ts Thread.holds i = some (v, a)) :
    0 < holderCount ts a := by
  obtain ⟨t, ht, hh⟩ := look_eq_some.1 h
  exact List.countP_pos_iff.2 ⟨t, List.mem_of_getElem? ht, by simp [hh]⟩

namespace Exact
variable {c : Counters} {ts : List Thread} {t t' : Thread} {i : Nat}

theorem cell (h : Exact c ts) (hi : look ts Thread.holds i = some (v, a)) :
    c.map[v]? = some a ∧ c.heap[a]? = some (.count (holderCount ts a)) := by
  obtain ⟨hm, hn⟩ := h.held i v a hi
  refine ⟨hm, ?_⟩
  have hlt := h.allocated v a hm
  rw [List.getElem?_eq_getElem hlt] at hn ⊢
  cases hc : c.heap[a] with
  | count n =>
    rw [h.counted a n (by rw [List.getElem?_eq_getElem hlt, hc])]
  | tombstone => exact absurd (by rw [hc]) hn

theorem new (atomic : Nat) (gcFloor : Option Nat) : Exact (.new atomic gcFloor) [] := by
  constructor <;> simp [Counters.new, look]

theorem spawn (h : Exact c ts) : Exact c (ts ++ [.load]) := by
  have hlook : ∀ f : Thread → Option (Nat × Nat), f .load = none → ∀ j,
      look (ts ++ [.load]) f j = look ts f j := fun f hf j => look_concat hf j
  have hcount : ∀ a, holderCount (ts ++ [.load]) a = holderCount ts a := by
    intro a
    simp [holderCount, Thread.holds]
  constructor
  case allocated => exact h.allocated
  case injective => exact h.injective
  all_goals
    simp only [hlook Thread.holds rfl, hlook Thread.removes rfl, hlook Thread.refers rfl, hcount]
  · exact h.held
  · exact h.counted
  · exact h.buried
  · exact h.sole
  · exact h.mourned
  · exact h.referred
  · exact h.awaited

theorem frame {c' : Counters} (h : Exact c ts) (hh : c'.heap = c.heap) (hm : c'.map = c.map) :
    Exact c' ts := by
  cases c
  cases c'
  cases hh
  cases hm
  exact ⟨h.allocated, h.injective, h.held, h.counted, h.buried, h.sole, h.mourned, h.referred,
    h.awaited⟩

/-- A step that neither counts nor removes. What a thread comes to refer to is in the map, and it
lets go only of a buried cell. -/
theorem quiet (h : Exact c ts) (hi : ts[i]? = some t) (hh : t'.holds = t.holds)
    (hr : t'.removes = t.removes)
    (hf : ∀ v a, t'.refers = some (v, a) → t.refers = some (v, a) ∨ c.map[v]? = some a)
    (hl : ∀ v a, t.refers = some (v, a) → t'.refers = some (v, a) ∨
      c.heap[a]? = some .tombstone) : Exact c (ts.set i t') where
  allocated := h.allocated
  injective := h.injective
  held := by
    simp only [look_set_same hi hh]
    exact h.held
  counted := by
    simp only [holderCount_set_same hi hh]
    exact h.counted
  buried := by
    simp only [look_set_same hi hr]
    exact h.buried
  sole := by
    simp only [look_set_same hi hr]
    exact h.sole
  mourned := by
    simp only [look_set_same hi hr]
    exact h.mourned
  referred := by
    intro j v a hj
    rw [look_set hi] at hj
    split at hj
    · rcases hf v a hj with hj | hj
      · exact h.referred i v a ((look_of_getElem? hi).trans hj)
      · exact .inl hj
    · exact h.referred j v a hj
  awaited := by
    intro v a hv ha
    obtain ⟨j, hj⟩ := h.awaited v a hv ha
    by_cases hij : i = j
    · subst hij
      rw [look_of_getElem? hi] at hj
      rcases hl v a hj with hj | hj
      · exact ⟨i, (look_set hi t' i).trans ((if_pos rfl).trans hj)⟩
      · rw [ha] at hj
        cases hj
    · exact ⟨j, (look_set hi t' j).trans ((if_neg hij).trans hj)⟩

theorem alloc (h : Exact c ts) (hi : ts[i]? = some (.slot v)) (hv : c.map[v]? = none) :
    Exact { c with heap := c.heap ++ [.count 0], map := c.map.insert v c.heap.length }
      (ts.set i (.read v c.heap.length)) := by
  have hmap : ∀ {w a : Nat}, (c.map.insert v c.heap.length)[w]? = some a →
      w = v ∧ a = c.heap.length ∨ c.map[w]? = some a ∧ a < c.heap.length := by
    intro w a hw
    rw [ExtTreeMap.getElem?_insert] at hw
    split at hw
    · rename_i he
      cases hw
      exact .inl ⟨(Nat.compare_eq_eq.1 he).symm, rfl⟩
    · exact .inr ⟨hw, h.allocated w a hw⟩
  have hkeep : ∀ {w a : Nat}, c.map[w]? = some a → (c.map.insert v c.heap.length)[w]? = some a := by
    intro w a hw
    rw [ExtTreeMap.getElem?_insert, if_neg, hw]
    intro he
    rw [Nat.compare_eq_eq.1 he, hw] at hv
    cases hv
  have hheap : ∀ {a : Nat}, a < c.heap.length → (c.heap ++ [.count 0])[a]? = c.heap[a]? :=
    fun ha => List.getElem?_append_left ha
  have htomb : ∀ {a : Nat}, (c.heap ++ [.count 0])[a]? = some .tombstone ↔
      c.heap[a]? = some .tombstone := by
    intro a
    rw [List.getElem?_append]
    split
    · rfl
    · rename_i hlt
      rw [List.getElem?_eq_none (Nat.not_lt.1 hlt)]
      cases a - c.heap.length <;> simp
  have hholds : ∀ j, look (ts.set i (.read v c.heap.length)) Thread.holds j =
      look ts Thread.holds j := look_set_same hi rfl
  have hremoves : ∀ j, look (ts.set i (.read v c.heap.length)) Thread.removes j =
      look ts Thread.removes j := look_set_same hi rfl
  have hcount : ∀ a, holderCount (ts.set i (.read v c.heap.length)) a = holderCount ts a :=
    holderCount_set_same hi rfl
  exact {
    allocated := by
      intro w a hw
      rw [List.length_append]
      rcases hmap hw with ⟨-, rfl⟩ | ⟨-, hlt⟩
      · exact Nat.lt_succ_self _
      · exact Nat.lt_succ_of_lt hlt
    injective := by
      intro w w' a hw hw'
      rcases hmap hw with ⟨rfl, rfl⟩ | ⟨hw, hlt⟩
      · rcases hmap hw' with ⟨rfl, -⟩ | ⟨-, hlt⟩
        · rfl
        · exact absurd hlt (Nat.lt_irrefl _)
      · rcases hmap hw' with ⟨-, rfl⟩ | ⟨hw', -⟩
        · exact absurd hlt (Nat.lt_irrefl _)
        · exact h.injective w w' a hw hw'
    held := by
      intro j w a hj
      rw [hholds] at hj
      obtain ⟨hw, hn⟩ := h.held j w a hj
      exact ⟨hkeep hw, fun ht => hn (htomb.1 ht)⟩
    counted := by
      intro a n ha
      rw [hcount]
      rw [List.getElem?_append] at ha
      split at ha
      · exact h.counted a n ha
      · rename_i hlt
        have hn : n = 0 := by
          cases he : a - c.heap.length with
          | zero =>
            rw [he] at ha
            cases ha
            rfl
          | succ k =>
            rw [he] at ha
            cases ha
        rw [hn, eq_comm, holderCount, List.countP_eq_zero]
        intro t ht hh
        obtain ⟨j, hj⟩ := List.mem_iff_getElem?.1 ht
        obtain ⟨⟨w, b⟩, hw, hb⟩ := (Option.any_eq_true _ _).1 hh
        have hb : b = a := by simpa using hb
        have hw := h.allocated w b (h.held j w b ((look_of_getElem? hj).trans hw)).1
        exact hlt (hb ▸ hw)
    buried := by
      intro j w a hj
      rw [hremoves] at hj
      obtain ⟨hw, ha⟩ := h.buried j w a hj
      exact ⟨hkeep hw, htomb.2 ha⟩
    sole := by
      intro j k w a b hj hk
      rw [hremoves] at hj hk
      exact h.sole j k w a b hj hk
    mourned := by
      intro w a hw ha
      rcases hmap hw with ⟨rfl, rfl⟩ | ⟨hw, -⟩
      · simp at ha
      · obtain ⟨j, hj⟩ := h.mourned w a hw (htomb.1 ha)
        exact ⟨j, (hremoves j).trans hj⟩
    referred := by
      intro j w a hj
      rw [look_set hi] at hj
      split at hj
      · cases hj
        exact .inl (by simp)
      · rcases h.referred j w a hj with hw | ha
        · exact .inl (hkeep hw)
        · exact .inr (htomb.2 ha)
    awaited := by
      intro w a hw ha
      rcases hmap hw with ⟨rfl, rfl⟩ | ⟨hw, hlt⟩
      · exact ⟨i, (look_set hi _ i).trans (if_pos rfl)⟩
      · obtain ⟨j, hj⟩ := h.awaited w a hw ((hheap hlt).symm.trans ha)
        have hij : i ≠ j := by
          rintro rfl
          rw [look_of_getElem? hi] at hj
          cases hj
        exact ⟨j, (look_set hi _ j).trans ((if_neg hij).trans hj)⟩ }

theorem recount (h : Exact c ts) (hi : ts[i]? = some t) (hm : c.map[v]? = some a)
    (hc : c.heap[a]? = some (.count n)) (hh : ∀ w b, t'.holds = some (w, b) → w = v ∧ b = a)
    (hr : t.removes = none) (hr' : t'.removes = none)
    (hf : ∀ w b, t.refers = some (w, b) → b = a) (hf' : t'.refers = none)
    (hcount : holderCount (ts.set i t') a = m + 1)
    (hother : ∀ b, b ≠ a → holderCount (ts.set i t') b = holderCount ts b) :
    Exact { c with heap := c.heap.set a (.count (m + 1)) } (ts.set i t') := by
  have hlt := h.allocated v a hm
  have hheap : ∀ b : Nat, (c.heap.set a (.count (m + 1)))[b]? =
      if a = b then some (.count (m + 1)) else c.heap[b]? := by
    intro b
    rw [List.getElem?_set, if_pos hlt]
  have htomb : ∀ b : Nat, (c.heap.set a (.count (m + 1)))[b]? = some .tombstone ↔
      c.heap[b]? = some .tombstone := by
    intro b
    rw [hheap]
    split
    · rename_i hab
      rw [← hab, hc]
      simp
    · rfl
  have hremoves : ∀ j, look (ts.set i t') Thread.removes j = look ts Thread.removes j :=
    look_set_same hi (hr'.trans hr.symm)
  exact {
    allocated := by
      intro w b hw
      rw [List.length_set]
      exact h.allocated w b hw
    injective := h.injective
    held := by
      intro j w b hj
      rw [look_set hi] at hj
      rw [ne_eq, htomb]
      split at hj
      · obtain ⟨rfl, rfl⟩ := hh w b hj
        exact ⟨hm, by simp [hc]⟩
      · exact h.held j w b hj
    counted := by
      intro b k hb
      rw [hheap] at hb
      split at hb
      · rename_i hab
        cases hb
        rw [← hab, hcount]
      · rename_i hab
        rw [hother b (Ne.symm hab)]
        exact h.counted b k hb
    buried := by
      intro j w b hj
      rw [hremoves] at hj
      obtain ⟨hw, hb⟩ := h.buried j w b hj
      exact ⟨hw, (htomb b).2 hb⟩
    sole := by
      intro j k w b b' hj hk
      rw [hremoves] at hj hk
      exact h.sole j k w b b' hj hk
    mourned := by
      intro w b hw hb
      obtain ⟨j, hj⟩ := h.mourned w b hw ((htomb b).1 hb)
      exact ⟨j, (hremoves j).trans hj⟩
    referred := by
      intro j w b hj
      rw [look_set hi] at hj
      split at hj
      · rw [hf'] at hj
        cases hj
      · rw [htomb]
        exact h.referred j w b hj
    awaited := by
      intro w b hw hb
      rw [hheap] at hb
      split at hb
      · cases hb
      · rename_i hab
        obtain ⟨j, hj⟩ := h.awaited w b hw hb
        have hij : i ≠ j := by
          rintro rfl
          rw [look_of_getElem? hi] at hj
          exact hab (hf w b hj).symm
        exact ⟨j, (look_set hi t' j).trans ((if_neg hij).trans hj)⟩ }

/-- The last holder buries the cell and becomes the one thread that removes it. -/
theorem bury (h : Exact c ts) (hi : ts[i]? = some t) (hh : t.holds = some (v, a))
    (hc : c.heap[a]? = some (.count 1)) (hh' : t'.holds = none) (hr : t.removes = none)
    (hr' : t'.removes = some (v, a)) (hf : t.refers = none) (hf' : t'.refers = none) :
    Exact { c with heap := c.heap.set a .tombstone } (ts.set i t') := by
  have hhold : look ts Thread.holds i = some (v, a) := (look_of_getElem? hi).trans hh
  have hm := (h.held i v a hhold).1
  have hlt := h.allocated v a hm
  have hheap : ∀ b : Nat, (c.heap.set a .tombstone)[b]? =
      if a = b then some .tombstone else c.heap[b]? := by
    intro b
    rw [List.getElem?_set, if_pos hlt]
  have hset := holderCount_set hi t'
  have hzero : holderCount (ts.set i t') a = 0 := by
    have := hset a
    rw [← h.counted a 1 hc] at this
    simp [hh, hh'] at this
    omega
  have hother : ∀ b, b ≠ a → holderCount (ts.set i t') b = holderCount ts b := by
    intro b hb
    have := hset b
    simpa [hh, hh', Ne.symm hb] using this
  have hrefers : ∀ j, look (ts.set i t') Thread.refers j = look ts Thread.refers j :=
    look_set_same hi (hf'.trans hf.symm)
  have hbury : look (ts.set i t') Thread.removes i = some (v, a) :=
    (look_set hi t' i).trans ((if_pos rfl).trans hr')
  exact {
    allocated := by
      intro w b hw
      rw [List.length_set]
      exact h.allocated w b hw
    injective := h.injective
    held := by
      intro j w b hj
      have hpos := holderCount_pos hj
      rw [look_set hi] at hj
      split at hj
      · rw [hh'] at hj
        cases hj
      · obtain ⟨hw, hn⟩ := h.held j w b hj
        refine ⟨hw, ?_⟩
        rw [ne_eq, hheap]
        split
        · rename_i hab
          rw [← hab, hzero] at hpos
          exact absurd hpos (Nat.lt_irrefl 0)
        · exact hn
    counted := by
      intro b k hb
      rw [hheap] at hb
      split at hb
      · cases hb
      · rename_i hab
        rw [hother b (Ne.symm hab)]
        exact h.counted b k hb
    buried := by
      intro j w b hj
      rw [look_set hi] at hj
      rw [hheap]
      split at hj
      · rw [hr'] at hj
        cases hj
        exact ⟨hm, if_pos rfl⟩
      · obtain ⟨hw, hb⟩ := h.buried j w b hj
        refine ⟨hw, ?_⟩
        split
        · rfl
        · exact hb
    sole := by
      -- Nobody could remove the key before: its cell was still counted.
      have hnone : ∀ j b, look ts Thread.removes j ≠ some (v, b) := by
        intro j b hj
        obtain ⟨hw, hb⟩ := h.buried j v b hj
        rw [hm] at hw
        cases hw
        rw [hc] at hb
        cases hb
      intro j k w b b' hj hk
      rw [look_set hi] at hj hk
      split at hj
      · rename_i hij
        rw [hr'] at hj
        cases hj
        split at hk
        · rename_i hik
          exact hij.symm.trans hik
        · exact absurd hk (hnone k b')
      · split at hk
        · rw [hr'] at hk
          cases hk
          exact absurd hj (hnone j b)
        · exact h.sole j k w b b' hj hk
    mourned := by
      intro w b hw hb
      rw [hheap] at hb
      split at hb
      · rename_i hab
        subst hab
        rw [h.injective w v a hw hm]
        exact ⟨i, hbury⟩
      · obtain ⟨j, hj⟩ := h.mourned w b hw hb
        have hij : i ≠ j := by
          rintro rfl
          rw [look_of_getElem? hi, hr] at hj
          cases hj
        exact ⟨j, (look_set hi t' j).trans ((if_neg hij).trans hj)⟩
    referred := by
      intro j w b hj
      rw [hrefers] at hj
      rw [hheap]
      split
      · exact .inr rfl
      · exact h.referred j w b hj
    awaited := by
      intro w b hw hb
      rw [hheap] at hb
      split at hb
      · cases hb
      · obtain ⟨j, hj⟩ := h.awaited w b hw hb
        exact ⟨j, (hrefers j).trans hj⟩ }

theorem erase (h : Exact c ts) (hi : ts[i]? = some t) (hr : t.removes = some (v, a))
    (hh : t.holds = none) (hf : t.refers = none) (hr' : t'.removes = none) (hh' : t'.holds = none)
    (hf' : t'.refers = none) : Exact { c with map := c.map.erase v } (ts.set i t') := by
  have hremove : look ts Thread.removes i = some (v, a) := (look_of_getElem? hi).trans hr
  obtain ⟨hm, ha⟩ := h.buried i v a hremove
  have hmap : ∀ {w b : Nat}, (c.map.erase v)[w]? = some b → w ≠ v ∧ c.map[w]? = some b := by
    intro w b hw
    rw [ExtTreeMap.getElem?_erase] at hw
    split at hw
    · cases hw
    · rename_i hne
      exact ⟨fun he => hne (Nat.compare_eq_eq.2 he.symm), hw⟩
  have hkeep : ∀ {w b : Nat}, w ≠ v → c.map[w]? = some b → (c.map.erase v)[w]? = some b := by
    intro w b hne hw
    rw [ExtTreeMap.getElem?_erase, if_neg, hw]
    exact fun he => hne (Nat.compare_eq_eq.1 he).symm
  have hholds : ∀ j, look (ts.set i t') Thread.holds j = look ts Thread.holds j :=
    look_set_same hi (hh'.trans hh.symm)
  have hrefers : ∀ j, look (ts.set i t') Thread.refers j = look ts Thread.refers j :=
    look_set_same hi (hf'.trans hf.symm)
  exact {
    allocated := fun w b hw => h.allocated w b (hmap hw).2
    injective := fun w w' b hw hw' => h.injective w w' b (hmap hw).2 (hmap hw').2
    held := by
      intro j w b hj
      rw [hholds] at hj
      obtain ⟨hw, hn⟩ := h.held j w b hj
      refine ⟨hkeep ?_ hw, hn⟩
      rintro rfl
      rw [hm] at hw
      cases hw
      exact hn ha
    counted := by
      intro b n hb
      rw [holderCount_set_same hi (hh'.trans hh.symm)]
      exact h.counted b n hb
    buried := by
      intro j w b hj
      rw [look_set hi] at hj
      split at hj
      · rw [hr'] at hj
        cases hj
      · rename_i hij
        obtain ⟨hw, hb⟩ := h.buried j w b hj
        refine ⟨hkeep ?_ hw, hb⟩
        rintro rfl
        exact hij (h.sole i j w a b hremove hj)
    sole := by
      intro j k w b b' hj hk
      rw [look_set hi] at hj hk
      split at hj
      · rw [hr'] at hj
        cases hj
      · split at hk
        · rw [hr'] at hk
          cases hk
        · exact h.sole j k w b b' hj hk
    mourned := by
      intro w b hw hb
      obtain ⟨hne, hw⟩ := hmap hw
      obtain ⟨j, hj⟩ := h.mourned w b hw hb
      have hij : i ≠ j := by
        rintro rfl
        rw [hremove] at hj
        cases hj
        exact hne rfl
      exact ⟨j, (look_set hi t' j).trans ((if_neg hij).trans hj)⟩
    referred := by
      intro j w b hj
      rw [hrefers] at hj
      rcases h.referred j w b hj with hw | hb
      · by_cases hne : w = v
        · subst hne
          rw [hm] at hw
          cases hw
          exact .inr ha
        · exact .inl (hkeep hne hw)
      · exact .inr hb
    awaited := by
      intro w b hw hb
      obtain ⟨j, hj⟩ := h.awaited w b (hmap hw).2 hb
      exact ⟨j, (hrefers j).trans hj⟩ }

theorem acquire (h : Exact c ts) (hi : ts[i]? = some (.cas v a n))
    (hc : c.heap[a]? = some (.count n)) :
    Exact { c with heap := c.heap.set a (.count (n + 1)) } (ts.set i (.check v a)) := by
  have hm : c.map[v]? = some a := by
    rcases h.referred i v a (look_of_getElem? hi) with hm | ht
    · exact hm
    · rw [hc] at ht
      cases ht
  have hset := holderCount_set hi (.check v a)
  refine h.recount hi hm hc ?_ rfl rfl ?_ rfl ?_ ?_
  · intro w b hh
    cases hh
    exact ⟨rfl, rfl⟩
  · intro w b hf
    cases hf
    rfl
  · have := hset a
    rw [← h.counted a n hc] at this
    simpa [Thread.holds] using this
  · intro b hb
    have := hset b
    simpa [Thread.holds, Ne.symm hb] using this

theorem giveBack (h : Exact c ts) (hi : ts[i]? = some t) (hh : t.holds = some (v, a))
    (hc : c.heap[a]? = some (.count (n + 2))) (hr : t.removes = none) (hf : t.refers = none)
    (hh' : t'.holds = none) (hr' : t'.removes = none) (hf' : t'.refers = none) :
    Exact { c with heap := c.heap.set a (.count (n + 1)) } (ts.set i t') := by
  have hm := (h.held i v a ((look_of_getElem? hi).trans hh)).1
  have hset := holderCount_set hi t'
  refine h.recount hi hm hc ?_ hr hr' ?_ hf' ?_ ?_
  · intro w b hw
    rw [hh'] at hw
    cases hw
  · intro w b hw
    rw [hf] at hw
    cases hw
  · have := hset a
    rw [← h.counted a _ hc] at this
    simp [hh, hh'] at this
    omega
  · intro b hb
    have := hset b
    simpa [hh, hh', Ne.symm hb] using this

theorem releaseCas {current : Counter} (h : Exact c ts)
    (hi : ts[i]? = some (.releaseCas exit v a current))
    (hs : (Thread.releaseCas exit v a current).step c spurious = some (c', t')) :
    Exact c' (ts.set i t') := by
  have hcell := (h.cell (v := v) (a := a) (look_of_getElem? hi)).2
  have hretry : Exact c (ts.set i (.release exit v a)) :=
    h.quiet hi rfl rfl (by simp [Thread.refers]) (by simp [Thread.refers])
  simp only [Thread.step] at hs
  split at hs
  · rename_i habove
    split at hs
    · rename_i c₁ hcas
      obtain ⟨hcur, rfl⟩ := Counters.compareExchangeWeak_some hcas
      cases hs
      -- The holder reads its own count, so what it lowers is no tombstone.
      obtain rfl : current = .count (holderCount ts a) := Option.some.inj (hcur.symm.trans hcell)
      obtain ⟨n, hn⟩ : ∃ n, holderCount ts a = n + 2 :=
        ⟨holderCount ts a - 2, by simp [Counter.aboveOne] at habove; omega⟩
      rw [hn] at hcell
      simp only [hn, Counter.pred]
      cases exit <;> exact h.giveBack hi rfl hcell rfl rfl rfl rfl rfl
    · cases hs
      exact hretry
  · split at hs
    · rename_i c₁ hcas
      obtain ⟨hcur, rfl⟩ := Counters.compareExchangeWeak_some hcas
      cases hs
      cases exit <;> exact h.bury hi rfl hcur rfl rfl rfl rfl rfl
    · cases hs
      exact hretry

theorem step (h : Exact c ts) (hi : ts[i]? = some t)
    (hs : t.step c spurious = some (c', t')) : Exact c' (ts.set i t') := by
  cases t with
  | load =>
    cases hs
    exact h.quiet hi rfl rfl (by simp [Thread.refers]) (by simp [Thread.refers])
  | slot v =>
    simp only [Thread.step] at hs
    split at hs
    · rename_i a ha
      cases hs
      refine h.quiet hi rfl rfl ?_ (by simp [Thread.refers])
      intro w b hw
      cases hw
      exact .inr ha
    · rename_i ha
      cases hs
      exact h.alloc hi ha
  | read v a =>
    simp only [Thread.step] at hs
    split at hs
    · cases hs
      exact h.quiet hi rfl rfl (fun _ _ => .inl) (fun _ _ => .inl)
    · rename_i ha
      cases hs
      refine h.quiet hi rfl rfl (by simp [Thread.refers]) ?_
      intro w b hw
      cases hw
      exact .inr ha
    · cases hs
  | cas v a current =>
    simp only [Thread.step] at hs
    split at hs
    · rename_i c₁ hcas
      obtain ⟨hcur, rfl⟩ := Counters.compareExchangeWeak_some hcas
      cases hs
      exact h.acquire hi hcur
    · cases hs
      exact h.quiet hi rfl rfl (fun _ _ => .inl) (fun _ _ => .inl)
  | check v a =>
    simp only [Thread.step] at hs
    split at hs
    · cases hs
      exact h.quiet hi rfl rfl (by simp [Thread.refers]) (by simp [Thread.refers])
    · cases hs
      split <;> exact h.quiet hi rfl rfl (by simp [Thread.refers]) (by simp [Thread.refers])
  | floor v a stable =>
    obtain ⟨f, -, hs⟩ := Option.map_eq_some_iff.1 hs
    cases hs
    split <;> exact h.quiet hi rfl rfl (by simp [Thread.refers]) (by simp [Thread.refers])
  | registered v a =>
    cases hs
    exact h.quiet hi rfl rfl (by simp [Thread.refers]) (by simp [Thread.refers])
  | release exit v a =>
    obtain ⟨current, -, hs⟩ := Option.map_eq_some_iff.1 hs
    cases hs
    exact h.quiet hi rfl rfl (by simp [Thread.refers]) (by simp [Thread.refers])
  | releaseCas exit v a current => exact h.releaseCas hi hs
  | unlink v a =>
    cases hs
    rw [if_pos (h.buried i v a (look_of_getElem? hi)).1]
    exact h.quiet hi rfl rfl (by simp [Thread.refers]) (by simp [Thread.refers])
  | unlinkEntry v a =>
    cases hs
    rw [if_pos (h.buried i v a (look_of_getElem? hi)).1]
    exact h.erase hi rfl rfl rfl rfl rfl rfl
  | remove v a =>
    cases hs
    exact h.erase hi rfl rfl rfl rfl rfl rfl
  | done => cases hs

/-- A scan never passes a registered transaction it has not met yet. -/
theorem scan (h : Exact c ts) (hi : look ts Thread.snapshot i = some v)
    (hv : cursor.all (· < v) = true) :
    (∀ k, c.scan cursor = .skip k → k < v) ∧ (∀ k, c.scan cursor = .found k → k ≤ v) ∧
      c.scan cursor ≠ .finished := by
  obtain ⟨t, ht, hsnap⟩ := look_eq_some.1 hi
  obtain ⟨a, hhold⟩ := Thread.holds_of_snapshot hsnap
  have hlook : look ts Thread.holds i = some (v, a) := (look_of_getElem? ht).trans hhold
  obtain ⟨hm, hc⟩ := h.cell hlook
  have hactive : c.heap[a]?.any Counter.active = true := by
    simpa [hc, Counter.active] using (holderCount_pos hlook).ne'
  have hmem := ExtTreeMap.mem_toList_iff_getElem?_eq_some.2 hm
  unfold Counters.scan
  cases hf : c.map.toList.find? fun e => cursor.all (· < e.1) with
  | none =>
    have hn := List.find?_eq_none.1 hf (v, a) hmem
    exact absurd hv hn
  | some e =>
    obtain ⟨-, l₁, l₂, hl, hskip⟩ := List.find?_eq_some_iff_append.1 hf
    have hsorted := SkipMap.sorted_toList c.map
    rw [hl] at hmem hsorted
    have hle : e = (v, a) ∨ e.1 < v := by
      rcases List.mem_append.1 hmem with hmem | hmem
      · have := hskip _ hmem
        simp only [hv, Bool.not_true, Bool.false_eq_true] at this
      · rcases List.mem_cons.1 hmem with he | hmem
        · exact .inl he.symm
        · exact .inr ((List.pairwise_cons.1 (List.pairwise_append.1 hsorted).2.1).1 _ hmem)
    rcases hle with rfl | hlt
    · simp [hactive]
    · by_cases ha : c.heap[e.2]?.any Counter.active = true
      · simpa [ha] using hlt.le
      · simpa [ha] using hlt

end Exact

namespace Thread
variable {c c' : Counters} {t t' : Thread}

theorem step_frame (h : t.step c spurious = some (c', t')) :
    c'.atomic = c.atomic ∧ c'.gcFloor = c.gcFloor := by
  cases t <;>
    grind [Thread.step, Counters.compareExchangeWeak, Option.map_eq_some_iff]

/-- A registration completes on the current value of the atomic, or at or above the floor. -/
theorem step_snapshot (h : t.step c spurious = some (c', t')) (hv : t'.snapshot = some v) :
    t.snapshot = some v ∨ c.gcFloor = none ∧ c.atomic = v ∨ ∃ f, c.gcFloor = some f ∧ f ≤ v := by
  cases t with
  | release exit v a =>
    cases exit <;> grind [Thread.step, Thread.snapshot, Option.map_eq_some_iff]
  | releaseCas exit v a current =>
    cases exit <;> grind [Thread.step, Thread.snapshot, Exit.afterRelease]
  | _ => grind [Thread.step, Thread.snapshot, Option.map_eq_some_iff]

end Thread

end StupidKv
