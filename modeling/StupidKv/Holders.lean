import StupidKv.Inner

namespace StupidKv
open Std
set_option autoImplicit true

/-- The map stores, for every key held at all, how many live transactions hold it. -/
def Holds (map : SkipMap Nat Counter) (holders : Nat → Nat) : Prop :=
  ∀ v, map[v]? = if holders v = 0 then none else some (.count (holders v))

theorem Holds.empty : Holds ∅ fun _ => 0 := by
  intro v
  simp

theorem Holds.congr (h : Holds map f) (he : ∀ v, f v = g v) : Holds map g := by
  rwa [← funext he]

theorem Holds.held (h : Holds map f) (hv : 0 < f v) : map[v]? = some (.count (f v)) := by
  rw [h v, if_neg (Nat.ne_of_gt hv)]

theorem Holds.register (h : Holds map f) (v : Nat) (gcFloor : Option Nat)
    (hf : gcFloor.all (· ≤ v) = true) :
    ∃ map', registerCounter map v gcFloor = some map' ∧
      Holds map' fun u => f u + if u = v then 1 else 0 := by
  have hg : map[v]?.getD (.count 0) = .count (f v) := by
    rw [h v]
    split
    · rename_i h0
      rw [h0]
      rfl
    · rfl
  refine ⟨map.insert v (.count (f v + 1)), by simp [registerCounter, hg, hf], fun u => ?_⟩
  rw [ExtTreeMap.getElem?_insert]
  by_cases hu : v = u
  · subst hu
    simp
  · have hu' : u ≠ v := fun he => hu he.symm
    simpa [hu, hu'] using h u

/-- The last holder takes the entry away. -/
theorem Holds.release (h : Holds map f) (hv : 0 < f v) :
    Holds (releaseCounter map v) fun u => f u - if u = v then 1 else 0 := by
  intro u
  rw [releaseCounter, ExtTreeMap.getElem?_alter]
  by_cases hu : v = u
  · subst hu
    rw [if_pos (by simp), h.held hv]
    rcases hn : f v with _ | _ | n
    · omega
    · simp [hn]
    · simp [hn]
  · have hu' : u ≠ v := fun he => hu he.symm
    simpa [hu, hu'] using h u

theorem earliestActive_le {map : SkipMap Nat Counter} (h : map[v]? = some c) (hc : c.active = true)
    (fallback : Nat) : earliestActive map fallback ≤ v := by
  have hm : (v, c) ∈ map.toList := ExtTreeMap.mem_toList_iff_getElem?_eq_some.2 h
  have hs := SkipMap.sorted_toList map
  unfold earliestActive
  split
  · rename_i e he
    obtain ⟨_, as, bs, hl, hn⟩ := List.find?_eq_some_iff_append.1 he
    rw [hl] at hm hs
    rcases List.mem_append.1 hm with ha | ha
    · simpa [hc] using hn _ ha
    · rcases List.mem_cons.1 ha with rfl | ha
      · exact le_rfl
      · exact ((List.pairwise_cons.1 (List.pairwise_append.1 hs).2.1).1 _ ha).le
  · rename_i he
    simpa [hc] using List.find?_eq_none.1 he _ hm

theorem Holds.earliestActive_le (h : Holds map f) (hv : 0 < f v) (fallback : Nat) :
    earliestActive map fallback ≤ v := by
  refine StupidKv.earliestActive_le (h.held hv) ?_ fallback
  simp [Counter.active]
  omega

end StupidKv
