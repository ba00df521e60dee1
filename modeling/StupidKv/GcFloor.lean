import StupidKv.VersionGc

namespace StupidKv
open Std Processes
set_option autoImplicit true

namespace VersionGc

/-- The floor stays at or below the version a new transaction loads. -/
def FloorBelow (s : VersionGc) : Prop :=
  ∃ floor, s.counters.gcFloor = some floor ∧ floor ≤ s.counters.atomic

/-- No counter of the map is a tombstone that waits for its removal. -/
def NoTombstone (s : VersionGc) : Prop :=
  ∀ e ∈ s.counters.map.toList, s.counters.heap[e.2]? ≠ some .tombstone

instance (s : VersionGc) : Decidable s.NoTombstone :=
  inferInstanceAs (Decidable (∀ e ∈ s.counters.map.toList, _))

/-- Only thread `i` moves, until its `register_counter` returns. The list says which weak exchanges
fail for no reason; a turn of the outer loop begins with the load of the atomic. -/
def runAlone (i : Nat) (s : VersionGc) (turns : Nat) : List Bool → Option (VersionGc × Nat)
  | [] => some (s, turns)
  | spurious :: rest =>
    match s.threads[i]? with
    | some (.registered _ _) => some (s, turns)
    | t => (s.step (.thread i spurious)).bind fun s' =>
      runAlone i s' (if t = some .load then turns + 1 else turns) rest

/-- A call of `register_counter` that nobody disturbs never begins a second turn, and returns the
timestamp once its weak exchange succeeds: each failure costs it two steps. -/
def Unblocked (s : VersionGc) : Prop :=
  ∀ spurious : List Bool, ∃ s' turns,
    runAlone s.threads.length { s with threads := s.threads ++ [.load] } 0 spurious =
        some (s', turns) ∧ turns ≤ 1 ∧
      (6 + 2 * spurious.count true ≤ spurious.length →
        turns = 1 ∧ ∃ a, s'.threads[s.threads.length]? = some (.registered s.counters.atomic a))

end VersionGc

/-- A watermark on its way to publication was capped by the atomic. -/
def CleanupTs.Capped (timestamp : Nat) : CleanupTs → Prop
  | .publish _ proposed => proposed ≤ timestamp
  | _ => True

theorem CleanupTs.Capped.mono (h : CleanupTs.Capped u call) (hu : u ≤ v) :
    CleanupTs.Capped v call := by
  cases call with
  | publish now proposed => exact Nat.le_trans h hu
  | _ => trivial

namespace VersionGc

structure Capped (s : VersionGc) : Prop where
  floor : s.FloorBelow
  calls : ∀ call ∈ s.calls, call.Capped s.counters.atomic

theorem Capped.new (timestamp : Nat) : (VersionGc.new timestamp).Capped where
  floor := ⟨0, rfl, Nat.zero_le _⟩
  calls := by simp [VersionGc.new]

section
variable {s s' : VersionGc}

theorem Capped.put (h : s.Capped) (hc : call.Capped s.counters.atomic) (i : Nat) :
    ({ s with calls := s.calls.set i call } : VersionGc).Capped := by
  refine ⟨h.floor, ?_⟩
  intro x hx
  rcases List.mem_or_eq_of_mem_set hx with hx | rfl
  · exact h.calls x hx
  · exact hc

theorem Capped.callStep (h : s.Capped) (hi : s.calls[i]? = some call)
    (hs : s.callStep i call = some s') : s'.Capped := by
  cases call with
  | scanFirst now cursor =>
    cases hs
    apply h.put
    split <;> trivial
  | loadOracle now earliestTx =>
    cases hs
    apply h.put
    exact Nat.min_le_right _ _
  | publish now proposed =>
    cases hs
    obtain ⟨floor, hf, hle⟩ := h.floor
    have hp : proposed ≤ s.counters.atomic := h.calls _ (List.mem_of_getElem? hi)
    refine ⟨⟨max floor proposed, by simp [hf], Nat.max_le.2 ⟨hle, hp⟩⟩, ?_⟩
    have hnext : CleanupTs.Capped s.counters.atomic (.scanAfter now proposed none) := trivial
    exact (h.put hnext i).calls
  | scanAfter now proposed cursor =>
    cases hs
    apply h.put
    split <;> trivial
  | returned W => cases hs

theorem Capped.step (h : s.Capped) (hs : s.step a = some s') : s'.Capped := by
  cases a with
  | spawn =>
    cases hs
    exact ⟨h.floor, h.calls⟩
  | thread i spurious =>
    obtain ⟨t, ht, hs⟩ := Option.bind_eq_some_iff.1 hs
    obtain ⟨⟨c, t'⟩, hstep, hs⟩ := Option.bind_eq_some_iff.1 hs
    cases hs
    obtain ⟨hatomic, hfloor⟩ := Thread.step_frame hstep
    obtain ⟨floor, hf, hle⟩ := h.floor
    refine ⟨⟨floor, hfloor.trans hf, hle.trans hatomic.ge⟩, ?_⟩
    intro call hcall
    exact (h.calls call hcall).mono hatomic.ge
  | bump version =>
    cases hs
    obtain ⟨floor, hf, hle⟩ := h.floor
    refine ⟨⟨floor, hf, hle.trans (Nat.le_max_left _ _)⟩, ?_⟩
    intro call hcall
    exact (h.calls call hcall).mono (Nat.le_max_left _ _)
  | computeCleanupTs now =>
    cases hs
    refine ⟨h.floor, ?_⟩
    intro call hcall
    rcases List.mem_append.1 hcall with hcall | hcall
    · exact h.calls call hcall
    · rw [List.mem_singleton.1 hcall]
      trivial
  | call i =>
    obtain ⟨call, hi, hs⟩ := Option.bind_eq_some_iff.1 hs
    exact h.callStep hi hs

end

end VersionGc

/-- Where a call that nobody disturbs may stand, with the turns it has begun and the steps it still
takes when no exchange fails. -/
inductive Undisturbed (c : Counters) (v : Nat) : Thread → Nat → Nat → Prop
  | load (h : ∀ a, c.map[v]? = some a → ∃ n, c.heap[a]? = some (.count n)) :
    Undisturbed c v .load 0 6
  | slot (h : ∀ a, c.map[v]? = some a → ∃ n, c.heap[a]? = some (.count n)) :
    Undisturbed c v (.slot v) 1 5
  | read (h : c.heap[a]? = some (.count n)) : Undisturbed c v (.read v a) 1 4
  | cas (h : c.heap[a]? = some (.count n)) : Undisturbed c v (.cas v a n) 1 3
  | check : Undisturbed c v (.check v a) 1 2
  | floor : Undisturbed c v (.floor v a true) 1 1
  | registered : Undisturbed c v (.registered v a) 1 0

namespace Undisturbed
variable {c : Counters}

theorem turns_le (h : Undisturbed c v t turns left) : turns ≤ 1 := by
  cases h <;> decide

theorem returned (h : Undisturbed c v t turns 0) : turns = 1 ∧ ∃ a, t = .registered v a := by
  cases h with
  | registered => exact ⟨rfl, _, rfl⟩

/-- One step: nearer to the return by one, or by a spurious failure back to the read. -/
theorem step (h : Undisturbed c c.atomic t turns (left + 1)) (hf : c.gcFloor = some f)
    (hle : f ≤ c.atomic) (spurious : Bool) :
    ∃ c' t' left', t.step c spurious = some (c', t') ∧
      Undisturbed c' c.atomic t' (if t = .load then turns + 1 else turns) left' ∧
      left' ≤ left + if spurious then 2 else 0 := by
  cases h with
  | load hn => exact ⟨c, _, _, rfl, .slot hn, Nat.le_add_right _ _⟩
  | slot hn =>
    simp only [Thread.step]
    cases hm : c.map[c.atomic]? with
    | some a =>
      obtain ⟨n, ha⟩ := hn a hm
      exact ⟨c, _, _, rfl, .read ha, Nat.le_add_right _ _⟩
    | none => exact ⟨_, _, _, rfl, .read (n := 0) (by simp), Nat.le_add_right _ _⟩
  | read ha =>
    simp only [Thread.step, ha]
    exact ⟨c, _, _, rfl, .cas ha, Nat.le_add_right _ _⟩
  | cas ha =>
    simp only [Thread.step, Counters.compareExchangeWeak, ha, true_and]
    cases spurious with
    | false => exact ⟨_, _, _, rfl, .check, Nat.le_refl _⟩
    | true => exact ⟨c, _, _, rfl, .read ha, Nat.le_refl _⟩
  | check =>
    simp only [Thread.step, hf, beq_self_eq_true]
    exact ⟨c, _, _, rfl, .floor, Nat.le_add_right _ _⟩
  | floor =>
    simp only [Thread.step, hf, hle, Option.map_some, decide_true, Bool.and_self, ↓reduceIte]
    exact ⟨c, _, _, rfl, .registered, Nat.le_add_right _ _⟩

end Undisturbed

namespace VersionGc
variable {s : VersionGc}

/-- Induction along the run of one thread: what is left never exceeds what the failures so far cost. -/
theorem runAlone_undisturbed (spurious : List Bool) (hi : s.threads[i]? = some t)
    (hu : Undisturbed s.counters s.counters.atomic t turns left) (hb : s.FloorBelow) :
    ∃ s' turns' left' t', runAlone i s turns spurious = some (s', turns') ∧
      s'.threads[i]? = some t' ∧
      Undisturbed s'.counters s.counters.atomic t' turns' left' ∧
      left' + spurious.length ≤ max (left + 2 * spurious.count true) spurious.length := by
  induction spurious generalizing s t turns left with
  | nil => exact ⟨s, turns, left, t, rfl, hi, hu, by simp⟩
  | cons x rest ih =>
    obtain ⟨floor, hf, hle⟩ := hb
    cases left with
    | zero =>
      obtain ⟨-, a, rfl⟩ := hu.returned
      exact ⟨s, turns, 0, _, by simp only [runAlone, hi], hi, hu, by omega⟩
    | succ left =>
      obtain ⟨c, t', left', hstep, hu', hleft⟩ := hu.step hf hle x
      obtain ⟨hatomic, hfloor⟩ := Thread.step_frame hstep
      have hset := getElem?_set_at hi t'
      rw [← hatomic] at hu'
      obtain ⟨s', turns', left'', t'', hrun, ht'', hu'', hbound⟩ := ih
        (s := { s with counters := c, threads := s.threads.set i t' }) hset hu'
        ⟨floor, hfloor.trans hf, hle.trans hatomic.ge⟩
      refine ⟨s', turns', left'', t'', ?_, ht'', hatomic ▸ hu'', ?_⟩
      · have hmove : s.step (.thread i x) =
            some { s with counters := c, threads := s.threads.set i t' } := by
          simp [step, hi, hstep]
        have hreg : ∀ v a, t ≠ .registered v a := by
          rintro v a rfl
          cases hu
        simp only [runAlone, hi, hmove, Option.bind_some]
        split
        · rename_i heq
          exact absurd (Option.some.inj heq) (hreg _ _)
        · simpa only [Option.some.injEq] using hrun
      · rw [List.count_cons, List.length_cons]
        cases x with
        | false => simp at hleft ⊢; omega
        | true => simp at hleft ⊢; omega

theorem Capped.unblocked (h : s.Capped) (hg : s.Guarded) (hn : s.NoTombstone) : s.Unblocked := by
  intro spurious
  have hslot : ∀ a, s.counters.map[s.counters.atomic]? = some a →
      ∃ n, s.counters.heap[a]? = some (.count n) := by
    intro a ha
    have hlt := hg.exact.allocated _ a ha
    have hne := hn _ (ExtTreeMap.mem_toList_iff_getElem?_eq_some.2 ha)
    cases hc : s.counters.heap[a]? with
    | none => exact absurd (List.getElem?_eq_none_iff.1 hc) (Nat.not_le.2 hlt)
    | some x =>
      cases x with
      | count n => exact ⟨n, rfl⟩
      | tombstone => exact absurd hc hne
  obtain ⟨s', turns, left, t, hrun, ht, hu, hleft⟩ := runAlone_undisturbed
    (s := { s with threads := s.threads ++ [.load] }) spurious List.getElem?_concat_length
    (.load hslot) h.floor
  refine ⟨s', turns, hrun, hu.turns_le, fun henough => ?_⟩
  have hzero : left = 0 := by omega
  subst hzero
  obtain ⟨hone, a, rfl⟩ := hu.returned
  exact ⟨hone, a, ht⟩

/-- Version GC never blocks a new transaction, whatever the clock says. -/
theorem unblocked_of_run (timestamp : Nat) {s : VersionGc}
    (h : Execution.Run step (fun _ _ => True) (.new timestamp) s) :
    s.FloorBelow ∧ (s.NoTombstone → s.Unblocked) := by
  have hc : s.Capped := by
    apply h.invariant _ (Capped.new timestamp)
    intro s a t hs _ ht
    exact hs.step ht
  exact ⟨hc.floor, hc.unblocked (guarded_of_run timestamp h)⟩

/-- An idle database whose clock runs far ahead, and a transaction that comes and goes. -/
def idle : List VersionGcAction :=
  .computeCleanupTs 1000 :: .call 0 :: .call 0 :: .call 0 :: .call 0 :: .spawn :: advance 10

def floorAt (floor : Nat) (s : VersionGc) : Bool :=
  s.counters.gcFloor == some floor && s.threads.contains .done && decide s.NoTombstone

theorem unblocked_idle :
    ∃ s, Execution.Run step (fun _ _ => True) (.new 5) s ∧ floorAt 5 s = true ∧
      s.FloorBelow ∧ s.Unblocked := by
  have hrun : (Execution.exec step (.new 5) idle).map (floorAt 5) = some true := by decide +kernel
  obtain ⟨s, hs, hb⟩ := Execution.exec_check hrun
  have hn : s.NoTombstone := by
    simp only [floorAt, Bool.and_eq_true] at hb
    exact of_decide_eq_true hb.2
  obtain ⟨hfloor, hfree⟩ := unblocked_of_run 5 (.of_exec hs)
  exact ⟨s, .of_exec hs, hb, hfloor, hfree hn⟩

end VersionGc

end StupidKv
