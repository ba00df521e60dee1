import StupidKv.ReferenceCounts

namespace StupidKv
open Std Processes
set_option autoImplicit true

/-- One counter map and the transactions that register with it. -/
structure CounterMap where
  counters : Counters
  threads : List Thread

inductive CounterAction where
  | spawn
  | thread (i : Nat) (spurious : Bool)
  | bump (version : Nat)
  | publishFloor (floor : Nat)

namespace CounterMap

def new (atomic : Nat) (gcFloor : Option Nat) : CounterMap := ⟨.new atomic gcFloor, []⟩

def step (s : CounterMap) : CounterAction → Option CounterMap
  | .spawn => some { s with threads := s.threads ++ [.load] }
  | .thread i spurious => do
    let t ← s.threads[i]?
    let (c, t) ← t.step s.counters spurious
    return ⟨c, s.threads.set i t⟩
  | .bump version =>
    some { s with counters := { s.counters with atomic := max s.counters.atomic version } }
  | .publishFloor floor =>
    some { s with
      counters := { s.counters with gcFloor := s.counters.gcFloor.map (max · floor) } }

/-- What is promised of the map in one state. -/
structure Counted (s : CounterMap) : Prop where
  single : ∀ (v w a : Nat), s.counters.map[v]? = some a → s.counters.map[w]? = some a → v = w
  held : ∀ i v a, look s.threads Thread.holds i = some (v, a) →
    s.counters.map[v]? = some a ∧ s.counters.heap[a]? = some (.count (holderCount s.threads a))
  buried : ∀ a : Nat, s.counters.heap[a]? = some .tombstone → holderCount s.threads a = 0
  mourned : ∀ v a : Nat, s.counters.map[v]? = some a → s.counters.heap[a]? = some .tombstone →
    ∃! i, look s.threads Thread.removes i = some (v, a)
  observed : ∀ (i : Nat) exit v a, s.threads[i]? = some (.release exit v a) →
    ∃ n, s.counters.heap[a]? = some (.count (n + 1))
  empty : (∀ t ∈ s.threads, t = .done) → s.counters.map = ∅

/-- What is promised of one step: a buried counter stays as it is, and whoever buried it removes
it and nothing else. -/
structure Removes (s t : CounterMap) (act : CounterAction) : Prop where
  buried : ∀ a : Nat, s.counters.heap[a]? = some .tombstone → t.counters.heap[a]? = some .tombstone
  removal : ∀ i spurious v b, act = .thread i spurious →
    look s.threads Thread.removes i = some (v, b) → s.counters.map[v]? = some b ∧
      (t.counters.map = s.counters.map.erase v ∨
        t.counters.map = s.counters.map ∧ look t.threads Thread.removes i = some (v, b))
  kept : (∀ i spurious v b, act = .thread i spurious →
    look s.threads Thread.removes i ≠ some (v, b)) →
    ∀ v b : Nat, s.counters.map[v]? = some b → t.counters.map[v]? = some b

section
variable {s t : CounterMap} {act : CounterAction}

theorem exact_step (h : Exact s.counters s.threads) (hs : s.step act = some t) :
    Exact t.counters t.threads := by
  cases act with
  | spawn =>
    cases hs
    exact h.spawn
  | thread i spurious =>
    obtain ⟨x, hx, hs⟩ := Option.bind_eq_some_iff.1 hs
    obtain ⟨⟨c, x'⟩, hstep, hs⟩ := Option.bind_eq_some_iff.1 hs
    cases hs
    exact h.step hx hstep
  | bump version =>
    cases hs
    exact h.frame rfl rfl
  | publishFloor floor =>
    cases hs
    exact h.frame rfl rfl

theorem holds_done {ts : List Thread} {f : Thread → Option (Nat × Nat)} (hf : f .done = none)
    (h : ∀ x ∈ ts, x = .done) (i : Nat) : look ts f i = none := by
  unfold look
  cases hi : ts[i]? with
  | none => rfl
  | some x =>
    rw [h x (List.mem_of_getElem? hi)]
    exact hf

/-- A holder keeps a counter from being buried. -/
theorem holderCount_buried {c : Counters} {ts : List Thread} {a : Nat} (h : Exact c ts)
    (ha : c.heap[a]? = some .tombstone) : holderCount ts a = 0 := by
  by_contra hne
  obtain ⟨x, hx, hold⟩ := List.countP_pos_iff.1 (Nat.pos_of_ne_zero hne)
  obtain ⟨⟨v, b⟩, hb, he⟩ := (Option.any_eq_true _ _).1 hold
  rw [beq_iff_eq] at he
  cases he
  obtain ⟨i, hi⟩ := List.mem_iff_getElem?.1 hx
  exact (h.held i v b ((look_of_getElem? hi).trans hb)).2 ha

theorem counted_of_exact (h : Exact s.counters s.threads) : s.Counted where
  single := h.injective
  held := fun i v a hi => h.cell hi
  buried := fun a ha => holderCount_buried h ha
  mourned := by
    intro v a hv ha
    obtain ⟨i, hi⟩ := h.mourned v a hv ha
    exact ⟨i, hi, fun j hj => h.sole j i v a a hj hi⟩
  observed := by
    intro i exit v a hi
    have hhold : look s.threads Thread.holds i = some (v, a) := look_of_getElem? hi
    obtain ⟨n, hn⟩ := Nat.exists_eq_add_of_lt (holderCount_pos hhold)
    rw [(h.cell hhold).2, hn, Nat.zero_add]
    exact ⟨n, rfl⟩
  empty := by
    intro hdone
    refine ExtTreeMap.ext_getElem? fun v => ?_
    rw [ExtTreeMap.getElem?_empty]
    cases hv : s.counters.map[v]? with
    | none => rfl
    | some a =>
      have hlt := h.allocated v a hv
      cases hc : s.counters.heap[a] with
      | tombstone =>
        obtain ⟨i, hi⟩ := h.mourned v a hv (by rw [List.getElem?_eq_getElem hlt, hc])
        rw [holds_done rfl hdone] at hi
        cases hi
      | count n =>
        have hn := h.counted a n (by rw [List.getElem?_eq_getElem hlt, hc])
        have hzero : holderCount s.threads a = 0 := by
          refine List.countP_eq_zero.2 fun x hx => ?_
          rw [hdone x hx]
          simp [Thread.holds]
        rw [hzero] at hn
        obtain ⟨i, hi⟩ := h.awaited v a hv (by rw [List.getElem?_eq_getElem hlt, hc, hn])
        rw [holds_done rfl hdone] at hi
        cases hi

/-- Only counts are ever exchanged: whoever gives one back holds it. -/
theorem heap_buried {c c' : Counters} {ts : List Thread} {x x' : Thread} {i a : Nat} (h : Exact c ts)
    (hi : ts[i]? = some x) (hs : x.step c spurious = some (c', x'))
    (ha : c.heap[a]? = some .tombstone) : c'.heap[a]? = some .tombstone := by
  have hset : ∀ {b : Nat} {n new : Counter}, c.heap[b]? = some n → n ≠ .tombstone →
      (c.heap.set b new)[a]? = some .tombstone := by
    intro b n new hb hn
    rw [List.getElem?_set, if_neg, ha]
    rintro rfl
    rw [hb] at ha
    exact hn (Option.some.inj ha)
  cases x with
  | slot v =>
    simp only [Thread.step] at hs
    split at hs
    · cases hs
      exact ha
    · cases hs
      exact getElem?_concat_of ha _
  | cas v b n =>
    simp only [Thread.step] at hs
    split at hs
    · rename_i hc
      cases hs
      obtain ⟨hb, rfl⟩ := Counters.compareExchangeWeak_some hc
      exact hset hb (by simp)
    · cases hs
      exact ha
  | releaseCas exit v b current =>
    have hhold := (h.held i v b (look_of_getElem? hi)).2
    simp only [Thread.step] at hs
    split at hs
    · split at hs
      · rename_i hc
        cases hs
        obtain ⟨hb, rfl⟩ := Counters.compareExchangeWeak_some hc
        refine hset hb ?_
        rintro rfl
        exact hhold hb
      · cases hs
        exact ha
    · split at hs
      · rename_i hc
        cases hs
        obtain ⟨hb, rfl⟩ := Counters.compareExchangeWeak_some hc
        exact hset hb (by simp)
      · cases hs
        exact ha
  | read v b =>
    simp only [Thread.step] at hs
    split at hs <;> cases hs <;> exact ha
  | check v b =>
    simp only [Thread.step] at hs
    split at hs <;> cases hs <;> exact ha
  | floor v b stable =>
    obtain ⟨f, -, hf⟩ := Option.map_eq_some_iff.1 hs
    cases hf
    exact ha
  | release exit v b =>
    obtain ⟨n, -, hn⟩ := Option.map_eq_some_iff.1 hs
    cases hn
    exact ha
  | done => cases hs
  | _ =>
    cases hs
    first
      | exact ha
      | split <;> exact ha

theorem map_kept {c c' : Counters} {x x' : Thread} {v b : Nat} (hr : x.removes = none)
    (hs : x.step c spurious = some (c', x')) (hv : c.map[v]? = some b) : c'.map[v]? = some b := by
  cases x with
  | slot w =>
    simp only [Thread.step] at hs
    split at hs
    · cases hs
      exact hv
    · rename_i hn
      cases hs
      have hne : w ≠ v := by
        rintro rfl
        rw [hn] at hv
        cases hv
      simp [ExtTreeMap.getElem?_insert, hne, hv]
  | cas w a n =>
    simp only [Thread.step] at hs
    split at hs
    · rename_i hc
      cases hs
      obtain ⟨-, rfl⟩ := Counters.compareExchangeWeak_some hc
      exact hv
    · cases hs
      exact hv
  | releaseCas exit w a current =>
    simp only [Thread.step] at hs
    split at hs <;> split at hs
    · rename_i hc
      cases hs
      obtain ⟨-, rfl⟩ := Counters.compareExchangeWeak_some hc
      exact hv
    · cases hs
      exact hv
    · rename_i hc
      cases hs
      obtain ⟨-, rfl⟩ := Counters.compareExchangeWeak_some hc
      exact hv
    · cases hs
      exact hv
  | read w a =>
    simp only [Thread.step] at hs
    split at hs <;> cases hs <;> exact hv
  | check w a =>
    simp only [Thread.step] at hs
    split at hs <;> cases hs <;> exact hv
  | floor w a stable =>
    obtain ⟨f, -, hf⟩ := Option.map_eq_some_iff.1 hs
    cases hf
    exact hv
  | release exit w a =>
    obtain ⟨n, -, hn⟩ := Option.map_eq_some_iff.1 hs
    cases hn
    exact hv
  | load =>
    cases hs
    exact hv
  | registered w a =>
    cases hs
    exact hv
  | done => cases hs
  | unlink w a => cases hr
  | unlinkEntry w a => cases hr
  | remove w a => cases hr

theorem removal_step {c c' : Counters} {ts : List Thread} {x x' : Thread} {i : Nat} (h : Exact c ts)
    (hi : ts[i]? = some x) (hr : x.removes = some (v, b))
    (hs : x.step c spurious = some (c', x')) :
    c.map[v]? = some b ∧ (c'.map = c.map.erase v ∨ c'.map = c.map ∧ x'.removes = some (v, b)) := by
  have hm := (h.buried i v b ((look_of_getElem? hi).trans hr)).1
  refine ⟨hm, ?_⟩
  cases x with
  | unlink w a =>
    cases hr
    cases hs
    rw [if_pos hm]
    exact .inr ⟨rfl, rfl⟩
  | unlinkEntry w a =>
    cases hr
    cases hs
    rw [if_pos hm]
    exact .inl rfl
  | remove w a =>
    cases hr
    cases hs
    exact .inl rfl
  | _ => cases hr

theorem removes_of_exact (h : Exact s.counters s.threads) (hs : s.step act = some t) :
    Removes s t act := by
  cases act with
  | spawn =>
    cases hs
    exact ⟨fun _ ha => ha, fun i sp v b he => (by cases he), fun _ _ _ hv => hv⟩
  | bump version =>
    cases hs
    exact ⟨fun _ ha => ha, fun i sp v b he => (by cases he), fun _ _ _ hv => hv⟩
  | publishFloor floor =>
    cases hs
    exact ⟨fun _ ha => ha, fun i sp v b he => (by cases he), fun _ _ _ hv => hv⟩
  | thread i spurious =>
    obtain ⟨x, hx, hs⟩ := Option.bind_eq_some_iff.1 hs
    obtain ⟨⟨c, x'⟩, hstep, hs⟩ := Option.bind_eq_some_iff.1 hs
    cases hs
    obtain ⟨hlt, -⟩ := List.getElem?_eq_some_iff.1 hx
    refine ⟨fun a ha => heap_buried h hx hstep ha, ?_, ?_⟩
    · intro j sp v b he hr
      cases he
      rw [look_of_getElem? hx] at hr
      rw [look_set hx, if_pos rfl]
      exact removal_step h hx hr hstep
    · intro hr v b hv
      refine map_kept ?_ hstep hv
      cases hrx : x.removes with
      | none => rfl
      | some p => exact absurd ((look_of_getElem? hx).trans hrx) (hr i spurious p.1 p.2 rfl)

end

/-- Whatever the interleaving, every counter counts its holders, a buried one is removed once, and
nothing is left when all transactions are gone. -/
theorem counted_of_run (atomic : Nat) (gcFloor : Option Nat) {s : CounterMap}
    (h : Execution.Run step (fun _ _ => True) (.new atomic gcFloor) s) :
    s.Counted ∧ ∀ act t, s.step act = some t → Removes s t act := by
  have hs : Exact s.counters s.threads := by
    induction h with
    | refl => exact .new atomic gcFloor
    | step _ _ ht ih => exact exact_step ih ht
  exact ⟨counted_of_exact hs, fun act t ht => removes_of_exact hs ht⟩

def advance (i n : Nat) : List CounterAction := List.replicate n (.thread i false)

/-- Two transactions share a slot; the first is dropped, the second rolls back behind a bump and
buries the counter, and a third one meets it there. -/
def sharedSlot : List CounterAction :=
  .spawn :: .spawn :: .spawn :: advance 0 5 ++ advance 1 4 ++ advance 2 2 ++ .bump 6 ::
    advance 0 3 ++ advance 1 3

/-- A buried counter waits in the map. -/
def hasBuried (s : CounterMap) : Bool :=
  s.counters.map.toList.any fun e => decide (s.counters.heap[e.2]? = some .tombstone)

theorem counted_sharedSlot :
    ∃ s, Execution.Run step (fun _ _ => True) (.new 5 none) s ∧ s.hasBuried = true ∧ s.Counted ∧
      ∀ act t, s.step act = some t → Removes s t act := by
  have hrun : (Execution.exec step (.new 5 none) sharedSlot).map hasBuried = some true := by
    decide +kernel
  obtain ⟨s, hs, hb⟩ := Execution.exec_check hrun
  obtain ⟨hcount, hstep⟩ := counted_of_run 5 none (.of_exec hs)
  exact ⟨s, .of_exec hs, hb, hcount, hstep⟩

end CounterMap

end StupidKv
