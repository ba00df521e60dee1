import StupidKv.Shutdown
import Mathlib.Algebra.Order.BigOperators.Group.Finset

namespace StupidKv
open Parking Processes
set_option autoImplicit true

def DropStep.cost : DropStep → Nat
  | take _ => 3
  | recycle => 2
  | clear _ | releaseInner | releasePool => 1

def Joining.cost : Joining → Nat
  | no => 0
  | unpark _ => 2
  | join _ => 1

def Dropper.cost (d : Dropper) : Nat := d.joining.cost + (d.rest.map DropStep.cost).sum

/-- A worker whose flag is up may have to make any number of steps before it is told. -/
def Worker.cost (worker : Worker) (w : WorkerName) (flag : Bool) : Nat :=
  (if flag then 5 else w.left worker.thread.stage) + worker.ending.cost

theorem WorkerName.left_le (w : WorkerName) (place : WorkerPlace) : w.left place ≤ 5 := by
  cases w <;> cases place <;> decide

namespace Lifecycle

/-- What the drops to come may cost. -/
def reserve (s : Lifecycle) : Nat :=
  (if s.isOpen then (Dropper.of (StupidKv.dropDatabase s.persistent)).cost else 0) +
    3 * s.transactions + (if s.poolCount = 0 then 0 else 1 + s.pooled) +
    (if s.innerCount = 0 then 0 else (Dropper.of (dropInner s.persistent)).cost)

def load (s : Lifecycle) : Nat :=
  ∑ w, (s.workers w).cost w (s.flags w.flag) + s.reserve

def rank (s : Lifecycle) : Nat := (s.droppers.map Dropper.cost).sum + s.load

theorem load_putWorker (s : Lifecycle) (w : WorkerName) (worker : Worker) :
    (s.putWorker w worker).load + (s.workers w).cost w (s.flags w.flag) =
      s.load + worker.cost w (s.flags w.flag) := by
  have h := sum_putWorker (fun x worker => worker.cost x (s.flags x.flag)) s w worker
  have hr : (s.putWorker w worker).reserve = s.reserve := rfl
  unfold load
  rw [hr]
  have hf : (s.putWorker w worker).flags = s.flags := rfl
  rw [hf]
  omega

theorem load_unpark (s : Lifecycle) (w : WorkerName) : (s.unpark w).load = s.load :=
  Nat.add_right_cancel (s.load_putWorker w { s.workers w with
    thread := (s.workers w).thread.unpark })

theorem cost_cons (i : DropStep) (rest : List DropStep) :
    (Dropper.of (i :: rest)).cost = i.cost + (Dropper.of rest).cost := by
  simp [Dropper.cost, Dropper.of, Joining.cost]

theorem cost_append (l rest : List DropStep) :
    (Dropper.of (l ++ rest)).cost = (Dropper.of l).cost + (Dropper.of rest).cost := by
  simp [Dropper.cost, Dropper.of, Joining.cost]

theorem cost_dropPool (pooled : Nat) : (Dropper.of (dropPool pooled)).cost = 1 + pooled := by
  simp [Dropper.cost, Dropper.of, Joining.cost, dropPool, DropStep.cost]

theorem load_clear (s : Lifecycle) (f : Flag) :
    load { s with flags := Function.update s.flags f false } ≤ s.load := by
  unfold load
  apply Nat.add_le_add_right
  apply Finset.sum_le_sum
  intro w _
  have hleft := w.left_le (s.workers w).thread.stage
  by_cases hf : w.flag = f
  · subst hf
    simp only [Worker.cost, Function.update_self]
    cases s.flags w.flag <;> simp [hleft]
  · simp [Worker.cost, Function.update_of_ne hf]

theorem Advances.load_lt {s s' : Lifecycle} (h : Advances s d s' d') :
    d'.cost + s'.load + 1 ≤ d.cost + s.load := by
  cases h with
  | unpark =>
    rw [load_unpark]
    simp only [Dropper.cost, Joining.cost]
    omega
  | join hw =>
    simp only [Dropper.cost, Joining.cost, Dropper.of]
    omega
  | @clear f =>
    have hl := s.load_clear f
    simp only [cost_cons, DropStep.cost]
    omega
  | @take w rest hw =>
    have hc : (Dropper.mk (.unpark w) rest).cost = 2 + (Dropper.of rest).cost := by
      simp [Dropper.cost, Dropper.of, Joining.cost]
    simp only [cost_cons, DropStep.cost, hc, load, reserve]
    omega
  | skip hw =>
    simp only [cost_cons, DropStep.cost]
    omega
  | recycle =>
    simp only [cost_cons, DropStep.cost, load, reserve]
    by_cases hp : s.poolCount = 0
    · simp only [if_pos hp]
      omega
    · simp only [if_neg hp]
      omega
  | discard =>
    simp only [cost_cons, DropStep.cost]
    omega
  | releaseInner hn =>
    simp only [cost_cons, DropStep.cost, load, reserve, hn, Nat.succ_ne_zero, if_false]
    omega
  | freeInner hn =>
    simp only [cost_cons, cost_append, DropStep.cost, load, reserve, hn, one_ne_zero, if_true,
      if_false]
    omega
  | releasePool hn =>
    simp only [cost_cons, DropStep.cost, load, reserve, hn, Nat.succ_ne_zero, if_false]
    omega
  | freePool hn =>
    simp only [cost_cons, cost_append, cost_dropPool, DropStep.cost, load, reserve, hn, one_ne_zero,
      if_true, if_false]
    omega

/-- Every transaction may have to be dropped. -/
def credit : LifecycleAction → Nat
  | .begin => 3
  | _ => 0

theorem rank_ending {s s' : Lifecycle} (h : s.advance (s.workers w).ending = some (s', ending)) :
    (s'.putWorker w ⟨(s'.workers w).thread, ending⟩).rank + 1 ≤ s.rank := by
  have hlt := (advances h).load_lt
  have hframe := (advances h).frame
  have hput := s'.load_putWorker w ⟨(s'.workers w).thread, ending⟩
  have hd : (s'.putWorker w ⟨(s'.workers w).thread, ending⟩).droppers = s.droppers :=
    (advances h).droppers
  have he := hframe.ending w
  simp only [Worker.cost, he] at hput
  simp only [rank, hd]
  omega

theorem rank_loop {s : Lifecycle}
    (h : w.service.step (s.flags w.flag) timeout stolen (s.workers w).thread = some thread) :
    (!s.flags w.flag).toNat + (s.putWorker w { s.workers w with thread }).rank ≤ s.rank := by
  have hput := s.load_putWorker w { s.workers w with thread }
  have hd : (s.putWorker w { s.workers w with thread }).droppers = s.droppers := rfl
  simp only [Worker.cost] at hput
  simp only [rank, hd]
  cases hf : s.flags w.flag with
  | true =>
    simp only [hf, if_true] at hput
    simp only [Bool.not_true, Bool.toNat_false]
    omega
  | false =>
    have hlt : w.left thread.stage < w.left (s.workers w).thread.stage :=
      Service.left_lt w.lawful (hf ▸ h)
    simp only [hf, Bool.false_eq_true, if_false] at hput
    simp only [Bool.not_false, Bool.toNat_true]
    omega

theorem rank_step {s t : Lifecycle} (h : s.step a = some t)
    (hopen : s.isOpen = true → s.innerCount ≠ 0 ∧ s.poolCount ≠ 0) :
    (s.closes a).toNat + t.rank ≤ s.rank + credit a := by
  cases a with
  | begin =>
    obtain ⟨ho, he⟩ := Option.ite_none_right_eq_some.1 h
    cases he
    obtain ⟨hinner, hpool⟩ := hopen ho
    simp only [closes, credit, rank, load, reserve, Bool.toNat_false, if_neg hinner, if_neg hpool,
      Nat.succ_ne_zero, if_false]
    by_cases hp : s.pooled = 0
    · simp only [if_pos hp, Nat.succ_ne_zero, if_false]
      omega
    · simp only [if_neg hp, if_neg hinner]
      omega
  | commit =>
    obtain ⟨-, he⟩ := Option.ite_none_left_eq_some.1 h
    cases he
    simp only [closes, credit, Bool.toNat_false, Nat.zero_add, Nat.add_zero]
    split
    · exact (congrArg ((s.droppers.map Dropper.cost).sum + ·) (s.load_unpark .append)).le
    · exact le_rfl
  | dropTransaction =>
    obtain ⟨hn, he⟩ := Option.ite_none_left_eq_some.1 h
    cases he
    have hc : (Dropper.of StupidKv.dropTransaction).cost = 3 := rfl
    simp only [closes, credit, rank, load, reserve, List.map_append, List.map_cons, List.map_nil,
      List.sum_append, List.sum_cons, List.sum_nil, hc, Bool.toNat_false]
    omega
  | dropDatabase =>
    obtain ⟨ho, he⟩ := Option.ite_none_right_eq_some.1 h
    cases he
    simp only [closes, credit, rank, load, reserve, List.map_append, List.map_cons, List.map_nil,
      List.sum_append, List.sum_cons, List.sum_nil, ho, Bool.toNat_false, if_true,
      Bool.false_eq_true, if_false]
    omega
  | run i =>
    obtain ⟨d, hd, h⟩ := Option.bind_eq_some_iff.1 h
    obtain ⟨⟨s', d'⟩, had, h⟩ := Option.bind_eq_some_iff.1 h
    cases h
    have hlt := (advances had).load_lt
    have hsum := sum_set hd Dropper.cost d'
    rw [← (advances had).droppers] at hsum
    have hl : load { s' with droppers := s'.droppers.set i d' } = s'.load := rfl
    simp only [closes, credit, rank, hl, Bool.toNat_true]
    rw [(advances had).droppers] at hsum ⊢
    omega
  | work w timeout stolen =>
    simp only [step] at h
    split at h
    · obtain ⟨⟨s', ending⟩, had, h⟩ := Option.bind_eq_some_iff.1 h
      cases h
      have hlt := rank_ending had
      have hb := Bool.toNat_le (s.closes (.work w timeout stolen))
      simp only [credit]
      omega
    · obtain ⟨thread, ht, h⟩ := Option.bind_eq_some_iff.1 h
      cases h
      exact rank_loop ht

theorem rank_opened (opts : DatabaseOptions) (popts : Option PersistenceOptions) :
    (opened opts popts).rank ≤ 73 := by
  have hworker : ∀ w, ((opened opts popts).workers w).cost w true ≤ 5 + w.holdsInner.toNat := by
    intro w
    simp only [opened]
    cases w.started opts popts with
    | false => exact Nat.le_add_right 5 _
    | true => cases w.holdsInner <;> exact le_rfl
  have hsum : ∑ w, ((opened opts popts).workers w).cost w true ≤ 33 :=
    (Finset.sum_le_sum fun w _ => hworker w).trans (by decide)
  have hreserve : (opened opts popts).reserve ≤ 40 := by
    have hbound : ∀ p, (Dropper.of (StupidKv.dropDatabase p)).cost + 3 * 0 + (1 + 0) +
        (Dropper.of (dropInner p)).cost ≤ 40 := by decide
    have hne : (opened opts popts).innerCount ≠ 0 := by
      simp only [opened]
      omega
    simp only [reserve, if_neg hne]
    exact hbound popts.isSome
  have hrank : (opened opts popts).rank =
      ∑ w, ((opened opts popts).workers w).cost w true + (opened opts popts).reserve :=
    Nat.zero_add _
  omega

theorem run_isSome {s : Lifecycle} (hi : s.droppers[i]? = some d) :
    (s.step (.run i)).isSome = (s.advance d).isSome := by
  simp only [step, hi, Option.bind_eq_bind, Option.bind_some, Option.pure_def]
  cases s.advance d <;> rfl

theorem releaseInner_goes_on {s : Lifecycle} (hn : s.innerCount ≠ 0) (rest : List DropStep) :
    (s.advance (.of (.releaseInner :: rest))).isSome = true := by
  obtain ⟨n, hn⟩ := Nat.exists_eq_succ_of_ne_zero hn
  cases n <;> simp [advance, Dropper.of, dropStep, hn]

theorem releasePool_goes_on {s : Lifecycle} (hn : s.poolCount ≠ 0) (rest : List DropStep) :
    (s.advance (.of (.releasePool :: rest))).isSome = true := by
  obtain ⟨n, hn⟩ := Nat.exists_eq_succ_of_ne_zero hn
  cases n <;> simp [advance, Dropper.of, dropStep, hn]

theorem Safe.worker_goes_on {s : Lifecycle} (h : Safe s)
    (ht : w.service.Told (s.workers w).thread) (hx : s.exited w = false) (stolen : Stolen) :
    (s.step (.work w false stolen)).isSome = true := by
  simp only [Lifecycle.step]
  by_cases hst : (s.workers w).thread.stage = .exited
  · rcases h.ending w with he | ⟨-, he⟩
    · simp [exited, hst, he, Dropper.finished] at hx
    · obtain ⟨n, hn⟩ := h.shared hst he
      have hgo := releaseInner_goes_on (s := s) (by simp [hn]) []
      obtain ⟨⟨s', e⟩, had⟩ := Option.isSome_iff_exists.1 hgo
      simp [hst, he, had]
  · have hgo := ht.goes_on w.lawful (by simpa [WorkerName.service] using hst) (s.flags w.flag)
      stolen
    obtain ⟨thread, ht⟩ := Option.isSome_iff_exists.1 hgo
    simp [hst, ht]

/-- Whoever is on its way through a drop can go on, or the worker it waits for can, and that without
a timeout. -/
theorem goes_on {s : Lifecycle} (h : Safe s) (hi : s.droppers[i]? = some d)
    (hd : d.finished = false) : (s.step (.run i)).isSome = true ∨
      ∃ w, d.joining = .join w ∧ ∀ stolen, (s.step (.work w false stolen)).isSome = true := by
  have hmem := List.mem_of_getElem? hi
  have hsafe := h.droppers d hmem
  have hinner := h.counted.inner
  have hpool := h.counted.pool
  have hle := sum_single_le hmem Dropper.inner
  have hle' := sum_single_le hmem Dropper.pool
  rw [run_isSome hi]
  obtain ⟨joining, rest⟩ := d
  cases joining with
  | unpark w => exact .inl rfl
  | join w =>
    cases hx : s.exited w with
    | true => exact .inl (by simp [advance, hx])
    | false => exact .inr ⟨w, rfl, h.worker_goes_on (hsafe.told w rfl) hx⟩
  | no =>
    left
    cases rest with
    | nil => cases hd
    | cons j rest =>
      cases j with
      | clear f => rfl
      | take w =>
        simp only [advance, dropStep]
        split <;> rfl
      | recycle =>
        simp only [advance, dropStep]
        split <;> rfl
      | releaseInner =>
        have hpos : 1 ≤ (Dropper.of (.releaseInner :: rest)).inner := inner_of_release rest
        simp only [Dropper.of] at hpos
        exact releaseInner_goes_on (by omega) rest
      | releasePool =>
        have hpos : 1 ≤ (Dropper.of (.releasePool :: rest)).pool := pool_pos List.mem_cons_self
        simp only [Dropper.of] at hpos
        exact releasePool_goes_on (by omega) rest

/-- Drops return, of the database and of transactions in any order, without waiting for a timeout.
All of them and the workers they stop take at most 73 steps, and three for each transaction. -/
theorem drops_return (opts : DatabaseOptions) (popts : Option PersistenceOptions)
    (actions : List LifecycleAction) (s : Lifecycle)
    (h : Execution.exec step (.opened opts popts) actions = some s) :
    Execution.countSteps step closes (.opened opts popts) actions ≤
      73 + 3 * actions.countP (· = .begin) ∧
    ∀ (i : Nat) d, s.droppers[i]? = some d → d.finished = false →
      (s.step (.run i)).isSome = true ∨
        ∃ w, d.joining = .join w ∧ ∀ stolen, (s.step (.work w false stolen)).isSome = true := by
  obtain ⟨hs, -⟩ := safe_of_exec h
  refine ⟨?_, fun i d hi hd => goes_on hs hi hd⟩
  have hstep : ∀ (s : Lifecycle) a t, Safe s → s.step a = some t →
      Safe t ∧ (s.closes a).toNat + t.rank ≤ s.rank + credit a :=
    fun s a t hi ht => ⟨hi.step ht, rank_step ht hi.counted.isOpen⟩
  have hcount := Execution.countSteps_le hstep (Safe.opened opts popts) h
  have hcredit : (actions.map credit).sum = 3 * actions.countP (· = .begin) := by
    clear h hcount
    induction actions with
    | nil => rfl
    | cons a actions ih =>
      rw [List.map_cons, List.sum_cons, ih, List.countP_cons]
      cases a with
      | begin =>
        simp only [credit, decide_true, if_true]
        omega
      | _ => simp [credit]
  have hopened := rank_opened opts popts
  omega

/-- In the middle of the database's drop. -/
theorem drops_return_closesFirst :
    ∃ s d, Execution.exec step (.opened uncollected (some (.new "data"))) (closesFirst.take 6) =
        some s ∧
      Execution.countSteps step closes (.opened uncollected (some (.new "data")))
        (closesFirst.take 6) ≤ 76 ∧
      s.droppers[0]? = some d ∧ d.finished = false ∧
      ((s.step (.run 0)).isSome = true ∨
        ∃ w, d.joining = .join w ∧ ∀ stolen, (s.step (.work w false stolen)).isSome = true) := by
  have h : (Execution.exec step (.opened uncollected (some (.new "data")))
      (closesFirst.take 6)).map (fun s => s.droppers[0]?.map Dropper.finished) =
        some (some false) := by
    decide +kernel
  obtain ⟨s, hrun, hs⟩ := Option.map_eq_some_iff.1 h
  obtain ⟨d, hi, hd⟩ := Option.map_eq_some_iff.1 hs
  obtain ⟨hsteps, hgoes⟩ := drops_return uncollected (some (.new "data")) (closesFirst.take 6) s hrun
  exact ⟨s, d, hrun, hsteps, hi, hd, hgoes 0 d hi hd⟩

end Lifecycle

end StupidKv
