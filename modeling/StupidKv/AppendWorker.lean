import StupidKv.Lib.Execution
import StupidKv.Lib.Processes
import StupidKv.Persistence

namespace StupidKv
open Std Processes
set_option autoImplicit true

/-- What `append` pushes on the injector in `AsynchronousAfterCommit` mode. -/
structure AsyncAppendOperation where
  version : Nat
  writeset : Writeset

def AsyncAppendOperation.records (op : AsyncAppendOperation) : List Record :=
  recordsOf op.version op.writeset

def batchSize : Nat := 100

/-- Where the append worker stands. From `inner` on it carries its batch. -/
inductive WorkerStage where
  | head
  | check
  | inner (batch : List AsyncAppendOperation)
  | steal (batch : List AsyncAppendOperation)
  | park (batch : List AsyncAppendOperation)
  | write (batch : List AsyncAppendOperation)
  | exited

def WorkerStage.batch : WorkerStage → List AsyncAppendOperation
  | inner batch | steal batch | park batch | write batch => batch
  | head | check | exited => []

/-- Where a commit stands in `append`. -/
inductive AppendStage where
  | push (op : AsyncAppendOperation)
  | returned

def AppendStage.isReturned : AppendStage → Bool
  | push _ => false
  | returned => true

/-- Where the drop of the database stands. -/
inductive DropStage where
  | live
  | cleared
  | unparked
  | returned
deriving DecidableEq, Repr

/-- The injector is a FIFO queue. The operations pushed so far are history. -/
structure AppendWorker where
  enabled : Bool
  injector : List AsyncAppendOperation
  worker : WorkerStage
  aol : Bytes
  commits : List AppendStage
  drop : DropStage
  pushed : List AsyncAppendOperation

inductive AppendAction where
  | commit (op : AsyncAppendOperation)
  | push (i : Nat)
  /-- One step of the worker; with `retry`, a steal meets contention. -/
  | work (retry : Bool)
  | clear
  | unpark
  | join

namespace AppendWorker

def new (aol : Bytes) : AppendWorker := ⟨true, [], .head, aol, [], .live, []⟩

/-- One step of the worker's loop. -/
def work (s : AppendWorker) (retry : Bool) : WorkerStage → Option AppendWorker
  | .head => some { s with worker := if s.enabled then .check else .exited }
  | .check => some { s with worker := if s.enabled then .inner [] else .exited }
  | .inner batch => some { s with worker := if s.enabled then .steal batch else .write batch }
  | .steal batch =>
    if retry then some { s with worker := .inner batch }
    else
      match s.injector with
      | op :: injector =>
        let batch := batch ++ [op]
        some { s with
          injector := injector
          worker := if batch.length ≥ batchSize then .write batch else .inner batch }
      | [] => some { s with worker := if batch.isEmpty then .park batch else .write batch }
  | .park batch => some { s with worker := .inner batch }
  | .write batch =>
    some { s with
      aol := s.aol ++ Bincode.record.encodeAll (batch.flatMap (·.records))
      worker := .head }
  | .exited => none

def step (s : AppendWorker) : AppendAction → Option AppendWorker
  | .commit op =>
    if s.drop = .live then some { s with commits := s.commits ++ [.push op] } else none
  | .push i =>
    match s.commits[i]? with
    | some (.push op) =>
      some { s with
        injector := s.injector ++ [op]
        commits := s.commits.set i .returned
        pushed := s.pushed ++ [op] }
    | _ => none
  | .work retry => s.work retry s.worker
  | .clear =>
    -- drop begins behind the last commit
    if s.drop = .live ∧ ∀ c ∈ s.commits, c.isReturned = true then
      some { s with enabled := false, drop := .cleared }
    else none
  | .unpark => if s.drop = .cleared then some { s with drop := .unparked } else none
  | .join =>
    match s.drop, s.worker with
    | .unparked, .exited => some { s with drop := .returned }
    | _, _ => none

/-- Once drop has returned, the file ends with the records of all operations, in push order. -/
def Complete (aol : Bytes) (s : AppendWorker) : Prop :=
  s.drop = .returned → s.aol = aol ++ Bincode.record.encodeAll (s.pushed.flatMap (·.records))

/-- Nothing is left in the injector, or one operation that the worker is about to steal. -/
def settled (s : AppendWorker) : Bool :=
  match s.injector, s.worker with
  | [], _ => true
  | [_], .steal _ => true
  | _, _ => false

/-- The flag goes down on a settled injector, and the steal behind it does not have to retry. -/
def drained (s : AppendWorker) : AppendAction → Bool
  | .clear => s.settled
  | .work true => s.enabled || s.injector.isEmpty
  | _ => true

/-- Every operation is in the file, in the batch or in the injector, in this order. -/
def Conserved (aol : Bytes) (s : AppendWorker) : Prop :=
  ∃ written, s.pushed = written ++ s.worker.batch ++ s.injector ∧
    s.aol = aol ++ Bincode.record.encodeAll (written.flatMap (·.records))

/-- From the clearing of the flag on, nobody pushes and little is left to steal. -/
structure Drained (aol : Bytes) (s : AppendWorker) : Prop where
  conserved : s.Conserved aol
  flag : s.enabled = decide (s.drop = .live)
  quiet : s.drop ≠ .live → ∀ c ∈ s.commits, c.isReturned = true
  settled : s.drop ≠ .live → s.settled = true
  joined : s.drop = .returned → s.worker = .exited

section
variable {s t : AppendWorker} {aol : Bytes}

theorem Drained.new (aol : Bytes) : Drained aol (.new aol) where
  conserved := ⟨[], rfl, by simp [AppendWorker.new, Framing.Codec.encodeAll]⟩
  flag := rfl
  quiet := by simp [AppendWorker.new]
  settled := by simp [AppendWorker.new]
  joined := by simp [AppendWorker.new]

theorem Drained.complete (h : Drained aol s) : s.Complete aol := by
  intro hd
  obtain ⟨written, hp, ha⟩ := h.conserved
  have hw := h.joined hd
  have hs := h.settled (by simp [hd])
  have hi : s.injector = [] := by
    unfold AppendWorker.settled at hs
    rw [hw] at hs
    cases hi : s.injector with
    | nil => rfl
    | cons op ops => simp [hi] at hs
  rw [hw, hi] at hp
  simp only [WorkerStage.batch, List.append_nil] at hp
  rw [ha, hp]

theorem Conserved.flush (h : s.Conserved aol) (hw : s.worker = .write batch) :
    Conserved aol { s with
      aol := s.aol ++ Bincode.record.encodeAll (batch.flatMap (·.records))
      worker := .head } := by
  obtain ⟨written, hp, ha⟩ := h
  refine ⟨written ++ batch, ?_, ?_⟩
  · rw [hp, hw]
    simp [WorkerStage.batch]
  · rw [ha, List.flatMap_append, Framing.Codec.encodeAll_append, List.append_assoc]

theorem Conserved.push (h : s.Conserved aol) (commits : List AppendStage) :
    Conserved aol { s with
      injector := s.injector ++ [op]
      commits := commits
      pushed := s.pushed ++ [op] } := by
  obtain ⟨written, hp, ha⟩ := h
  exact ⟨written, by simp [hp], ha⟩

theorem settled_of_empty (h : s.injector = []) : s.settled = true := by
  simp [AppendWorker.settled, h]

theorem empty_of_settled (h : s.settled = true) (hw : ∀ batch, s.worker ≠ .steal batch) :
    s.injector = [] := by
  unfold AppendWorker.settled at h
  split at h
  · rename_i hi
    exact hi
  · rename_i hsteal
    exact absurd hsteal (hw _)
  · cases h

theorem Drained.move (h : Drained aol s) (hw : s.worker ≠ .exited)
    (hb : w.batch ++ l = s.worker.batch ++ s.injector) (hl : s.drop ≠ .live → l = []) :
    Drained aol { s with injector := l, worker := w } where
  conserved := by
    obtain ⟨written, hp, ha⟩ := h.conserved
    refine ⟨written, ?_, ha⟩
    rw [hp, List.append_assoc, List.append_assoc, hb]
  flag := h.flag
  quiet := h.quiet
  settled := fun hd => settled_of_empty (hl hd)
  joined := fun hd => absurd (h.joined hd) hw

theorem Drained.disabled (h : Drained aol s) (hd : s.drop ≠ .live) : s.enabled = false := by
  rw [h.flag]
  exact decide_eq_false hd

/-- With the flag down the worker takes the last operation at most, and finds none behind it. -/
theorem Drained.work (h : Drained aol s) (hg : s.drained (.work retry) = true)
    (hs : s.work retry s.worker = some t) : Drained aol t := by
  have hempty (hw : ∀ batch, s.worker ≠ .steal batch) (hd : s.drop ≠ .live) : s.injector = [] :=
    empty_of_settled (h.settled hd) hw
  cases hw : s.worker with
  | head =>
    rw [hw] at hs hempty
    cases hs
    exact h.move (by simp [hw]) (by split <;> simp [hw, WorkerStage.batch]) (hempty (by simp))
  | check =>
    rw [hw] at hs hempty
    cases hs
    exact h.move (by simp [hw]) (by split <;> simp [hw, WorkerStage.batch]) (hempty (by simp))
  | inner batch =>
    rw [hw] at hs hempty
    cases hs
    exact h.move (by simp [hw]) (by split <;> simp [hw, WorkerStage.batch]) (hempty (by simp))
  | steal batch =>
    rw [hw] at hs
    cases retry with
    | true =>
      cases hs
      refine h.move (by simp [hw]) (by simp [hw, WorkerStage.batch]) fun hd => ?_
      simpa [drained, h.disabled hd] using hg
    | false =>
      simp only [AppendWorker.work, Bool.false_eq_true, ↓reduceIte] at hs
      split at hs
      · rename_i op injector hi
        cases hs
        refine h.move (by simp [hw]) ?_ fun hd => ?_
        · rw [hw, hi]
          split <;> simp [WorkerStage.batch]
        · have hset := h.settled hd
          unfold AppendWorker.settled at hset
          rw [hi, hw] at hset
          cases injector with
          | nil => rfl
          | cons op' injector => cases hset
      · rename_i hi
        cases hs
        refine h.move (by simp [hw]) ?_ fun _ => hi
        rw [hw]
        split <;> simp [WorkerStage.batch]
  | park batch =>
    rw [hw] at hs hempty
    cases hs
    exact h.move (by simp [hw]) (by simp [hw, WorkerStage.batch]) (hempty (by simp))
  | write batch =>
    rw [hw] at hs hempty
    cases hs
    exact {
      conserved := h.conserved.flush hw
      flag := h.flag
      quiet := h.quiet
      settled := fun hd => settled_of_empty (hempty (by simp) hd)
      joined := fun hd => absurd (h.joined hd) (by simp [hw]) }
  | exited =>
    rw [hw] at hs
    cases hs

theorem Drained.step (h : Drained aol s) (hg : s.drained a = true) (hs : s.step a = some t) :
    Drained aol t := by
  cases a with
  | commit op =>
    obtain ⟨hlive, hs⟩ := Option.ite_none_right_eq_some.1 hs
    cases hs
    exact {
      conserved := h.conserved
      flag := h.flag
      quiet := fun hd => absurd hlive hd
      settled := fun hd => absurd hlive hd
      joined := h.joined }
  | push i =>
    simp only [AppendWorker.step] at hs
    split at hs
    · rename_i op hi
      have hlive : s.drop = .live := by
        by_contra hd
        exact absurd (h.quiet hd _ (List.mem_of_getElem? hi)) (by simp [AppendStage.isReturned])
      cases hs
      exact {
        conserved := h.conserved.push _
        flag := h.flag
        quiet := fun hd => absurd hlive hd
        settled := fun hd => absurd hlive hd
        joined := h.joined }
    · cases hs
  | work retry => exact h.work hg hs
  | clear =>
    obtain ⟨⟨-, hquiet⟩, hs⟩ := Option.ite_none_right_eq_some.1 hs
    cases hs
    exact {
      conserved := h.conserved
      flag := rfl
      quiet := fun _ => hquiet
      settled := fun _ => hg
      joined := fun hd => by cases hd }
  | unpark =>
    obtain ⟨hcleared, hs⟩ := Option.ite_none_right_eq_some.1 hs
    cases hs
    have hd : s.drop ≠ .live := by simp [hcleared]
    exact {
      conserved := h.conserved
      flag := h.disabled hd
      quiet := fun _ => h.quiet hd
      settled := fun _ => h.settled hd
      joined := fun hd => by cases hd }
  | join =>
    simp only [AppendWorker.step] at hs
    split at hs
    · rename_i hunparked hexited
      cases hs
      have hd : s.drop ≠ .live := by simp [hunparked]
      exact {
        conserved := h.conserved
        flag := h.disabled hd
        quiet := fun _ => h.quiet hd
        settled := fun _ => h.settled hd
        joined := fun _ => hexited }
    · cases hs

end

/-- A drop that clears the flag on a drained injector loses nothing. -/
theorem complete_of_drained {s : AppendWorker} {aol : Bytes}
    (h : Execution.Run step (fun s a => s.drained a = true) (.new aol) s) : s.Complete aol := by
  have hs : s.Drained aol := by
    refine h.invariant ?_ (Drained.new aol)
    intro s a t hs hg ht
    exact hs.step hg ht
  exact hs.complete

def works (n : Nat) : List AppendAction := List.replicate n (.work false)

def setOne (version : Nat) : AsyncAppendOperation := ⟨version, (∅ : Writeset).insert [1] (some [7])⟩

/-- The flag goes down while the worker is about to steal the last of two operations. -/
def lastSteal : List AppendAction :=
  .commit (setOne 5) :: .commit (setOne 6) :: .push 1 :: .push 0 :: works 5 ++
    .clear :: .unpark :: works 4 ++ [.join]

theorem complete_lastSteal :
    ∃ s, Execution.Run step (fun s a => s.drained a = true) (.new []) s ∧ s.drop = .returned ∧
      s.pushed.map (·.version) = [6, 5] ∧ s.Complete [] := by
  have hrun : (Execution.exec (fun s a => if s.drained a then step s a else none) (.new [])
      lastSteal).map (fun s => decide (s.drop = .returned ∧ s.pushed.map (·.version) = [6, 5])) =
        some true := by
    decide +kernel
  obtain ⟨s, hs, hb⟩ := Execution.exec_check hrun
  obtain ⟨hdrop, hpushed⟩ := of_decide_eq_true hb
  exact ⟨s, .of_guarded hs, hdrop, hpushed, complete_of_drained (.of_guarded hs)⟩

/-- One commit returns, and the database is dropped before the worker has looked. -/
def droppedEarly : List AppendAction :=
  .commit (setOne 5) :: .push 0 :: .clear :: .unpark :: works 1 ++ [.join]

theorem not_complete :
    ¬ ∀ s, Execution.Run step (fun _ _ => True) (.new []) s → s.Complete [] := by
  intro hall
  have hrun : (Execution.exec step (.new []) droppedEarly).map (fun s =>
      decide (s.drop = .returned ∧
        s.aol ≠ Bincode.record.encodeAll (s.pushed.flatMap (·.records)))) = some true := by
    decide +kernel
  obtain ⟨s, hs, hb⟩ := Execution.exec_check hrun
  obtain ⟨hdrop, haol⟩ := of_decide_eq_true hb
  exact haol (hall s (.of_exec hs) hdrop)

end AppendWorker

end StupidKv
