import StupidKv.Compaction
import StupidKv.Requests

namespace StupidKv
open Std
set_option autoImplicit true

/-- Where the garbage worker stands. A pass works through the keys one by one with the watermark
its turn began with. -/
inductive GcStage where
  | parked
  | dirty (cleanupTs : Nat) (seen : ExtTreeSet Bytes compare)
  | full (cleanupTs : Nat) (cursor : Option Bytes)

/-- A database with its background workers. How many full passes have ended, and the highest
watermark of one, is history. -/
structure Maintained where
  db : Database
  stage : GcStage
  cycle : Nat
  fullScanFrequency : Nat
  sweeps : Nat
  swept : Option Nat

/-- API calls, the steps of the garbage worker, and whole turns of the cleanup worker: each is one
atomic step. -/
inductive MaintainedAction where
  | call (c : Call) (now : Nat)
  | collect (now : Nat)
  | cleanup

namespace Maintained

def opened (datastore : SkipMap Bytes Versions) (start threshold frequency : Nat) : Maintained where
  db := ⟨{ Inner.new start threshold with datastore := datastore }, [], []⟩
  stage := .parked
  cycle := 0
  fullScanFrequency := max frequency 1
  sweeps := 0
  swept := none

def withInner (m : Maintained) (inner : Inner) : Maintained := { m with db := { m.db with inner } }

/-- The key an iterator of the datastore yields behind `cursor`. -/
def nextKey (datastore : SkipMap Bytes Versions) (cursor : Option Bytes) : Option Bytes :=
  datastore.keys.find? fun key => cursor.all fun c => compare c key == .lt

/-- One step of the garbage worker, from one wake-up to the next. -/
def collect (m : Maintained) (now : Nat) : Maintained :=
  match m.stage with
  | .parked =>
    let (inner, cleanupTs) := m.db.inner.computeCleanupTs now
    { m.withInner inner with stage := .dirty cleanupTs ∅ }
  | .dirty cleanupTs seen =>
    match m.db.inner.gcDirtyKeys with
    | key :: keys =>
      let inner := { m.db.inner with gcDirtyKeys := keys }
      if seen.contains key then m.withInner inner
      else { m.withInner { inner with datastore := Inner.gcKey cleanupTs inner.datastore key } with
        stage := .dirty cleanupTs (seen.insert key) }
    | [] =>
      let cycle := m.cycle + 1
      { m with
        cycle := cycle
        stage := if cycle % m.fullScanFrequency = 0 then .full cleanupTs none else .parked }
  | .full cleanupTs cursor =>
    match nextKey m.db.inner.datastore cursor with
    | some key => { m.withInner { m.db.inner with
          datastore := Inner.gcKey cleanupTs m.db.inner.datastore key } with
        stage := .full cleanupTs (some key) }
    | none => { m with
        stage := .parked
        sweeps := m.sweeps + 1
        swept := some (m.swept.elim cleanupTs (max cleanupTs)) }

/-- What one step of the garbage worker can be. -/
inductive Collects (m : Maintained) (now : Nat) : Maintained → Prop
  | wakes (hs : m.stage = .parked) :
      Collects m now { m.withInner (m.db.inner.computeCleanupTs now).1 with
        stage := .dirty (m.db.inner.computeCleanupTs now).2 ∅ }
  | skips (hs : m.stage = .dirty cleanupTs seen) (hd : m.db.inner.gcDirtyKeys = key :: keys) :
      Collects m now { m.withInner { m.db.inner with gcDirtyKeys := keys } with
        stage := .dirty cleanupTs seen }
  | compacts (hs : m.stage = .dirty cleanupTs seen)
      (hd : m.db.inner.gcDirtyKeys = key :: keys) :
      Collects m now { m.withInner { m.db.inner with
          datastore := Inner.gcKey cleanupTs m.db.inner.datastore key, gcDirtyKeys := keys } with
        stage := .dirty cleanupTs (seen.insert key) }
  | drained (hs : m.stage = .dirty cleanupTs seen) (hd : m.db.inner.gcDirtyKeys = [])
      (hc : (m.cycle + 1) % m.fullScanFrequency ≠ 0) :
      Collects m now { m with cycle := m.cycle + 1, stage := .parked }
  | turns (hs : m.stage = .dirty cleanupTs seen) (hd : m.db.inner.gcDirtyKeys = [])
      (hc : (m.cycle + 1) % m.fullScanFrequency = 0) :
      Collects m now { m with cycle := m.cycle + 1, stage := .full cleanupTs none }
  | passes (hs : m.stage = .full cleanupTs cursor)
      (hn : nextKey m.db.inner.datastore cursor = some key) :
      Collects m now { m.withInner { m.db.inner with
          datastore := Inner.gcKey cleanupTs m.db.inner.datastore key } with
        stage := .full cleanupTs (some key) }
  | ends (hs : m.stage = .full cleanupTs cursor)
      (hn : nextKey m.db.inner.datastore cursor = none) :
      Collects m now { m with
        stage := .parked
        sweeps := m.sweeps + 1
        swept := some (m.swept.elim cleanupTs (max cleanupTs)) }

theorem collects (m : Maintained) (now : Nat) : Collects m now (m.collect now) := by
  unfold Maintained.collect
  split
  · exact .wakes ‹_›
  · rename_i cleanupTs seen hs
    split
    · split
      · have hk : Collects m now _ := .skips hs ‹_›
        rwa [← hs] at hk
      · exact .compacts hs ‹_›
    · dsimp only
      split
      · exact .turns hs ‹_› ‹_›
      · exact .drained hs ‹_› ‹_›
  · rename_i cleanupTs cursor hs
    split
    · exact .passes hs ‹_›
    · exact .ends hs ‹_›

/-- The step, and the response if it is an API call. -/
def step (m : Maintained) : MaintainedAction → Option (Maintained × Option Response)
  | .call c now => do
    let (db, r) ← m.db.step (c, now)
    return ({ m with db }, some r)
  | .collect now => some (m.collect now, none)
  | .cleanup => some (m.withInner m.db.inner.runCleanupInner, none)

end Maintained

def MaintainedAction.call? : MaintainedAction → Option Call
  | .call c _ => some c
  | .collect _ | .cleanup => none

section
variable {db db' : Inner}

theorem applyWriteset_gcFloor
    (h : TransactionInner.applyWriteset ws db now append = some (db', r)) :
    db'.gcFloor = db.gcFloor := by
  obtain ⟨⟨db₁, version⟩, hmerge, h⟩ := Option.bind_eq_some_iff.1 h
  have hmerged := (Inner.atomicMerge_cases hmerge).2
  have hdb : db' = (db₁.writeAll version ws).removeMerge version := by
    dsimp only at h
    split at h <;> cases h <;> rfl
  obtain ⟨dirty, hframe⟩ := db₁.writeAll_frame version ws
  rw [hdb, hframe, hmerged]
  rfl

theorem runCommit_gcFloor {tx tx' : TransactionInner}
    (h : tx.runCommit db now append = some (db', tx', r)) : db'.gcFloor = db.gcFloor := by
  unfold TransactionInner.runCommit at h
  split at h
  · cases h
    rfl
  · split at h
    · cases h
      rfl
    · obtain ⟨⟨db₁, version⟩, hauto, h⟩ := Option.bind_eq_some_iff.1 h
      have hf : db₁.gcFloor = db.gcFloor := by
        simp only [Inner.autoCommit, Option.ite_none_right_eq_some, Option.some.injEq,
          Prod.mk.injEq] at hauto
        obtain ⟨-, rfl, -⟩ := hauto
        rfl
      dsimp only at h
      split at h
      · cases h
        exact hf
      · obtain ⟨⟨db₂, res⟩, happ, h⟩ := Option.bind_eq_some_iff.1 h
        cases h
        exact (applyWriteset_gcFloor happ).trans hf

theorem register_gcFloor (h : db.register = some db') : db'.gcFloor = db.gcFloor := by
  obtain ⟨o, -, h⟩ := Option.bind_eq_some_iff.1 h
  obtain ⟨c, -, h⟩ := Option.bind_eq_some_iff.1 h
  cases h
  rfl

end

theorem Database.step_gcFloor {db db' : Database} {c : Call}
    (h : db.step (c, now) = some (db', r)) : db.inner.gcFloor ≤ db'.inner.gcFloor := by
  cases c with
  | transaction write =>
    obtain ⟨⟨db₁, tx⟩, hget, h⟩ := Option.bind_eq_some_iff.1 h
    cases h
    obtain ⟨hr, -⟩ := Database.poolGet_fresh hget
    exact (register_gcFloor hr).ge
  | runGc =>
    cases h
    exact Nat.le_max_left _ _
  | runCleanup =>
    cases h
    exact le_rfl
  | on i op =>
    simp only [Database.step] at h
    split at h
    · cases op with
      | commit =>
        obtain ⟨⟨inner, tx', res⟩, hrun, h⟩ := Option.bind_eq_some_iff.1 h
        cases h
        exact (runCommit_gcFloor hrun).ge
      | _ =>
        cases h
        exact le_rfl
    · cases h
      exact le_rfl

theorem chainAt_gcKey (w : Nat) (datastore : SkipMap Bytes Versions) (key key' : Bytes) :
    chainAt (Inner.gcKey w datastore key) key' =
      if key = key' then (chainAt datastore key').gcOlderVersions w else chainAt datastore key' := by
  unfold chainAt
  rw [Inner.getElem?_gcKey]
  split
  · exact gcEntry_getD w _
  · rfl

/-- What the chains store may change as long as it covers the history from the floor on. -/
theorem Sim.restock {db : Database} (h : Sim db l hist)
    (hc : Covers db.inner.gcFloor datastore (writesOf hist)) (dirty : List Bytes) :
    Sim { db with inner := { db.inner with datastore := datastore, gcDirtyKeys := dirty } } l
      hist where
  stores := { h.stores with chains := hc }
  committed := h.committed
  length := h.length
  sessions j := rel_mono (h.sessions j) fun _ _ _ hs =>
    hs.mono le_rfl le_rfl hs.floor fun _ _ _ => id

theorem Covers.gcKey (h : Covers W datastore P) (hw : w ≤ W) (key : Bytes) :
    Covers W (Inner.gcKey w datastore key) P := by
  intro key'
  rw [chainAt_gcKey]
  split
  · simpa only [Nat.max_eq_left hw] using (h key').gc w
  · exact h key'

/-- The floor a turn of the worker publishes lies above its watermark, and below everybody who is
still reading. -/
theorem Sim.computeCleanupTs {db : Database} (h : Sim db l hist) (now : Nat) :
    Sim { db with inner := (db.inner.computeCleanupTs now).1 } l hist ∧
      (db.inner.computeCleanupTs now).2 ≤ (db.inner.computeCleanupTs now).1.gcFloor := by
  let proposed := min (min now (db.inner.earliestActiveVersion now)) db.inner.timestamp
  have hw : (db.inner.computeCleanupTs now).2 ≤ max db.inner.gcFloor proposed :=
    (Nat.min_le_left _ _).trans (Nat.le_max_right _ _)
  refine ⟨?_, hw⟩
  exact {
    stores := { h.stores with
      floor := Nat.max_le.2 ⟨h.stores.floor, Nat.min_le_right _ _⟩
      chains := fun key => (h.stores.chains key).weaken (Nat.le_max_left _ _) }
    committed := h.committed
    length := h.length
    sessions := fun j => by
      refine rel_mono (h.sessions j) fun tx s hj hs => hs.mono le_rfl le_rfl ?_ fun _ _ _ => id
      have hle : db.inner.earliestActiveVersion now ≤ tx.version :=
        h.stores.byOracle.earliestActive_le (holders_pos (·.version) hj) now
      exact Nat.max_le.2 ⟨hs.floor, ((Nat.min_le_left _ _).trans (Nat.min_le_right _ _)).trans hle⟩ }

def GcStage.cleanupTs : GcStage → Nat
  | .parked => 0
  | .dirty cleanupTs _ | .full cleanupTs _ => cleanupTs

namespace Maintained
variable {m : Maintained} {l : Ledger}

/-- Behind the workers there is the ledger: the watermark a pass goes on with stays published. -/
def Follows (m : Maintained) (l : Ledger) : Prop :=
  (∃ hist, Sim m.db l hist) ∧ m.stage.cleanupTs ≤ m.db.inner.gcFloor

theorem Follows.collect (h : m.Follows l) (hc : Collects m now m') : m'.Follows l := by
  obtain ⟨⟨hist, hsim⟩, hts⟩ := h
  have hchains := hsim.stores.chains
  cases hc with
  | wakes =>
    obtain ⟨hs, hle⟩ := hsim.computeCleanupTs now
    exact ⟨⟨hist, hs⟩, hle⟩
  | skips hs =>
    rw [hs] at hts
    exact ⟨⟨hist, hsim.restock hchains _⟩, hts⟩
  | compacts hs =>
    rw [hs] at hts
    exact ⟨⟨hist, hsim.restock (Covers.gcKey hchains hts _) _⟩, hts⟩
  | drained => exact ⟨⟨hist, hsim⟩, Nat.zero_le _⟩
  | turns hs =>
    rw [hs] at hts
    exact ⟨⟨hist, hsim⟩, hts⟩
  | passes hs =>
    rw [hs] at hts
    exact ⟨⟨hist, hsim.restock (Covers.gcKey hchains hts _) _⟩, hts⟩
  | ends => exact ⟨⟨hist, hsim⟩, Nat.zero_le _⟩

theorem Follows.call (h : m.Follows l) (c : Call) (now : Nat) :
    ∃ m', m.step (.call c now) = some (m', some (l.step c).2) ∧ m'.Follows (l.step c).1 := by
  obtain ⟨⟨hist, hsim⟩, hts⟩ := h
  obtain ⟨db, hist', hstep, hsim'⟩ := hsim.step c now
  refine ⟨{ m with db }, by simp [Maintained.step, hstep], ⟨hist', hsim'⟩, ?_⟩
  exact hts.trans (Database.step_gcFloor hstep)

theorem Follows.run (h : m.Follows l) (actions : List MaintainedAction) :
    ∃ m' answers, Execution.collect step m actions = some (m', answers) ∧
      m'.Follows (Execution.respond Ledger.step l (actions.filterMap MaintainedAction.call?)).1 ∧
      answers.filterMap id =
        (Execution.respond Ledger.step l (actions.filterMap MaintainedAction.call?)).2 := by
  induction actions generalizing m l with
  | nil => exact ⟨m, [], rfl, h, rfl⟩
  | cons a actions ih =>
    cases a with
    | call c now =>
      obtain ⟨m₁, hstep, h₁⟩ := h.call c now
      obtain ⟨m', answers, hrun, h', hans⟩ := ih h₁
      exact ⟨m', some (l.step c).2 :: answers, by simp [Execution.collect, hstep, hrun], h',
        congrArg ((l.step c).2 :: ·) hans⟩
    | collect now =>
      obtain ⟨m', answers, hrun, h', hans⟩ := ih (h.collect (m.collects now))
      exact ⟨m', none :: answers, by simp [Execution.collect, Maintained.step, hrun], h', hans⟩
    | cleanup =>
      obtain ⟨⟨hist, hsim⟩, hts⟩ := h
      have h₁ : (m.withInner m.db.inner.runCleanupInner).Follows l :=
        ⟨⟨hist, hsim.runCleanup⟩, hts⟩
      obtain ⟨m', answers, hrun, h', hans⟩ := ih h₁
      exact ⟨m', none :: answers, by simp [Execution.collect, Maintained.step, hrun], h', hans⟩

theorem Follows.opened (start threshold frequency : Nat) :
    (opened ∅ start threshold frequency).Follows .new :=
  ⟨⟨[], Sim.new start threshold⟩, le_rfl⟩

/-- The background workers are not to be seen. Wherever the garbage worker stands in a pass when a
call comes in, every call returns, and answers as the ledger, which knows no workers. A call, a
turn of the cleanup worker and one key of a pass are atomic. -/
theorem workers_unobservable (start threshold frequency : Nat) (actions : List MaintainedAction) :
    ∃ m answers, Execution.collect step (.opened ∅ start threshold frequency) actions =
        some (m, answers) ∧
      answers.filterMap id =
        (Execution.respond Ledger.step .new (actions.filterMap MaintainedAction.call?)).2 := by
  obtain ⟨m, answers, hrun, -, hans⟩ := (Follows.opened start threshold frequency).run actions
  exact ⟨m, answers, hrun, hans⟩

end Maintained

end StupidKv
