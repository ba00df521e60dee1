import StupidKv.ChainCoverage
import StupidKv.Queue

namespace StupidKv
open Std
set_option autoImplicit true

/-- A shared reference count. `COUNTER_TOMBSTONE` is a constructor of its own: a count would need
`2 ^ 64 - 1` live transactions to reach it. -/
inductive Counter where
  | count (n : Nat)
  | tombstone
deriving DecidableEq, Repr

/-- Neither zero nor a tombstone. -/
def Counter.active : Counter → Bool
  | .count n => n != 0
  | .tombstone => false

/-- The shared state of one database; `timestamp` is the oracle's high-water mark. -/
structure Inner where
  timestamp : Nat
  transactionCommitId : Nat
  transactionQueueId : Nat
  transactionCommitQueue : SkipMap Nat Commit
  transactionMergeId : Nat
  transactionMergeQueue : SkipMap Nat Merge
  counterByCommit : SkipMap Nat Counter
  counterByOracle : SkipMap Nat Counter
  gcFloor : Nat
  gcDirtyKeys : List Bytes
  datastore : SkipMap Bytes Versions
  resetThreshold : Nat

namespace Inner

def new (referenceUnix resetThreshold : Nat) : Inner where
  timestamp := referenceUnix
  transactionCommitId := 0
  transactionQueueId := 0
  transactionCommitQueue := ∅
  transactionMergeId := 0
  transactionMergeQueue := ∅
  counterByCommit := ∅
  counterByOracle := ∅
  gcFloor := 0
  gcDirtyKeys := []
  datastore := ∅
  resetThreshold := resetThreshold

end Inner

/-- The first key whose counter is active, in key order. -/
def earliestActive (map : SkipMap Nat Counter) (fallback : Nat) : Nat :=
  match map.toList.find? fun e => e.2.active with
  | some e => e.1
  | none => fallback

/-- `register_counter` without interference: the watched atomic holds `v` throughout. The loop
never returns on a tombstone nobody removes, nor on a floor above `v`. -/
def registerCounter (map : SkipMap Nat Counter) (v : Nat) (gcFloor : Option Nat) :
    Option (SkipMap Nat Counter) :=
  match map[v]?.getD (.count 0) with
  | .tombstone => none
  | .count n => if gcFloor.all (· ≤ v) then some (map.insert v (.count (n + 1))) else none

/-- `release_counter` followed by the removal its caller owes on `true`. -/
def releaseCounter (map : SkipMap Nat Counter) (v : Nat) : SkipMap Nat Counter :=
  map.alter v fun
    | some (.count (n + 2)) => some (.count (n + 1))
    | some (.count 1) => none
    | some (.count 0) => some (.count 0)
    | some .tombstone => some (.count (2 ^ 64 - 2))
    | none => none

/-- Compact one chain; an empty chain gives up its entry. -/
def gcEntry (cleanupTs : Nat) (versions : Versions) : Option Versions :=
  let versions := versions.gcOlderVersions cleanupTs
  if versions.inner.length = 0 then none else some versions

namespace Inner

def earliestActiveVersion (db : Inner) (fallback : Nat) : Nat :=
  earliestActive db.counterByOracle fallback

def earliestActiveCommit (db : Inner) (fallback : Nat) : Nat :=
  earliestActive db.counterByCommit fallback

def runCleanupInner (db : Inner) : Inner :=
  let fallback := db.transactionCommitId
  let oldest := db.earliestActiveCommit fallback
  { db with
    transactionCommitQueue := db.transactionCommitQueue.filter fun id _ => !decide (id < oldest) }

/-- The watermark of a version GC pass that reads the clock as `now`, and the published floor. -/
def computeCleanupTs (db : Inner) (now : Nat) : Inner × Nat :=
  let earliestTx := db.earliestActiveVersion now
  let oracleNow := db.timestamp
  let proposed := min (min now earliestTx) oracleNow
  let db := { db with gcFloor := max db.gcFloor proposed }
  let earliestAfter := db.earliestActiveVersion now
  (db, min proposed earliestAfter)

def gcKey (cleanupTs : Nat) (datastore : SkipMap Bytes Versions) (key : Bytes) :
    SkipMap Bytes Versions :=
  datastore.alter key fun entry => entry.bind (gcEntry cleanupTs)

/-- Drain the dirty queue, compacting each key the first time it is met. -/
def gcDirtyLoop (cleanupTs : Nat) (datastore : SkipMap Bytes Versions) :
    List Bytes → ExtTreeSet Bytes compare → SkipMap Bytes Versions
  | [], _ => datastore
  | key :: keys, seen =>
    if seen.contains key then gcDirtyLoop cleanupTs datastore keys seen
    else gcDirtyLoop cleanupTs (gcKey cleanupTs datastore key) keys (seen.insert key)

def runGcDirtyInner (db : Inner) (cleanupTs : Nat) : Inner :=
  { db with
    datastore := gcDirtyLoop cleanupTs db.datastore db.gcDirtyKeys ∅
    gcDirtyKeys := [] }

def runGcFull (db : Inner) (cleanupTs : Nat) : Inner :=
  { db with datastore := db.datastore.filterMap fun _ versions => gcEntry cleanupTs versions }

/-- One pass of either path at a given watermark. -/
def gcPass (db : Inner) (cleanupTs : Nat) : Inner :=
  (db.runGcDirtyInner cleanupTs).runGcFull cleanupTs

def runGc (db : Inner) (now : Nat) : Inner :=
  let (db, cleanupTs) := db.computeCleanupTs now
  db.gcPass cleanupTs

/-- One turn of the `auto_commit` loop; `none` when another commit holds the slot. -/
def autoCommit (db : Inner) (updates : Commit) : Option (Inner × Nat) :=
  let version := db.transactionCommitId + 1
  let queue := db.transactionCommitQueue.insertIfNew version updates
  if queue[version]?.any fun entry => entry.id == updates.id then
    some ({ db with
      transactionCommitQueue := queue
      transactionCommitId := db.transactionCommitId + 1 }, version)
  else none

/-- One turn of the `atomic_merge` loop on a clock that reads `now`. -/
def atomicMerge (db : Inner) (updates : Merge) (now : Nat) : Option (Inner × Nat) :=
  let version := if now ≤ db.timestamp then db.timestamp + 1 else now
  let queue := db.transactionMergeQueue.insertIfNew version updates
  if queue[version]?.any fun entry => entry.id == updates.id then
    some ({ db with
      transactionMergeQueue := queue
      timestamp := max db.timestamp version }, version)
  else none

theorem atomicMerge_cases {db db' : Inner} {n : Nat}
    (h : db.atomicMerge updates now = some (db', n)) :
    db.timestamp < n ∧ db' = { db with
      transactionMergeQueue := db.transactionMergeQueue.insertIfNew n updates
      timestamp := n } := by
  simp only [atomicMerge, Option.ite_none_right_eq_some, Option.some.injEq,
    Prod.mk.injEq] at h
  obtain ⟨-, rfl, rfl⟩ := h
  have hlt : db.timestamp < if now ≤ db.timestamp then db.timestamp + 1 else now := by
    split <;> omega
  exact ⟨hlt, by rw [Nat.max_eq_right hlt.le]⟩

/-- Get or create the entry, seeded with the write itself, then push. -/
def pushKey (datastore : SkipMap Bytes Versions) (version : Nat) (key : Bytes)
    (value : Option Bytes) : SkipMap Bytes Versions :=
  datastore.alter key fun entry =>
    some ((entry.getD (.ofVersion ⟨version, value⟩)).push ⟨version, value⟩)

def writeKey (db : Inner) (version : Nat) (e : Bytes × Option Bytes) : Inner :=
  { db with
    datastore := pushKey db.datastore version e.1 e.2
    gcDirtyKeys := db.gcDirtyKeys ++ [e.1] }

def writeAll (db : Inner) (version : Nat) (writeset : Writeset) : Inner :=
  writeset.toList.foldl (fun db e => db.writeKey version e) db

def removeMerge (db : Inner) (version : Nat) : Inner :=
  { db with transactionMergeQueue := db.transactionMergeQueue.erase version }

/-- The newest pending write of `key` at or below `version`. -/
def pendingWrite (db : Inner) (key : Bytes) (version : Nat) : Option (Option Bytes) :=
  (db.transactionMergeQueue.toList.filter fun e => e.1 ≤ version).reverse.findSome? fun e =>
    e.2.writeset[key]?

def fetchInDatastore (db : Inner) (key : Bytes) (version : Nat) : Option Bytes :=
  match db.pendingWrite key version with
  | some v => v
  | none => db.datastore[key]?.bind fun e => e.fetchVersion version

def existsInDatastore (db : Inner) (key : Bytes) (version : Nat) : Bool :=
  match db.pendingWrite key version with
  | some v => v.isSome
  | none => db.datastore[key]?.any fun e => e.existsVersion version

theorem existsInDatastore_eq (db : Inner) (key : Bytes) (q : Nat) :
    db.existsInDatastore key q = (db.fetchInDatastore key q).isSome := by
  unfold existsInDatastore fetchInDatastore
  cases db.pendingWrite key q with
  | some v => rfl
  | none =>
    cases db.datastore[key]? with
    | none => rfl
    | some ch => exact ch.existsVersion_eq q

end Inner

end StupidKv
