import StupidKv.Inner

namespace StupidKv
open Std
set_option autoImplicit true

inductive IsolationLevel where
  | snapshotIsolation
  | serializableSnapshotIsolation
deriving DecidableEq, Repr

/-- The derived order of the source: snapshot isolation is the weaker level. -/
def IsolationLevel.atLeast : IsolationLevel → IsolationLevel → Bool
  | _, .snapshotIsolation => true
  | .serializableSnapshotIsolation, .serializableSnapshotIsolation => true
  | .snapshotIsolation, .serializableSnapshotIsolation => false

inductive PersistenceError where
  | io
  | serialization
  | deserialization
  | lockFailed
deriving DecidableEq, Repr

inductive Error where
  | txClosed
  | keyWriteConflict
  | keyReadConflict
  | txNotWritable
  | keyAlreadyExists
  | txCommitNotPersisted (e : PersistenceError)
deriving DecidableEq, Repr

/-- A transaction's private state. The shared counters it holds are the ones stored under
`commit` and `version`. -/
structure TransactionInner where
  mode : IsolationLevel
  done : Bool
  write : Bool
  commit : Nat
  version : Nat
  readset : Readset
  readsetBloom : BloomFilter
  writeset : Writeset
  resetThreshold : Nat

namespace Inner

/-- The two registrations of a beginning transaction, version first. -/
def register (db : Inner) : Option Inner := do
  let byOracle ← registerCounter db.counterByOracle db.timestamp (some db.gcFloor)
  let byCommit ← registerCounter db.counterByCommit db.transactionCommitId none
  return { db with counterByOracle := byOracle, counterByCommit := byCommit }

end Inner

namespace TransactionInner

def new (db : Inner) (write : Bool) : Option (Inner × TransactionInner) := do
  let db' ← db.register
  return (db', {
    mode := .snapshotIsolation
    done := false
    write := write
    commit := db.transactionCommitId
    version := db.timestamp
    readset := ∅
    readsetBloom := .new
    writeset := ∅
    resetThreshold := db.resetThreshold })

/-- Recycle a pooled transaction. Whichever way `reset_threshold` picks, the writeset is empty. -/
def reset (tx : TransactionInner) (db : Inner) (write : Bool) :
    Option (Inner × TransactionInner) := do
  let db' ← db.register
  return (db', { tx with
    mode := .snapshotIsolation
    resetThreshold := db.resetThreshold
    readset := ∅
    readsetBloom := tx.readsetBloom.clear
    writeset := ∅
    done := false
    write := write
    version := db.timestamp
    commit := db.transactionCommitId })

/-- The clearing every exit path does. -/
def clearSets (tx : TransactionInner) : TransactionInner :=
  if tx.mode.atLeast .serializableSnapshotIsolation then
    { tx with readset := ∅, readsetBloom := tx.readsetBloom.clear, writeset := ∅ }
  else { tx with writeset := ∅ }

def cancel (tx : TransactionInner) : TransactionInner × Except Error Unit :=
  if tx.done then (tx, .error .txClosed)
  else ({ tx with done := true }.clearSets, .ok ())

/-- Remember a key whose answer came from the shared state. -/
def track (tx : TransactionInner) (key : Bytes) : TransactionInner :=
  if tx.mode.atLeast .serializableSnapshotIsolation then
    if tx.readset.contains key then tx
    else { tx with
      readset := tx.readset.insert key
      readsetBloom := tx.readsetBloom.insert key }
  else tx

def get (tx : TransactionInner) (db : Inner) (key : Bytes) :
    TransactionInner × Except Error (Option Bytes) :=
  if tx.done then (tx, .error .txClosed)
  else if tx.write then
    match tx.writeset[key]? with
    | some v => (tx, .ok v)
    | none => (tx.track key, .ok (db.fetchInDatastore key tx.version))
  else (tx, .ok (db.fetchInDatastore key tx.version))

def «exists» (tx : TransactionInner) (db : Inner) (key : Bytes) :
    TransactionInner × Except Error Bool :=
  if tx.done then (tx, .error .txClosed)
  else if tx.write then
    match tx.writeset[key]? with
    | some _ => (tx, .ok true)
    | none => (tx.track key, .ok (db.existsInDatastore key tx.version))
  else (tx, .ok (db.existsInDatastore key tx.version))

/-- The body `set` and `del` share; a deletion stores `none`. -/
def store (tx : TransactionInner) (key : Bytes) (value : Option Bytes) :
    TransactionInner × Except Error Unit :=
  if tx.done then (tx, .error .txClosed)
  else if !tx.write then (tx, .error .txNotWritable)
  else ({ tx with writeset := tx.writeset.insert key value }, .ok ())

def set (tx : TransactionInner) (key val : Bytes) : TransactionInner × Except Error Unit :=
  tx.store key (some val)

def del (tx : TransactionInner) (key : Bytes) : TransactionInner × Except Error Unit :=
  tx.store key none

def put (tx : TransactionInner) (db : Inner) (key val : Bytes) :
    TransactionInner × Except Error Unit :=
  if tx.done then (tx, .error .txClosed)
  else if !tx.write then (tx, .error .txNotWritable)
  else
    match tx.writeset[key]? with
    | some _ => (tx, .error .keyAlreadyExists)
    | none =>
      if db.existsInDatastore key tx.version then (tx, .error .keyAlreadyExists)
      else ({ tx with writeset := tx.writeset.insert key (some val) }, .ok ())

/-- The check of one earlier commit against this transaction. -/
def conflict (tx : TransactionInner) (entry other : Commit) : Option Error :=
  if !other.isDisjointWritesetBloom entry then some .keyWriteConflict
  else if tx.mode.atLeast .serializableSnapshotIsolation &&
      !other.isDisjointReadsetBloom tx.readset tx.readsetBloom then some .keyReadConflict
  else none

/-- The first conflict in `tx.commit + 1 .. version`. -/
def validate (tx : TransactionInner) (db : Inner) (version : Nat) (entry : Commit) :
    Option Error :=
  if tx.mode.atLeast .snapshotIsolation then
    (db.transactionCommitQueue.toList.filter fun e =>
      tx.commit + 1 ≤ e.1 && decide (e.1 < version)).findSome? fun e => tx.conflict entry e.2
  else none

/-- What follows a passed validation. `append` is the outcome of the log append, `none` without
persistence. -/
def applyWriteset (writeset : Writeset) (db : Inner) (now : Nat)
    (append : Option (Except PersistenceError Unit)) : Option (Inner × Except Error Unit) := do
  let merge : Merge := ⟨db.transactionMergeId + 1, writeset⟩
  let (db, version) ←
    { db with transactionMergeId := db.transactionMergeId + 1 }.atomicMerge merge now
  let db := db.writeAll version writeset
  match append with
  | some (.error e) => return (db.removeMerge version, .error (.txCommitNotPersisted e))
  | _ => return (db.removeMerge version, .ok ())

/-- The method `commit` as one step; `none` only if a retry loop can never leave. -/
def runCommit (tx : TransactionInner) (db : Inner) (now : Nat)
    (append : Option (Except PersistenceError Unit)) :
    Option (Inner × TransactionInner × Except Error Unit) :=
  if tx.done then some (db, tx, .error .txClosed)
  else if tx.writeset.isEmpty then some (db, { tx with done := true }, .ok ())
  else do
    let entry := Commit.ofWriteset (db.transactionQueueId + 1) tx.writeset
    let tx' := { tx with done := true, writeset := ∅ }
    let (db, version) ←
      { db with transactionQueueId := db.transactionQueueId + 1 }.autoCommit entry
    match tx'.validate db version entry with
    | some e =>
      return ({ db with transactionCommitQueue := db.transactionCommitQueue.erase version },
        tx'.clearSets, .error e)
    | none =>
      let (db, r) ← applyWriteset tx.writeset db now append
      return (db, tx'.clearSets, r)

end TransactionInner

end StupidKv
