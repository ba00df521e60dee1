import StupidKv.ConflictChecks
import StupidKv.CounterCells

namespace StupidKv
open Std
set_option autoImplicit true

/-- The object of a transaction with the two counters it shares. -/
structure TransactionObject extends TransactionInner where
  counterCommit : Nat
  counterVersion : Nat

/-- A database down to its `Arc`s: `byCommit` and `byOracle` are its counter maps, and those of
`inner` are not used. -/
structure PooledDatabase where
  inner : Inner
  byCommit : CounterCells
  byOracle : CounterCells
  pool : List TransactionObject
  transactions : List (Option TransactionObject)

/-- Where a beginning transaction takes its object from: the pool, or always a new one. -/
inductive Supply where
  | pooled
  | built
deriving DecidableEq, Repr

/-- The API calls, with the two accessors of a handle. -/
inductive PoolCall where
  | request (r : Request)
  | version (i : Nat)
  | closed (i : Nat)

inductive Reply where
  | response (r : Response)
  | version (v : Nat)
  | closed (b : Bool)
deriving DecidableEq

def Writeset.clear (_ : Writeset) : Writeset := ∅

def Readset.clear (_ : Readset) : Readset := ∅

/-- What a method answers and what it leaves; a drop is up to the owner of the object. -/
def TransactionInner.invoke (tx : TransactionInner) (db : Inner) (now : Nat)
    (append : Option (Except PersistenceError Unit)) :
    Op → Option (Inner × TransactionInner × Response)
  | .withSnapshotIsolation => some (db, { tx with mode := .snapshotIsolation }, .unit)
  | .withSerializableSnapshotIsolation =>
    some (db, { tx with mode := .serializableSnapshotIsolation }, .unit)
  | .get key => some (db, (tx.get db key).map id .value)
  | .exists key => some (db, (tx.exists db key).map id .found)
  | .set key val => some (db, (tx.set key val).map id .done)
  | .put key val => some (db, (tx.put db key val).map id .done)
  | .del key => some (db, (tx.del key).map id .done)
  | .cancel => some (db, tx.cancel.map id .done)
  | .commit => (tx.runCommit db now append).map fun p => (p.1, p.2.1, .done p.2.2)
  | .drop => some (db, tx, .unit)

namespace PooledDatabase

/-- A database over the data its constructor has found. -/
def opened (datastore : SkipMap Bytes Versions) (referenceUnix resetThreshold : Nat) :
    PooledDatabase :=
  ⟨{ Inner.new referenceUnix resetThreshold with datastore := datastore }, .new, .new, [], []⟩

/-- The shared state, its counters read through their references. -/
def shared (db : PooledDatabase) : Inner :=
  { db.inner with counterByCommit := db.byCommit.counts, counterByOracle := db.byOracle.counts }

/-- The two registrations of a beginning transaction, with the cells it holds from then on. -/
def register (db : PooledDatabase) : Option (PooledDatabase × Nat × Nat) := do
  let (byOracle, counterVersion) ← db.byOracle.register db.inner.timestamp (some db.inner.gcFloor)
  let (byCommit, counterCommit) ← db.byCommit.register db.inner.transactionCommitId none
  return ({ db with byOracle, byCommit }, counterVersion, counterCommit)

end PooledDatabase

namespace TransactionObject

/-- The object of a transaction that has registered and done nothing. -/
def blank (db : PooledDatabase) (write : Bool) (counterVersion counterCommit : Nat) :
    TransactionObject where
  mode := .snapshotIsolation
  done := false
  write := write
  commit := db.inner.transactionCommitId
  counterCommit := counterCommit
  version := db.inner.timestamp
  counterVersion := counterVersion
  readset := ∅
  readsetBloom := .new
  writeset := ∅
  resetThreshold := db.inner.resetThreshold

def new (db : PooledDatabase) (write : Bool) : Option (PooledDatabase × TransactionObject) := do
  let (db', counterVersion, counterCommit) ← db.register
  return (db', blank db write counterVersion counterCommit)

def reset (tx : TransactionObject) (db : PooledDatabase) (write : Bool) :
    Option (PooledDatabase × TransactionObject) := do
  let (db', counterVersion, counterCommit) ← db.register
  let resetThreshold := db.inner.resetThreshold
  return (db', { tx with
    mode := .snapshotIsolation
    resetThreshold := resetThreshold
    readset := Readset.clear tx.readset
    readsetBloom := tx.readsetBloom.clear
    writeset := if tx.writeset.size > resetThreshold then ∅ else Writeset.clear tx.writeset
    done := false
    write := write
    version := db.inner.timestamp
    counterVersion := counterVersion
    commit := db.inner.transactionCommitId
    counterCommit := counterCommit })

end TransactionObject

namespace Supply

/-- `Pool::get`, with or without a pool. -/
def get (s : Supply) (db : PooledDatabase) (write : Bool) :
    Option (PooledDatabase × TransactionObject) :=
  match s, db.pool with
  | .pooled, tx :: pool => tx.reset { db with pool } write
  | _, _ => TransactionObject.new db write

/-- `Pool::put`: a full pool drops the object, and so does a database without one. -/
def put (s : Supply) (pool : List TransactionObject) (tx : TransactionObject) :
    List TransactionObject :=
  match s with
  | .pooled => if pool.length < Database.defaultPoolSize then pool ++ [tx] else pool
  | .built => pool

end Supply

namespace PooledDatabase

/-- `Drop for Transaction`: release both counters through their references, then hand the object
over as it is. -/
def drop (s : Supply) (db : PooledDatabase) (i : Nat) (tx : TransactionObject) :
    Option PooledDatabase := do
  let byCommit ← db.byCommit.release tx.counterCommit tx.commit
  let byOracle ← db.byOracle.release tx.counterVersion tx.version
  return { db with
    byCommit, byOracle
    pool := s.put db.pool tx
    transactions := db.transactions.set i none }

/-- A method other than `drop` on the live handle `i`, which holds `tx`. -/
def invoke (db : PooledDatabase) (i : Nat) (tx : TransactionObject) (now : Nat)
    (append : Option (Except PersistenceError Unit)) (op : Op) :
    Option (PooledDatabase × Response) := do
  let (inner, tx', r) ← tx.toTransactionInner.invoke db.shared now append op
  let tx' := { tx with toTransactionInner := tx' }
  return ({ db with inner, transactions := db.transactions.set i (some tx') }, r)

def request (s : Supply) (db : PooledDatabase) (r : Request) :
    Option (PooledDatabase × Response) :=
  match r.call with
  | .transaction write => do
    let (db, tx) ← s.get db write
    return ({ db with transactions := db.transactions ++ [some tx] },
      .handle db.transactions.length)
  | .on i op =>
    match db.transactions[i]?.join, op with
    | none, _ => some (db, .gone)
    | some tx, .drop => (db.drop s i tx).map (·, .unit)
    | some tx, op => db.invoke i tx r.now r.append op
  | .runGc => some ({ db with inner := db.shared.runGc r.now }, .unit)
  | .runCleanup => some ({ db with inner := db.shared.runCleanupInner }, .unit)

def serve (s : Supply) (db : PooledDatabase) : PoolCall → Option (PooledDatabase × Reply)
  | .request r => (db.request s r).map fun p => (p.1, .response p.2)
  | .version i => some (db, match db.transactions[i]?.join with
    | some tx => .version tx.version
    | none => .response .gone)
  | .closed i => some (db, match db.transactions[i]?.join with
    | some tx => .closed tx.done
    | none => .response .gone)

end PooledDatabase

/-- No exit path marks an object: a reset writes every field. -/
theorem TransactionObject.reset_eq_new (tx : TransactionObject) (db : PooledDatabase)
    (write : Bool) : tx.reset db write = TransactionObject.new db write := by
  have hclear : (if tx.writeset.size > db.inner.resetThreshold then ∅
      else Writeset.clear tx.writeset) = ∅ := by
    split
    · rfl
    · rfl
  simp only [reset, hclear]
  rfl

theorem TransactionInner.reset_eq_new (tx : TransactionInner) (db : Inner) (write : Bool) :
    tx.reset db write = TransactionInner.new db write := rfl

theorem Database.poolGet_eq_new (db : Database) (write : Bool) :
    db.poolGet write = (TransactionInner.new db.inner write).map fun p =>
      ({ db with inner := p.1, pool := db.pool.tail }, p.2) := by
  obtain ⟨inner, pool, transactions⟩ := db
  cases pool with
  | nil =>
    simp only [Database.poolGet, Option.map_eq_bind]
    rfl
  | cons tx pool =>
    simp only [Database.poolGet, TransactionInner.reset_eq_new, Option.map_eq_bind]
    rfl

theorem Supply.pooled_get_eq_new (db : PooledDatabase) (write : Bool) :
    Supply.pooled.get db write = TransactionObject.new { db with pool := db.pool.tail } write := by
  obtain ⟨inner, byCommit, byOracle, pool, transactions⟩ := db
  cases pool with
  | nil => rfl
  | cons tx pool => exact tx.reset_eq_new _ write

theorem TransactionObject.new_pool (db : PooledDatabase) (pool : List TransactionObject)
    (write : Bool) :
    TransactionObject.new { db with pool := pool } write =
      (TransactionObject.new db write).map fun p => ({ p.1 with pool := pool }, p.2) := by
  simp only [new, PooledDatabase.register]
  cases db.byOracle.register db.inner.timestamp (some db.inner.gcFloor) with
  | none => rfl
  | some o =>
    cases db.byCommit.register db.inner.transactionCommitId none with
    | none => rfl
    | some c => rfl

theorem Supply.pooled_get {db db' : PooledDatabase}
    (h : db.register = some (db', counterVersion, counterCommit)) (write : Bool) :
    Supply.pooled.get db write = some ({ db' with pool := db.pool.tail },
      TransactionObject.blank db write counterVersion counterCommit) := by
  rw [pooled_get_eq_new, TransactionObject.new_pool, TransactionObject.new, h]
  rfl

theorem runCommit_counters {db db' : Inner} {tx tx' : TransactionInner}
    (h : tx.runCommit db now append = some (db', tx', r)) :
    db'.counterByCommit = db.counterByCommit ∧ db'.counterByOracle = db.counterByOracle := by
  unfold TransactionInner.runCommit at h
  split at h
  · cases h
    exact ⟨rfl, rfl⟩
  · split at h
    · cases h
      exact ⟨rfl, rfl⟩
    · obtain ⟨⟨db₁, version⟩, hauto, h⟩ := Option.bind_eq_some_iff.1 h
      simp only [Inner.autoCommit, Option.ite_none_right_eq_some, Option.some.injEq,
        Prod.mk.injEq] at hauto
      obtain ⟨-, rfl, rfl⟩ := hauto
      dsimp only at h
      split at h
      · cases h
        exact ⟨rfl, rfl⟩
      · obtain ⟨⟨db₂, res⟩, happ, h⟩ := Option.bind_eq_some_iff.1 h
        cases h
        obtain ⟨-, hc, ho⟩ := applyWriteset_frame happ
        exact ⟨hc, ho⟩

end StupidKv
