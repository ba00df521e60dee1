import StupidKv.Transaction

namespace StupidKv
open Std
set_option autoImplicit true

/-- A database with its pool of finished transactions. A handle is `none` once dropped. -/
structure Database where
  inner : Inner
  pool : List TransactionInner
  transactions : List (Option TransactionInner)

/-- The methods of one transaction handle; `drop` is the destructor. -/
inductive Op where
  | withSnapshotIsolation
  | withSerializableSnapshotIsolation
  | get (key : Bytes)
  | exists (key : Bytes)
  | set (key val : Bytes)
  | put (key val : Bytes)
  | del (key : Bytes)
  | commit
  | cancel
  | drop
deriving DecidableEq, Repr

/-- The API calls; a handle is named by its position in `transactions`. -/
inductive Call where
  | transaction (write : Bool)
  | on (i : Nat) (op : Op)
  | runGc
  | runCleanup
deriving DecidableEq, Repr

/-- What a call returns; `gone` stands for the use of a dropped handle, which does not compile. -/
inductive Response where
  | handle (i : Nat)
  | unit
  | done (r : Except Error Unit)
  | value (r : Except Error (Option Bytes))
  | found (r : Except Error Bool)
  | gone
deriving DecidableEq

namespace Database

def defaultPoolSize : Nat := 512

def new (referenceUnix resetThreshold : Nat) : Database :=
  ⟨.new referenceUnix resetThreshold, [], []⟩

/-- `Pool::get`: recycle the oldest pooled transaction, or build one. -/
def poolGet (db : Database) (write : Bool) : Option (Database × TransactionInner) :=
  match db.pool with
  | tx :: pool => do
    let (inner, tx) ← tx.reset db.inner write
    return ({ db with inner, pool }, tx)
  | [] => do
    let (inner, tx) ← TransactionInner.new db.inner write
    return ({ db with inner }, tx)

/-- `Pool::put`: a full pool drops the object. -/
def poolPut (pool : List TransactionInner) (tx : TransactionInner) : List TransactionInner :=
  if pool.length < defaultPoolSize then pool ++ [tx] else pool

def transaction (db : Database) (write : Bool) : Option (Database × Response) := do
  let (db, tx) ← db.poolGet write
  return ({ db with transactions := db.transactions ++ [some tx] },
    .handle db.transactions.length)

/-- `Drop for Transaction`: release both counters, then hand the object to the pool. -/
def drop (db : Database) (i : Nat) (tx : TransactionInner) : Database where
  inner := { db.inner with
    counterByCommit := releaseCounter db.inner.counterByCommit tx.commit
    counterByOracle := releaseCounter db.inner.counterByOracle tx.version }
  pool := poolPut db.pool tx
  transactions := db.transactions.set i none

/-- A method that only changes the transaction's own state. -/
def update (db : Database) (i : Nat) (r : TransactionInner × Response) :
    Option (Database × Response) :=
  some ({ db with transactions := db.transactions.set i (some r.1) }, r.2)

/-- One method call on the live handle `i`, which holds `tx`. -/
def call (db : Database) (i : Nat) (tx : TransactionInner) (now : Nat) :
    Op → Option (Database × Response)
  | .withSnapshotIsolation => db.update i ({ tx with mode := .snapshotIsolation }, .unit)
  | .withSerializableSnapshotIsolation =>
    db.update i ({ tx with mode := .serializableSnapshotIsolation }, .unit)
  | .get key => db.update i ((tx.get db.inner key).map id .value)
  | .exists key => db.update i ((tx.exists db.inner key).map id .found)
  | .set key val => db.update i ((tx.set key val).map id .done)
  | .put key val => db.update i ((tx.put db.inner key val).map id .done)
  | .del key => db.update i ((tx.del key).map id .done)
  | .cancel => db.update i (tx.cancel.map id .done)
  | .commit => do
    let (inner, tx, r) ← tx.runCommit db.inner now none
    return ({ db with inner, transactions := db.transactions.set i (some tx) }, .done r)
  | .drop => some (db.drop i tx, .unit)

/-- One API call on a clock that reads `now`. -/
def step (db : Database) : Call × Nat → Option (Database × Response)
  | (.transaction write, _) => db.transaction write
  | (.on i op, now) =>
    match db.transactions[i]?.join with
    | some tx => db.call i tx now op
    | none => some (db, .gone)
  | (.runGc, now) => some ({ db with inner := db.inner.runGc now }, .unit)
  | (.runCleanup, _) => some ({ db with inner := db.inner.runCleanupInner }, .unit)

end Database

end StupidKv
