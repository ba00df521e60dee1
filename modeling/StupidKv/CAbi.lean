import StupidKv.Lib.Heap
import StupidKv.Requests

namespace StupidKv
open Std
set_option autoImplicit true

abbrev Ptr := Nat

/-- What the library has on its heap for its callers: boxes behind handles, and the buffers it
hands out. A transaction is named as in `Database`. -/
inductive Allocation where
  | database
  | transaction (i : Nat)
  | value (v : Bytes)
  | string (msg : String)
deriving DecidableEq

/-- The library's side of the process. The shared state outlives the database handle. -/
structure CLibrary where
  heap : Heap Allocation
  db : Database

/-- A pointer with a length, as C passes buffers: `none` is the null pointer, otherwise the memory
there. -/
structure CBuffer where
  ptr : Option Bytes
  len : Nat

/-- What the world does during a call: the clock, and what becomes of the file accesses. -/
structure World where
  now : Nat
  append : Option (Except PersistenceError Unit)
  snapshot : Except PersistenceError Unit

def skOk : Int := 0
def skNotFound : Int := 1
def skNullArg : Int := -1
def skTxClosed : Int := -2
def skTxNotWritable : Int := -3
def skWriteConflict : Int := -4
def skReadConflict : Int := -5
def skAlreadyExists : Int := -6
def skCommitNotPersisted : Int := -7
def skIo : Int := -8

/-- A return code, and what was stored through `err_out`. -/
structure CReply where
  code : Int
  err : Option Ptr

namespace CLibrary

/-- `err_out` says whether the caller gave a place for the message. -/
def setErr (s : CLibrary) (errOut : Bool) (msg : String) : CLibrary × Option Ptr :=
  if errOut then
    let c := if '\x00' ∈ msg.toList then "invalid error message" else msg
    let (heap, ptr) := s.heap.alloc (.string c)
    ({ s with heap }, some ptr)
  else (s, none)

def mapErr (detail : PersistenceError → String) : Error → Int × String
  | .txClosed => (skTxClosed, "transaction is closed")
  | .keyWriteConflict => (skWriteConflict, "write conflict, retry the transaction")
  | .keyReadConflict => (skReadConflict, "read conflict, retry the transaction")
  | .txNotWritable => (skTxNotWritable, "transaction is not writable")
  | .keyAlreadyExists => (skAlreadyExists, "key already exists")
  | .txCommitNotPersisted p => (skCommitNotPersisted, "commit not persisted: " ++ detail p)

/-- The end of an entry point; nothing in the calls below panics. -/
def guard (s : CLibrary) (errOut : Bool) : Except (Int × String) Int → CLibrary × CReply
  | .ok code => (s, ⟨code, none⟩)
  | .error (code, msg) =>
    let (s, err) := s.setErr errOut msg
    (s, ⟨code, err⟩)

/-- Borrow a buffer as a slice. A length beyond the memory behind the pointer is undefined. -/
def bytes (b : CBuffer) : Option (Except Int Bytes) :=
  match b.ptr with
  | none => some (if b.len ≠ 0 then .error skNullArg else .ok [])
  | some mem => if b.len ≤ mem.length then some (.ok (mem.take b.len)) else none

/-- The transaction in a handle's box. -/
def lockTx (s : CLibrary) (tx : Ptr) : Option Nat :=
  match s.heap.read tx with
  | some (.transaction i) => some i
  | _ => none

/-- A method of the transaction inside a handle. -/
def method (s : CLibrary) (i : Nat) (op : Op) (w : World) : Option (CLibrary × Response) := do
  let (db, r) ← s.db.serve ⟨.on i op, w.now, w.append⟩
  return ({ s with db }, r)

def skDbNewWithOptions (datastore : SkipMap Bytes Versions) (clock threshold : Nat) :
    CLibrary × Ptr :=
  let (heap, ptr) := Heap.empty.alloc .database
  (⟨heap, .opened datastore clock threshold⟩, ptr)

def skDbFree (s : CLibrary) (db : Option Ptr) : Option CLibrary :=
  match db with
  | none => some s
  | some db =>
    if s.heap.read db = some .database then do
      let heap ← s.heap.free db
      return { s with heap }
    else none

/-- There is no check for null here. -/
def skDbTxBegin (s : CLibrary) (db : Option Ptr) (write : Int) (w : World) :
    Option (CLibrary × Ptr) := do
  let db ← db
  if s.heap.read db = some .database then
    let (core, r) ← s.db.serve ⟨.transaction (write ≠ 0), w.now, w.append⟩
    match r with
    | .handle i =>
      let (heap, ptr) := s.heap.alloc (.transaction i)
      return (⟨heap, core⟩, ptr)
    | _ => none
  else none

def skDbSnapshot (detail : PersistenceError → String) (s : CLibrary) (db : Option Ptr)
    (errOut : Bool) (w : World) : Option (CLibrary × CReply) :=
  match db with
  | none => some (s, ⟨skNullArg, none⟩)
  | some db =>
    if s.heap.read db = some .database then
      some (s.guard errOut (match w.snapshot with
        | .ok () => .ok skOk
        | .error e => .error (skIo, detail e)))
    else none

def skTxFree (s : CLibrary) (tx : Option Ptr) (w : World) : Option CLibrary :=
  match tx with
  | none => some s
  | some tx => do
    let i ← s.lockTx tx
    let (s, _) ← s.method i .drop w
    let heap ← s.heap.free tx
    return { s with heap }

def skTxVersion (s : CLibrary) (tx : Option Ptr) : Option Nat :=
  match tx with
  | none => some 0
  | some tx => do
    let i ← s.lockTx tx
    return (s.db.transactions[i]?.join.map (·.version)).getD 0

def skTxIsClosed (s : CLibrary) (tx : Option Ptr) : Option Int :=
  match tx with
  | none => some 1
  | some tx => do
    let i ← s.lockTx tx
    match s.db.transactions[i]?.join with
    | some t => return if t.done then 1 else 0
    | none => return 1

def switchIsolation (s : CLibrary) (tx : Option Ptr) (ssi : Bool) (w : World) :
    Option (CLibrary × CReply) :=
  match tx with
  | none => some (s, ⟨skNullArg, none⟩)
  | some tx => do
    let i ← s.lockTx tx
    let op := if ssi then Op.withSerializableSnapshotIsolation else .withSnapshotIsolation
    let (s, r) ← s.method i op w
    match r with
    | .unit => return s.guard false (.ok skOk)
    | _ => return s.guard false (.error (skTxClosed, "transaction is closed"))

def skFreeValue (s : CLibrary) (ptr : Option Ptr) (len : Nat) : Option CLibrary :=
  match ptr with
  | none => some s
  | some ptr =>
    match s.heap.read ptr with
    | some (.value v) =>
      if v.length = len then do
        let heap ← s.heap.free ptr
        return { s with heap }
      else none
    | _ => none

def skFreeString (s : CLibrary) (ptr : Option Ptr) : Option CLibrary :=
  match ptr with
  | none => some s
  | some ptr =>
    match s.heap.read ptr with
    | some (.string _) => do
      let heap ← s.heap.free ptr
      return { s with heap }
    | _ => none

section
variable (detail : PersistenceError → String)

/-- What `sk_tx_get` returns and stores through its out-parameters. -/
structure GetReply extends CReply where
  valOut : Option Ptr
  valLen : Nat

/-- The out-parameters may be null; a value nobody can take is reclaimed. -/
def skTxGet (s : CLibrary) (tx : Option Ptr) (key : CBuffer) (valOut valLen errOut : Bool)
    (w : World) : Option (CLibrary × GetReply) :=
  let fails (s : CLibrary) (e : Int × String) : CLibrary × GetReply :=
    let (s, r) := s.guard errOut (.error e)
    (s, { r with valOut := none, valLen := 0 })
  match tx with
  | none => some (s, ⟨⟨skNullArg, none⟩, none, 0⟩)
  | some tx => do
    match ← bytes key with
    | .error c => return fails s (c, "invalid key buffer")
    | .ok key =>
      let i ← s.lockTx tx
      let (s, r) ← s.method i (.get key) w
      match r with
      | .value (.ok (some v)) =>
        let (heap, ptr) := s.heap.alloc (.value v)
        let s := { s with heap }
        let s ← if valOut && valLen then some s else s.skFreeValue (some ptr) v.length
        return (s, ⟨⟨skOk, none⟩, if valOut then some ptr else none,
          if valLen then v.length else 0⟩)
      | .value (.ok none) => return (s, ⟨⟨skNotFound, none⟩, none, 0⟩)
      | .value (.error e) => return fails s (mapErr detail e)
      | _ => return fails s (skTxClosed, "transaction is closed")

/-- The reply, and what was stored through `out`. -/
def skTxExists (s : CLibrary) (tx : Option Ptr) (key : CBuffer) (errOut : Bool) (w : World) :
    Option (CLibrary × CReply × Int) :=
  let fails (s : CLibrary) (e : Int × String) : CLibrary × CReply × Int :=
    let (s, r) := s.guard errOut (.error e)
    (s, r, 0)
  match tx with
  | none => some (s, ⟨skNullArg, none⟩, 0)
  | some tx => do
    match ← bytes key with
    | .error c => return fails s (c, "invalid key buffer")
    | .ok key =>
      let i ← s.lockTx tx
      let (s, r) ← s.method i (.exists key) w
      match r with
      | .found (.ok found) => return (s, ⟨skOk, none⟩, if found then 1 else 0)
      | .found (.error e) => return fails s (mapErr detail e)
      | _ => return fails s (skTxClosed, "transaction is closed")

/-- A method without a result, on the transaction inside a handle. -/
def finish (s : CLibrary) (tx : Ptr) (op : Op) (errOut : Bool) (w : World) :
    Option (CLibrary × CReply) := do
  let i ← s.lockTx tx
  let (s, r) ← s.method i op w
  match r with
  | .done (.ok ()) => return s.guard errOut (.ok skOk)
  | .done (.error e) => return s.guard errOut (.error (mapErr detail e))
  | _ => return s.guard errOut (.error (skTxClosed, "transaction is closed"))

inductive WriteOp where
  | set
  | put
  | del

/-- The shared body of `set`, `put` and `del`. -/
def writeOp (s : CLibrary) (tx : Option Ptr) (key : CBuffer) (val : Option CBuffer) (op : WriteOp)
    (errOut : Bool) (w : World) : Option (CLibrary × CReply) :=
  match tx with
  | none => some (s, ⟨skNullArg, none⟩)
  | some tx => do
    match ← bytes key with
    | .error c => return s.guard errOut (.error (c, "invalid key buffer"))
    | .ok key =>
      let value : Except Int (Option Bytes) ←
        match val with
        | some val => (bytes val).map fun r => r.map some
        | none => some (.ok none)
      match value with
      | .error c => return s.guard errOut (.error (c, "invalid value buffer"))
      | .ok value =>
        match op, value with
        | .set, some v => s.finish detail tx (.set key v) errOut w
        | .put, some v => s.finish detail tx (.put key v) errOut w
        | .del, _ => s.finish detail tx (.del key) errOut w
        | .set, none | .put, none =>
          let _ ← s.lockTx tx
          return s.guard errOut (.error (mapErr detail .txNotWritable))

def skTxSet (s : CLibrary) (tx : Option Ptr) (key val : CBuffer) (errOut : Bool) (w : World) :
    Option (CLibrary × CReply) :=
  s.writeOp detail tx key (some val) .set errOut w

def skTxPut (s : CLibrary) (tx : Option Ptr) (key val : CBuffer) (errOut : Bool) (w : World) :
    Option (CLibrary × CReply) :=
  s.writeOp detail tx key (some val) .put errOut w

def skTxDel (s : CLibrary) (tx : Option Ptr) (key : CBuffer) (errOut : Bool) (w : World) :
    Option (CLibrary × CReply) :=
  s.writeOp detail tx key none .del errOut w

def skTxCommit (s : CLibrary) (tx : Option Ptr) (errOut : Bool) (w : World) :
    Option (CLibrary × CReply) :=
  match tx with
  | none => some (s, ⟨skNullArg, none⟩)
  | some tx => s.finish detail tx .commit errOut w

def skTxCancel (s : CLibrary) (tx : Option Ptr) (errOut : Bool) (w : World) :
    Option (CLibrary × CReply) :=
  match tx with
  | none => some (s, ⟨skNullArg, none⟩)
  | some tx => s.finish detail tx .cancel errOut w

end

end CLibrary

end StupidKv
