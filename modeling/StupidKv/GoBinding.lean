import StupidKv.CAbi

namespace StupidKv
open Std
set_option autoImplicit true

/-- The sentinel errors of the Go package. -/
inductive Sentinel where
  | errTxClosed
  | errTxNotWritable
  | errWriteConflict
  | errReadConflict
  | errKeyAlreadyExists
deriving DecidableEq, Repr

/-- A Go error wraps a sentinel, or is a text. -/
inductive GoError where
  | wraps (s : Sentinel)
  | text (msg : String)
deriving DecidableEq, Repr

def mapError (code : Int) (msg : String) : GoError :=
  if code = skTxClosed then .wraps .errTxClosed
  else if code = skTxNotWritable then .wraps .errTxNotWritable
  else if code = skWriteConflict then .wraps .errWriteConflict
  else if code = skReadConflict then .wraps .errReadConflict
  else if code = skAlreadyExists then .wraps .errKeyAlreadyExists
  else if code = skCommitNotPersisted ∨ code = skIo then .text ("stupidkv: " ++ msg)
  else if msg = "" then .text ("stupidkv: unknown error (code " ++ toString code ++ ")")
  else .text ("stupidkv: " ++ msg ++ " (code " ++ toString code ++ ")")

/-- A nil pointer with length 0 is an empty slice on the other side. -/
def cBytes (b : Bytes) : CBuffer := ⟨if b.length = 0 then none else some b, b.length⟩

/-- `C.int(n)` of a `size_t`. -/
def cInt (n : Nat) : Int := (BitVec.ofNat 32 n).toInt

/-- A Go program with one database and the transactions it has begun. Closing one sets its pointer
to nil. -/
structure GoProcess where
  lib : CLibrary
  db : Option Ptr
  txs : List (Option Ptr)

/-- The methods of the package. A transaction is named by its number; a finalizer runs `close`. -/
inductive GoCall where
  | transaction (write : Bool)
  | withSnapshotIsolation (i : Nat)
  | withSerializableSnapshotIsolation (i : Nat)
  | version (i : Nat)
  | closed (i : Nat)
  | get (i : Nat) (key : Bytes)
  | exists (i : Nat) (key : Bytes)
  | set (i : Nat) (key value : Bytes)
  | put (i : Nat) (key value : Bytes)
  | delete (i : Nat) (key : Bytes)
  | commit (i : Nat)
  | cancel (i : Nat)
  | close (i : Nat)
  | snapshot
  | closeDatabase
deriving DecidableEq

/-- What the methods return; an error that is `none` is nil. -/
inductive GoAnswer where
  | unit
  | version (n : Nat)
  | closed (b : Bool)
  | value (v : Option Bytes) (err : Option GoError)
  | found (b : Bool) (err : Option GoError)
  | error (err : Option GoError)
  | panic
deriving DecidableEq

namespace GoProcess

def new (datastore : SkipMap Bytes Versions) (clock threshold : Nat) : GoProcess :=
  let (lib, ptr) := CLibrary.skDbNewWithOptions datastore clock threshold
  ⟨lib, some ptr, []⟩

def tx (p : GoProcess) (i : Nat) : Option Ptr := p.txs[i]?.join

/-- `C.GoString` -/
def goString (lib : CLibrary) (ptr : Ptr) : Option String :=
  match lib.heap.read ptr with
  | some (.string msg) => some msg
  | _ => none

/-- `C.GoBytes`, which panics on a negative length. -/
def goBytes (lib : CLibrary) (ptr : Option Ptr) (n : Int) : Option (Option Bytes) :=
  if n < 0 then some none
  else match ptr with
    | none => if n = 0 then some (some []) else none
    | some ptr =>
      match lib.heap.read ptr with
      | some (.value v) => if n.toNat ≤ v.length then some (some (v.take n.toNat)) else none
      | _ => none

/-- The message buffer, if present, is copied and released. -/
def takeError (lib : CLibrary) (r : CReply) : Option (CLibrary × Option GoError) :=
  if r.code = skOk then some (lib, none)
  else match r.err with
    | none => some (lib, some (mapError r.code ""))
    | some ptr => do
      let msg ← goString lib ptr
      let lib ← lib.skFreeString (some ptr)
      return (lib, some (mapError r.code msg))

/-- The end of the methods that return an error only. -/
def returnError (p : GoProcess) (r : Option (CLibrary × CReply)) :
    Option (GoProcess × GoAnswer) := do
  let (lib, r) ← r
  let (lib, err) ← takeError lib r
  return ({ p with lib }, .error err)

section
variable (detail : PersistenceError → String) (p : GoProcess) (w : World)

def get (i : Nat) (key : Bytes) : Option (GoProcess × GoAnswer) := do
  let (lib, r) ← p.lib.skTxGet detail (p.tx i) (cBytes key) true true true w
  if r.code = skOk then
    match ← goBytes lib r.valOut (cInt r.valLen) with
    | none => return ({ p with lib }, .panic)
    | some out =>
      let lib ← lib.skFreeValue r.valOut r.valLen
      return ({ p with lib }, .value (some out) none)
  else if r.code = skNotFound then return ({ p with lib }, .value none none)
  else
    let (lib, err) ← takeError lib r.toCReply
    return ({ p with lib }, .value none err)

def «exists» (i : Nat) (key : Bytes) : Option (GoProcess × GoAnswer) := do
  let (lib, r, out) ← p.lib.skTxExists detail (p.tx i) (cBytes key) true w
  if r.code ≠ skOk then
    let (lib, err) ← takeError lib r
    return ({ p with lib }, .found false err)
  else return ({ p with lib }, .found (out ≠ 0) none)

def set (i : Nat) (key value : Bytes) : Option (GoProcess × GoAnswer) :=
  p.returnError (p.lib.skTxSet detail (p.tx i) (cBytes key) (cBytes value) true w)

def put (i : Nat) (key value : Bytes) : Option (GoProcess × GoAnswer) :=
  p.returnError (p.lib.skTxPut detail (p.tx i) (cBytes key) (cBytes value) true w)

def delete (i : Nat) (key : Bytes) : Option (GoProcess × GoAnswer) :=
  p.returnError (p.lib.skTxDel detail (p.tx i) (cBytes key) true w)

def commit (i : Nat) : Option (GoProcess × GoAnswer) :=
  p.returnError (p.lib.skTxCommit detail (p.tx i) true w)

def cancel (i : Nat) : Option (GoProcess × GoAnswer) :=
  p.returnError (p.lib.skTxCancel detail (p.tx i) true w)

def snapshot : Option (GoProcess × GoAnswer) :=
  p.returnError (p.lib.skDbSnapshot detail p.db true w)

def transaction (write : Bool) : Option (GoProcess × GoAnswer) := do
  let (lib, ptr) ← p.lib.skDbTxBegin p.db (if write then 1 else 0) w
  return ({ p with lib, txs := p.txs ++ [some ptr] }, .unit)

def switchIsolation (i : Nat) (ssi : Bool) : Option (GoProcess × GoAnswer) := do
  let (lib, _) ← p.lib.switchIsolation (p.tx i) ssi w
  return ({ p with lib }, .unit)

def close (i : Nat) : Option (GoProcess × GoAnswer) :=
  match p.tx i with
  | some ptr => do
    let lib ← p.lib.skTxFree (some ptr) w
    return ({ p with lib, txs := p.txs.set i none }, .unit)
  | none => some (p, .unit)

def closeDatabase : Option (GoProcess × GoAnswer) :=
  match p.db with
  | some ptr => do
    let lib ← p.lib.skDbFree (some ptr)
    return ({ p with lib, db := none }, .unit)
  | none => some (p, .unit)

def version (i : Nat) : Option (GoProcess × GoAnswer) := do
  return (p, .version (← p.lib.skTxVersion (p.tx i)))

def closed (i : Nat) : Option (GoProcess × GoAnswer) := do
  return (p, .closed ((← p.lib.skTxIsClosed (p.tx i)) ≠ 0))

end

/-- One method call; the world is as it is during the call. No finalizer and no other goroutine
comes in between. -/
def step (detail : PersistenceError → String) (p : GoProcess) :
    GoCall × World → Option (GoProcess × GoAnswer)
  | (.transaction write, w) => p.transaction w write
  | (.withSnapshotIsolation i, w) => p.switchIsolation w i false
  | (.withSerializableSnapshotIsolation i, w) => p.switchIsolation w i true
  | (.version i, _) => p.version i
  | (.closed i, _) => p.closed i
  | (.get i key, w) => p.get detail w i key
  | (.exists i key, w) => p.exists detail w i key
  | (.set i key value, w) => p.set detail w i key value
  | (.put i key value, w) => p.put detail w i key value
  | (.delete i key, w) => p.delete detail w i key
  | (.commit i, w) => p.commit detail w i
  | (.cancel i, w) => p.cancel detail w i
  | (.close i, w) => p.close w i
  | (.snapshot, w) => p.snapshot detail w
  | (.closeDatabase, _) => p.closeDatabase

end GoProcess

end StupidKv
