import StupidKv.Lib.Linearization
import StupidKv.Simulation
import StupidKv.Utf8

namespace StupidKv
open Std Linearization
set_option autoImplicit true

/-- `Display for Error`; `detail` is the text of the persistence error inside. -/
def Error.message (detail : PersistenceError → String) : Error → String
  | .txClosed => "transaction is closed"
  | .keyWriteConflict => "Write conflict, retry the transaction"
  | .keyReadConflict => "Read conflict, retry the transaction"
  | .txNotWritable => "Transaction is not writable"
  | .keyAlreadyExists => "Key already exists, cannot be overwritten"
  | .txCommitNotPersisted e => "Transaction commit AOL persistence failed: " ++ detail e

inductive StatusCode where
  | conflict
  | internalServerError
deriving DecidableEq, Repr

structure ErrorResponse where
  error : String
deriving DecidableEq, Repr

/-- The bodies of the successful responses. -/
inductive Json where
  | get (key : String) (value : Option String)
  | exists (key : String) (found : Bool)
  | write (key value : String)
deriving DecidableEq, Repr

abbrev ApiResult := Except (StatusCode × ErrorResponse) Json

/-- The requests the router lets through to a handler. -/
inductive HttpRequest where
  | get (key : String)
  | exists (key : String)
  | insert (key value : String)
  | update (key value : String)
  | delete (key : String)
deriving DecidableEq, Repr

def mapKvError (detail : PersistenceError → String) (err : Error) : StatusCode × ErrorResponse :=
  let status := match err with
    | .keyWriteConflict | .keyReadConflict => StatusCode.conflict
    | .keyAlreadyExists => .conflict
    | _ => .internalServerError
  (status, ⟨err.message detail⟩)

/-- What a handler has still to do with its transaction: the next call, and how it goes on with
the answer. -/
inductive Script where
  | reply (r : ApiResult)
  | get (key : Bytes) (next : Except Error (Option Bytes) → Script)
  | exists (key : Bytes) (next : Except Error Bool → Script)
  | put (key val : Bytes) (next : Except Error Unit → Script)
  | set (key val : Bytes) (next : Except Error Unit → Script)
  | del (key : Bytes) (next : Except Error Unit → Script)
  | commit (next : Except Error Unit → Script)

section
variable (detail : PersistenceError → String)

/-- `.map_err(map_kv_error)?` -/
def Script.orReturn (r : Except Error α) (next : α → Script) : Script :=
  match r with
  | .ok a => next a
  | .error e => .reply (.error (mapKvError detail e))

def getHandler (key : String) : Script :=
  .get (textBytes key) fun r => .orReturn detail r fun value =>
  .reply (.ok (.get key (value.map fromUtf8Lossy)))

def existsHandler (key : String) : Script :=
  .exists (textBytes key) fun r => .orReturn detail r fun found =>
  .reply (.ok (.exists key found))

def insertHandler (key value : String) : Script :=
  .put (textBytes key) (textBytes value) fun r => .orReturn detail r fun _ =>
  .commit fun r => .orReturn detail r fun _ =>
  .reply (.ok (.write key value))

def updateHandler (key value : String) : Script :=
  .set (textBytes key) (textBytes value) fun r => .orReturn detail r fun _ =>
  .commit fun r => .orReturn detail r fun _ =>
  .reply (.ok (.write key value))

def deleteHandler (key : String) : Script :=
  .get (textBytes key) fun r => .orReturn detail r fun value =>
  .del (textBytes key) fun r => .orReturn detail r fun _ =>
  .commit fun r => .orReturn detail r fun _ =>
  .reply (.ok (.get key (value.map fromUtf8Lossy)))

/-- The routes of `make_app`. -/
def HttpRequest.handler : HttpRequest → Script
  | .get key => getHandler detail key
  | .exists key => existsHandler detail key
  | .insert key value => insertHandler detail key value
  | .update key value => updateHandler detail key value
  | .delete key => deleteHandler detail key

end

/-- Whether the handler opens its transaction for writing. -/
def HttpRequest.write : HttpRequest → Bool
  | .get _ | .exists _ => false
  | .insert _ _ | .update _ _ | .delete _ => true

/-- Where a request stands. While its handler runs it owns a transaction. -/
inductive Task where
  | arrived (req : HttpRequest)
  | running (handle : Nat) (script : Script)
  | answered

/-- The handlers of all requests so far share one database. -/
structure Server where
  db : Database
  tasks : List Task

/-- Requests arrive, handlers make their calls, and the background workers of the database run in
between. A call of the database, also a whole commit, is one atomic step. -/
inductive ServerAction where
  | receive (req : HttpRequest)
  | run (i now : Nat)
  | runGc (now : Nat)
  | runCleanup

/-- The call a script makes next. Behind its last one the transaction is dropped. -/
def Script.op : Script → Op
  | .reply _ => .drop
  | .get key _ => .get key
  | .exists key _ => .exists key
  | .put key val _ => .put key val
  | .set key val _ => .set key val
  | .del key _ => .del key
  | .commit _ => .commit

/-- How the script goes on with the answer. -/
def Script.resume : Script → Response → Option Script
  | .get _ next, .value r => some (next r)
  | .exists _ next, .found r => some (next r)
  | .put _ _ next, .done r => some (next r)
  | .set _ _ next, .done r => some (next r)
  | .del _ next, .done r => some (next r)
  | .commit next, .done r => some (next r)
  | _, _ => none

namespace Server

def new (start threshold : Nat) : Server := ⟨.new start threshold, []⟩

section
variable (detail : PersistenceError → String)

/-- One call of the handler of request `i`; the response leaves when its transaction is dropped. -/
def run (s : Server) (i now : Nat) : Option (Server × List (Event HttpRequest ApiResult)) :=
  match s.tasks[i]? with
  | some (.arrived req) => do
    let (db, r) ← s.db.step (.transaction req.write, now)
    match r with
    | .handle h => some (⟨db, s.tasks.set i (.running h (req.handler detail))⟩, [])
    | _ => none
  | some (.running h script) => do
    let (db, r) ← s.db.step (.on h script.op, now)
    match script with
    | .reply result => some (⟨db, s.tasks.set i .answered⟩, [.answer i result])
    | script => do
      let script ← script.resume r
      some (⟨db, s.tasks.set i (.running h script)⟩, [])
  | _ => none

def step (s : Server) : ServerAction → Option (Server × List (Event HttpRequest ApiResult))
  | .receive req => some ({ s with tasks := s.tasks ++ [.arrived req] }, [.invoke req])
  | .run i now => s.run detail i now
  | .runGc now => (s.db.step (.runGc, now)).map fun p => ({ s with db := p.1 }, [])
  | .runCleanup => (s.db.step (.runCleanup, 0)).map fun p => ({ s with db := p.1 }, [])

end

end Server

end StupidKv
