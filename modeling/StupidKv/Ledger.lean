import StupidKv.Database

namespace StupidKv
set_option autoImplicit true

/-- The value of `key` after a sequence of commits: what the last of them to write it wrote. -/
def lookup (committed : List Writeset) (key : Bytes) : Option Bytes :=
  (committed.reverse.findSome? fun ws => ws[key]?).join

/-- A transaction of the abstract machine; `snapshot` counts the commits it sees. -/
structure Session where
  mode : IsolationLevel
  done : Bool
  write : Bool
  snapshot : Nat
  readset : List Bytes
  writeset : Writeset

namespace Session

def fresh (write : Bool) (snapshot : Nat) : Session where
  mode := .snapshotIsolation
  done := false
  write := write
  snapshot := snapshot
  readset := []
  writeset := ∅

def close (s : Session) : Session := { s with done := true }

/-- The transaction's own last write of `key`. -/
def own (s : Session) (key : Bytes) : Option (Option Bytes) :=
  if s.write then s.writeset[key]? else none

def track (s : Session) (key : Bytes) : Session :=
  if s.write ∧ s.mode = .serializableSnapshotIsolation then
    { s with readset := key :: s.readset }
  else s

def get (s : Session) (view : Bytes → Option Bytes) (key : Bytes) :
    Session × Except Error (Option Bytes) :=
  if s.done then (s, .error .txClosed)
  else match s.own key with
    | some v => (s, .ok v)
    | none => (s.track key, .ok (view key))

/-- An own write counts as present, a deletion too. -/
def «exists» (s : Session) (view : Bytes → Option Bytes) (key : Bytes) :
    Session × Except Error Bool :=
  if s.done then (s, .error .txClosed)
  else match s.own key with
    | some _ => (s, .ok true)
    | none => (s.track key, .ok (view key).isSome)

def store (s : Session) (key : Bytes) (value : Option Bytes) : Session × Except Error Unit :=
  if s.done then (s, .error .txClosed)
  else if !s.write then (s, .error .txNotWritable)
  else ({ s with writeset := s.writeset.insert key value }, .ok ())

def put (s : Session) (view : Bytes → Option Bytes) (key val : Bytes) :
    Session × Except Error Unit :=
  if s.done then (s, .error .txClosed)
  else if !s.write then (s, .error .txNotWritable)
  else if s.writeset.contains key || (view key).isSome then (s, .error .keyAlreadyExists)
  else ({ s with writeset := s.writeset.insert key (some val) }, .ok ())

def cancel (s : Session) : Session × Except Error Unit :=
  if s.done then (s, .error .txClosed) else (s.close, .ok ())

/-- How a commit the session has not seen stands in its way. -/
def conflict (s : Session) (ws : Writeset) : Option Error :=
  if ws.keys.any fun key => s.writeset.contains key then some .keyWriteConflict
  else if s.mode = .serializableSnapshotIsolation ∧ ws.keys.any fun key => s.readset.contains key
  then some .keyReadConflict
  else none

/-- The answer, and the writeset that joins the committed ones. -/
def commit (s : Session) (committed : List Writeset) : Except Error Unit × List Writeset :=
  if s.done then (.error .txClosed, [])
  else if s.writeset.isEmpty then (.ok (), [])
  else match (committed.drop s.snapshot).findSome? s.conflict with
    | some e => (.error e, [])
    | none => (.ok (), [s.writeset])

/-- One method call over the commits so far. -/
def step (s : Session) (committed : List Writeset) :
    Op → Option Session × Response × List Writeset
  | .withSnapshotIsolation => (some { s with mode := .snapshotIsolation }, .unit, [])
  | .withSerializableSnapshotIsolation =>
    (some { s with mode := .serializableSnapshotIsolation }, .unit, [])
  | .get key =>
    let (s', r) := s.get (lookup (committed.take s.snapshot)) key
    (some s', .value r, [])
  | .exists key =>
    let (s', r) := s.exists (lookup (committed.take s.snapshot)) key
    (some s', .found r, [])
  | .set key val =>
    let (s', r) := s.store key (some val)
    (some s', .done r, [])
  | .put key val =>
    let (s', r) := s.put (lookup (committed.take s.snapshot)) key val
    (some s', .done r, [])
  | .del key =>
    let (s', r) := s.store key none
    (some s', .done r, [])
  | .cancel =>
    let (s', r) := s.cancel
    (some s', .done r, [])
  | .commit =>
    let (r, ws) := s.commit committed
    (some s.close, .done r, ws)
  | .drop => (none, .unit, [])

end Session

/-- What the store is for: a sequence of committed writesets and the sessions over it. -/
structure Ledger where
  committed : List Writeset
  sessions : List (Option Session)

namespace Ledger

def new : Ledger := ⟨[], []⟩

def step (l : Ledger) : Call → Ledger × Response
  | .transaction write =>
    ({ l with sessions := l.sessions ++ [some (.fresh write l.committed.length)] },
      .handle l.sessions.length)
  | .on i op =>
    match l.sessions[i]?.join with
    | some s =>
      let (s', r, ws) := s.step l.committed op
      (⟨l.committed ++ ws, l.sessions.set i s'⟩, r)
    | none => (l, .gone)
  | .runGc => (l, .unit)
  | .runCleanup => (l, .unit)

end Ledger

end StupidKv
