import StupidKv.Lib.Execution
import StupidKv.Lib.Processes
import StupidKv.Persistence

namespace StupidKv
open Std
set_option autoImplicit true

/-- Where a snapshot run will cut the AOL. The number of records logged and how often the AOL was
emptied by then are history; the code only keeps the position. -/
structure Cutoff where
  position : Nat
  logged : Nat
  cleared : Nat
deriving DecidableEq, Repr

/-- Where a call of `snapshot` stands. While it copies the tail of the AOL back it holds the lock
of the file. -/
inductive SnapshotRun where
  | created (inode : Nat)
  | encoding (inode : Nat) (cutoff : Cutoff) (cursor : Option Bytes) (stream : Bytes)
  | flushed (cutoff : Cutoff)
  | renamed (cutoff : Cutoff)
  | copying (rest : Bytes)
  | failed
  | done
deriving DecidableEq, Repr

/-- Where a commit stands behind its `atomic_merge`. -/
inductive CommitRun where
  | writing (version : Nat) (writeset : Writeset) (pending : List (Bytes × Option Bytes))
  | logged (version : Nat) (writeset : Writeset)
  | returned (version : Nat) (writeset : Writeset)

/-- The directory of a database, and the snapshot runs that work on it. A path is the file it
names, or none. -/
structure Disk where
  aol : Bytes
  inodes : List Bytes
  temp : Option Nat
  snapshot : Option Nat
  cleared : Nat
  runs : List SnapshotRun

/-- A database with an AOL written on commit. The log is history: the records of all completed
appends. -/
structure Store where
  db : Inner
  commits : List CommitRun
  log : List Record
  disk : Disk

inductive StoreAction where
  | commit (writeset : Writeset) (now : Nat)
  | push (i : Nat)
  | append (i : Nat)
  | remove (i : Nat)
  | gc (cleanupTs : Nat) (key : Bytes)
  | snapshot
  | run (i chunk : Nat)

def SnapshotRun.copies : SnapshotRun → Bool
  | copying _ => true
  | _ => false

/-- The temporary file is in use. -/
def SnapshotRun.building : SnapshotRun → Bool
  | created _ | encoding .. | flushed _ => true
  | _ => false

namespace Disk

def new : Disk := ⟨[], [], none, none, 0, []⟩

def file (d : Disk) (path : Option Nat) : Option Bytes := path.bind fun i => d.inodes[i]?

/-- Someone holds the lock of the AOL between two steps. -/
def locked (d : Disk) : Bool := d.runs.any SnapshotRun.copies

def put (d : Disk) (i : Nat) (run : SnapshotRun) : Disk := { d with runs := d.runs.set i run }

/-- `File::create` truncates a file that exists. -/
def createTemp (d : Disk) : Disk :=
  match d.temp with
  | some i => { d with inodes := d.inodes.set i [], runs := d.runs ++ [.created i] }
  | none =>
    { d with
      inodes := d.inodes ++ [[]]
      temp := some d.inodes.length
      runs := d.runs ++ [.created d.inodes.length] }

/-- The next entry of the iterator over the datastore. -/
def nextEntry (datastore : SkipMap Bytes Versions) (cursor : Option Bytes) :
    Option (Bytes × Versions) :=
  datastore.toList.find? fun e => cursor.all fun key => compare key e.1 == .lt

/-- One step of a snapshot run; `chunk` is one less than the bytes a copy moves at most. -/
def runStep (fmt : Format) (datastore : SkipMap Bytes Versions) (logged : Nat) (d : Disk)
    (i chunk : Nat) : SnapshotRun → Option Disk
  | .created inode =>
    if d.locked then none
    else some (d.put i (.encoding inode ⟨d.aol.length, logged, d.cleared⟩ none []))
  | .encoding inode cutoff cursor stream =>
    match nextEntry datastore cursor with
    | some (key, versions) =>
      let versions := versions.allVersions
      if versions.isEmpty then some (d.put i (.encoding inode cutoff (some key) stream))
      else if Entry.fits (key, versions) then
        let stream := stream ++ fmt.entry.encode (key, versions)
        some (d.put i (.encoding inode cutoff (some key) stream))
      else none
    | none =>
      let content := fmt.writer stream
      some { d.put i (.flushed cutoff) with
        inodes := d.inodes.modify inode fun old => content ++ old.drop content.length }
  | .flushed cutoff =>
    match d.temp with
    | some inode => some { d.put i (.renamed cutoff) with temp := none, snapshot := some inode }
    | none => some (d.put i .failed)
  | .renamed cutoff =>
    if d.locked then none
    else if d.aol.length > cutoff.position then
      some (d.put i (.copying (d.aol.drop cutoff.position)))
    else some { d.put i .done with aol := [], cleared := d.cleared + 1 }
  | .copying rest =>
    if rest.isEmpty then some (d.put i .done)
    else
      some { d.put i (.copying (rest.drop (chunk + 1))) with
        aol := d.aol ++ rest.take (chunk + 1) }
  | .failed => some { d.put i .done with temp := none }
  | .done => none

end Disk

namespace CommitRun

def version : CommitRun → Nat
  | writing version _ _ | logged version _ | returned version _ => version

def writeset : CommitRun → Writeset
  | writing _ writeset _ | logged _ writeset | returned _ writeset => writeset

def pending : CommitRun → List (Bytes × Option Bytes)
  | writing _ _ pending => pending
  | _ => []

/-- The append of the commit completed. -/
def isLogged : CommitRun → Bool
  | writing .. => false
  | _ => true

def isReturned : CommitRun → Bool
  | returned .. => true
  | _ => false

end CommitRun

namespace Store

def new (referenceUnix resetThreshold : Nat) : Store :=
  ⟨.new referenceUnix resetThreshold, [], [], .new⟩

def step (fmt : Format) (s : Store) : StoreAction → Option Store
  | .commit writeset now =>
    if writeset.isEmpty then none
    else do
      let (db, version) ← { s.db with transactionMergeId := s.db.transactionMergeId + 1 }.atomicMerge
        ⟨s.db.transactionMergeId + 1, writeset⟩ now
      if (recordsOf version writeset).all Record.fits then
        return { s with
          db := db, commits := s.commits ++ [.writing version writeset writeset.toList] }
      else none
  | .push i =>
    match s.commits[i]? with
    | some (.writing version writeset (e :: pending)) =>
      some { s with
        db := s.db.writeKey version e
        commits := s.commits.set i (.writing version writeset pending) }
    | _ => none
  | .append i =>
    match s.commits[i]? with
    | some (.writing version writeset []) =>
      if s.disk.locked then none
      else
        let records := recordsOf version writeset
        some { s with
          commits := s.commits.set i (.logged version writeset)
          log := s.log ++ records
          disk := { s.disk with aol := s.disk.aol ++ fmt.record.encodeAll records } }
    | _ => none
  | .remove i =>
    match s.commits[i]? with
    | some (.logged version writeset) =>
      some { s with
        db := s.db.removeMerge version
        commits := s.commits.set i (.returned version writeset) }
    | _ => none
  | .gc cleanupTs key =>
    some { s with db := { s.db with datastore := Inner.gcKey cleanupTs s.db.datastore key } }
  | .snapshot => some { s with disk := s.disk.createTemp }
  | .run i chunk => do
    let run ← s.disk.runs[i]?
    let disk ← s.disk.runStep fmt s.db.datastore s.log.length i chunk run
    return { s with disk := disk }

/-- What `load` makes of the directory after a crash. -/
def recover (fmt : Format) (s : Store) : Except PersistenceError (SkipMap Bytes Versions) :=
  load fmt (s.disk.file s.disk.snapshot) (some s.disk.aol)

end Store

end StupidKv
