import Mathlib.Algebra.BigOperators.Group.Finset.Basic
import Mathlib.Data.Fintype.Defs
import Mathlib.Logic.Function.Basic
import StupidKv.Lib.Parking
import StupidKv.Options

namespace StupidKv
open Parking
set_option autoImplicit true

/-- The background threads, by the slot of their `JoinHandle`. -/
inductive WorkerName where
  | cleanup
  | garbage
  | snapshot
  | append
  | fsync
  | resync
deriving DecidableEq, Repr

instance : Fintype WorkerName where
  elems := {.cleanup, .garbage, .snapshot, .append, .fsync, .resync}
  complete w := by cases w <;> decide

/-- `background_threads_enabled` of `Inner` and of `Persistence`, and the oracle's `resync_enable`. -/
inductive Flag where
  | background
  | persistence
  | resync
deriving DecidableEq, Repr

def WorkerName.flag : WorkerName → Flag
  | cleanup | garbage => .background
  | snapshot | append | fsync => .persistence
  | resync => .resync

/-- Where a worker stands in its loop. The appender's has an inner loop, which gathers a batch. -/
inductive WorkerPlace where
  | head
  | parked
  | check
  | turn
  | inner
  | steal
  | exited
deriving DecidableEq, Repr

/-- What the injector answers. -/
inductive Stolen where
  | retry
  | operation (full : Bool)
  | empty (gathered : Bool)
deriving DecidableEq, Repr

namespace WorkerPlace

/-- The loop of most workers: park, look at the flag again, take a turn. -/
def loop (flag : Bool) : WorkerPlace → WorkerPlace
  | head => if flag then parked else exited
  | parked => check
  | check => if flag then turn else exited
  | _ => head

/-- The resync worker does not look a second time. -/
def resyncLoop (flag : Bool) : WorkerPlace → WorkerPlace
  | head => if flag then parked else exited
  | parked => turn
  | _ => head

/-- The append worker; its turn writes the batch. -/
def appendLoop (flag : Bool) (stolen : Stolen) : WorkerPlace → WorkerPlace
  | head => if flag then check else exited
  | check => if flag then inner else exited
  | inner => if flag then steal else turn
  | steal =>
    match stolen with
    | .retry => inner
    | .operation full => if full then turn else inner
    | .empty gathered => if gathered then turn else parked
  | parked => inner
  | _ => head

end WorkerPlace

/-- The steps a worker still makes once its flag is down. -/
def WorkerName.left : WorkerName → WorkerPlace → Nat
  | _, .exited => 0
  | _, .head => 1
  | _, .turn => 2
  | resync, .parked => 3
  | resync, _ => 2
  | append, .inner => 3
  | append, .parked => 4
  | append, .steal => 5
  | _, .check => 1
  | _, _ => 2

def WorkerName.service (w : WorkerName) : Service WorkerPlace Stolen where
  next flag stolen :=
    match w with
    | resync => WorkerPlace.resyncLoop flag
    | append => WorkerPlace.appendLoop flag stolen
    | _ => WorkerPlace.loop flag
  parks place := place = .parked
  stopped place := place = .exited
  past place := place ≠ .parked ∧ (w = append → place ≠ .steal)
  left := w.left

theorem WorkerName.lawful (w : WorkerName) : w.service.Lawful where
  left stolen place hs := by
    cases w <;> cases place <;> first
      | exact absurd hs (by decide)
      | exact Nat.lt_of_sub_pos (Nat.succ_pos _)
      | skip
    cases stolen with
    | retry => decide
    | operation full => cases full <;> decide
    | empty gathered => cases gathered <;> decide
  past stolen place hp := by
    cases w <;> cases place <;>
      simp_all [service, WorkerPlace.loop, WorkerPlace.resyncLoop, WorkerPlace.appendLoop]
  woken stolen place hp := by
    cases w <;> cases place <;>
      simp_all [service, WorkerPlace.loop, WorkerPlace.resyncLoop, WorkerPlace.appendLoop]
  not_parks place hp := by
    simp only [service, decide_eq_true_eq] at hp
    simpa [service] using hp.1

/-- What the end of a value does, in its `drop` and for its fields. -/
inductive DropStep where
  | clear (f : Flag)
  | take (w : WorkerName)
  | recycle
  | releaseInner
  | releasePool
deriving DecidableEq, Repr

/-- A `JoinHandle` that was taken is unparked and joined. -/
inductive Joining where
  | no
  | unpark (w : WorkerName)
  | join (w : WorkerName)
deriving DecidableEq, Repr

/-- A thread on its way through the end of a value. -/
structure Dropper where
  joining : Joining
  rest : List DropStep
deriving DecidableEq, Repr

def Dropper.of (steps : List DropStep) : Dropper := ⟨.no, steps⟩

def Dropper.finished (d : Dropper) : Bool := d = .of []

/-- `Drop for Persistence`, then the field `inner`. -/
def dropPersistence : List DropStep :=
  [.clear .persistence, .take .snapshot, .take .append, .take .fsync, .releaseInner]

def dropPersistenceIf (persistent : Bool) : List DropStep := if persistent then dropPersistence else []

/-- `Database::shutdown` -/
def shutdown (persistent : Bool) : List DropStep :=
  (if persistent then [DropStep.clear .persistence, .take .snapshot] else []) ++
    [DropStep.clear .background, .take .cleanup, .take .garbage]

/-- `Drop for Database`, then its fields. -/
def dropDatabase (persistent : Bool) : List DropStep :=
  shutdown persistent ++ [DropStep.releaseInner, .releasePool] ++ dropPersistenceIf persistent

/-- `Drop for Transaction` behind the counters, then the field `pool`. -/
def dropTransaction : List DropStep := [.recycle, .releasePool]

/-- The fields of a `Pool`; every pooled `TransactionInner` has an `Arc<Inner>`. -/
def dropPool (pooled : Nat) : List DropStep := .releaseInner :: List.replicate pooled .releaseInner

/-- The fields of `Inner`: the oracle stops its worker, and `persistence` may have a clone. -/
def dropInner (persistent : Bool) : List DropStep :=
  [DropStep.clear .resync, .take .resync] ++ dropPersistenceIf persistent

/-- A worker, and what its closure lets go when it returns. -/
structure Worker where
  thread : Parking.Thread WorkerPlace
  ending : Dropper

/-- The closures with a clone of `Arc<Inner>`. -/
def WorkerName.holdsInner : WorkerName → Bool
  | cleanup | garbage | snapshot => true
  | append | fsync | resync => false

/-- The threads of a database and the counts of its two `Arc`s. `persistent` says whether there is a
`Persistence`; `transactions` are the open ones, and `droppers` the threads that drop something. -/
structure Lifecycle where
  persistent : Bool
  flags : Flag → Bool
  handles : WorkerName → Bool
  workers : WorkerName → Worker
  innerCount : Nat
  poolCount : Nat
  pooled : Nat
  isOpen : Bool
  transactions : Nat
  droppers : List Dropper

inductive LifecycleAction where
  | begin
  /-- A commit through an open transaction, which unparks the append worker. -/
  | commit
  | dropTransaction
  | dropDatabase
  | run (i : Nat)
  | work (w : WorkerName) (timeout : Bool) (stolen : Stolen)
deriving DecidableEq, Repr

/-- Which workers a database starts. -/
def WorkerName.started (opts : DatabaseOptions) (popts : Option PersistenceOptions) :
    WorkerName → Bool
  | cleanup => opts.enableCleanup
  | garbage => opts.enableGc
  | snapshot => popts.any fun o => o.snapshotMode ≠ .never
  | append => popts.any fun o => o.aolMode = .asynchronousAfterCommit
  | fsync => popts.any fun o =>
    match o.aolMode, o.fsyncMode with
    | .never, _ => false
    | _, .interval _ => true
    | _, _ => false
  | resync => true

namespace Lifecycle

/-- Behind `new_with_options` or `new_with_persistence`. `Inner` has its clones in the database, the
pool, the `Persistence` of the database and its own one, and the closures. -/
def opened (opts : DatabaseOptions) (popts : Option PersistenceOptions) : Lifecycle where
  persistent := popts.isSome
  flags _ := true
  handles w := w.started opts popts
  workers w :=
    if w.started opts popts then
      ⟨⟨.head, false⟩, .of (if w.holdsInner then [.releaseInner] else [])⟩
    else ⟨⟨.exited, false⟩, .of []⟩
  innerCount := 2 + 2 * popts.isSome.toNat +
    ∑ w : WorkerName, (w.started opts popts && w.holdsInner).toNat
  poolCount := 1
  pooled := 0
  isOpen := true
  transactions := 0
  droppers := []

def exited (s : Lifecycle) (w : WorkerName) : Bool :=
  (s.workers w).thread.stage = .exited && (s.workers w).ending.finished

def putWorker (s : Lifecycle) (w : WorkerName) (worker : Worker) : Lifecycle :=
  { s with workers := Function.update s.workers w worker }

def unpark (s : Lifecycle) (w : WorkerName) : Lifecycle :=
  s.putWorker w { s.workers w with thread := (s.workers w).thread.unpark }

/-- The thread that lets go the last `Arc` runs the end of what it points to. -/
def dropStep (s : Lifecycle) (rest : List DropStep) : DropStep → Option (Lifecycle × Dropper)
  | .clear f => some ({ s with flags := Function.update s.flags f false }, .of rest)
  | .take w =>
    if s.handles w then
      some ({ s with handles := Function.update s.handles w false }, ⟨.unpark w, rest⟩)
    else some (s, .of rest)
  | .recycle =>
    if s.pooled < defaultPoolSize then some ({ s with pooled := s.pooled + 1 }, .of rest)
    else some (s, .of (.releaseInner :: rest))
  | .releaseInner =>
    match s.innerCount with
    | 0 => none
    | 1 => some ({ s with innerCount := 0 }, .of (dropInner s.persistent ++ rest))
    | n + 2 => some ({ s with innerCount := n + 1 }, .of rest)
  | .releasePool =>
    match s.poolCount with
    | 0 => none
    | 1 => some ({ s with poolCount := 0, pooled := 0 }, .of (dropPool s.pooled ++ rest))
    | n + 2 => some ({ s with poolCount := n + 1 }, .of rest)

def advance (s : Lifecycle) (d : Dropper) : Option (Lifecycle × Dropper) :=
  match d.joining, d.rest with
  | .unpark w, rest => some (s.unpark w, ⟨.join w, rest⟩)
  | .join w, rest => if s.exited w then some (s, .of rest) else none
  | .no, [] => none
  | .no, i :: rest => s.dropStep rest i

def step (s : Lifecycle) : LifecycleAction → Option Lifecycle
  | .begin =>
    if s.isOpen then
      -- an object from the pool brings its `Arc<Inner>` with it
      some { s with
        poolCount := s.poolCount + 1
        innerCount := if s.pooled = 0 then s.innerCount + 1 else s.innerCount
        pooled := s.pooled - 1
        transactions := s.transactions + 1 }
    else none
  | .commit =>
    if s.transactions = 0 then none
    else some (if s.handles .append then s.unpark .append else s)
  | .dropTransaction =>
    if s.transactions = 0 then none
    else some { s with
      transactions := s.transactions - 1
      droppers := s.droppers ++ [.of StupidKv.dropTransaction] }
  | .dropDatabase =>
    if s.isOpen then
      some { s with
        isOpen := false
        droppers := s.droppers ++ [.of (StupidKv.dropDatabase s.persistent)] }
    else none
  | .run i => do
    let d ← s.droppers[i]?
    let (s, d) ← s.advance d
    return { s with droppers := s.droppers.set i d }
  | .work w timeout stolen =>
    if (s.workers w).thread.stage = .exited then do
      let (s, ending) ← s.advance (s.workers w).ending
      return s.putWorker w { s.workers w with ending }
    else do
      let thread ← w.service.step (s.flags w.flag) timeout stolen (s.workers w).thread
      return s.putWorker w { s.workers w with thread }

/-- A step of a drop, or of a worker whose flag is down. -/
def closes (s : Lifecycle) : LifecycleAction → Bool
  | .run _ => true
  | .work w _ _ => !s.flags w.flag
  | _ => false

end Lifecycle

end StupidKv
