import StupidKv.Lib.Execution
import StupidKv.Lib.Processes
import StupidKv.Inner

namespace StupidKv
open Std
set_option autoImplicit true

/-- What `register_counter` shares between threads: the watched atomic, the floor when one is
passed, and the counter map. An `Arc` is a position in `heap`, which keeps every cell ever made. -/
structure Counters where
  atomic : Nat
  gcFloor : Option Nat
  heap : List Counter
  map : SkipMap Nat Nat

/-- Why a count is given back. -/
inductive Exit where
  | rollback
  | drop
deriving DecidableEq, Repr

/-- Where a transaction stands in `register_counter` and, from `registered` on, in its drop. It
watched the value `v` and its `Arc` is the cell `a`. -/
inductive Thread where
  | load
  | slot (v : Nat)
  | read (v a : Nat)
  | cas (v a current : Nat)
  | check (v a : Nat)
  | floor (v a : Nat) (stable : Bool)
  | registered (v a : Nat)
  | release (exit : Exit) (v a : Nat)
  | releaseCas (exit : Exit) (v a : Nat) (current : Counter)
  | unlink (v a : Nat)
  | unlinkEntry (v a : Nat)
  | remove (v a : Nat)
  | done
deriving DecidableEq, Repr

namespace Counter

/-- `current > 1`; the tombstone is the largest `u64`. -/
def aboveOne : Counter → Bool
  | count n => 1 < n
  | tombstone => true

def pred : Counter → Counter
  | count n => .count (n - 1)
  | tombstone => .count (2 ^ 64 - 2)

end Counter

namespace Counters

def new (atomic : Nat) (gcFloor : Option Nat) : Counters := ⟨atomic, gcFloor, [], ∅⟩

/-- A weak compare-and-exchange on a cell: it may fail for no reason. -/
def compareExchangeWeak (c : Counters) (a : Nat) (current new : Counter) (spurious : Bool) :
    Option Counters :=
  if c.heap[a]? = some current ∧ spurious = false then some { c with heap := c.heap.set a new }
  else none

theorem compareExchangeWeak_some {c c' : Counters} {a : Nat} {current new : Counter}
    (h : c.compareExchangeWeak a current new spurious = some c') :
    c.heap[a]? = some current ∧ c' = { c with heap := c.heap.set a new } := by
  obtain ⟨⟨hc, -⟩, h⟩ := Option.ite_none_right_eq_some.1 h
  exact ⟨hc, (Option.some.inj h).symm⟩

end Counters

/-- Where `release_counter` returns to: `true` leaves the entry for the caller to remove. -/
def Exit.afterRelease (v a : Nat) : Exit → Bool → Thread
  | .rollback, true => .unlink v a
  | .drop, true => .remove v a
  | .rollback, false => .load
  | .drop, false => .done

/-- One atomic step of a thread. -/
def Thread.step (c : Counters) (spurious : Bool) : Thread → Option (Counters × Thread)
  | load => some (c, .slot c.atomic)
  | slot v =>
    match c.map[v]? with
    | some a => some (c, .read v a)
    | none =>
      some ({ c with heap := c.heap ++ [.count 0], map := c.map.insert v c.heap.length },
        .read v c.heap.length)
  | read v a =>
    match c.heap[a]? with
    | some (.count n) => some (c, .cas v a n)
    | some .tombstone => some (c, .load)
    | none => none
  | cas v a current =>
    match c.compareExchangeWeak a (.count current) (.count (current + 1)) spurious with
    | some c => some (c, .check v a)
    | none => some (c, .read v a)
  | check v a =>
    match c.gcFloor with
    | some _ => some (c, .floor v a (c.atomic == v))
    | none => some (c, if c.atomic == v then .registered v a else .release .rollback v a)
  | floor v a stable =>
    c.gcFloor.map fun floor =>
      (c, if stable && decide (floor ≤ v) then .registered v a else .release .rollback v a)
  | registered v a => some (c, .release .drop v a)
  | release exit v a => c.heap[a]?.map fun current => (c, .releaseCas exit v a current)
  | releaseCas exit v a current =>
    if current.aboveOne then
      match c.compareExchangeWeak a current current.pred spurious with
      | some c => some (c, exit.afterRelease v a false)
      | none => some (c, .release exit v a)
    else
      match c.compareExchangeWeak a (.count 1) .tombstone spurious with
      | some c => some (c, exit.afterRelease v a true)
      | none => some (c, .release exit v a)
  | unlink v a => some (c, if c.map[v]? = some a then .unlinkEntry v a else .load)
  | unlinkEntry v a =>
    some (if c.map[v]? = some a then { c with map := c.map.erase v } else c, .load)
  | remove v _ => some ({ c with map := c.map.erase v }, .done)
  | done => none

/-- The outcome of one turn of the loop in `earliest_active`. -/
inductive Scan where
  | skip (key : Nat)
  | found (key : Nat)
  | finished
deriving DecidableEq, Repr

/-- Advance the iterator behind `cursor` and load the counter it meets. -/
def Counters.scan (c : Counters) (cursor : Option Nat) : Scan :=
  match c.map.toList.find? fun e => cursor.all (· < e.1) with
  | some e => if c.heap[e.2]?.any Counter.active then .found e.1 else .skip e.1
  | none => .finished

namespace Thread

/-- The cell a thread has counted itself on. -/
def holds : Thread → Option (Nat × Nat)
  | check v a | floor v a _ | registered v a | release _ v a | releaseCas _ v a _ => some (v, a)
  | _ => none

/-- The buried cell a thread has to take out of the map. -/
def removes : Thread → Option (Nat × Nat)
  | unlink v a | unlinkEntry v a | remove v a => some (v, a)
  | _ => none

/-- The cell a thread is about to count itself on. -/
def refers : Thread → Option (Nat × Nat)
  | read v a | cas v a _ => some (v, a)
  | _ => none

/-- The snapshot of a transaction that returned from `register_counter` and still holds it. -/
def snapshot : Thread → Option Nat
  | registered v _ | release .drop v _ | releaseCas .drop v _ _ => some v
  | _ => none

theorem holds_of_snapshot {t : Thread} (h : t.snapshot = some v) : ∃ a, t.holds = some (v, a) := by
  cases t with
  | registered w a =>
    cases h
    exact ⟨a, rfl⟩
  | release exit w a =>
    cases exit <;> cases h
    exact ⟨a, rfl⟩
  | releaseCas exit w a current =>
    cases exit <;> cases h
    exact ⟨a, rfl⟩
  | _ => cases h

end Thread

end StupidKv
