import StupidKv.Simulation

namespace StupidKv
open Std
set_option autoImplicit true

/-- A schedule with what every call answered. -/
abbrev Trace := List (Call × Response)

namespace Trace

/-- The method calls that reached handle `i`, in order. -/
def opsOf (t : Trace) (i : Nat) : List (Op × Response) :=
  t.filterMap fun e =>
    match e.1 with
    | .on j op => if j = i ∧ e.2 ≠ .gone then some (op, e.2) else none
    | _ => none

end Trace

/-- A successful `set` or `del`. -/
def writes : Op × Response → Bool
  | (.set _ _, .done (.ok _)) => true
  | (.del _, .done (.ok _)) => true
  | _ => false

namespace Trace

def wrote (t : Trace) (i : Nat) : Bool := (t.opsOf i).any writes

def writable (t : Trace) (i : Nat) : Bool :=
  t.any fun e => e == (.transaction true, .handle i)

/-- Where a transaction stands in the serial order: one that wrote where its commit went through,
any other where it began. -/
def place (wrote : Nat → Bool) : Call × Response → Option Nat
  | (.transaction _, .handle i) => if wrote i then none else some i
  | (.on i .commit, .done (.ok _)) => if wrote i then some i else none
  | _ => none

def serialOrder (t : Trace) : List Nat := t.filterMap (place t.wrote)

/-- The calls of transaction `i`, replayed without interruption under handle `j`, with the
answers they had. -/
def block (t : Trace) (i j : Nat) : Trace :=
  (.transaction (t.writable i), .handle j) :: (t.opsOf i).map fun e => (.on j e.1, e.2)

def blocks (t : Trace) (order : List Nat) : Trace :=
  order.zipIdx.flatMap fun e => t.block e.1 e.2

/-- The serial replay. -/
def serial (t : Trace) : Trace := t.blocks t.serialOrder

end Trace

/-- The methods a serializable transaction may call before and after it is put in that mode. -/
def Op.serializable (ready : Bool) : Op → Bool
  | .withSnapshotIsolation => false
  | .put _ _ => false
  | .withSerializableSnapshotIsolation => true
  | .drop => true
  | _ => ready

/-- Every transaction is put in serializable mode before its first operation, after `begun`
transactions began and those in `ready` were put in that mode. -/
def SerializableSchedule (begun : Nat) (ready : List Nat) : List Call → Bool
  | [] => true
  | .transaction _ :: calls => SerializableSchedule (begun + 1) ready calls
  | .on i op :: calls =>
    op.serializable (ready.contains i) &&
      SerializableSchedule begun
        (if op = .withSerializableSnapshotIsolation ∧ i < begun then i :: ready else ready) calls
  | .runGc :: calls => SerializableSchedule begun ready calls
  | .runCleanup :: calls => SerializableSchedule begun ready calls

/-- One call of a transaction that has the commits to itself. -/
def Session.turn : List Writeset × Option Session → Op → (List Writeset × Option Session) × Response
  | (committed, some s), op =>
    ((committed ++ (s.step committed op).2.2, (s.step committed op).1),
      (s.step committed op).2.1)
  | (committed, none), _ => ((committed, none), .gone)

/-- Run the calls of one transaction, begun over `committed`, with nobody in between. -/
def Session.alone (committed : List Writeset) (write : Bool) (n : Nat) (ops : List Op) :
    (List Writeset × Option Session) × List Response :=
  Execution.respond Session.turn (committed, some (.fresh write n)) ops

/-- The same session over another snapshot. -/
def Session.rebase (m : Nat) (s : Session) : Session := { s with snapshot := m }

section
variable {s : Session} {committed other : List Writeset} {m : Nat}

@[simp] theorem Session.rebase_done : (s.rebase m).done = s.done := rfl

@[simp] theorem Session.rebase_snapshot : (s.rebase m).snapshot = m := rfl

theorem Session.store_rebase (key : Bytes) (value : Option Bytes) :
    (s.rebase m).store key value = ((s.store key value).1.rebase m, (s.store key value).2) := by
  unfold Session.store Session.rebase
  split
  · rfl
  · split <;> rfl

theorem Session.cancel_rebase :
    (s.rebase m).cancel = (s.cancel.1.rebase m, s.cancel.2) := by
  unfold Session.cancel Session.rebase Session.close
  split <;> rfl

/-- `get` looks at the view only where it has no own write. -/
theorem Session.get_rebase {view view' : Bytes → Option Bytes}
    (h : s.done = false → s.own key = none → view' key = view key) :
    (s.rebase m).get view' key = ((s.get view key).1.rebase m, (s.get view key).2) := by
  have hd : (s.rebase m).done = s.done := rfl
  have ho : (s.rebase m).own key = s.own key := rfl
  have ht : (s.rebase m).track key = (s.track key).rebase m := by
    unfold Session.track Session.rebase
    split <;> rfl
  unfold Session.get
  rw [hd, ho, ht]
  cases hdn : s.done with
  | true => rfl
  | false =>
    cases hown : s.own key with
    | some v => rfl
    | none => simp [h hdn hown]

theorem Session.exists_rebase {view view' : Bytes → Option Bytes}
    (h : s.done = false → s.own key = none → view' key = view key) :
    (s.rebase m).exists view' key =
      ((s.exists view key).1.rebase m, (s.exists view key).2) := by
  have hd : (s.rebase m).done = s.done := rfl
  have ho : (s.rebase m).own key = s.own key := rfl
  have ht : (s.rebase m).track key = (s.track key).rebase m := by
    unfold Session.track Session.rebase
    split <;> rfl
  unfold Session.exists
  rw [hd, ho, ht]
  cases hdn : s.done with
  | true => rfl
  | false =>
    cases hown : s.own key with
    | some v => rfl
    | none => simp [h hdn hown]

end

end StupidKv
