import StupidKv.Lib.Execution
import StupidKv.Lib.Processes
import StupidKv.Transaction

namespace StupidKv
open Std
set_option autoImplicit true

/-- How far a write transaction has come, from its begin to the end of its commit. The writeset
stays with `tx`; `pending` is what its loop over the keys has yet to write. -/
inductive Stage where
  | registered (version : Nat)
  | active (tx : TransactionInner)
  | queued (tx : TransactionInner) (entry : Commit) (id : Nat)
  | validated (tx : TransactionInner) (id : Nat)
  | merged (tx : TransactionInner) (id version : Nat) (pending : List (Bytes × Option Bytes))
  | committed (tx : TransactionInner) (id version : Nat)
  | refused (tx : TransactionInner) (e : Error)

/-- The atomic steps of the transactions; `i` is the position of one of them, and the first step
of a transaction adds it at the end. -/
inductive Action where
  | registerVersion
  | registerCommit (i : Nat) (mode : IsolationLevel)
  | get (i : Nat) (key : Bytes)
  | set (i : Nat) (key val : Bytes)
  | del (i : Nat) (key : Bytes)
  | autoCommit (i : Nat)
  | validate (i : Nat)
  | merge (i now : Nat)
  | push (i : Nat)
  | remove (i : Nat)
deriving DecidableEq, Repr

/-- One database under any number of transactions. -/
structure System where
  db : Inner
  stages : List Stage

namespace System

def new (referenceUnix resetThreshold : Nat) : System :=
  ⟨.new referenceUnix resetThreshold, []⟩

def put (s : System) (i : Nat) (db : Inner) (st : Stage) : System :=
  ⟨db, s.stages.set i st⟩

/-- The transaction both registrations give. -/
def begun (db : Inner) (mode : IsolationLevel) (version : Nat) : TransactionInner where
  mode := mode
  done := false
  write := true
  commit := db.transactionCommitId
  version := version
  readset := ∅
  readsetBloom := .new
  writeset := ∅
  resetThreshold := db.resetThreshold

def step (s : System) : Action → Option System
  | .registerVersion => do
    let map ← registerCounter s.db.counterByOracle s.db.timestamp (some s.db.gcFloor)
    return ⟨{ s.db with counterByOracle := map }, s.stages ++ [.registered s.db.timestamp]⟩
  | .registerCommit i mode =>
    match s.stages[i]? with
    | some (.registered version) => do
      let map ← registerCounter s.db.counterByCommit s.db.transactionCommitId none
      return s.put i { s.db with counterByCommit := map } (.active (begun s.db mode version))
    | _ => none
  | .get i key =>
    match s.stages[i]? with
    | some (.active tx) => some (s.put i s.db (.active (tx.get s.db key).1))
    | _ => none
  | .set i key val =>
    match s.stages[i]? with
    | some (.active tx) => some (s.put i s.db (.active (tx.set key val).1))
    | _ => none
  | .del i key =>
    match s.stages[i]? with
    | some (.active tx) => some (s.put i s.db (.active (tx.del key).1))
    | _ => none
  | .autoCommit i =>
    match s.stages[i]? with
    | some (.active tx) =>
      if tx.writeset.isEmpty then none
      else do
        let entry := Commit.ofWriteset (s.db.transactionQueueId + 1) tx.writeset
        let (db, id) ←
          { s.db with transactionQueueId := s.db.transactionQueueId + 1 }.autoCommit entry
        return s.put i db (.queued tx entry id)
    | _ => none
  | .validate i =>
    match s.stages[i]? with
    | some (.queued tx entry id) =>
      match { tx with done := true, writeset := ∅ }.validate s.db id entry with
      | some e =>
        some (s.put i { s.db with
          transactionCommitQueue := s.db.transactionCommitQueue.erase id } (.refused tx e))
      | none => some (s.put i s.db (.validated tx id))
    | _ => none
  | .merge i now =>
    match s.stages[i]? with
    | some (.validated tx id) => do
      let (db, version) ←
        { s.db with transactionMergeId := s.db.transactionMergeId + 1 }.atomicMerge
          ⟨s.db.transactionMergeId + 1, tx.writeset⟩ now
      return s.put i db (.merged tx id version tx.writeset.toList)
    | _ => none
  | .push i =>
    match s.stages[i]? with
    | some (.merged tx id version (e :: pending)) =>
      some (s.put i (s.db.writeKey version e) (.merged tx id version pending))
    | _ => none
  | .remove i =>
    match s.stages[i]? with
    | some (.merged tx id version []) =>
      some (s.put i (s.db.removeMerge version) (.committed tx id version))
    | _ => none

end System

/-- A transaction that holds a commit id: its snapshot numbers, what it writes, and whether it
passed its validation and was merged. -/
structure Committer where
  id : Nat
  commit : Nat
  version : Nat
  writeset : Writeset
  passed : Bool
  merged : Option Nat

def Stage.committer : Stage → Option Committer
  | .queued tx _ id => some ⟨id, tx.commit, tx.version, tx.writeset, false, none⟩
  | .validated tx id => some ⟨id, tx.commit, tx.version, tx.writeset, true, none⟩
  | .merged tx id version _ =>
    some ⟨id, tx.commit, tx.version, tx.writeset, true, some version⟩
  | .committed tx id version =>
    some ⟨id, tx.commit, tx.version, tx.writeset, true, some version⟩
  | _ => none

def Writeset.sharesKey (a b : Writeset) : Bool := a.keys.any fun key => b.contains key

theorem Inner.autoCommit_cases {db db' : Inner} {n : Nat}
    (h : db.autoCommit updates = some (db', n)) :
    n = db.transactionCommitId + 1 ∧ db' = { db with
      transactionCommitQueue := db.transactionCommitQueue.insertIfNew n updates
      transactionCommitId := n } := by
  simp only [Inner.autoCommit, Option.ite_none_right_eq_some, Option.some.injEq,
    Prod.mk.injEq] at h
  obtain ⟨-, rfl, rfl⟩ := h
  exact ⟨rfl, rfl⟩

namespace System

/-- What `f` shows of the transaction `i`. -/
def view (s : System) (f : Stage → Option β) (i : Nat) : Option β := Processes.look s.stages f i

def committer (s : System) : Nat → Option Committer := s.view Stage.committer

/-- Everything one step can do. -/
inductive Stepped (s : System) : Action → System → Prop
  | registerVersion (map : SkipMap Nat Counter) :
    Stepped s .registerVersion
      ⟨{ s.db with counterByOracle := map }, s.stages ++ [.registered s.db.timestamp]⟩
  | registerCommit (i : Nat) (mode : IsolationLevel) (version : Nat)
      (ho : s.stages[i]? = some (.registered version)) (map : SkipMap Nat Counter) :
    Stepped s (.registerCommit i mode)
      (s.put i { s.db with counterByCommit := map } (.active (begun s.db mode version)))
  | work (a : Action) (i : Nat) (tx tx' : TransactionInner)
      (ho : s.stages[i]? = some (.active tx)) : Stepped s a (s.put i s.db (.active tx'))
  | autoCommit (i : Nat) (tx : TransactionInner) (ho : s.stages[i]? = some (.active tx)) :
    Stepped s (.autoCommit i) (s.put i
      { s.db with
        transactionQueueId := s.db.transactionQueueId + 1
        transactionCommitQueue := s.db.transactionCommitQueue.insertIfNew
          (s.db.transactionCommitId + 1)
          (.ofWriteset (s.db.transactionQueueId + 1) tx.writeset)
        transactionCommitId := s.db.transactionCommitId + 1 }
      (.queued tx (.ofWriteset (s.db.transactionQueueId + 1) tx.writeset)
        (s.db.transactionCommitId + 1)))
  | pass (i : Nat) (tx : TransactionInner) (entry : Commit) (id : Nat)
      (ho : s.stages[i]? = some (.queued tx entry id))
      (hv : { tx with done := true, writeset := ∅ }.validate s.db id entry = none) :
    Stepped s (.validate i) (s.put i s.db (.validated tx id))
  | refuse (i : Nat) (tx : TransactionInner) (entry : Commit) (id : Nat) (e : Error)
      (ho : s.stages[i]? = some (.queued tx entry id)) :
    Stepped s (.validate i) (s.put i
      { s.db with transactionCommitQueue := s.db.transactionCommitQueue.erase id }
      (.refused tx e))
  | merge (i now version : Nat) (tx : TransactionInner) (id : Nat)
      (ho : s.stages[i]? = some (.validated tx id)) (hv : s.db.timestamp < version) :
    Stepped s (.merge i now) (s.put i
      { s.db with
        transactionMergeId := s.db.transactionMergeId + 1
        transactionMergeQueue := s.db.transactionMergeQueue.insertIfNew version
          ⟨s.db.transactionMergeId + 1, tx.writeset⟩
        timestamp := version }
      (.merged tx id version tx.writeset.toList))
  | push (i : Nat) (tx : TransactionInner) (id version : Nat) (e : Bytes × Option Bytes)
      (pending : List (Bytes × Option Bytes))
      (ho : s.stages[i]? = some (.merged tx id version (e :: pending))) :
    Stepped s (.push i) (s.put i (s.db.writeKey version e) (.merged tx id version pending))
  | remove (i : Nat) (tx : TransactionInner) (id version : Nat)
      (ho : s.stages[i]? = some (.merged tx id version [])) :
    Stepped s (.remove i) (s.put i (s.db.removeMerge version) (.committed tx id version))

theorem step_cases {s s' : System} (h : s.step a = some s') : Stepped s a s' := by
  cases a with
  | registerVersion =>
    obtain ⟨map, -, h⟩ := Option.bind_eq_some_iff.1 h
    cases h
    exact .registerVersion map
  | registerCommit i mode =>
    simp only [step] at h
    split at h
    · rename_i ho
      obtain ⟨map, -, h⟩ := Option.bind_eq_some_iff.1 h
      cases h
      exact .registerCommit i mode _ ho map
    · cases h
  | get i key =>
    simp only [step] at h
    split at h
    · rename_i ho
      cases h
      exact .work _ i _ _ ho
    · cases h
  | set i key val =>
    simp only [step] at h
    split at h
    · rename_i ho
      cases h
      exact .work _ i _ _ ho
    · cases h
  | del i key =>
    simp only [step] at h
    split at h
    · rename_i ho
      cases h
      exact .work _ i _ _ ho
    · cases h
  | autoCommit i =>
    simp only [step] at h
    split at h
    · rename_i tx ho
      split at h
      · cases h
      · obtain ⟨⟨db, id⟩, hauto, h⟩ := Option.bind_eq_some_iff.1 h
        obtain ⟨rfl, rfl⟩ := Inner.autoCommit_cases hauto
        cases h
        exact .autoCommit i tx ho
    · cases h
  | validate i =>
    simp only [step] at h
    split at h
    · rename_i tx entry id ho
      split at h
      · cases h
        exact .refuse i tx entry id _ ho
      · rename_i hv
        cases h
        exact .pass i tx entry id ho hv
    · cases h
  | merge i now =>
    simp only [step] at h
    split at h
    · rename_i tx id ho
      obtain ⟨⟨db, version⟩, hmerge, h⟩ := Option.bind_eq_some_iff.1 h
      obtain ⟨hv, rfl⟩ := Inner.atomicMerge_cases hmerge
      cases h
      exact .merge i now version tx id ho hv
    · cases h
  | push i =>
    simp only [step] at h
    split at h
    · rename_i tx id version e pending ho
      cases h
      exact .push i tx id version e pending ho
    · cases h
  | remove i =>
    simp only [step] at h
    split at h
    · rename_i tx id version ho
      cases h
      exact .remove i tx id version ho
    · cases h

section
variable {s : System} {i : Nat} {st : Stage} {f : Stage → Option β}

theorem view_of_stage (hi : s.stages[i]? = some st) : s.view f i = f st :=
  Processes.look_of_getElem? hi

theorem view_put (hi : s.stages[i]? = some st) (db : Inner) (st' : Stage) (j : Nat) :
    (s.put i db st').view f j = if i = j then f st' else s.view f j :=
  Processes.look_set hi st' j

/-- A step the view does not notice. -/
theorem view_put_same (hi : s.stages[i]? = some st) (db : Inner) {st' : Stage}
    (hf : f st' = f st) (j : Nat) : (s.put i db st').view f j = s.view f j :=
  Processes.look_set_same hi hf j

theorem view_concat (db : Inner) (hf : f st = none) (j : Nat) :
    (System.mk db (s.stages ++ [st])).view f j = s.view f j :=
  Processes.look_concat hf j

end

end System

end StupidKv
