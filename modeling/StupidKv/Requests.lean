import StupidKv.Lib.Execution
import StupidKv.Serving

namespace StupidKv
open Std
set_option autoImplicit true

/-- An API call, the clock it reads, and what its log append comes to: `none` without
persistence. -/
structure Request where
  call : Call
  now : Nat
  append : Option (Except PersistenceError Unit)

namespace Database

/-- A database as both constructors leave it, over the data they have found. -/
def opened (datastore : SkipMap Bytes Versions) (referenceUnix resetThreshold : Nat) : Database :=
  ⟨{ Inner.new referenceUnix resetThreshold with datastore := datastore }, [], []⟩

def serve (db : Database) (r : Request) : Option (Database × Response) :=
  match r.call with
  | .on i .commit =>
    match db.transactions[i]?.join with
    | some tx => do
      let (inner, tx, res) ← tx.runCommit db.inner r.now r.append
      return ({ db with inner, transactions := db.transactions.set i (some tx) }, .done res)
    | none => some (db, .gone)
  | call => db.step (call, r.now)

/-- The state a request leaves behind. -/
def next (db : Database) (r : Request) : Option Database := (db.serve r).map Prod.fst

/-- The transaction objects in use and in the pool. -/
def objects (db : Database) : List TransactionInner := db.transactions.filterMap id ++ db.pool

end Database

/-- What a commit that has published its writes returns. -/
def appended : Option (Except PersistenceError Unit) → Except Error Unit
  | some (.error e) => .error (.txCommitNotPersisted e)
  | _ => .ok ()

theorem applyWriteset_appended (writeset : Writeset) (db : Inner) (now : Nat)
    (append : Option (Except PersistenceError Unit)) :
    TransactionInner.applyWriteset writeset db now append =
      (TransactionInner.applyWriteset writeset db now none).map
        fun p => (p.1, appended append) := by
  simp only [TransactionInner.applyWriteset, Option.bind_eq_bind, Option.map_bind]
  congr 1
  funext p
  cases append with
  | none => rfl
  | some r => cases r <;> rfl

theorem applyWriteset_append (writeset : Writeset) (db : Inner) (now : Nat)
    (append : Option (Except PersistenceError Unit)) :
    (TransactionInner.applyWriteset writeset db now append).map Prod.fst =
      (TransactionInner.applyWriteset writeset db now none).map Prod.fst := by
  rw [applyWriteset_appended, Option.map_map]
  rfl

theorem applyWriteset_frame {db db' : Inner}
    (h : TransactionInner.applyWriteset ws db now append = some (db', r)) :
    db'.transactionCommitQueue = db.transactionCommitQueue ∧
      db'.counterByCommit = db.counterByCommit ∧ db'.counterByOracle = db.counterByOracle := by
  obtain ⟨⟨db₁, version⟩, hmerge, h⟩ := Option.bind_eq_some_iff.1 h
  have hmerged := (Inner.atomicMerge_cases hmerge).2
  have hdb : db' = (db₁.writeAll version ws).removeMerge version := by
    dsimp only at h
    split at h <;> cases h <;> rfl
  obtain ⟨dirty, hframe⟩ := db₁.writeAll_frame version ws
  rw [hdb, hframe, hmerged]
  exact ⟨rfl, rfl, rfl⟩

/-- The outcome of the append is all that tells two commits apart. -/
theorem runCommit_append (tx : TransactionInner) (db : Inner) (now : Nat)
    (append : Option (Except PersistenceError Unit)) :
    (tx.runCommit db now append).map (fun p => (p.1, p.2.1)) =
      (tx.runCommit db now none).map fun p => (p.1, p.2.1) := by
  unfold TransactionInner.runCommit
  split
  · rfl
  · split
    · rfl
    · simp only [Option.bind_eq_bind, Option.map_bind]
      congr 1
      funext p
      simp only [Function.comp_apply]
      split
      · rfl
      · have h := applyWriteset_append tx.writeset p.1 now append
        generalize TransactionInner.applyWriteset tx.writeset p.1 now append = a at h
        generalize TransactionInner.applyWriteset tx.writeset p.1 now none = b at h
        cases a with
        | none =>
          cases b with
          | none => rfl
          | some b => cases h
        | some a =>
          cases b with
          | none => cases h
          | some b =>
            have he : a.1 = b.1 := Option.some.inj h
            simp [he]

/-- A failed append leaves the database where a commit without persistence does. -/
theorem Database.next_eq (db : Database) (r : Request) :
    db.next r = (db.step (r.call, r.now)).map Prod.fst := by
  obtain ⟨call, now, append⟩ := r
  unfold Database.next Database.serve
  split
  · rename_i i hcall
    cases hcall
    simp only [Database.step]
    cases db.transactions[i]?.join with
    | none => rfl
    | some tx =>
      have h := congrArg (Option.map fun p =>
        ({ db with inner := p.1, transactions := db.transactions.set i (some p.2) } : Database))
        (runCommit_append tx db.inner now append)
      simp only [Option.map_map, Function.comp_def] at h
      rw [Option.map_eq_bind, Option.map_eq_bind] at h
      simp only [Database.call, Option.bind_eq_bind, Option.map_bind, Function.comp_def,
        Option.pure_def, Option.map_some]
      exact h
  · rfl

theorem Database.poolGet_fresh {db db' : Database} {tx : TransactionInner}
    (h : db.poolGet write = some (db', tx)) :
    db.inner.register = some db'.inner ∧ tx.done = false ∧ tx.write = write ∧
      tx.readset = ∅ ∧ tx.readsetBloom = .new ∧ tx.writeset = ∅ := by
  cases hr : db.inner.register with
  | none =>
    unfold Database.poolGet at h
    split at h
    · simp [TransactionInner.reset, hr] at h
    · simp [TransactionInner.new, hr] at h
  | some inner =>
    obtain ⟨pool, tx₁, hget, -, hd, hw, -, -, hrs, hbl, hws⟩ := db.poolGet_eq write hr
    rw [hget] at h
    cases h
    exact ⟨rfl, hd, hw, hrs, hbl, hws⟩

/-- What a method leaves of the object it runs on; a dropped object is handed to the pool as it
is. -/
def TransactionInner.perform (tx : TransactionInner) (db : Inner) (now : Nat) :
    Op → Option TransactionInner
  | .withSnapshotIsolation => some { tx with mode := .snapshotIsolation }
  | .withSerializableSnapshotIsolation => some { tx with mode := .serializableSnapshotIsolation }
  | .get key => some (tx.get db key).1
  | .exists key => some (tx.exists db key).1
  | .set key val => some (tx.set key val).1
  | .put key val => some (tx.put db key val).1
  | .del key => some (tx.del key).1
  | .cancel => some tx.cancel.1
  | .commit => (tx.runCommit db now none).map fun p => p.2.1
  | .drop => some tx

/-- Where an object of a later state comes from. -/
inductive Descends (db : Database) : TransactionInner → Prop
  | kept (h : tx ∈ db.objects) : Descends db tx
  | performed (h : tx₀ ∈ db.objects) (hp : tx₀.perform db.inner now op = some tx) : Descends db tx
  | built {inner : Inner} (h : TransactionInner.new db.inner write = some (inner, tx)) :
      Descends db tx
  | recycled {inner : Inner} (h : tx₀ ∈ db.objects)
      (hr : tx₀.reset db.inner write = some (inner, tx)) : Descends db tx

section
variable {db db' : Database} {tx tx' : TransactionInner} {i : Nat}

theorem mem_objects_of_join (h : db.transactions[i]?.join = some tx) : tx ∈ db.objects := by
  apply List.mem_append_left
  rw [Option.join_eq_some_iff] at h
  exact List.mem_filterMap.2 ⟨some tx, List.mem_of_getElem? h, rfl⟩

theorem mem_objects_set {o : Option TransactionInner}
    (h : tx' ∈ Database.objects { db with transactions := db.transactions.set i o }) :
    o = some tx' ∨ tx' ∈ db.objects := by
  rcases List.mem_append.1 h with h | h
  · obtain ⟨o', ho, he⟩ := List.mem_filterMap.1 h
    rcases List.mem_or_eq_of_mem_set ho with ho | rfl
    · exact .inr (List.mem_append_left _ (List.mem_filterMap.2 ⟨o', ho, he⟩))
    · exact .inl he
  · exact .inr (List.mem_append_right _ h)

/-- A method replaces the object of its handle, and only a commit does more; `drop` takes it
away. -/
theorem call_cases (h : db.call i tx now op = some (db', r)) :
    (∃ inner tx₁, tx.perform db.inner now op = some tx₁ ∧
      (inner = db.inner ∨ ∃ res, tx.runCommit db.inner now none = some (inner, tx₁, res)) ∧
      db' = { db with inner := inner, transactions := db.transactions.set i (some tx₁) }) ∨
    op = .drop ∧ db' = db.drop i tx := by
  cases op with
  | drop =>
    cases h
    exact .inr ⟨rfl, rfl⟩
  | commit =>
    obtain ⟨⟨inner, tx₁, res⟩, hrun, he⟩ := Option.bind_eq_some_iff.1 h
    cases he
    exact .inl ⟨inner, tx₁, by simp [TransactionInner.perform, hrun], .inr ⟨res, hrun⟩, rfl⟩
  | _ =>
    cases h
    exact .inl ⟨db.inner, _, rfl, .inl rfl, rfl⟩

theorem Descends.of_transaction (h : db.transaction write = some (db', r))
    (hm : tx ∈ db'.objects) : Descends db tx := by
  obtain ⟨⟨db₁, tx₁⟩, hget, he⟩ := Option.bind_eq_some_iff.1 h
  simp only [Option.pure_def, Option.some.injEq, Prod.mk.injEq] at he
  obtain ⟨rfl, -⟩ := he
  have hobj : tx = tx₁ ∨ tx ∈ db₁.objects := by
    simp only [Database.objects, List.filterMap_append, List.mem_append, List.filterMap_cons,
      id, List.filterMap_nil, List.mem_singleton] at hm ⊢
    tauto
  unfold Database.poolGet at hget
  split at hget
  · rename_i tx₀ pool hpool
    have h₀ : tx₀ ∈ db.objects := List.mem_append_right _ (by rw [hpool]; simp)
    obtain ⟨⟨inner, tx₂⟩, hreset, he⟩ := Option.bind_eq_some_iff.1 hget
    cases he
    rcases hobj with rfl | hm
    · exact .recycled h₀ hreset
    · apply Descends.kept
      rcases List.mem_append.1 hm with hm | hm
      · exact List.mem_append_left _ hm
      · exact List.mem_append_right _ (by rw [hpool]; exact List.mem_cons_of_mem _ hm)
  · obtain ⟨⟨inner, tx₂⟩, hnew, he⟩ := Option.bind_eq_some_iff.1 hget
    cases he
    rcases hobj with rfl | hm
    · exact .built hnew
    · exact .kept hm

theorem Descends.of_drop (hi : db.transactions[i]?.join = some tx)
    (hm : tx' ∈ (db.drop i tx).objects) : Descends db tx' := by
  have hpool : ∀ x ∈ Database.poolPut db.pool tx, x = tx ∨ x ∈ db.pool := by
    intro x hx
    unfold Database.poolPut at hx
    split at hx
    · rw [List.mem_append, List.mem_singleton] at hx
      exact hx.symm
    · exact .inr hx
  rcases List.mem_append.1 hm with hm | hm
  · have hset : tx' ∈ Database.objects { db with transactions := db.transactions.set i none } :=
      List.mem_append_left _ hm
    rcases mem_objects_set hset with he | h
    · cases he
    · exact .kept h
  · rcases hpool tx' hm with rfl | h
    · exact .kept (mem_objects_of_join hi)
    · exact .kept (List.mem_append_right _ h)

theorem Descends.of_step (h : db.step c = some (db', r)) (hm : tx ∈ db'.objects) :
    Descends db tx := by
  obtain ⟨call, now⟩ := c
  cases call with
  | transaction write => exact .of_transaction h hm
  | runGc =>
    cases h
    exact .kept hm
  | runCleanup =>
    cases h
    exact .kept hm
  | on i op =>
    simp only [Database.step] at h
    cases hi : db.transactions[i]?.join with
    | none =>
      rw [hi] at h
      cases h
      exact .kept hm
    | some tx₀ =>
      rw [hi] at h
      rcases call_cases h with ⟨inner, tx₁, hp, -, rfl⟩ | ⟨-, rfl⟩
      · rcases mem_objects_set hm with he | h
        · cases he
          exact .performed (mem_objects_of_join hi) hp
        · exact .kept h
      · exact .of_drop hi hm

end

/-- What holds of new objects and survives every method and every reset holds of all objects. -/
theorem objects_invariant {P : TransactionInner → Prop}
    (h : Execution.Run Database.next (fun _ _ => True) (.opened datastore clock threshold) db)
    (hnew : ∀ inner write inner' tx, TransactionInner.new inner write = some (inner', tx) → P tx)
    (hreset : ∀ tx inner write inner' tx', P tx →
      tx.reset inner write = some (inner', tx') → P tx')
    (hperform : ∀ tx inner now op tx', P tx → tx.perform inner now op = some tx' → P tx') :
    ∀ tx ∈ db.objects, P tx := by
  change (fun db : Database => ∀ tx ∈ db.objects, P tx) db
  apply h.invariant
  · intro db r db' hP _ hs tx htx
    rw [Database.next_eq] at hs
    obtain ⟨⟨db₁, res⟩, hstep, rfl⟩ := Option.map_eq_some_iff.1 hs
    cases Descends.of_step hstep htx with
    | kept h => exact hP tx h
    | performed h hp => exact hperform _ _ _ _ _ (hP _ h) hp
    | built h => exact hnew _ _ _ _ h
    | recycled h hr => exact hreset _ _ _ _ _ (hP _ h) hr
  · intro tx htx
    cases htx

theorem Serving.of_run
    (h : Execution.Run Database.next (fun _ _ => True) (.opened datastore clock threshold) db) :
    Serving db := by
  refine h.invariant ?_ (Serving.new datastore clock threshold)
  intro db r db' hs _ hn
  rw [Database.next_eq] at hn
  obtain ⟨db₁, res, hstep, hs₁, -⟩ := hs.step r.call r.now
  rw [hstep] at hn
  cases hn
  exact hs₁

end StupidKv
