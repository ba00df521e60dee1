import StupidKv.Lib.Processes
import StupidKv.Simulation

namespace StupidKv
open Std
set_option autoImplicit true

/-- No call on the database has anything to wait for. What the datastore holds is left open. -/
structure Serving (db : Database) : Prop where
  idle : db.inner.transactionMergeQueue = ∅
  queue : ∀ c ∈ db.inner.transactionCommitQueue, c ≤ db.inner.transactionCommitId
  floor : db.inner.gcFloor ≤ db.inner.timestamp
  byOracle : Holds db.inner.counterByOracle (holders (·.version) db.transactions)
  byCommit : Holds db.inner.counterByCommit (holders (·.commit) db.transactions)
  live : ∀ (i : Nat) tx, db.transactions[i]?.join = some tx →
    db.inner.gcFloor ≤ tx.version ∧ tx.version ≤ db.inner.timestamp

/-- The writeset a call has committed. -/
def published (db : Database) : Call → Response → List Writeset
  | .on i .commit, .done (.ok ()) => (db.transactions[i]?.join.map (·.writeset)).toList
  | _, _ => []

/-- Handles survive with the snapshots they have. -/
def KeepsSnapshots (before after : List (Option TransactionInner)) : Prop :=
  after.length = before.length ∧ ∀ (j : Nat) tx', after[j]?.join = some tx' →
    ∃ tx, before[j]?.join = some tx ∧ tx'.version = tx.version

/-- A new handle over the data as it is. -/
structure Begun (db : Database) (write : Bool) (db' : Database) (tx : TransactionInner) : Prop where
  handles : db'.transactions = db.transactions ++ [some tx]
  datastore : db'.inner.datastore = db.inner.datastore
  timestamp : db'.inner.timestamp = db.inner.timestamp
  commitId : db'.inner.transactionCommitId = db.inner.transactionCommitId
  mode : tx.mode = .snapshotIsolation
  write : tx.write = write
  done : tx.done = false
  readset : tx.readset = ∅
  readsetBloom : tx.readsetBloom = .new
  writeset : tx.writeset = ∅
  version : tx.version = db.inner.timestamp
  commit : tx.commit = db.inner.transactionCommitId

/-- What a call can do to the data and to the snapshots of the handles. -/
inductive Served (db : Database) (call : Call) : Database → Response → Prop
  | begins (hcall : call = .transaction write) (hb : Begun db write db' tx) : Served db call db' r
  | quiet {inner : Inner} (hi : inner.datastore = db.inner.datastore)
      (ht : inner.timestamp = db.inner.timestamp)
      (hk : KeepsSnapshots db.transactions txs) (hp : ∀ ws ∈ published db call r, ws = ∅)
      (hcall : ∀ write, call ≠ .transaction write) :
      Served db call ⟨inner, pool, txs⟩ r
  | publishes {inner : Inner} (hcall : call = .on i .commit) (hp : published db call r = [ws])
      (he : ws.isEmpty = false)
      (hv : db.inner.timestamp < version) (ht : inner.timestamp = version)
      (hi : Written version ws db.inner.datastore inner.datastore)
      (hk : KeepsSnapshots db.transactions txs) :
      Served db call ⟨inner, pool, txs⟩ r
  | collects {inner : Inner} (hcall : call = .runGc) (hw : watermark ≤ db.inner.timestamp)
      (hl : ∀ (i : Nat) tx, db.transactions[i]?.join = some tx → watermark ≤ tx.version)
      (hi : ∀ Q : Bytes → Versions → Prop,
        (∀ key ch, Q key ch → Q key (ch.gcOlderVersions watermark)) →
        (∀ key, Q key (chainAt db.inner.datastore key)) → ∀ key, Q key (chainAt inner.datastore key))
      (ht : inner.timestamp = db.inner.timestamp) :
      Served db call { db with inner := inner } r

section
variable {db : Database} {tx tx' : TransactionInner} {i : Nat}

theorem Serving.new (datastore : SkipMap Bytes Versions) (referenceUnix threshold : Nat) :
    Serving ⟨{ Inner.new referenceUnix threshold with datastore := datastore }, [], []⟩ where
  idle := rfl
  queue := by simp [Inner.new]
  floor := Nat.zero_le _
  byOracle := Holds.empty
  byCommit := Holds.empty
  live := by simp

theorem KeepsSnapshots.refl (txs : List (Option TransactionInner)) : KeepsSnapshots txs txs :=
  ⟨rfl, fun _ tx h => ⟨tx, h, rfl⟩⟩

theorem KeepsSnapshots.set {txs : List (Option TransactionInner)} (hi : txs[i]?.join = some tx)
    (hv : ∀ tx', o = some tx' → tx'.version = tx.version) : KeepsSnapshots txs (txs.set i o) := by
  refine ⟨List.length_set, fun j tx' hj => ?_⟩
  rw [List.getElem?_set] at hj
  split at hj
  · rename_i hij
    subst hij
    split at hj
    · exact ⟨tx, hi, hv tx' hj⟩
    · cases hj
  · exact ⟨tx', hj, rfl⟩

theorem Serving.not_queued (h : Serving db) :
    db.inner.transactionCommitId + 1 ∉ db.inner.transactionCommitQueue := by
  intro hm
  exact absurd (h.queue _ hm) (Nat.not_succ_le_self _)

theorem Serving.replace (h : Serving db) (hi : db.transactions[i]?.join = some tx)
    (hv : tx'.version = tx.version) (hc : tx'.commit = tx.commit) :
    Serving { db with transactions := db.transactions.set i (some tx') } where
  idle := h.idle
  queue := h.queue
  floor := h.floor
  byOracle := h.byOracle.congr fun v => (holders_set_some (·.version) hi hv v).symm
  byCommit := h.byCommit.congr fun v => (holders_set_some (·.commit) hi hc v).symm
  live := by
    intro j y hj
    obtain ⟨x, hx, he⟩ := (KeepsSnapshots.set hi (by simpa using hv)).2 j y hj
    rw [he]
    exact h.live j x hx

theorem Serving.transaction (h : Serving db) (write : Bool) :
    ∃ db' tx, db.transaction write = some (db', .handle db.transactions.length) ∧ Serving db' ∧
      Begun db write db' tx := by
  obtain ⟨o, ho, hho⟩ := h.byOracle.register db.inner.timestamp (some db.inner.gcFloor)
    (by simpa using h.floor)
  obtain ⟨c, hc, hhc⟩ := h.byCommit.register db.inner.transactionCommitId none rfl
  have hr : db.inner.register =
      some { db.inner with counterByOracle := o, counterByCommit := c } := by
    simp [Inner.register, ho, hc]
  obtain ⟨pool, tx, hp, hm, hd, hw, hv, hcm, hrs, hbl, hws⟩ := db.poolGet_eq write hr
  refine ⟨⟨{ db.inner with counterByOracle := o, counterByCommit := c }, pool,
    db.transactions ++ [some tx]⟩, tx, by simp [Database.transaction, hp], ?_,
    ⟨rfl, rfl, rfl, rfl, hm, hw, hd, hrs, hbl, hws, hv, hcm⟩⟩
  exact {
    idle := h.idle
    queue := h.queue
    floor := h.floor
    byOracle := hho.congr fun v => by rw [holders_concat, hv]
    byCommit := hhc.congr fun v => by rw [holders_concat, hcm]
    live := by
      intro j y hj
      rcases hg : (db.transactions ++ [some tx])[j]? with _ | x
      · simp [hg] at hj
      · rw [hg] at hj
        rcases Processes.getElem?_concat_cases hg with hx | ⟨-, rfl⟩
        · exact h.live j y (by rw [hx]; exact hj)
        · cases hj
          rw [hv]
          exact ⟨h.floor, le_rfl⟩ }

theorem Serving.drop (h : Serving db) (hi : db.transactions[i]?.join = some tx) :
    Serving (db.drop i tx) where
  idle := h.idle
  queue := h.queue
  floor := h.floor
  byOracle := (h.byOracle.release (holders_pos _ hi)).congr fun v =>
    (holders_set_none _ hi v).symm
  byCommit := (h.byCommit.release (holders_pos _ hi)).congr fun v =>
    (holders_set_none _ hi v).symm
  live := by
    intro j y hj
    obtain ⟨x, hx, he⟩ := (KeepsSnapshots.set (o := none) hi (by simp)).2 j y hj
    rw [he]
    exact h.live j x hx

theorem Serving.runCleanup (h : Serving db) :
    Serving { db with inner := db.inner.runCleanupInner } where
  idle := h.idle
  queue := by
    intro c hc
    refine h.queue c ?_
    simp only [Inner.runCleanupInner, ExtTreeMap.mem_iff_isSome_getElem?,
      ExtTreeMap.getElem?_filter', Option.isSome_filter] at hc ⊢
    exact Option.isSome_of_any hc
  floor := h.floor
  byOracle := h.byOracle
  byCommit := h.byCommit
  live := h.live

theorem Serving.runGc (h : Serving db) (now : Nat) :
    Serving { db with inner := db.inner.runGc now } ∧
      Served db .runGc { db with inner := db.inner.runGc now } r := by
  let proposed := min (min now (db.inner.earliestActiveVersion now)) db.inner.timestamp
  have hw : (db.inner.computeCleanupTs now).2 ≤ proposed := Nat.min_le_left _ _
  have hlive : ∀ (i : Nat) tx, db.transactions[i]?.join = some tx → proposed ≤ tx.version := by
    intro i tx hi
    have hle : db.inner.earliestActiveVersion now ≤ tx.version :=
      h.byOracle.earliestActive_le (holders_pos (·.version) hi) now
    exact ((Nat.min_le_left _ _).trans (Nat.min_le_right _ _)).trans hle
  constructor
  · exact {
      idle := h.idle
      queue := h.queue
      floor := Nat.max_le.2 ⟨h.floor, Nat.min_le_right _ _⟩
      byOracle := h.byOracle
      byCommit := h.byCommit
      live := fun i tx hi =>
        ⟨Nat.max_le.2 ⟨(h.live i tx hi).1, hlive i tx hi⟩, (h.live i tx hi).2⟩ }
  · refine .collects rfl (hw.trans (Nat.min_le_right _ _))
      (fun i tx hi => hw.trans (hlive i tx hi)) ?_ rfl
    intro Q hQ h
    exact gcPass_preserves hQ (db.inner.computeCleanupTs now).1 h

end

section
variable {db : Inner} {tx : TransactionInner}

/-- The entry a commit of `tx` queues. -/
def Inner.entryOf (db : Inner) (tx : TransactionInner) : Commit :=
  .ofWriteset (db.transactionQueueId + 1) tx.writeset

/-- The state in which a commit validates. -/
def Inner.queued (db : Inner) (tx : TransactionInner) : Inner :=
  { db with
    transactionQueueId := db.transactionQueueId + 1
    transactionCommitQueue :=
      db.transactionCommitQueue.insertIfNew (db.transactionCommitId + 1) (db.entryOf tx)
    transactionCommitId := db.transactionCommitId + 1 }

/-- A commit with something to write takes its slot at once, and validates there. -/
theorem runCommit_eq (hq : db.transactionCommitId + 1 ∉ db.transactionCommitQueue)
    (hd : tx.done = false) (he : tx.writeset.isEmpty = false) (now : Nat)
    (append : Option (Except PersistenceError Unit)) :
    tx.runCommit db now append =
      match { tx with done := true, writeset := ∅ }.validate (db.queued tx)
        (db.transactionCommitId + 1) (db.entryOf tx) with
      | some e => some ({ db with
          transactionQueueId := db.transactionQueueId + 1
          transactionCommitId := db.transactionCommitId + 1 },
          { tx with done := true, writeset := ∅ }.clearSets, .error e)
      | none => (TransactionInner.applyWriteset tx.writeset (db.queued tx) now append).map
          fun p => (p.1, { tx with done := true, writeset := ∅ }.clearSets, p.2) := by
  have hauto := Inner.autoCommit_free
    { db with transactionQueueId := db.transactionQueueId + 1 } hq (db.entryOf tx)
  unfold TransactionInner.runCommit
  rw [if_neg (by simp [hd]), if_neg (by simp [he])]
  simp only [Inner.entryOf] at hauto
  simp only [hauto, Option.bind_eq_bind, Option.bind_some, Inner.queued, Inner.entryOf]
  generalize TransactionInner.validate _ _ _ _ = o
  cases o with
  | some e =>
    rw [SkipMap.erase_insertIfNew hq]
    rfl
  | none =>
    rw [Option.map_eq_bind]
    rfl

theorem validate_fresh {entry : Commit} (hc : version ≤ tx.commit + 1) :
    tx.validate db version entry = none := by
  have hf : (db.transactionCommitQueue.toList.filter fun e =>
      tx.commit + 1 ≤ e.1 && decide (e.1 < version)) = [] := by
    refine List.filter_eq_nil_iff.2 fun e _ => ?_
    simp only [Bool.and_eq_true, decide_eq_true_eq]
    omega
  unfold TransactionInner.validate
  rw [hf]
  simp

end

section
variable {db : Database} {tx : TransactionInner} {i : Nat}

theorem mem_insertIfNew_cases {m : SkipMap Nat V} {k c : Nat} (h : c ∈ m.insertIfNew k v) :
    k = c ∨ c ∈ m := by
  simpa using h

theorem Serving.publish (h : Serving db) (hi : db.transactions[i]?.join = some tx)
    (hd : tx.done = false) (he : tx.writeset.isEmpty = false)
    (hv : { tx with done := true, writeset := ∅ }.validate (db.inner.queued tx)
      (db.inner.transactionCommitId + 1) (db.inner.entryOf tx) = none) (now : Nat) :
    ∃ inner tx', tx.runCommit db.inner now none = some (inner, tx', .ok ()) ∧
      Serving ⟨inner, db.pool, db.transactions.set i (some tx')⟩ ∧
      inner.timestamp = db.inner.nextVersion now ∧
      Written (db.inner.nextVersion now) tx.writeset db.inner.datastore inner.datastore ∧
      tx'.version = tx.version := by
  obtain ⟨dirty, datastore, hw, happ⟩ :=
    applyWriteset_eq (db.inner.queued tx) h.idle tx.writeset now
  have hrun := runCommit_eq h.not_queued hd he now none
  rw [hv] at hrun
  simp only [happ, Option.map_some] at hrun
  obtain ⟨hver, hcom, -⟩ := clearSets_frame { tx with done := true, writeset := ∅ }
  refine ⟨_, _, hrun, ?_, rfl, hw, hver⟩
  have hr := h.replace hi hver hcom
  exact {
    idle := h.idle
    queue := by
      intro c hc
      rcases mem_insertIfNew_cases hc with rfl | hc
      · exact le_rfl
      · exact (h.queue c hc).trans (Nat.le_succ _)
    floor := h.floor.trans (db.inner.timestamp_lt_nextVersion now).le
    byOracle := hr.byOracle
    byCommit := hr.byCommit
    live := fun j y hj =>
      ⟨(hr.live j y hj).1, (hr.live j y hj).2.trans (db.inner.timestamp_lt_nextVersion now).le⟩ }

theorem Serving.runCommit (h : Serving db) (hi : db.transactions[i]?.join = some tx) (now : Nat) :
    ∃ inner tx' r, tx.runCommit db.inner now none = some (inner, tx', r) ∧
      Serving ⟨inner, db.pool, db.transactions.set i (some tx')⟩ ∧
      Served db (.on i .commit) ⟨inner, db.pool, db.transactions.set i (some tx')⟩ (.done r) := by
  have hset : ∀ {tx' : TransactionInner}, tx'.version = tx.version →
      KeepsSnapshots db.transactions (db.transactions.set i (some tx')) :=
    fun hv => .set hi (by simpa using hv)
  by_cases hd : tx.done = true
  · refine ⟨db.inner, tx, .error .txClosed, by simp [TransactionInner.runCommit, hd],
      h.replace hi rfl rfl, .quiet rfl rfl (hset rfl) (by simp [published]) (by simp)⟩
  by_cases he : tx.writeset.isEmpty = true
  · refine ⟨db.inner, { tx with done := true }, .ok (),
      by simp [TransactionInner.runCommit, hd, he], h.replace hi rfl rfl,
      .quiet rfl rfl (hset rfl) ?_ (by simp)⟩
    intro ws hws
    have hws : ws = tx.writeset := by simpa [published, hi] using hws
    rw [hws]
    exact ExtTreeMap.isEmpty_iff.1 he
  simp only [Bool.not_eq_true] at hd he
  cases hv : { tx with done := true, writeset := ∅ }.validate (db.inner.queued tx)
      (db.inner.transactionCommitId + 1) (db.inner.entryOf tx) with
  | some e =>
    have hrun := runCommit_eq h.not_queued hd he now none
    rw [hv] at hrun
    obtain ⟨hver, hcom, -⟩ := clearSets_frame { tx with done := true, writeset := ∅ }
    have hr := h.replace hi hver hcom
    refine ⟨_, _, _, hrun, { hr with queue := ?_ },
      .quiet rfl rfl (hset hver) (by simp [published]) (by simp)⟩
    intro c hc
    exact (h.queue c hc).trans (Nat.le_succ _)
  | none =>
    obtain ⟨inner, tx', hrun, hs, ht, hw, hver⟩ := h.publish hi hd he hv now
    refine ⟨inner, tx', _, hrun, hs, ?_⟩
    exact .publishes rfl (by simp [published, hi]) he (db.inner.timestamp_lt_nextVersion now) ht hw
      (hset hver)

/-- A transaction keeps both snapshot numbers. -/
def SameSnapshot (tx tx' : TransactionInner) : Prop :=
  tx'.version = tx.version ∧ tx'.commit = tx.commit

theorem SameSnapshot.get (tx : TransactionInner) (db : Inner) (key : Bytes) :
    SameSnapshot tx (tx.get db key).1 := by
  obtain ⟨readset, bloom, he⟩ := get_frame tx db key
  rw [he]
  exact ⟨rfl, rfl⟩

theorem SameSnapshot.exists (tx : TransactionInner) (db : Inner) (key : Bytes) :
    SameSnapshot tx (tx.exists db key).1 := by
  rw [exists_object]
  exact .get tx db key

theorem SameSnapshot.store (tx : TransactionInner) (key : Bytes) (value : Option Bytes) :
    SameSnapshot tx (tx.store key value).1 := by
  unfold TransactionInner.store
  split
  · exact ⟨rfl, rfl⟩
  · split <;> exact ⟨rfl, rfl⟩

theorem SameSnapshot.put (tx : TransactionInner) (db : Inner) (key val : Bytes) :
    SameSnapshot tx (tx.put db key val).1 := by
  unfold TransactionInner.put
  split
  · exact ⟨rfl, rfl⟩
  · split
    · exact ⟨rfl, rfl⟩
    · split
      · exact ⟨rfl, rfl⟩
      · split <;> exact ⟨rfl, rfl⟩

theorem SameSnapshot.cancel (tx : TransactionInner) : SameSnapshot tx tx.cancel.1 := by
  unfold TransactionInner.cancel
  split
  · exact ⟨rfl, rfl⟩
  · obtain ⟨hv, hc, -⟩ := clearSets_frame { tx with done := true }
    exact ⟨hv, hc⟩

theorem Serving.update {r : TransactionInner × Response} (h : Serving db)
    (hi : db.transactions[i]?.join = some tx) (hr : SameSnapshot tx r.1) (hop : op ≠ .commit) :
    ∃ db', db.update i r = some (db', r.2) ∧ Serving db' ∧ Served db (.on i op) db' r.2 := by
  refine ⟨_, rfl, h.replace hi hr.1 hr.2, ?_⟩
  refine .quiet rfl rfl (.set hi (by simpa using hr.1)) ?_ (by simp)
  cases op with
  | commit => exact absurd rfl hop
  | _ => simp [published]

theorem Serving.call (h : Serving db) (hi : db.transactions[i]?.join = some tx) (now : Nat)
    (op : Op) :
    ∃ db' r, db.call i tx now op = some (db', r) ∧ Serving db' ∧ Served db (.on i op) db' r := by
  have hl {r : TransactionInner × Response} (hr : SameSnapshot tx r.1) (hop : op ≠ .commit) :
      ∃ db' r', db.update i r = some (db', r') ∧ Serving db' ∧ Served db (.on i op) db' r' := by
    obtain ⟨db', hu, hs, hd⟩ := h.update hi hr hop
    exact ⟨db', r.2, hu, hs, hd⟩
  cases op with
  | withSnapshotIsolation => exact hl ⟨rfl, rfl⟩ (by simp)
  | withSerializableSnapshotIsolation => exact hl ⟨rfl, rfl⟩ (by simp)
  | get key => exact hl (SameSnapshot.get tx db.inner key) (by simp)
  | «exists» key => exact hl (SameSnapshot.exists tx db.inner key) (by simp)
  | set key val => exact hl (SameSnapshot.store tx key (some val)) (by simp)
  | put key val => exact hl (SameSnapshot.put tx db.inner key val) (by simp)
  | del key => exact hl (SameSnapshot.store tx key none) (by simp)
  | cancel => exact hl (SameSnapshot.cancel tx) (by simp)
  | commit =>
    obtain ⟨inner, tx', r, hrun, hs, hd⟩ := h.runCommit hi now
    exact ⟨_, _, by simp [Database.call, hrun], hs, hd⟩
  | drop =>
    refine ⟨_, _, rfl, h.drop hi, ?_⟩
    exact .quiet rfl rfl (.set hi (by simp)) (by simp [published]) (by simp)

/-- Every call returns, and the database goes on serving. -/
theorem Serving.step (h : Serving db) (call : Call) (now : Nat) :
    ∃ db' r, db.step (call, now) = some (db', r) ∧ Serving db' ∧ Served db call db' r := by
  cases call with
  | transaction write =>
    obtain ⟨db', tx, ht, hs, hb⟩ := h.transaction write
    exact ⟨db', _, ht, hs, .begins rfl hb⟩
  | on i op =>
    cases hi : db.transactions[i]?.join with
    | none =>
      refine ⟨db, .gone, by simp only [Database.step, hi], h, ?_⟩
      exact .quiet rfl rfl (.refl _) (by cases op <;> simp [published]) (by simp)
    | some tx =>
      simp only [Database.step, hi]
      exact h.call hi now op
  | runGc =>
    obtain ⟨hs, hd⟩ := h.runGc now
    exact ⟨_, _, rfl, hs, hd⟩
  | runCleanup =>
    refine ⟨_, _, rfl, h.runCleanup, ?_⟩
    exact .quiet rfl rfl (.refl _) (by simp [published]) (by simp)

end

end StupidKv
