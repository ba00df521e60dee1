import StupidKv.Lib.Execution
import StupidKv.CommitSteps

namespace StupidKv
open Std Timeline
set_option autoImplicit true

section
variable {db db' : Inner} {hist : List Published} {tx : TransactionInner} {s : Session}

theorem Stores.congr (h : Stores db hist txs)
    (hv : ∀ v, holders (·.version) txs v = holders (·.version) txs' v)
    (hc : ∀ v, holders (·.commit) txs v = holders (·.commit) txs' v) : Stores db hist txs' :=
  { h with
    byOracle := h.byOracle.congr hv
    byCommit := h.byCommit.congr hc }

theorem TxSim.mono (h : TxSim db hist tx s) (ht : db.timestamp ≤ db'.timestamp)
    (hc : db.transactionCommitId ≤ db'.transactionCommitId) (hf : db'.gcFloor ≤ tx.version)
    (hq : ∀ a ∈ hist, tx.commit < a.commit → a.commit ∈ db.transactionCommitQueue →
      a.commit ∈ db'.transactionCommitQueue) : TxSim db' hist tx s :=
  { h with
    version := h.version.trans ht
    commit := h.commit.trans hc
    floor := hf
    queue := fun a ha hlt => hq a ha hlt (h.queue a ha hlt) }

/-- A commit made after a transaction began lies past its snapshot. -/
theorem TxSim.publish (h : TxSim db hist tx s) (db' : Inner) (hv : db.timestamp < p.version)
    (hc : db.transactionCommitId < p.commit) (ht : p.version ≤ db'.timestamp)
    (hc' : p.commit ≤ db'.transactionCommitId) (hf : db'.gcFloor = db.gcFloor)
    (hq : db'.transactionCommitQueue = db.transactionCommitQueue.insertIfNew p.commit updates) :
    TxSim db' (hist ++ [p]) tx s where
  mode := h.mode
  done := h.done
  write := h.write
  sets := h.sets
  snapshot := by
    rw [List.length_append]
    exact h.snapshot.trans (Nat.le_add_right _ _)
  past := by
    rw [List.take_append_of_le_length h.snapshot]
    exact h.past
  future := by
    rw [List.drop_append_of_le_length h.snapshot]
    intro a ha
    rcases List.mem_append.1 ha with ha | ha
    · exact h.future a ha
    · rw [List.mem_singleton.1 ha]
      exact ⟨h.version.trans_lt hv, h.commit.trans_lt hc⟩
  version := (h.version.trans hv.le).trans ht
  commit := (h.commit.trans hc.le).trans hc'
  floor := hf ▸ h.floor
  queue := by
    intro a ha hlt
    rw [hq, ExtTreeMap.mem_insertIfNew]
    rcases List.mem_append.1 ha with ha | ha
    · exact .inr (h.queue a ha hlt)
    · exact .inl (by simp [List.mem_singleton.1 ha])

end

section
variable {db : Database} {l : Ledger} {hist hist' : List Published} {tx tx' : TransactionInner}
  {s s' : Session} {i : Nat} {inner : Inner} {committed : List Writeset}

theorem Sim.live (h : Sim db l hist) (hi : db.transactions[i]?.join = some tx) :
    ∃ s, l.sessions[i]?.join = some s ∧ TxSim db.inner hist tx s := by
  have hr := h.sessions i
  rw [hi] at hr
  generalize l.sessions[i]?.join = o at hr
  cases hr with
  | some hr => exact ⟨_, rfl, hr⟩

theorem Sim.replace (h : Sim db l hist) (hi : db.transactions[i]?.join = some tx)
    (hst : Stores inner hist' db.transactions)
    (hm : ∀ tx s, TxSim db.inner hist tx s → TxSim inner hist' tx s)
    (ht : TxSim inner hist' tx' s') (hv : tx'.version = tx.version)
    (hc : tx'.commit = tx.commit) (hl : committed = hist'.map Published.writeset) :
    Sim { db with inner, transactions := db.transactions.set i (some tx') }
      ⟨committed, l.sessions.set i (some s')⟩ hist' where
  stores := hst.congr (fun v => (holders_set_some _ hi hv v).symm)
    (fun v => (holders_set_some _ hi hc v).symm)
  committed := hl
  length := by simpa using h.length
  sessions := rel_set h.length (fun j => rel_mono (h.sessions j) fun tx s _ => hm tx s) (.some ht) i

theorem Sim.update (h : Sim db l hist) (hi : db.transactions[i]?.join = some tx)
    {r : TransactionInner × Response} {r' : Session × Response}
    (ha : Agrees db.inner hist tx r r') :
    ∃ db', db.update i r = some (db', r'.2) ∧
      Sim db' ⟨l.committed ++ [], l.sessions.set i (some r'.1)⟩ hist := by
  refine ⟨_, by rw [Database.update, ha.response], ?_⟩
  refine h.replace hi h.stores (fun _ _ => id) ha.sim ha.version ha.commit ?_
  rw [List.append_nil, h.committed]

theorem Agrees.map {ρ σ : Type} {inner : Inner} {r : TransactionInner × ρ} {r' : Session × ρ}
    (h : Agrees inner hist tx r r') (f : ρ → σ) :
    Agrees inner hist tx (r.map id f) (r'.map id f) :=
  ⟨congrArg f h.response, h.sim, h.version, h.commit⟩

theorem Stores.register {db : Inner} (h : Stores db hist txs) :
    ∃ o c, db.register = some { db with counterByOracle := o, counterByCommit := c } ∧
      Holds o (fun u => holders (·.version) txs u + if u = db.timestamp then 1 else 0) ∧
      Holds c (fun u => holders (·.commit) txs u + if u = db.transactionCommitId then 1 else 0) := by
  obtain ⟨o, ho, hho⟩ := h.byOracle.register db.timestamp (some db.gcFloor)
    (by simpa using h.floor)
  obtain ⟨c, hc, hhc⟩ := h.byCommit.register db.transactionCommitId none rfl
  exact ⟨o, c, by simp [Inner.register, ho, hc], hho, hhc⟩

theorem Database.poolGet_eq (db : Database) (write : Bool) (h : db.inner.register = some inner) :
    ∃ pool tx, db.poolGet write = some ({ db with inner, pool }, tx) ∧
      tx.mode = .snapshotIsolation ∧ tx.done = false ∧ tx.write = write ∧
      tx.version = db.inner.timestamp ∧ tx.commit = db.inner.transactionCommitId ∧
      tx.readset = ∅ ∧ tx.readsetBloom = .new ∧ tx.writeset = ∅ := by
  unfold Database.poolGet
  cases db.pool with
  | nil =>
    refine ⟨[], _, by simp [TransactionInner.new, h]; rfl, ?_⟩
    simp
  | cons tx pool =>
    refine ⟨pool, _, by simp [TransactionInner.reset, h]; rfl, ?_⟩
    simp [BloomFilter.clear]

theorem Sim.transaction (h : Sim db l hist) (write : Bool) :
    ∃ db', db.transaction write = some (db', .handle l.sessions.length) ∧
      Sim db' { l with
        sessions := l.sessions ++ [some (.fresh write l.committed.length)] } hist := by
  obtain ⟨o, c, hr, ho, hc⟩ := h.stores.register
  obtain ⟨pool, tx, hp, hm, hd, hw, hv, hcm, hrs, hb, hws⟩ := db.poolGet_eq write hr
  refine ⟨_, by simp [Database.transaction, hp, h.length]; rfl, ?_⟩
  have hn : l.committed.length = hist.length := by rw [h.committed, List.length_map]
  have ht : TxSim db.inner hist tx (.fresh write l.committed.length) := {
    mode := hm
    done := hd
    write := hw
    sets := fun _ => ⟨hws, by simp [hrs, Session.fresh], by rw [hrs, hb]; exact .new⟩
    snapshot := hn.le
    past := by
      intro a ha
      rw [hv, hcm]
      exact h.stores.bounded a (List.mem_of_mem_take ha)
    future := by simp [Session.fresh, hn]
    version := hv.le
    commit := hcm.le
    floor := hv ▸ h.stores.floor
    queue := by
      intro a ha hlt
      rw [hcm] at hlt
      exact absurd (h.stores.bounded a ha).2 (Nat.not_le.2 hlt) }
  have hframe : ∀ tx s, TxSim db.inner hist tx s →
      TxSim { db.inner with counterByOracle := o, counterByCommit := c } hist tx s :=
    fun tx s hs => hs.mono le_rfl le_rfl hs.floor fun _ _ _ => id
  exact {
    stores := { h.stores with
      byOracle := ho.congr fun v => by rw [holders_concat, hv]
      byCommit := hc.congr fun v => by rw [holders_concat, hcm] }
    committed := h.committed
    length := by simp [h.length]
    sessions := rel_concat h.length (fun j => rel_mono (h.sessions j) fun tx s _ => hframe tx s)
      (.some (hframe _ _ ht)) }

theorem Sim.drop (h : Sim db l hist) (hi : db.transactions[i]?.join = some tx) :
    Sim (db.drop i tx) ⟨l.committed ++ [], l.sessions.set i none⟩ hist where
  stores := { h.stores with
    byOracle := (h.stores.byOracle.release (holders_pos _ hi)).congr fun v =>
      (holders_set_none _ hi v).symm
    byCommit := (h.stores.byCommit.release (holders_pos _ hi)).congr fun v =>
      (holders_set_none _ hi v).symm }
  committed := by rw [List.append_nil, h.committed]
  length := by simpa [Database.drop] using h.length
  sessions := by
    refine rel_set h.length (fun j => rel_mono (h.sessions j) ?_) .none i
    intro _ _ _ hs
    exact hs.mono le_rfl le_rfl hs.floor fun _ _ _ => id

/-- What `run_cleanup` removes no live transaction needs. -/
theorem Sim.runCleanup (h : Sim db l hist) :
    Sim { db with inner := db.inner.runCleanupInner } l hist where
  stores := { h.stores with
    queue := by
      intro c e he
      simp only [Inner.runCleanupInner, ExtTreeMap.getElem?_filter', Option.filter_eq_some_iff] at he
      exact h.stores.queue c e he.1 }
  committed := h.committed
  length := h.length
  sessions j := by
    refine rel_mono (h.sessions j) fun tx s hj hs => hs.mono le_rfl le_rfl hs.floor ?_
    intro a _ hlt hm
    have hle := h.stores.byCommit.earliestActive_le (holders_pos _ hj)
      db.inner.transactionCommitId
    obtain ⟨e, he⟩ := Option.isSome_iff_exists.1 (ExtTreeMap.mem_iff_isSome_getElem?.1 hm)
    simp only [Inner.runCleanupInner, Inner.earliestActiveCommit,
      ExtTreeMap.mem_iff_isSome_getElem?, ExtTreeMap.getElem?_filter', he, Option.isSome_filter,
      Option.any_some, Bool.not_eq_true']
    exact decide_eq_false (by omega)

/-- The published floor stays below the clock of the database and below every live snapshot. -/
theorem Sim.runGc (h : Sim db l hist) (now : Nat) :
    Sim { db with inner := db.inner.runGc now } l hist := by
  let proposed := min (min now (db.inner.earliestActiveVersion now)) db.inner.timestamp
  have hp : (db.inner.computeCleanupTs now).1 =
      { db.inner with gcFloor := max db.inner.gcFloor proposed } := rfl
  have hw : (db.inner.computeCleanupTs now).2 ≤ max db.inner.gcFloor proposed :=
    (Nat.min_le_left _ _).trans (Nat.le_max_right _ _)
  have hfloor : (db.inner.runGc now).gcFloor = max db.inner.gcFloor proposed := rfl
  have hchains : Covers (max db.inner.gcFloor proposed) db.inner.datastore (writesOf hist) :=
    fun key => (h.stores.chains key).weaken (Nat.le_max_left _ _)
  exact {
    stores := { h.stores with
      floor := Nat.max_le.2 ⟨h.stores.floor, Nat.min_le_right _ _⟩
      chains := Covers.gcPass (db.inner.computeCleanupTs now).1 hchains hw }
    committed := h.committed
    length := h.length
    sessions := fun j => by
      refine rel_mono (h.sessions j) fun tx s hj hs => hs.mono le_rfl le_rfl ?_ fun _ _ _ => id
      have hle : db.inner.earliestActiveVersion now ≤ tx.version :=
        h.stores.byOracle.earliestActive_le (holders_pos (·.version) hj) now
      rw [hfloor]
      exact Nat.max_le.2 ⟨hs.floor, ((Nat.min_le_left _ _).trans (Nat.min_le_right _ _)).trans hle⟩ }

theorem SkipMap.erase_insertIfNew {m : SkipMap Nat V} (h : k ∉ m) (v : V) :
    (m.insertIfNew k v).erase k = m := by
  refine ExtTreeMap.ext_getElem? fun c => ?_
  rw [ExtTreeMap.getElem?_erase, ExtTreeMap.getElem?_insertIfNew]
  by_cases he : k = c
  · subst he
    simpa using (ExtTreeMap.getElem?_eq_none h).symm
  · simp [he]

theorem Stores.publish {db inner : Inner} (h : Stores db hist txs) (ht : db.timestamp < p.version)
    (hc : p.commit = db.transactionCommitId + 1) (hit : inner.timestamp = p.version)
    (hic : inner.transactionCommitId = p.commit)
    (hq : inner.transactionCommitQueue =
      db.transactionCommitQueue.insertIfNew p.commit (.ofWriteset qid p.writeset))
    (hmq : inner.transactionMergeQueue = ∅) (hf : inner.gcFloor = db.gcFloor)
    (hch : Covers inner.gcFloor inner.datastore (writesOf (hist ++ [p])))
    (ho : inner.counterByOracle = db.counterByOracle)
    (hcc : inner.counterByCommit = db.counterByCommit) : Stores inner (hist ++ [p]) txs where
  versions := by
    refine List.pairwise_append.2 ⟨h.versions, List.pairwise_singleton _ _, ?_⟩
    intro a ha b hb
    rw [List.mem_singleton.1 hb]
    exact (h.bounded a ha).1.trans_lt ht
  commits := by
    refine List.pairwise_append.2 ⟨h.commits, List.pairwise_singleton _ _, ?_⟩
    intro a ha b hb
    rw [List.mem_singleton.1 hb, hc]
    exact Nat.lt_succ_of_le (h.bounded a ha).2
  bounded := by
    intro a ha
    rw [hit, hic]
    rcases List.mem_append.1 ha with ha | ha
    · exact ⟨(h.bounded a ha).1.trans ht.le, hc ▸ (h.bounded a ha).2.trans (Nat.le_succ _)⟩
    · rw [List.mem_singleton.1 ha]
      exact ⟨le_rfl, le_rfl⟩
  idle := hmq
  queue := by
    intro c e he
    rw [hq, ExtTreeMap.getElem?_insertIfNew] at he
    split at he
    · rename_i hp
      refine ⟨p, by simp, Nat.compare_eq_eq.1 hp.1, ?_⟩
      cases he
      rfl
    · obtain ⟨a, ha, hac, hae⟩ := h.queue c e he
      exact ⟨a, by simp [ha], hac, hae⟩
  floor := by
    rw [hf, hit]
    exact h.floor.trans ht.le
  chains := hch
  byOracle := ho ▸ h.byOracle
  byCommit := hcc ▸ h.byCommit

theorem applyWriteset_eq (db : Inner) (h : db.transactionMergeQueue = ∅) (ws : Writeset)
    (now : Nat) :
    ∃ dirty datastore, Written (db.nextVersion now) ws db.datastore datastore ∧
      TransactionInner.applyWriteset ws db now none = some ({ db with
        transactionMergeId := db.transactionMergeId + 1
        timestamp := db.nextVersion now
        datastore := datastore
        gcDirtyKeys := dirty }, .ok ()) := by
  let merge : Merge := ⟨db.transactionMergeId + 1, ws⟩
  have hm := Inner.atomicMerge_free { db with transactionMergeId := db.transactionMergeId + 1 } h
    merge now
  let inner : Inner := { db with
    transactionMergeId := db.transactionMergeId + 1
    transactionMergeQueue := db.transactionMergeQueue.insertIfNew (db.nextVersion now) merge
    timestamp := db.nextVersion now }
  obtain ⟨dirty, hframe⟩ := inner.writeAll_frame (db.nextVersion now) ws
  refine ⟨dirty, (inner.writeAll (db.nextVersion now) ws).datastore, ?_, ?_⟩
  · intro key
    exact inner.writeAll_datastore (db.nextVersion now) ws key
  · have hempty : (db.transactionMergeQueue.insertIfNew (db.nextVersion now) merge).erase
        (db.nextVersion now) = db.transactionMergeQueue :=
      SkipMap.erase_insertIfNew (by rw [h]; exact ExtTreeMap.not_mem_empty) _
    have hfinal := congrArg (·.removeMerge (db.nextVersion now)) hframe
    simp only [Inner.removeMerge, inner, hempty] at hfinal
    simp only [TransactionInner.applyWriteset, Option.bind_eq_bind]
    rw [hm]
    simp only [Option.bind_some, Inner.removeMerge]
    exact congrArg (fun db => some (db, Except.ok ())) hfinal

theorem TxSim.runCommit {db : Inner} (h : TxSim db hist tx s) (hd : Stores db hist txs)
    (now : Nat) :
    ∃ inner tx' hist', tx.runCommit db now none =
        some (inner, tx', (s.commit (hist.map Published.writeset)).1) ∧
      Stores inner hist' txs ∧
      (∀ tx s, TxSim db hist tx s → TxSim inner hist' tx s) ∧
      TxSim inner hist' tx' s.close ∧ tx'.version = tx.version ∧ tx'.commit = tx.commit ∧
      hist'.map Published.writeset =
        hist.map Published.writeset ++ (s.commit (hist.map Published.writeset)).2 := by
  unfold TransactionInner.runCommit Session.commit
  by_cases hdn : tx.done = true
  · have hds : s.done = true := h.done ▸ hdn
    rw [if_pos hdn, if_pos hds]
    refine ⟨db, tx, hist, rfl, hd, fun _ _ => id, ?_, rfl, rfl, by simp⟩
    exact (h.close tx rfl rfl rfl hdn rfl ()).sim
  have hds : ¬ s.done = true := h.done ▸ hdn
  rw [if_neg hdn, if_neg hds]
  have hdn : tx.done = false := Bool.eq_false_iff.2 hdn
  have hws := (h.sets hdn).writeset
  by_cases hem : tx.writeset.isEmpty = true
  · rw [if_pos hem, if_pos (hws ▸ hem)]
    refine ⟨db, { tx with done := true }, hist, rfl, hd, fun _ _ => id, ?_, rfl, rfl, by simp⟩
    exact (h.close { tx with done := true } rfl rfl rfl rfl rfl ()).sim
  have hes : ¬ s.writeset.isEmpty = true := hws ▸ hem
  have hauto := Inner.autoCommit_free
    { db with transactionQueueId := db.transactionQueueId + 1 } hd.not_queued
    (.ofWriteset (db.transactionQueueId + 1) tx.writeset)
  rw [if_neg hem, if_neg hes]
  simp only [hauto, Option.bind_eq_bind, Option.bind_some]
  rw [h.validate hd hdn rfl]
  cases ((hist.map Published.writeset).drop s.snapshot).findSome? s.conflict with
  | some e =>
    -- The commit id stays spent; the queue is what it was.
    obtain ⟨hv, hc, hm, hdn', hw⟩ := clearSets_frame { tx with done := true, writeset := ∅ }
    have hstep : ∀ tx s, TxSim db hist tx s → TxSim { db with
        transactionQueueId := db.transactionQueueId + 1
        transactionCommitId := db.transactionCommitId + 1 } hist tx s := fun tx s hs =>
      hs.mono le_rfl (Nat.le_succ _) hs.floor fun _ _ _ => id
    simp only [SkipMap.erase_insertIfNew hd.not_queued]
    refine ⟨_, _, hist, rfl, ?_, hstep, ((hstep _ _ h).close _ hv hc hm hdn' hw ()).sim, hv, hc,
      by simp⟩
    exact { hd with
      bounded := fun a ha =>
        ⟨(hd.bounded a ha).1, (hd.bounded a ha).2.trans (Nat.le_succ _)⟩ }
  | none =>
    obtain ⟨hv, hc, hm, hdn', hw⟩ := clearSets_frame { tx with done := true, writeset := ∅ }
    let mid : Inner := { db with
      transactionQueueId := db.transactionQueueId + 1
      transactionCommitQueue := db.transactionCommitQueue.insertIfNew (db.transactionCommitId + 1)
        (.ofWriteset (db.transactionQueueId + 1) tx.writeset)
      transactionCommitId := db.transactionCommitId + 1 }
    obtain ⟨dirty, datastore, hwritten, happ⟩ := applyWriteset_eq mid hd.idle tx.writeset now
    let version := mid.nextVersion now
    have ht : db.timestamp < version := mid.timestamp_lt_nextVersion now
    let p : Published := ⟨db.transactionCommitId + 1, version, tx.writeset⟩
    have hstep : ∀ tx s, TxSim db hist tx s → TxSim _ (hist ++ [p]) tx s := fun tx s hs =>
      hs.publish { mid with
        transactionMergeId := db.transactionMergeId + 1
        timestamp := version
        datastore := datastore
        gcDirtyKeys := dirty } ht (Nat.lt_succ_self _) le_rfl le_rfl rfl rfl
    simp only [mid] at happ
    simp only [happ, Option.bind_some]
    refine ⟨_, _, hist ++ [p], rfl, ?_, hstep, ((hstep _ _ h).close _ hv hc hm hdn' hw ()).sim,
      hv, hc, by simp [p, hws]⟩
    refine hd.publish ht rfl rfl rfl rfl hd.idle rfl ?_ rfl rfl
    exact Covers.written hd.chains hwritten (fun a ha => (hd.bounded a ha).1.trans_lt ht) _

theorem Sim.call (h : Sim db l hist) (hi : db.transactions[i]?.join = some tx)
    (hs : TxSim db.inner hist tx s) (now : Nat) (op : Op) :
    ∃ db' hist', db.call i tx now op = some (db', (s.step l.committed op).2.1) ∧
      Sim db' ⟨l.committed ++ (s.step l.committed op).2.2,
        l.sessions.set i (s.step l.committed op).1⟩ hist' := by
  have hl {r : TransactionInner × Response} {r' : Session × Response}
      (ha : Agrees db.inner hist tx r r') : ∃ db' hist', db.update i r = some (db', r'.2) ∧
      Sim db' ⟨l.committed ++ [], l.sessions.set i (some r'.1)⟩ hist' := by
    obtain ⟨db', hu, hsim⟩ := h.update hi ha
    exact ⟨db', hist, hu, hsim⟩
  have hmode (m : IsolationLevel) : Agrees db.inner hist tx ({ tx with mode := m }, Response.unit)
      ({ s with mode := m }, Response.unit) :=
    ⟨rfl, hs.change rfl rfl rfl rfl hs.done hs.write fun hd =>
      ⟨(hs.sets hd).writeset, (hs.sets hd).readset, (hs.sets hd).bloom⟩, rfl, rfl⟩
  cases op with
  | withSnapshotIsolation => exact hl (hmode _)
  | withSerializableSnapshotIsolation => exact hl (hmode _)
  | get key =>
    have ha := hs.get h.stores key
    rw [← h.committed] at ha
    exact hl (ha.map .value)
  | «exists» key =>
    have ha := hs.exists h.stores key
    rw [← h.committed] at ha
    exact hl (ha.map .found)
  | set key val => exact hl ((hs.store key (some val)).map .done)
  | put key val =>
    have ha := hs.put h.stores key val
    rw [← h.committed] at ha
    exact hl (ha.map .done)
  | del key => exact hl ((hs.store key none).map .done)
  | cancel => exact hl (hs.cancel.map .done)
  | commit =>
    obtain ⟨inner, tx', hist', hrun, hst, hmono, ht, hv, hc, hl⟩ := hs.runCommit h.stores now
    refine ⟨_, hist', by simp [Database.call, hrun, Session.step, h.committed]; rfl, ?_⟩
    refine h.replace hi hst hmono ht hv hc ?_
    rw [hl, h.committed]
    rfl
  | drop => exact ⟨_, hist, rfl, h.drop hi⟩

/-- Every API call returns, answers as the ledger and keeps the simulation. -/
theorem Sim.step (h : Sim db l hist) (call : Call) (now : Nat) :
    ∃ db' hist', db.step (call, now) = some (db', (l.step call).2) ∧
      Sim db' (l.step call).1 hist' := by
  cases call with
  | transaction write =>
    obtain ⟨db', ht, hs⟩ := h.transaction write
    exact ⟨db', hist, ht, hs⟩
  | on i op =>
    cases hi : db.transactions[i]?.join with
    | none =>
      have hr := h.sessions i
      rw [hi] at hr
      have hn : l.sessions[i]?.join = none := by
        generalize l.sessions[i]?.join = o at hr
        cases hr
        rfl
      simp only [Database.step, Ledger.step, hi, hn]
      exact ⟨db, hist, rfl, h⟩
    | some tx =>
      obtain ⟨s, hs, ht⟩ := h.live hi
      simp only [Database.step, Ledger.step, hi, hs]
      exact h.call hi ht now op
  | runGc => exact ⟨_, hist, rfl, h.runGc now⟩
  | runCleanup => exact ⟨_, hist, rfl, h.runCleanup⟩

/-- A schedule of API calls over any clock gets exactly the ledger's answers. -/
theorem Database.answers_ledger (start threshold : Nat) (calls : List (Call × Nat)) :
    ∃ db, Execution.collect Database.step (.new start threshold) calls =
      some (db, (Execution.respond (fun l c => Ledger.step l c.1) .new calls).2) := by
  obtain ⟨db, hdb, -⟩ := Execution.collect_simulation Database.step
    (fun l c => Ledger.step l c.1) (fun db l => ∃ hist, Sim db l hist)
    (fun db l c ⟨hist, h⟩ => by
      obtain ⟨db', hist', hstep, hs⟩ := h.step c.1 c.2
      exact ⟨db', hstep, hist', hs⟩) calls ⟨[], Sim.new start threshold⟩
  exact ⟨db, hdb⟩

end

end StupidKv
