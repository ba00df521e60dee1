import StupidKv.PooledDatabase

namespace StupidKv
open Std
set_option autoImplicit true

theorem TransactionInner.invoke_frame {db db' : Inner} {tx tx' : TransactionInner}
    (h : tx.invoke db now append op = some (db', tx', r)) :
    db'.counterByCommit = db.counterByCommit ∧ db'.counterByOracle = db.counterByOracle ∧
      SameSnapshot tx tx' := by
  cases op with
  | withSnapshotIsolation =>
    cases h
    exact ⟨rfl, rfl, rfl, rfl⟩
  | withSerializableSnapshotIsolation =>
    cases h
    exact ⟨rfl, rfl, rfl, rfl⟩
  | get key =>
    cases h
    exact ⟨rfl, rfl, .get tx db key⟩
  | «exists» key =>
    cases h
    exact ⟨rfl, rfl, .exists tx db key⟩
  | set key val =>
    cases h
    exact ⟨rfl, rfl, .store tx key (some val)⟩
  | put key val =>
    cases h
    exact ⟨rfl, rfl, .put tx db key val⟩
  | del key =>
    cases h
    exact ⟨rfl, rfl, .store tx key none⟩
  | cancel =>
    cases h
    exact ⟨rfl, rfl, .cancel tx⟩
  | drop =>
    cases h
    exact ⟨rfl, rfl, rfl, rfl⟩
  | commit =>
    obtain ⟨⟨db₁, tx₁, res⟩, hrun, he⟩ := Option.map_eq_some_iff.1 h
    cases he
    obtain ⟨hc, ho⟩ := runCommit_counters hrun
    refine ⟨hc, ho, ?_⟩
    rcases runCommit_object hrun with rfl | rfl | rfl
    · exact ⟨rfl, rfl⟩
    · exact ⟨rfl, rfl⟩
    · obtain ⟨hv, hcm, -⟩ := clearSets_frame { tx with done := true, writeset := ∅ }
      exact ⟨hv, hcm⟩

theorem Serving.serve (h : Serving db) (r : Request) :
    ∃ db' res, db.serve r = some (db', res) ∧ Serving db' := by
  obtain ⟨db', res, hstep, hs, -⟩ := h.step r.call r.now
  have hnext := db.next_eq r
  rw [hstep] at hnext
  obtain ⟨⟨db₁, res₁⟩, hserve, rfl⟩ := Option.map_eq_some_iff.1 hnext
  exact ⟨db₁, res₁, hserve, hs⟩

namespace PooledDatabase

/-- The database without its references: a counter is found by its key. -/
def forget (db : PooledDatabase) : Database where
  inner := db.shared
  pool := db.pool.map (·.toTransactionInner)
  transactions := db.transactions.map (Option.map (·.toTransactionInner))

/-- The references say nothing new: a live transaction holds the cells stored under its snapshot
numbers, and no call on the database has to wait. -/
structure Linked (db : PooledDatabase) : Prop where
  commits : db.byCommit.Sound
  versions : db.byOracle.Sound
  held : ∀ (i : Nat) tx, db.transactions[i]?.join = some tx →
    db.byCommit.map[tx.commit]? = some tx.counterCommit ∧
      db.byOracle.map[tx.version]? = some tx.counterVersion
  serving : Serving db.forget

section
variable {db db' : PooledDatabase} {tx : TransactionObject} {i : Nat}

theorem forget_join (db : PooledDatabase) (i : Nat) :
    db.forget.transactions[i]?.join = db.transactions[i]?.join.map (·.toTransactionInner) := by
  simp only [forget, List.getElem?_map]
  cases db.transactions[i]? with
  | none => rfl
  | some o => cases o <;> rfl

theorem Linked.opened (datastore : SkipMap Bytes Versions) (referenceUnix threshold : Nat) :
    (opened datastore referenceUnix threshold).Linked where
  commits := .new
  versions := .new
  held := by simp [PooledDatabase.opened]
  serving := Serving.new datastore referenceUnix threshold

/-- Both registrations return; read through the references, they are the ones on the maps. -/
theorem Linked.register (h : db.Linked) :
    ∃ byCommit byOracle counterCommit counterVersion,
      db.register = some ({ db with byCommit, byOracle }, counterVersion, counterCommit) ∧
      db.shared.register =
        some { db.shared with
          counterByCommit := byCommit.counts
          counterByOracle := byOracle.counts } ∧
      (byCommit.Sound ∧ byCommit.map[db.inner.transactionCommitId]? = some counterCommit ∧
        ∀ w b : Nat, db.byCommit.map[w]? = some b → byCommit.map[w]? = some b) ∧
      byOracle.Sound ∧ byOracle.map[db.inner.timestamp]? = some counterVersion ∧
        ∀ w b : Nat, db.byOracle.map[w]? = some b → byOracle.map[w]? = some b := by
  obtain ⟨o, ho, -⟩ := h.serving.byOracle.register db.inner.timestamp (some db.inner.gcFloor)
    (decide_eq_true h.serving.floor)
  obtain ⟨c, hc, -⟩ := h.serving.byCommit.register db.inner.transactionCommitId none rfl
  change registerCounter db.byOracle.counts _ _ = _ at ho
  change registerCounter db.byCommit.counts _ _ = _ at hc
  obtain ⟨⟨byOracle, counterVersion⟩, hro, rfl⟩ :=
    Option.map_eq_some_iff.1 ((h.versions.register _ _).trans ho)
  obtain ⟨⟨byCommit, counterCommit⟩, hrc, rfl⟩ :=
    Option.map_eq_some_iff.1 ((h.commits.register _ _).trans hc)
  refine ⟨byCommit, byOracle, counterCommit, counterVersion, ?_, ?_, h.commits.registered hrc,
    h.versions.registered hro⟩
  · simp only [PooledDatabase.register, hro, hrc, Option.bind_eq_bind, Option.bind_some,
      Option.pure_def]
  · simp only [Inner.register, shared, ho, hc, Option.bind_eq_bind, Option.bind_some,
      Option.pure_def]

theorem Linked.transaction (h : db.Linked) (write : Bool) (now : Nat)
    (append : Option (Except PersistenceError Unit)) :
    ∃ db' res, db.request .pooled ⟨.transaction write, now, append⟩ = some (db', res) ∧
      db.forget.serve ⟨.transaction write, now, append⟩ = some (db'.forget, res) ∧
      db'.Linked := by
  obtain ⟨byCommit, byOracle, cc, cv, hreg, hshared, ⟨hsc, hmc, hkc⟩, hso, hmo, hko⟩ := h.register
  let tx := TransactionObject.blank db write cv cc
  let db' : PooledDatabase := { db with
    byCommit := byCommit
    byOracle := byOracle
    pool := db.pool.tail
    transactions := db.transactions ++ [some tx] }
  have hnew : TransactionInner.new db.shared write =
      some (db'.shared, tx.toTransactionInner) := by
    simp only [TransactionInner.new, hshared]
    rfl
  have hforget : db'.forget = { db.forget with
      inner := db'.shared
      pool := db.forget.pool.tail
      transactions := db.forget.transactions ++ [some tx.toTransactionInner] } := by
    simp only [forget, db', List.map_append, List.map_cons, List.map_nil, Option.map_some,
      List.map_tail]
  have hserve : db.forget.serve ⟨.transaction write, now, append⟩ =
      some (db'.forget, .handle db.transactions.length) := by
    have hlen : db.forget.transactions.length = db.transactions.length := List.length_map _
    simp only [Database.serve, Database.step, Database.transaction, Database.poolGet_eq_new]
    change (TransactionInner.new db.shared write).map _ >>= _ = _
    rw [hnew, hforget, ← hlen]
    rfl
  obtain ⟨db₂, res, hs, hserving⟩ := h.serving.serve ⟨.transaction write, now, append⟩
  rw [hserve] at hs
  cases hs
  refine ⟨db', _, ?_, hserve, hsc, hso, ?_, hserving⟩
  · simp only [request, Supply.pooled_get hreg]
    rfl
  · intro j y hy
    change (db.transactions ++ [some tx])[j]?.join = some y at hy
    rcases hg : (db.transactions ++ [some tx])[j]? with _ | x
    · rw [hg] at hy
      cases hy
    · rw [hg] at hy
      rcases Processes.getElem?_concat_cases hg with hx | ⟨-, rfl⟩
      · obtain ⟨hc, ho⟩ := h.held j y (by rw [hx]; exact hy)
        exact ⟨hkc _ _ hc, hko _ _ ho⟩
      · cases hy
        exact ⟨hmc, hmo⟩

theorem Linked.invoke (h : db.Linked) (hi : db.transactions[i]?.join = some tx) (now : Nat)
    (append : Option (Except PersistenceError Unit)) (hop : op ≠ .drop) :
    ∃ db' res, db.invoke i tx now append op = some (db', res) ∧
      db.forget.serve ⟨.on i op, now, append⟩ = some (db'.forget, res) ∧ db'.Linked := by
  have hj : db.forget.transactions[i]?.join = some tx.toTransactionInner := by
    rw [forget_join, hi]
    rfl
  have hserve : db.forget.serve ⟨.on i op, now, append⟩ =
      (tx.toTransactionInner.invoke db.shared now append op).map fun p =>
        ({ db.forget with
          inner := p.1, transactions := db.forget.transactions.set i (some p.2.1) }, p.2.2) := by
    cases op with
    | drop => exact absurd rfl hop
    | commit =>
      simp only [Database.serve, hj, TransactionInner.invoke, Option.map_map]
      change (tx.runCommit db.shared now append).bind _ = _
      cases tx.runCommit db.shared now append <;> rfl
    | _ =>
      simp only [Database.serve, Database.step, hj]
      rfl
  obtain ⟨db₁, res, hs, hserving⟩ := h.serving.serve ⟨.on i op, now, append⟩
  rw [hserve] at hs
  obtain ⟨⟨inner, tx', res'⟩, hinv, he⟩ := Option.map_eq_some_iff.1 hs
  simp only [Prod.mk.injEq] at he
  obtain ⟨rfl, rfl⟩ := he
  obtain ⟨hc, ho, hv, hcm⟩ := TransactionInner.invoke_frame hinv
  let db' : PooledDatabase := { db with
    inner := inner
    transactions := db.transactions.set i (some { tx with toTransactionInner := tx' }) }
  have hforget : db'.forget = { db.forget with
      inner := inner, transactions := db.forget.transactions.set i (some tx') } := by
    have hshared : db'.shared = inner := by
      change { inner with
        counterByCommit := db.shared.counterByCommit
        counterByOracle := db.shared.counterByOracle } = inner
      rw [← hc, ← ho]
    simp only [forget, hshared, db', List.map_set, Option.map_some]
  refine ⟨db', res', by simp [PooledDatabase.invoke, hinv, db'], ?_, ?_⟩
  · rw [hserve, hinv, hforget]
    rfl
  · refine ⟨h.commits, h.versions, ?_, hforget ▸ hserving⟩
    intro j y hy
    rw [List.getElem?_set] at hy
    split at hy
    · split at hy
      · cases hy
        rw [hv, hcm]
        exact h.held i tx hi
      · cases hy
    · exact h.held j y hy

theorem count_of_live {f : TransactionInner → Nat} {counts : SkipMap Nat Counter}
    {txs : List (Option TransactionInner)} {x : TransactionInner}
    (h : Holds counts (holders f txs)) (hi : txs[i]?.join = some x) :
    ∃ n, counts[f x]? = some (.count (n + 1)) := by
  have hpos := holders_pos f hi
  refine ⟨holders f txs (f x) - 1, ?_⟩
  rw [h.held hpos, Nat.sub_add_cancel hpos]

theorem held_of_sub {f : TransactionInner → Nat} {cells cells' : CounterCells}
    {txs : List (Option TransactionInner)} {x : TransactionInner}
    (h : Holds cells'.counts (holders f txs)) (hi : txs[i]?.join = some x)
    (hsub : ∀ w b : Nat, cells'.map[w]? = some b → cells.map[w]? = some b)
    (ha : cells.map[f x]? = some a) : cells'.map[f x]? = some a := by
  have hat := h.held (holders_pos f hi)
  rw [CounterCells.getElem?_counts, Option.bind_eq_some_iff] at hat
  obtain ⟨b, hb, -⟩ := hat
  rw [← ha, hsub _ _ hb]
  exact hb

theorem forget_put (pool : List TransactionObject) (tx : TransactionObject) :
    (Supply.pooled.put pool tx).map (·.toTransactionInner) =
      Database.poolPut (pool.map (·.toTransactionInner)) tx.toTransactionInner := by
  simp only [Supply.put, Database.poolPut, List.length_map]
  split
  · rw [List.map_append]
    rfl
  · rfl

/-- A dropped handle releases its own two cells, and the remaining holders keep theirs. -/
theorem Linked.drop (h : db.Linked) (hi : db.transactions[i]?.join = some tx) (now : Nat)
    (append : Option (Except PersistenceError Unit)) :
    ∃ db', db.drop .pooled i tx = some db' ∧
      db.forget.serve ⟨.on i .drop, now, append⟩ = some (db'.forget, .unit) ∧ db'.Linked := by
  have hj : db.forget.transactions[i]?.join = some tx.toTransactionInner := by
    rw [forget_join, hi]
    rfl
  obtain ⟨hc, ho⟩ := h.held i tx hi
  obtain ⟨n, hn⟩ := count_of_live h.serving.byCommit hj
  obtain ⟨m, hm⟩ := count_of_live h.serving.byOracle hj
  obtain ⟨byCommit, hrc, hsc, hcc, hsubc⟩ := h.commits.release hc hn
  obtain ⟨byOracle, hro, hso, hco, hsubo⟩ := h.versions.release ho hm
  let db' : PooledDatabase := { db with
    byCommit := byCommit
    byOracle := byOracle
    pool := Supply.pooled.put db.pool tx
    transactions := db.transactions.set i none }
  have hforget : db'.forget = db.forget.drop i tx.toTransactionInner := by
    simp only [forget, Database.drop, shared, db', hcc, hco, forget_put, List.map_set,
      Option.map_none]
  have hserve : db.forget.serve ⟨.on i .drop, now, append⟩ = some (db'.forget, .unit) := by
    simp only [Database.serve, Database.step, hj, hforget]
    rfl
  have hserving : Serving db'.forget := hforget ▸ h.serving.drop hj
  refine ⟨db', by simp [PooledDatabase.drop, hrc, hro, db'], hserve, hsc, hso, ?_, hserving⟩
  intro j y hy
  have hlive : db'.forget.transactions[j]?.join = some y.toTransactionInner := by
    rw [forget_join, hy]
    rfl
  have hold : db.transactions[j]?.join = some y := by
    change (db.transactions.set i none)[j]?.join = some y at hy
    rw [List.getElem?_set] at hy
    split at hy
    · split at hy <;> cases hy
    · exact hy
  obtain ⟨hyc, hyo⟩ := h.held j y hold
  exact ⟨held_of_sub hserving.byCommit hlive hsubc hyc,
    held_of_sub hserving.byOracle hlive hsubo hyo⟩

theorem Linked.request (h : db.Linked) (r : Request) :
    ∃ db' res, db.request .pooled r = some (db', res) ∧
      db.forget.serve r = some (db'.forget, res) ∧ db'.Linked := by
  obtain ⟨call, now, append⟩ := r
  cases call with
  | transaction write => exact h.transaction write now append
  | runGc =>
    have hs := (h.serving.runGc (r := .unit) now).1
    exact ⟨{ db with inner := db.shared.runGc now }, .unit, rfl, rfl, h.commits, h.versions,
      h.held, hs⟩
  | runCleanup =>
    exact ⟨{ db with inner := db.shared.runCleanupInner }, .unit, rfl, rfl, h.commits,
      h.versions, h.held, h.serving.runCleanup⟩
  | on i op =>
    cases hi : db.transactions[i]?.join with
    | none =>
      have hj : db.forget.transactions[i]?.join = none := by
        rw [forget_join, hi]
        rfl
      refine ⟨db, .gone, by simp only [PooledDatabase.request, hi], ?_, h⟩
      cases op with
      | commit => simp only [Database.serve, hj]
      | _ => simp only [Database.serve, Database.step, hj]
    | some tx =>
      by_cases hop : op = .drop
      · subst hop
        obtain ⟨db', hd, hserve, hl⟩ := h.drop hi now append
        exact ⟨db', .unit, by simp only [PooledDatabase.request, hi, hd, Option.map_some],
          hserve, hl⟩
      · obtain ⟨db', res, hinv, hserve, hl⟩ := h.invoke hi now append hop
        refine ⟨db', res, ?_, hserve, hl⟩
        simp only [PooledDatabase.request, hi]
        cases op with
        | drop => exact absurd rfl hop
        | _ => exact hinv

theorem refines_database (datastore : SkipMap Bytes Versions) (referenceUnix threshold : Nat)
    (requests : List Request) :
    ∃ db res, Execution.collect (PooledDatabase.request .pooled)
        (opened datastore referenceUnix threshold) requests = some (db, res) ∧
      Execution.collect Database.serve (.opened datastore referenceUnix threshold) requests =
        some (db.forget, res) ∧ db.Linked :=
  Execution.collect_refines _ Database.serve forget Linked (fun _ r h => h.request r) requests
    (.opened datastore referenceUnix threshold)

/-- The database with an empty pool. -/
def unpooled (db : PooledDatabase) : PooledDatabase := { db with pool := [] }

theorem request_unpooled (db : PooledDatabase) (r : Request) :
    db.unpooled.request .built r = (db.request .pooled r).map fun p => (p.1.unpooled, p.2) := by
  obtain ⟨call, now, append⟩ := r
  cases call with
  | transaction write =>
    have hbuilt : Supply.built.get db.unpooled write =
        (TransactionObject.new db write).map fun p => ({ p.1 with pool := [] }, p.2) :=
      TransactionObject.new_pool db [] write
    have hpooled : Supply.pooled.get db write =
        (TransactionObject.new db write).map fun p => ({ p.1 with pool := db.pool.tail }, p.2) :=
      (Supply.pooled_get_eq_new db write).trans (TransactionObject.new_pool db db.pool.tail write)
    simp only [PooledDatabase.request, hbuilt, hpooled]
    cases TransactionObject.new db write <;> rfl
  | runGc => rfl
  | runCleanup => rfl
  | on i op =>
    have hsame : db.unpooled.transactions = db.transactions := rfl
    simp only [PooledDatabase.request, hsame]
    cases db.transactions[i]?.join with
    | none => rfl
    | some tx =>
      have hinv : db.unpooled.invoke i tx now append op =
          (db.invoke i tx now append op).map fun p => (p.1.unpooled, p.2) := by
        simp only [PooledDatabase.invoke]
        change (tx.toTransactionInner.invoke db.shared now append op).bind _ = _
        cases tx.toTransactionInner.invoke db.shared now append op <;> rfl
      cases op with
      | drop =>
        simp only [PooledDatabase.drop, unpooled]
        cases db.byCommit.release tx.counterCommit tx.commit with
        | none => rfl
        | some c => cases db.byOracle.release tx.counterVersion tx.version <;> rfl
      | _ => exact hinv

theorem serve_unpooled (db : PooledDatabase) (call : PoolCall) :
    db.unpooled.serve .built call = (db.serve .pooled call).map fun p => (p.1.unpooled, p.2) := by
  cases call with
  | request r =>
    simp only [PooledDatabase.serve, request_unpooled, Option.map_map]
    rfl
  | version i => rfl
  | closed i => rfl

theorem Linked.serve (h : db.Linked) (call : PoolCall) :
    ∃ db' reply, db.serve .pooled call = some (db', reply) ∧ db'.Linked := by
  cases call with
  | request r =>
    obtain ⟨db', res, hr, -, hl⟩ := h.request r
    exact ⟨db', .response res, by simp only [PooledDatabase.serve, hr, Option.map_some], hl⟩
  | version i => exact ⟨db, _, rfl, h⟩
  | closed i => exact ⟨db, _, rfl, h⟩

end

/-- A recycled object shows nothing of the transactions before it: it is blank, and the counters it
refers to are those it has just registered with. -/
structure Recycled (db db' : PooledDatabase) (write : Bool) (tx : TransactionObject) : Prop where
  mode : tx.mode = .snapshotIsolation
  done : tx.done = false
  write : tx.write = write
  writeset : tx.writeset = ∅
  readset : tx.readset = ∅
  readsetBloom : tx.readsetBloom = .new
  version : tx.version = db.inner.timestamp
  commit : tx.commit = db.inner.transactionCommitId
  counterVersion : db'.byOracle.map[tx.version]? = some tx.counterVersion
  counterCommit : db'.byCommit.map[tx.commit]? = some tx.counterCommit

theorem Linked.recycled {db : PooledDatabase} (h : db.Linked) (write : Bool) :
    ∃ db' tx, Supply.pooled.get db write = some (db', tx) ∧ Recycled db db' write tx := by
  obtain ⟨byCommit, byOracle, cc, cv, hreg, -, ⟨-, hmc, -⟩, -, hmo, -⟩ := h.register
  exact ⟨_, _, Supply.pooled_get hreg write, rfl, rfl, rfl, rfl, rfl, rfl, rfl, rfl, hmo, hmc⟩

/-- Pooling is unobservable: with and without it every call returns, with the same answer, and the
two databases agree in everything but the pool. -/
theorem pooling_unobservable (datastore : SkipMap Bytes Versions)
    (referenceUnix resetThreshold : Nat) (calls : List PoolCall) :
    ∃ pooled built replies,
      Execution.collect (PooledDatabase.serve .pooled)
        (opened datastore referenceUnix resetThreshold) calls = some (pooled, replies) ∧
      Execution.collect (PooledDatabase.serve .built)
        (opened datastore referenceUnix resetThreshold) calls = some (built, replies) ∧
      built.shared = pooled.shared ∧ built.byCommit = pooled.byCommit ∧
      built.byOracle = pooled.byOracle ∧ built.transactions = pooled.transactions ∧
      ∀ write, ∃ db tx, Supply.pooled.get pooled write = some (db, tx) ∧
        Recycled pooled db write tx := by
  obtain ⟨db, replies, hpooled, hbuilt, hl⟩ := Execution.collect_refines
    (PooledDatabase.serve .pooled) (PooledDatabase.serve .built) unpooled Linked
    (fun db call h => by
      obtain ⟨db', reply, hserve, hl⟩ := h.serve call
      refine ⟨db', reply, hserve, ?_, hl⟩
      rw [serve_unpooled, hserve]
      rfl)
    calls (.opened datastore referenceUnix resetThreshold)
  exact ⟨db, db.unpooled, replies, hpooled, hbuilt, rfl, rfl, rfl, rfl, hl.recycled⟩

end PooledDatabase

end StupidKv
