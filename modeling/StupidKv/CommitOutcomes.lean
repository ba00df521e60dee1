import StupidKv.ReadValidation
import StupidKv.Reopening

namespace StupidKv
open Std
set_option autoImplicit true

/-- Some calls lead here from an opened database. -/
def Database.Reached (db : Database) : Prop :=
  ∃ datastore clock threshold,
    Execution.Run Database.next (fun _ _ => True) (.opened datastore clock threshold) db

/-- A commit queued behind slot `n` has written the key. -/
def Inner.WrittenSince (db : Inner) (n : Nat) (key : Bytes) : Prop :=
  ∃ m c, db.transactionCommitQueue[m]? = some c ∧ n < m ∧ key ∈ c.writeset

/-- What is left of a transaction that had something to commit. -/
def TransactionInner.spent (tx : TransactionInner) : TransactionInner :=
  { tx with done := true, writeset := ∅ }.clearSets

/-- The validation a commit of `tx` runs in its slot. -/
def Inner.verdict (db : Inner) (tx : TransactionInner) : Option Error :=
  { tx with done := true, writeset := ∅ }.validate (db.queued tx) (db.transactionCommitId + 1)
    (db.entryOf tx)

/-- What a commit makes of the shared state and of its transaction, and what it returns. -/
inductive Committed (db : Inner) (tx : TransactionInner) (now : Nat)
    (append : Option (Except PersistenceError Unit)) :
    Inner → TransactionInner → Except Error Unit → Prop
  | closed (hd : tx.done = true) : Committed db tx now append db tx (.error .txClosed)
  | nothing (hd : tx.done = false) (he : tx.writeset.isEmpty = true) :
      Committed db tx now append db { tx with done := true } (.ok ())
  | refused {inner : Inner} (hd : tx.done = false) (he : tx.writeset.isEmpty = false)
      (hv : db.verdict tx = some e) (hi : inner.datastore = db.datastore)
      (ht : inner.timestamp = db.timestamp)
      (hc : inner.transactionCommitId = db.transactionCommitId + 1)
      (hq : inner.transactionCommitQueue = db.transactionCommitQueue) :
      Committed db tx now append inner tx.spent (.error e)
  | published {inner : Inner} (hd : tx.done = false) (he : tx.writeset.isEmpty = false)
      (hv : db.verdict tx = none)
      (hi : Written (db.nextVersion now) tx.writeset db.datastore inner.datastore)
      (ht : inner.timestamp = db.nextVersion now)
      (hc : inner.transactionCommitId = db.transactionCommitId + 1)
      (hq : inner.transactionCommitQueue = (db.queued tx).transactionCommitQueue) :
      Committed db tx now append inner tx.spent (appended append)

section
variable {db : Database} {tx : TransactionInner} {i : Nat}

theorem Serving.runCommit_committed (h : Serving db) (tx : TransactionInner) (now : Nat)
    (append : Option (Except PersistenceError Unit)) :
    ∃ inner tx' res, tx.runCommit db.inner now append = some (inner, tx', res) ∧
      Committed db.inner tx now append inner tx' res := by
  cases hd : tx.done with
  | true => exact ⟨_, _, _, by rw [TransactionInner.runCommit, if_pos hd], .closed hd⟩
  | false =>
    cases he : tx.writeset.isEmpty with
    | true =>
      refine ⟨_, _, _, ?_, .nothing hd he⟩
      rw [TransactionInner.runCommit, if_neg (by simp [hd]), if_pos he]
    | false =>
      have hrun := runCommit_eq h.not_queued hd he now append
      cases hv : db.inner.verdict tx with
      | some e =>
        unfold Inner.verdict at hv
        rw [hv] at hrun
        exact ⟨_, _, _, hrun, .refused hd he hv rfl rfl rfl rfl⟩
      | none =>
        obtain ⟨dirty, datastore, hw, happ⟩ :=
          applyWriteset_eq (db.inner.queued tx) h.idle tx.writeset now
        unfold Inner.verdict at hv
        rw [hv, applyWriteset_appended, happ] at hrun
        exact ⟨_, _, _, hrun, .published hd he hv hw rfl rfl rfl⟩

/-- A commit returns, and its outcome is one of four. -/
theorem Serving.commit (h : Serving db) (hi : db.transactions[i]?.join = some tx) (now : Nat)
    (append : Option (Except PersistenceError Unit)) :
    ∃ inner tx' res, db.serve ⟨.on i .commit, now, append⟩ =
        some (⟨inner, db.pool, db.transactions.set i (some tx')⟩, .done res) ∧
      Committed db.inner tx now append inner tx' res := by
  obtain ⟨inner, tx', res, hrun, hc⟩ := h.runCommit_committed tx now append
  refine ⟨inner, tx', res, ?_, hc⟩
  simp only [Database.serve, hi, hrun]
  rfl

end

section
variable {db inner : Inner} {tx tx' : TransactionInner}

/-- What who begins behind a commit finds under a key it writes. -/
theorem Committed.shows (h : Committed db tx now append inner tx' res) (hd : tx.done = false)
    (hk : tx.writeset[key]? = some value) :
    (chainAt inner.datastore key).fetchVersion inner.timestamp =
      if db.verdict tx = none then value
      else (chainAt db.datastore key).fetchVersion db.timestamp := by
  cases h with
  | closed hd' => cases hd.symm.trans hd'
  | nothing _ he =>
    rw [ExtTreeMap.isEmpty_iff.1 he] at hk
    simp at hk
  | refused _ _ hv hi ht =>
    rw [if_neg (by simp [hv]), hi, ht]
  | published _ _ hv hi ht =>
    rw [if_pos hv, ht, hi.fetch_new key, hk]
    rfl

theorem verdict_none_iff (hb : db.Built)
    (hq : ∀ c ∈ db.transactionCommitQueue, c ≤ db.transactionCommitId)
    (hm : Mirrors tx.readset tx.readsetBloom) :
    db.verdict tx = none ↔ ∀ key, db.WrittenSince tx.commit key →
      key ∉ tx.writeset ∧ (tx.mode = .serializableSnapshotIsolation → key ∉ tx.readset) := by
  have hsame : ∀ m : Nat, m < db.transactionCommitId + 1 →
      (db.queued tx).transactionCommitQueue[m]? = db.transactionCommitQueue[m]? := by
    intro m hlt
    rw [Inner.queued, ExtTreeMap.getElem?_insertIfNew, if_neg]
    intro hn
    have hne : db.transactionCommitId + 1 = m := by simpa using hn.1
    omega
  unfold Inner.verdict
  rw [TransactionInner.validate_none_iff]
  constructor
  · intro h key hk
    obtain ⟨m, c, hc, hlt, hkey⟩ := hk
    obtain ⟨id, ws, rfl⟩ := hb m c hc
    have hle : m < db.transactionCommitId + 1 :=
      Nat.lt_succ_of_le (hq m (ExtTreeMap.mem_iff_isSome_getElem?.2 (by simp [hc])))
    have hnone := h m _ ((hsame m hle).trans hc) hlt hle
    obtain ⟨hwrites, hreads⟩ := (conflict_none_iff { tx with done := true, writeset := ∅ } hm _ _ _
      _).1 hnone
    exact ⟨hwrites key hkey, fun hmode => hreads hmode key hkey⟩
  · intro h m c hc hlo hhi
    rw [hsame m hhi] at hc
    obtain ⟨id, ws, rfl⟩ := hb m c hc
    apply (conflict_none_iff { tx with done := true, writeset := ∅ } hm _ _ _ _).2
    constructor
    · intro key hkey
      exact (h key ⟨m, _, hc, hlo, hkey⟩).1
    · intro hmode key hkey
      exact (h key ⟨m, _, hc, hlo, hkey⟩).2 hmode

theorem not_writtenSince (hq : ∀ c ∈ db.transactionCommitQueue, c ≤ db.transactionCommitId)
    (key : Bytes) : ¬ db.WrittenSince db.transactionCommitId key := by
  rintro ⟨m, c, hc, hlt, -⟩
  exact absurd (hq m (ExtTreeMap.mem_iff_isSome_getElem?.2 (by simp [hc]))) (Nat.not_le.2 hlt)

theorem writtenSince_congr (hq : inner.transactionCommitQueue = db.transactionCommitQueue)
    (n : Nat) (key : Bytes) : inner.WrittenSince n key ↔ db.WrittenSince n key := by
  unfold Inner.WrittenSince
  rw [hq]

/-- A published commit adds its keys for whoever began before it. -/
theorem writtenSince_queued (hfree : db.transactionCommitId + 1 ∉ db.transactionCommitQueue)
    (hq : inner.transactionCommitQueue = (db.queued tx).transactionCommitQueue)
    (hn : n ≤ db.transactionCommitId) (key : Bytes) :
    inner.WrittenSince n key ↔ db.WrittenSince n key ∨ key ∈ tx.writeset := by
  unfold Inner.WrittenSince
  rw [hq]
  constructor
  · rintro ⟨m, c, hc, hlt, hk⟩
    rw [Inner.queued, ExtTreeMap.getElem?_insertIfNew] at hc
    split at hc
    · cases hc
      exact .inr hk
    · exact .inl ⟨m, c, hc, hlt, hk⟩
  · rintro (⟨m, c, hc, hlt, hk⟩ | hk)
    · refine ⟨m, c, ?_, hlt, hk⟩
      rw [Inner.queued, ExtTreeMap.getElem?_insertIfNew, if_neg]
      · exact hc
      · intro hm
        have he : db.transactionCommitId + 1 = m := by simpa using hm.1
        exact hfree (he ▸ ExtTreeMap.mem_iff_isSome_getElem?.2 (by simp [hc]))
    · refine ⟨db.transactionCommitId + 1, db.entryOf tx, ?_, Nat.lt_succ_of_le hn, hk⟩
      exact SkipMap.getElem?_insertIfNew_self hfree _

end

/-- What the methods of a transaction keep: its snapshot and its rights. It stays closed, and while
open it forgets no write. -/
structure Continues (tx tx' : TransactionInner) : Prop where
  snapshot : SameSnapshot tx tx'
  write : tx'.write = tx.write
  closed : tx.done = true → tx'.done = true
  reader : tx.write = false → tx.writeset = ∅ → tx'.writeset = ∅
  grows : tx'.done = true ∨ ∀ key ∈ tx.writeset, key ∈ tx'.writeset

namespace Continues

section
variable {tx tx' : TransactionInner}

theorem same (h : SameSnapshot tx tx') (hw : tx'.write = tx.write) (hd : tx'.done = tx.done)
    (hs : tx'.writeset = tx.writeset) : Continues tx tx' where
  snapshot := h
  write := hw
  closed := hd.trans
  reader _ := hs.trans
  grows := .inr fun _ hk => hs ▸ hk

theorem refl (tx : TransactionInner) : Continues tx tx := .same ⟨rfl, rfl⟩ rfl rfl rfl

theorem close (h : SameSnapshot tx tx') (hw : tx'.write = tx.write) (hd : tx'.done = true)
    (hs : tx.writeset = ∅ → tx'.writeset = ∅) : Continues tx tx' where
  snapshot := h
  write := hw
  closed _ := hd
  reader _ := hs
  grows := .inl hd

theorem insert (tx : TransactionInner) (hw : tx.write = true) (key : Bytes)
    (value : Option Bytes) :
    Continues tx { tx with writeset := tx.writeset.insert key value } where
  snapshot := ⟨rfl, rfl⟩
  write := rfl
  closed h := h
  reader hr _ := absurd (hw.symm.trans hr) (by simp)
  grows := .inr fun _ hk => ExtTreeMap.mem_insert.2 (.inr hk)

theorem get (tx : TransactionInner) (db : Inner) (key : Bytes) :
    Continues tx (tx.get db key).1 := by
  obtain ⟨readset, bloom, he⟩ := get_frame tx db key
  rw [he]
  exact .same ⟨rfl, rfl⟩ rfl rfl rfl

theorem «exists» (tx : TransactionInner) (db : Inner) (key : Bytes) :
    Continues tx (tx.exists db key).1 := by
  rw [exists_object]
  exact .get tx db key

theorem store (tx : TransactionInner) (key : Bytes) (value : Option Bytes) :
    Continues tx (tx.store key value).1 := by
  unfold TransactionInner.store
  split
  · exact .refl tx
  · split
    · exact .refl tx
    · rename_i hw
      exact .insert tx (by simpa using hw) key value

theorem put (tx : TransactionInner) (db : Inner) (key val : Bytes) :
    Continues tx (tx.put db key val).1 := by
  unfold TransactionInner.put
  split
  · exact .refl tx
  · split
    · exact .refl tx
    · rename_i hw
      split
      · exact .refl tx
      · split
        · exact .refl tx
        · exact .insert tx (by simpa using hw) key (some val)

theorem cancel (tx : TransactionInner) : Continues tx tx.cancel.1 := by
  unfold TransactionInner.cancel
  split
  · exact .refl tx
  · obtain ⟨hv, hc, -, hd, hw⟩ := clearSets_frame { tx with done := true }
    exact .close ⟨hv, hc⟩ hw hd fun _ => clearSets_writeset _

theorem spent (tx : TransactionInner) : Continues tx tx.spent := by
  obtain ⟨hv, hc, -, hd, hw⟩ := clearSets_frame { tx with done := true, writeset := ∅ }
  exact .close ⟨hv, hc⟩ hw hd fun _ => clearSets_writeset _

theorem perform {db : Inner} (h : tx.perform db now op = some tx') : Continues tx tx' := by
  cases op with
  | withSnapshotIsolation =>
    cases h
    exact .same ⟨rfl, rfl⟩ rfl rfl rfl
  | withSerializableSnapshotIsolation =>
    cases h
    exact .same ⟨rfl, rfl⟩ rfl rfl rfl
  | get key =>
    cases h
    exact .get tx db key
  | «exists» key =>
    cases h
    exact .exists tx db key
  | set key val =>
    cases h
    exact .store tx key (some val)
  | put key val =>
    cases h
    exact .put tx db key val
  | del key =>
    cases h
    exact .store tx key none
  | cancel =>
    cases h
    exact .cancel tx
  | drop =>
    cases h
    exact .refl tx
  | commit =>
    obtain ⟨⟨db', tx₁, r⟩, hrun, rfl⟩ := Option.map_eq_some_iff.1 h
    rcases runCommit_object hrun with rfl | rfl | rfl
    · exact .refl _
    · exact .close ⟨rfl, rfl⟩ rfl rfl id
    · exact .spent tx

end

end Continues

namespace Database.Reached

section
variable {db db' : Database} {tx : TransactionInner} {i : Nat}

theorem serving (h : db.Reached) : Serving db := by
  obtain ⟨datastore, clock, threshold, hr⟩ := h
  exact .of_run hr

theorem built (h : db.Reached) : db.inner.Built := by
  obtain ⟨datastore, clock, threshold, hr⟩ := h
  exact .of_run hr

theorem next (h : db.Reached) (hs : db.next r = some db') : db'.Reached := by
  obtain ⟨datastore, clock, threshold, hr⟩ := h
  exact ⟨datastore, clock, threshold, .step hr trivial hs⟩

theorem serve (h : db.Reached) (hs : db.serve r = some (db', res)) : db'.Reached :=
  h.next (by rw [Database.next, hs]; rfl)

theorem mirrors (h : db.Reached) (hi : db.transactions[i]?.join = some tx) :
    Mirrors tx.readset tx.readsetBloom := by
  obtain ⟨datastore, clock, threshold, hr⟩ := h
  exact .of_run hr (mem_objects_of_join hi)

theorem reader (h : db.Reached) (hi : db.transactions[i]?.join = some tx)
    (hw : tx.write = false) : tx.writeset = ∅ := by
  obtain ⟨datastore, clock, threshold, hr⟩ := h
  have hall := objects_invariant (P := fun tx => tx.write = false → tx.writeset = ∅) hr ?_ ?_ ?_
  · exact hall tx (mem_objects_of_join hi) hw
  · intro inner write inner' tx hnew _
    obtain ⟨db', -, he⟩ := Option.bind_eq_some_iff.1 hnew
    cases he
    rfl
  · intro tx inner write inner' tx' _ hreset _
    obtain ⟨db', -, he⟩ := Option.bind_eq_some_iff.1 hreset
    cases he
    rfl
  · intro tx inner now op tx' he hp hw
    have hc := Continues.perform hp
    have hr := hc.write.symm.trans hw
    exact hc.reader hr (he hr)

theorem commit_le (h : db.Reached) (hi : db.transactions[i]?.join = some tx) :
    tx.commit ≤ db.inner.transactionCommitId := by
  obtain ⟨datastore, clock, threshold, hr⟩ := h
  let P := fun db : Database => Serving db ∧ ∀ (i : Nat) tx,
    db.transactions[i]?.join = some tx → tx.commit ≤ db.inner.transactionCommitId
  suffices hall : P db from hall.2 i tx hi
  refine hr.invariant ?_ ⟨.new datastore clock threshold, by simp [Database.opened]⟩
  rintro db r db' ⟨hs, hle⟩ - hn
  obtain ⟨db₁, res, hstep, hs₁, -⟩ := hs.step r.call r.now
  rw [Database.next_eq, hstep] at hn
  cases hn
  refine ⟨hs₁, ?_⟩
  obtain ⟨call, now, append⟩ := r
  have hset : ∀ (j : Nat) (o : Option TransactionInner) (n : Nat),
      db.inner.transactionCommitId ≤ n → (∀ t, o = some t → t.commit ≤ n) →
      ∀ (i : Nat) t, (db.transactions.set j o)[i]?.join = some t → t.commit ≤ n := by
    intro j o n hn ho i t hi
    rw [List.getElem?_set] at hi
    split at hi
    · split at hi
      · exact ho t hi
      · cases hi
    · exact (hle i t hi).trans hn
  cases call with
  | transaction write =>
    obtain ⟨db₂, t, ht, -, hb⟩ := hs.transaction write
    rw [Database.step, ht] at hstep
    cases hstep
    intro i x hx
    rw [hb.handles] at hx
    rw [hb.commitId]
    rcases hg : (db.transactions ++ [some t])[i]? with _ | y
    · simp [hg] at hx
    · rw [hg] at hx
      rcases Processes.getElem?_concat_cases hg with hy | ⟨-, rfl⟩
      · exact hle i x (by rw [hy]; exact hx)
      · cases hx
        exact hb.commit.le
  | runGc =>
    cases hstep
    exact hle
  | runCleanup =>
    cases hstep
    exact hle
  | on j op =>
    simp only [Database.step] at hstep
    cases hj : db.transactions[j]?.join with
    | none =>
      rw [hj] at hstep
      cases hstep
      exact hle
    | some t =>
      rw [hj] at hstep
      rcases call_cases hstep with ⟨inner, t₁, hp, hin, rfl⟩ | ⟨-, rfl⟩
      · have hcommit : t₁.commit = t.commit := (Continues.perform hp).snapshot.2
        have hid : db.inner.transactionCommitId ≤ inner.transactionCommitId := by
          rcases hin with rfl | ⟨res, hrun⟩
          · exact le_rfl
          · obtain ⟨_, _, _, hrun', hc⟩ := hs.runCommit_committed t now none
            rw [hrun] at hrun'
            cases hrun'
            cases hc with
            | closed => exact le_rfl
            | nothing => exact le_rfl
            | refused _ _ _ _ _ hc => exact hc ▸ Nat.le_succ _
            | published _ _ _ _ _ hc => exact hc ▸ Nat.le_succ _
        apply hset j (some t₁) _ hid
        rintro _ ⟨⟩
        rw [hcommit]
        exact (hle j t hj).trans hid
      · apply hset j none _ le_rfl
        rintro _ ⟨⟩

end

end Database.Reached

end StupidKv
