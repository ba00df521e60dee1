import StupidKv.CommitOutcomes

namespace StupidKv
open Std
set_option autoImplicit true

/-- A call that does not use handle `i`, except to drop it. -/
def Request.Beside (i : Nat) (r : Request) : Prop :=
  ∀ op, r.call = .on i op → op = .drop

theorem Request.Beside.of_ne (h : j ≠ i) (op : Op) (now : Nat)
    (append : Option (Except PersistenceError Unit)) :
    Request.Beside i ⟨.on j op, now, append⟩ := by
  rintro op' ⟨⟩
  exact absurd rfl h

/-- An answer, if it is one of `get` or `exists`. -/
def Response.read : Response → Option Response
  | .value r => some (.value r)
  | .found r => some (.found r)
  | _ => none

/-- What the reads among a list of requests are answered. -/
def Database.reads (db : Database) (rs : List Request) : Option (List (Option Response)) :=
  (Execution.collect Database.serve db rs).map fun p => p.2.map Response.read

/-- No other handle ever reads anything that tells the two states apart: not one that is open, and
not one that is still to begin. -/
def NoTrace (i : Nat) (db db' : Database) : Prop :=
  ∀ rs : List Request, (∀ r ∈ rs, r.Beside i) → db'.reads rs = db.reads rs

/-- The same transaction with another beginning. -/
def TransactionInner.rebase (tx : TransactionInner) (commit version resetThreshold : Nat) :
    TransactionInner :=
  { tx with commit, version, resetThreshold }

/-- The results of one method on two transactions that differ in their beginning. -/
def Rebased (commit version threshold : Nat) (r r' : TransactionInner × ρ) : Prop :=
  r' = (r.1.rebase commit version threshold, r.2)

section
variable {db db' : Inner} {tx : TransactionInner} {p : Prop} [Decidable p]

@[simp] theorem rebase_writeset (tx : TransactionInner) (c v n : Nat) :
    (tx.rebase c v n).writeset = tx.writeset := rfl

@[simp] theorem rebase_version (tx : TransactionInner) (c v n : Nat) :
    (tx.rebase c v n).version = v := rfl

theorem ite_rebase (a b : TransactionInner) (c v n : Nat) :
    (if p then a else b).rebase c v n = if p then a.rebase c v n else b.rebase c v n :=
  apply_ite (·.rebase c v n) p a b

theorem track_rebase (tx : TransactionInner) (c v n : Nat) (key : Bytes) :
    (tx.rebase c v n).track key = (tx.track key).rebase c v n := by
  unfold TransactionInner.track
  rw [ite_rebase, ite_rebase]
  rfl

theorem clearSets_rebase (tx : TransactionInner) (c v n : Nat) :
    (tx.rebase c v n).clearSets = tx.clearSets.rebase c v n := by
  unfold TransactionInner.clearSets
  rw [ite_rebase]
  rfl

theorem spent_rebase (tx : TransactionInner) (c v n : Nat) :
    (tx.rebase c v n).spent = tx.spent.rebase c v n :=
  clearSets_rebase { tx with done := true, writeset := ∅ } c v n

theorem Rebased.ite {a a' b b' : TransactionInner × ρ} (h : Rebased c v n a a')
    (h' : Rebased c v n b b') : Rebased c v n (if p then a else b) (if p then a' else b') := by
  split
  · exact h
  · exact h'

theorem Rebased.get (hf : ∀ key, db'.fetchInDatastore key v = db.fetchInDatastore key tx.version)
    (key : Bytes) : Rebased c v n (tx.get db key) ((tx.rebase c v n).get db' key) := by
  have hread : (Except.ok (db'.fetchInDatastore key v) : Except Error (Option Bytes)) =
      .ok (db.fetchInDatastore key tx.version) := congrArg _ (hf key)
  refine .ite rfl (.ite ?_ (Prod.ext rfl hread))
  rw [rebase_writeset]
  cases tx.writeset[key]? with
  | some x => rfl
  | none => exact Prod.ext (track_rebase tx c v n key) hread

theorem existsInDatastore_congr
    (hf : ∀ key, db'.fetchInDatastore key v = db.fetchInDatastore key q) (key : Bytes) :
    db'.existsInDatastore key v = db.existsInDatastore key q := by
  rw [db'.existsInDatastore_eq, db.existsInDatastore_eq, hf key]

theorem Rebased.exists
    (hf : ∀ key, db'.fetchInDatastore key v = db.fetchInDatastore key tx.version)
    (key : Bytes) : Rebased c v n (tx.exists db key) ((tx.rebase c v n).exists db' key) := by
  have hread : (Except.ok (db'.existsInDatastore key v) : Except Error Bool) =
      .ok (db.existsInDatastore key tx.version) := congrArg _ (existsInDatastore_congr hf key)
  refine .ite rfl (.ite ?_ (Prod.ext rfl hread))
  rw [rebase_writeset]
  cases tx.writeset[key]? with
  | some x => rfl
  | none => exact Prod.ext (track_rebase tx c v n key) hread

theorem Rebased.store (tx : TransactionInner) (c v n : Nat) (key : Bytes) (value : Option Bytes) :
    Rebased c v n (tx.store key value) ((tx.rebase c v n).store key value) :=
  .ite rfl (.ite rfl rfl)

theorem Rebased.put (hf : ∀ key, db'.fetchInDatastore key v = db.fetchInDatastore key tx.version)
    (key val : Bytes) : Rebased c v n (tx.put db key val) ((tx.rebase c v n).put db' key val) := by
  refine .ite rfl (.ite rfl ?_)
  rw [rebase_writeset, rebase_version, existsInDatastore_congr hf key]
  cases tx.writeset[key]? with
  | some x => rfl
  | none => exact .ite rfl rfl

theorem Rebased.cancel (tx : TransactionInner) (c v n : Nat) :
    Rebased c v n tx.cancel (tx.rebase c v n).cancel :=
  .ite rfl (Prod.ext (clearSets_rebase { tx with done := true } c v n) rfl)

/-- A method other than `commit` and `drop` changes two such transactions alike, with one answer. -/
theorem call_rebase {s s' : Database}
    (hf : ∀ key, s'.inner.fetchInDatastore key v = s.inner.fetchInDatastore key tx.version)
    (hc : op ≠ .commit) (hd : op ≠ .drop) (j c n now : Nat) :
    ∃ tx₁ res, s.call j tx now op = s.update j (tx₁, res) ∧
      s'.call j (tx.rebase c v n) now op = s'.update j (tx₁.rebase c v n, res) ∧
      Continues tx tx₁ := by
  have hcall : ∀ {ρ : Type} {r r' : TransactionInner × ρ} (f : ρ → Response),
      Rebased c v n r r' → s'.update j (r'.map id f) =
        s'.update j (r.1.rebase c v n, f r.2) := by
    rintro ρ r _ f rfl
    rfl
  cases op with
  | withSnapshotIsolation => exact ⟨_, .unit, rfl, rfl, .same ⟨rfl, rfl⟩ rfl rfl rfl⟩
  | withSerializableSnapshotIsolation => exact ⟨_, .unit, rfl, rfl, .same ⟨rfl, rfl⟩ rfl rfl rfl⟩
  | get key => exact ⟨_, _, rfl, hcall .value (.get hf key), .get tx s.inner key⟩
  | «exists» key => exact ⟨_, _, rfl, hcall .found (.exists hf key), .exists tx s.inner key⟩
  | set key val =>
    exact ⟨_, _, rfl, hcall .done (.store tx c v n key (some val)), .store tx key (some val)⟩
  | put key val => exact ⟨_, _, rfl, hcall .done (.put hf key val), .put tx s.inner key val⟩
  | del key => exact ⟨_, _, rfl, hcall .done (.store tx c v n key none), .store tx key none⟩
  | cancel => exact ⟨_, _, rfl, hcall .done (.cancel tx c v n), .cancel tx⟩
  | commit => exact absurd rfl hc
  | drop => exact absurd rfl hd

end

/-- A commit of the transaction comes to the same on both sides: it is closed, it writes nothing, it
has lost already, or it has the same keys against it. -/
inductive Window (db db' : Inner) (tx : TransactionInner) (commit' : Nat) : Prop
  | closed (h : tx.done = true)
  | reader (hw : tx.write = false) (he : tx.writeset = ∅)
  | lost (hk : key ∈ tx.writeset) (h : db.WrittenSince tx.commit key)
      (h' : db'.WrittenSince commit' key)
  | level (h : ∀ key, db'.WrittenSince commit' key ↔ db.WrittenSince tx.commit key)

/-- Two transactions that get the same answers, each over its own database. -/
structure Alike (db db' : Inner) (tx tx' : TransactionInner) : Prop where
  same : ∃ c v n, tx' = tx.rebase c v n
  fetch : ∀ key, db'.fetchInDatastore key tx'.version = db.fetchInDatastore key tx.version
  window : Window db db' tx tx'.commit

namespace Alike

section
variable {db db' inner inner' : Inner} {tx tx₁ tx' : TransactionInner}

/-- The shared states move on: nothing a snapshot shows changes, and both see the same new keys
written. -/
theorem advance {K : Bytes → Prop} (h : Alike db db' tx tx')
    (hf : ∀ key, inner.fetchInDatastore key tx.version = db.fetchInDatastore key tx.version)
    (hf' : ∀ key, inner'.fetchInDatastore key tx'.version = db'.fetchInDatastore key tx'.version)
    (hk : ∀ key, inner.WrittenSince tx.commit key ↔ db.WrittenSince tx.commit key ∨ K key)
    (hk' : ∀ key, inner'.WrittenSince tx'.commit key ↔ db'.WrittenSince tx'.commit key ∨ K key) :
    Alike inner inner' tx tx' where
  same := h.same
  fetch := by
    intro key
    rw [hf, hf', h.fetch key]
  window := by
    cases h.window with
    | closed hd => exact .closed hd
    | reader hw he => exact .reader hw he
    | lost hkey hs hs' => exact .lost hkey ((hk _).2 (.inl hs)) ((hk' _).2 (.inl hs'))
    | level hl =>
      apply Window.level
      intro key
      rw [hk, hk', hl key]

theorem quiet (h : Alike db db' tx tx')
    (hf : ∀ key, inner.fetchInDatastore key tx.version = db.fetchInDatastore key tx.version)
    (hf' : ∀ key, inner'.fetchInDatastore key tx'.version = db'.fetchInDatastore key tx'.version)
    (hk : ∀ key, inner.WrittenSince tx.commit key ↔ db.WrittenSince tx.commit key)
    (hk' : ∀ key, inner'.WrittenSince tx'.commit key ↔ db'.WrittenSince tx'.commit key) :
    Alike inner inner' tx tx' :=
  h.advance (K := fun _ => False) hf hf' (by simpa using hk) (by simpa using hk')

theorem continues (h : Alike db db' tx (tx.rebase c v n)) (hc : Continues tx tx₁) :
    Alike db db' tx₁ (tx₁.rebase c v n) where
  same := ⟨c, v, n, rfl⟩
  fetch := by
    intro key
    rw [hc.snapshot.1]
    exact h.fetch key
  window := by
    cases h.window with
    | closed hd => exact .closed (hc.closed hd)
    | reader hw he => exact .reader (hc.write.trans hw) (hc.reader hw he)
    | lost hk hs hs' =>
      rcases hc.grows with hd | hg
      · exact .closed hd
      · exact .lost (hg _ hk) (hc.snapshot.2.symm ▸ hs) hs'
    | level hl => exact .level (hc.snapshot.2.symm ▸ hl)

theorem verdict (h : Alike db db' tx (tx.rebase c v n)) (hd : tx.done = false)
    (he : tx.writeset.isEmpty = false) (hm : Mirrors tx.readset tx.readsetBloom)
    (hb : db.Built) (hb' : db'.Built)
    (hq : ∀ c ∈ db.transactionCommitQueue, c ≤ db.transactionCommitId)
    (hq' : ∀ c ∈ db'.transactionCommitQueue, c ≤ db'.transactionCommitId) :
    db'.verdict (tx.rebase c v n) = none ↔ db.verdict tx = none := by
  have hm' : Mirrors (tx.rebase c v n).readset (tx.rebase c v n).readsetBloom := hm
  rw [verdict_none_iff hb hq hm, verdict_none_iff hb' hq' hm']
  cases h.window with
  | closed hd' => cases hd.symm.trans hd'
  | reader _ he' =>
    rw [he'] at he
    cases he
  | lost hk hs hs' =>
    apply iff_of_false
    · intro hall
      exact (hall _ hs').1 hk
    · intro hall
      exact (hall _ hs).1 hk
  | level hl => exact forall_congr' fun key => imp_congr_left (hl key)

end

end Alike

/-- Handles that are open alike, except for `i`, and states that show the same to those who begin
now. -/
structure Matched (i : Nat) (f : Bytes → Option Bytes) (s s' : Database) : Prop where
  length : s'.transactions.length = s.transactions.length
  shows : s.inner.Shows f
  shows' : s'.inner.Shows f
  live : ∀ j, Option.Rel (fun tx tx' => j ≠ i → Alike s.inner s'.inner tx tx')
    s.transactions[j]?.join s'.transactions[j]?.join

section
variable {db : Database} {tx : TransactionInner} {i : Nat}

theorem serve_step {r : Request} (h : ∀ j, r.call ≠ .on j .commit) (db : Database) :
    db.serve r = db.step (r.call, r.now) := by
  unfold Database.serve
  split
  · rename_i j hcall
    exact absurd hcall (h j)
  · rfl

theorem fetchInDatastore_congr {inner inner' : Inner} (h : inner.transactionMergeQueue = ∅)
    (h' : inner'.transactionMergeQueue = ∅) (hd : inner'.datastore = inner.datastore) (key : Bytes)
    (q : Nat) : inner'.fetchInDatastore key q = inner.fetchInDatastore key q := by
  rw [fetchInDatastore_idle h, fetchInDatastore_idle h', hd]

theorem Written.fetchInDatastore_old {inner inner' : Inner}
    (h : Written version ws inner.datastore inner'.datastore) (hi : inner.transactionMergeQueue = ∅)
    (hi' : inner'.transactionMergeQueue = ∅) (hq : q < version) (key : Bytes) :
    inner'.fetchInDatastore key q = inner.fetchInDatastore key q := by
  rw [fetchInDatastore_idle hi, fetchInDatastore_idle hi', h.fetch_old key hq]

/-- A compaction keeps to a watermark that no snapshot is below. -/
theorem Serving.runGc_covers (h : Serving db) (now : Nat) :
    ∃ watermark, watermark ≤ db.inner.timestamp ∧
      (∀ (j : Nat) tx, db.transactions[j]?.join = some tx → watermark ≤ tx.version) ∧
      ∀ key, CoversFrom watermark (chainAt (db.inner.runGc now).datastore key)
        (chainAt db.inner.datastore key).writes := by
  refine ⟨(db.inner.computeCleanupTs now).2, ?_, ?_, ?_⟩
  · exact (Nat.min_le_left _ _).trans (Nat.min_le_right _ _)
  · intro j tx hj
    have hle : db.inner.earliestActiveVersion now ≤ tx.version :=
      h.byOracle.earliestActive_le (holders_pos (·.version) hj) now
    have hw : (db.inner.computeCleanupTs now).2 ≤ db.inner.earliestActiveVersion now :=
      (Nat.min_le_left _ _).trans ((Nat.min_le_left _ _).trans (Nat.min_le_right _ _))
    exact hw.trans hle
  · refine gcPass_preserves (Q := fun key ch =>
      CoversFrom _ ch (chainAt db.inner.datastore key).writes) ?_
      (db.inner.computeCleanupTs now).1 ?_
    · exact fun key ch hch => hch.compact
    · exact fun key => (CoversFrom.self _).weaken (Nat.zero_le _)

/-- A cleanup leaves the entries behind an open transaction. -/
theorem Serving.writtenSince_cleanup (h : Serving db) (hi : db.transactions[i]?.join = some tx)
    (key : Bytes) :
    db.inner.runCleanupInner.WrittenSince tx.commit key ↔ db.inner.WrittenSince tx.commit key := by
  have hold : db.inner.earliestActiveCommit db.inner.transactionCommitId ≤ tx.commit :=
    h.byCommit.earliestActive_le (holders_pos (·.commit) hi) _
  have hkeep : ∀ (m : Nat) c, db.inner.runCleanupInner.transactionCommitQueue[m]? = some c ↔
      db.inner.transactionCommitQueue[m]? = some c ∧
        ¬ m < db.inner.earliestActiveCommit db.inner.transactionCommitId := by
    intro m c
    simp only [Inner.runCleanupInner, ExtTreeMap.getElem?_filter', Option.filter_eq_some_iff,
      Bool.not_eq_true', decide_eq_false_iff_not]
  constructor
  · rintro ⟨m, c, hc, hlt, hk⟩
    exact ⟨m, c, ((hkeep m c).1 hc).1, hlt, hk⟩
  · rintro ⟨m, c, hc, hlt, hk⟩
    exact ⟨m, c, (hkeep m c).2 ⟨hc, by omega⟩, hlt, hk⟩

end

section
variable {s s' : Database} {tx tx' : TransactionInner} {i j : Nat} {f f' : Bytes → Option Bytes}
  {inner inner' : Inner}

theorem rel_imp {R R' : TransactionInner → TransactionInner → Prop}
    {o o' : Option TransactionInner} (h : Option.Rel R o o')
    (hi : ∀ x y, o = some x → o' = some y → R x y → R' x y) : Option.Rel R' o o' := by
  cases h with
  | none => exact .none
  | some h => exact .some (hi _ _ rfl rfl h)

namespace Matched

theorem alike (h : Matched i f s s') (hj : s.transactions[j]?.join = some tx)
    (hj' : s'.transactions[j]?.join = some tx') (hi : j ≠ i) : Alike s.inner s'.inner tx tx' := by
  have hrel := h.live j
  rw [hj, hj'] at hrel
  cases hrel with
  | some ha => exact ha hi

theorem move (h : Matched i f s s') (hs : inner.Shows f') (hs' : inner'.Shows f')
    (ha : ∀ (k : Nat) x y, s.transactions[k]?.join = some x → s'.transactions[k]?.join = some y →
      Alike s.inner s'.inner x y → Alike inner inner' x y) :
    Matched i f' { s with inner := inner } { s' with inner := inner' } where
  length := h.length
  shows := hs
  shows' := hs'
  live := by
    intro k
    apply rel_imp (h.live k)
    intro x y hx hy hxy hk
    exact ha k x y hx hy (hxy hk)

theorem replace (h : Matched i f s s') {o o' : Option TransactionInner}
    (ho : Option.Rel (fun x y => j ≠ i → Alike s.inner s'.inner x y) o o')
    (pool pool' : List TransactionInner) :
    Matched i f ⟨s.inner, pool, s.transactions.set j o⟩
      ⟨s'.inner, pool', s'.transactions.set j o'⟩ where
  length := by simp [h.length]
  shows := h.shows
  shows' := h.shows'
  live := by
    intro k
    rw [List.getElem?_set, List.getElem?_set, h.length]
    split
    · rename_i hjk
      subst hjk
      split
      · exact ho
      · exact .none
    · exact h.live k

theorem spend (h : Matched i f s s') (hj : s.transactions[j]?.join = some tx)
    (hj' : s'.transactions[j]?.join = some (tx.rebase c v n)) (hi : j ≠ i) :
    Matched i f { s with transactions := s.transactions.set j (some tx.spent) }
      { s' with transactions := s'.transactions.set j (some (tx.rebase c v n).spent) } := by
  rw [spent_rebase]
  exact h.replace (.some fun _ => (h.alike hj hj' hi).continues (.spent tx)) s.pool s'.pool

theorem drop (h : Matched i f s s') (tx tx' : TransactionInner) :
    Matched i f (s.drop j tx) (s'.drop j tx') := by
  have hset := h.replace (j := j) .none (Database.poolPut s.pool tx) (Database.poolPut s'.pool tx')
  refine hset.move (h.shows.congr rfl rfl) (h.shows'.congr rfl rfl) ?_
  intro k x y _ _ ha
  exact ha.quiet (fun _ => rfl) (fun _ => rfl) (fun _ => .rfl) fun _ => .rfl

theorem call (h : Matched i f s s') (hj : s.transactions[j]?.join = some tx)
    (hj' : s'.transactions[j]?.join = some tx') (hi : j = i → op = .drop) (hop : op ≠ .commit)
    (now : Nat) :
    ∃ t t' res, s.call j tx now op = some (t, res) ∧ s'.call j tx' now op = some (t', res) ∧
      Matched i f t t' := by
  by_cases hd : op = .drop
  · subst hd
    exact ⟨_, _, .unit, rfl, rfl, h.drop tx tx'⟩
  · have ha := h.alike hj hj' fun hji => hd (hi hji)
    obtain ⟨c, v, n, rfl⟩ := ha.same
    obtain ⟨tx₁, res, hc, hc', hcont⟩ := call_rebase ha.fetch hop hd j c n now
    exact ⟨_, _, res, hc, hc', h.replace (.some fun _ => ha.continues hcont) _ _⟩

theorem commit (h : Matched i f s s') (hr : s.Reached) (hr' : s'.Reached)
    (hj : s.transactions[j]?.join = some tx) (hj' : s'.transactions[j]?.join = some tx')
    (hi : j ≠ i) (now : Nat) (append : Option (Except PersistenceError Unit)) :
    ∃ t t' res res', s.serve ⟨.on j .commit, now, append⟩ = some (t, .done res) ∧
      s'.serve ⟨.on j .commit, now, append⟩ = some (t', .done res') ∧ ∃ f', Matched i f' t t' := by
  have ha := h.alike hj hj' hi
  obtain ⟨inner, tx₁, res, hserve, hc⟩ := hr.serving.commit hj now append
  obtain ⟨inner', tx₁', res', hserve', hc'⟩ := hr'.serving.commit hj' now append
  have hidle := (hr.serve hserve).serving.idle
  have hidle' := (hr'.serve hserve').serving.idle
  refine ⟨_, _, res, res', hserve, hserve', ?_⟩
  obtain ⟨c, v, n, rfl⟩ := ha.same
  have hverdict := fun hd he => ha.verdict hd he (hr.mirrors hj) hr.built hr'.built
    hr.serving.queue hr'.serving.queue
  cases hc with
  | closed hd =>
    cases hc' with
    | closed => exact ⟨f, h.replace (.some fun _ => ha) _ _⟩
    | nothing hd' | refused hd' | published hd' => cases hd.symm.trans hd'
  | nothing hd he =>
    cases hc' with
    | nothing =>
      have hcont : Continues tx { tx with done := true } := .close ⟨rfl, rfl⟩ rfl rfl id
      exact ⟨f, h.replace (.some fun _ => ha.continues hcont) _ _⟩
    | closed hd' => cases hd.symm.trans hd'
    | refused _ he' | published _ he' => cases he.symm.trans he'
  | refused hd he hv hin ht _ hq =>
    cases hc' with
    | refused _ _ _ hin' ht' _ hq' =>
      refine ⟨f, (h.move (h.shows.congr hin ht) (h.shows'.congr hin' ht') ?_).spend hj hj' hi⟩
      intro k x y _ _ hxy
      refine hxy.quiet ?_ ?_ (writtenSince_congr hq _) (writtenSince_congr hq' _)
      · exact fun key => fetchInDatastore_congr hr.serving.idle hidle hin key _
      · exact fun key => fetchInDatastore_congr hr'.serving.idle hidle' hin' key _
    | closed hd' => cases hd.symm.trans hd'
    | nothing _ he' => cases he.symm.trans he'
    | published _ _ hv' =>
      rw [(hverdict hd he).1 hv'] at hv
      cases hv
  | published hd he hv hin ht _ hq =>
    cases hc' with
    | published _ _ _ hin' ht' _ hq' =>
      have hlt := s.inner.timestamp_lt_nextVersion now
      have hlt' := s'.inner.timestamp_lt_nextVersion now
      rw [← ht] at hin hlt
      rw [← ht'] at hin' hlt'
      refine ⟨_, (h.move (h.shows.publish hlt hin) (h.shows'.publish hlt' hin') ?_).spend hj hj' hi⟩
      intro k x y hx hy hxy
      refine hxy.advance (K := (· ∈ tx.writeset)) ?_ ?_ ?_ ?_
      · exact hin.fetchInDatastore_old hr.serving.idle hidle
          ((hr.serving.live k x hx).2.trans_lt hlt)
      · exact hin'.fetchInDatastore_old hr'.serving.idle hidle'
          ((hr'.serving.live k y hy).2.trans_lt hlt')
      · exact writtenSince_queued hr.serving.not_queued hq (hr.commit_le hx)
      · exact writtenSince_queued hr'.serving.not_queued hq' (hr'.commit_le hy)
    | closed hd' => cases hd.symm.trans hd'
    | nothing _ he' => cases he.symm.trans he'
    | refused _ _ hv' =>
      rw [(hverdict hd he).2 hv] at hv'
      cases hv'

/-- A transaction begins on both sides: nothing has been committed behind it. -/
theorem transaction (h : Matched i f s s') (hr : s.Reached) (hr' : s'.Reached) (write : Bool) :
    ∃ t t', s.transaction write = some (t, .handle s.transactions.length) ∧
      s'.transaction write = some (t', .handle s'.transactions.length) ∧ Matched i f t t' := by
  obtain ⟨t, x, ht, hs, hb⟩ := hr.serving.transaction write
  obtain ⟨t', x', ht', hs', hb'⟩ := hr'.serving.transaction write
  have hf := fetchInDatastore_congr hr.serving.idle hs.idle hb.datastore
  have hf' := fetchInDatastore_congr hr'.serving.idle hs'.idle hb'.datastore
  have hk := writtenSince_congr (transaction_queue ht)
  have hk' := writtenSince_congr (transaction_queue ht')
  have hshows := h.shows.congr hb.datastore hb.timestamp
  have hshows' := h.shows'.congr hb'.datastore hb'.timestamp
  have hnew : Alike t.inner t'.inner x x' := {
    same := by
      refine ⟨x'.commit, x'.version, x'.resetThreshold, ?_⟩
      have hmode := hb'.mode.trans hb.mode.symm
      have hdone := hb'.done.trans hb.done.symm
      have hwrite := hb'.write.trans hb.write.symm
      have hread := hb'.readset.trans hb.readset.symm
      have hbloom := hb'.readsetBloom.trans hb.readsetBloom.symm
      have hset := hb'.writeset.trans hb.writeset.symm
      cases x
      cases x'
      simp_all [TransactionInner.rebase]
    fetch := by
      intro key
      rw [fetchInDatastore_idle hs.idle, fetchInDatastore_idle hs'.idle,
        hshows.latest key _ (hb.version.trans hb.timestamp.symm).ge,
        hshows'.latest key _ (hb'.version.trans hb'.timestamp.symm).ge]
    window := by
      apply Window.level
      intro key
      rw [hk, hk', hb.commit, hb'.commit]
      exact iff_of_false (not_writtenSince hr'.serving.queue key)
        (not_writtenSince hr.serving.queue key) }
  refine ⟨t, t', ht, ht', ?_⟩
  exact {
    length := by simp [hb.handles, hb'.handles, h.length]
    shows := hshows
    shows' := hshows'
    live := by
      intro j
      rw [hb.handles, hb'.handles, List.getElem?_append, List.getElem?_append, h.length]
      split
      · apply rel_imp (h.live j)
        intro y y' _ _ hxy hj
        exact (hxy hj).quiet (hf · _) (hf' · _) (hk _) (hk' _)
      · cases j - s.transactions.length with
        | zero => exact .some fun _ => hnew
        | succ k => exact .none }

theorem runGc (h : Matched i f s s') (hr : s.Reached) (hr' : s'.Reached) (now : Nat) :
    Matched i f { s with inner := s.inner.runGc now } { s' with inner := s'.inner.runGc now } := by
  obtain ⟨w, hw, hlive, hc⟩ := hr.serving.runGc_covers now
  obtain ⟨w', hw', hlive', hc'⟩ := hr'.serving.runGc_covers now
  have hidle : (s.inner.runGc now).transactionMergeQueue = ∅ := hr.serving.idle
  have hidle' : (s'.inner.runGc now).transactionMergeQueue = ∅ := hr'.serving.idle
  refine h.move (h.shows.collect hw hc rfl) (h.shows'.collect hw' hc' rfl) ?_
  intro k x y hx hy hxy
  refine hxy.quiet ?_ ?_ (fun _ => .rfl) fun _ => .rfl
  · intro key
    rw [fetchInDatastore_idle hidle, fetchInDatastore_idle hr.serving.idle,
      (hc key).fetch_eq (hlive k x hx)]
  · intro key
    rw [fetchInDatastore_idle hidle', fetchInDatastore_idle hr'.serving.idle,
      (hc' key).fetch_eq (hlive' k y hy)]

theorem runCleanup (h : Matched i f s s') (hr : s.Reached) (hr' : s'.Reached) :
    Matched i f { s with inner := s.inner.runCleanupInner }
      { s' with inner := s'.inner.runCleanupInner } := by
  refine h.move (h.shows.congr rfl rfl) (h.shows'.congr rfl rfl) ?_
  intro k x y hx hy hxy
  exact hxy.quiet (fun _ => rfl) (fun _ => rfl) (hr.serving.writtenSince_cleanup hx)
    (hr'.serving.writtenSince_cleanup hy)

/-- Every request keeps the two databases in step, and a read is answered alike. -/
theorem step (h : Matched i f s s') (hr : s.Reached) (hr' : s'.Reached) {r : Request}
    (hb : r.Beside i) :
    ∃ t t' res res', s.serve r = some (t, res) ∧ s'.serve r = some (t', res') ∧
      res'.read = res.read ∧ ∃ f', Matched i f' t t' := by
  obtain ⟨call, now, append⟩ := r
  cases call with
  | transaction write =>
    obtain ⟨t, t', ht, ht', hm⟩ := h.transaction hr hr' write
    exact ⟨t, t', _, _, ht, ht', rfl, f, hm⟩
  | runGc => exact ⟨_, _, .unit, .unit, rfl, rfl, rfl, f, h.runGc hr hr' now⟩
  | runCleanup => exact ⟨_, _, .unit, .unit, rfl, rfl, rfl, f, h.runCleanup hr hr'⟩
  | on j op =>
    have hrel := h.live j
    generalize ho : s.transactions[j]?.join = o at hrel
    generalize ho' : s'.transactions[j]?.join = o' at hrel
    by_cases hop : op = .commit
    · subst hop
      have hi : j ≠ i := by
        rintro rfl
        cases hb .commit rfl
      cases hrel with
      | none =>
        refine ⟨s, s', .gone, .gone, ?_, ?_, rfl, f, h⟩
        · simp only [Database.serve, ho]
        · simp only [Database.serve, ho']
      | some =>
        obtain ⟨t, t', res, res', ht, ht', hm⟩ := h.commit hr hr' ho ho' hi now append
        exact ⟨t, t', _, _, ht, ht', rfl, hm⟩
    · have hne : ∀ k, Call.on j op ≠ .on k .commit := by
        rintro k ⟨⟩
        exact hop rfl
      rw [serve_step hne, serve_step hne]
      simp only [Database.step, ho, ho']
      cases hrel with
      | none => exact ⟨s, s', .gone, .gone, rfl, rfl, rfl, f, h⟩
      | some =>
        obtain ⟨t, t', res, ht, ht', hm⟩ := h.call ho ho' (fun hji => hb op (hji ▸ rfl)) hop now
        exact ⟨t, t', res, res, ht, ht', rfl, f, hm⟩

theorem noTrace (h : Matched i f s s') (hr : s.Reached) (hr' : s'.Reached) : NoTrace i s s' := by
  intro rs hrs
  refine Execution.collect_lockstep Database.serve Response.read (Request.Beside i)
    (fun s s' => s.Reached ∧ s'.Reached ∧ ∃ f, Matched i f s s') ?_ rs hrs ⟨hr, hr', f, h⟩
  rintro s s' r ⟨hr, hr', f, h⟩ hb
  obtain ⟨t, t', res, res', ht, ht', hread, hm⟩ := h.step hr hr' hb
  exact ⟨t, t', res, res', ht, ht', hread, hr.serve ht, hr'.serve ht', hm⟩

end Matched

end

end StupidKv
