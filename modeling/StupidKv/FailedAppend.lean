import StupidKv.Alongside

namespace StupidKv
open Std
set_option autoImplicit true

/-- A commit of `tx` on handle `i` changes nothing that is ever read: it writes what its keys show
already, no stored version is ahead of the oracle, and no other open writer begins to lose by it. -/
structure Unnoticed (db : Database) (i : Nat) (tx : TransactionInner) : Prop where
  redundant : ∀ (key : Bytes) value, tx.writeset[key]? = some value →
    value = db.inner.fetchInDatastore key db.inner.timestamp
  behind : ∀ key, (chainAt db.inner.datastore key).behind db.inner.timestamp
  covered : ∀ (j : Nat) tx', j ≠ i → db.transactions[j]?.join = some tx' → tx'.done = false →
    tx'.write = true → (∃ key ∈ tx'.writeset, db.inner.WrittenSince tx'.commit key) ∨
      ∀ key ∈ tx.writeset, db.inner.WrittenSince tx'.commit key

section
variable {db db' s s' t t' : Database} {tx : TransactionInner} {i j : Nat}

theorem not_notPersisted {inner : Inner} {e : PersistenceError} :
    inner.verdict tx ≠ some (.txCommitNotPersisted e) := by
  intro h
  unfold Inner.verdict TransactionInner.validate at h
  split at h
  · obtain ⟨c, -, hc⟩ := List.exists_of_findSome?_eq_some h
    unfold TransactionInner.conflict at hc
    split at hc
    · cases hc
    · split at hc <;> cases hc
  · cases h

/-- A commit whose append failed has done all the rest. -/
structure Failed (db : Database) (i : Nat) (tx : TransactionInner) (now : Nat) (db' : Database) :
    Prop where
  written : Written db'.inner.timestamp tx.writeset db.inner.datastore db'.inner.datastore
  timestamp : db'.inner.timestamp = db.inner.nextVersion now
  queue : db'.inner.transactionCommitQueue = (db.inner.queued tx).transactionCommitQueue
  handles : db'.transactions = db.transactions.set i (some tx.spent)

theorem Serving.failed (h : Serving db) (hi : db.transactions[i]?.join = some tx)
    (hc : db.serve ⟨.on i .commit, now, append⟩ =
      some (db', .done (.error (.txCommitNotPersisted e)))) : Failed db i tx now db' := by
  obtain ⟨inner, tx', res, hserve, hcommitted⟩ := h.commit hi now append
  rw [hserve, Option.some.injEq, Prod.mk.injEq, Response.done.injEq] at hc
  obtain ⟨rfl, rfl⟩ := hc
  generalize hres : (Except.error (.txCommitNotPersisted e) : Except Error Unit) = r at hcommitted
  cases hcommitted with
  | closed => cases hres
  | nothing => cases hres
  | refused _ _ hv =>
    cases hres
    exact absurd hv not_notPersisted
  | published _ _ _ hw ht _ hq => exact ⟨ht ▸ hw, ht, hq, rfl⟩

namespace NoTrace

theorem serve (h : NoTrace i s s') {r : Request} (hr : r.Beside i) (hs : s.serve r = some (t, x))
    (hs' : s'.serve r = some (t', x')) : x'.read = x.read ∧ NoTrace i t t' := by
  have hcons : ∀ rs : List Request, (∀ q ∈ rs, q.Beside i) →
      (t'.reads rs).map (x'.read :: ·) = (t.reads rs).map (x.read :: ·) := by
    intro rs hrs
    have hall := h (r :: rs) (List.forall_mem_cons.2 ⟨hr, hrs⟩)
    rwa [Database.reads, Database.reads, Execution.collect_cons _ hs,
      Execution.collect_cons _ hs'] at hall
  have hread : x'.read = x.read := by
    have hnil := hcons [] (by simp)
    simpa [Database.reads, Execution.collect] using hnil
  refine ⟨hread, fun rs hrs => ?_⟩
  have hall := hcons rs hrs
  rw [hread] at hall
  exact Option.map_injective (List.cons_injective (a := x.read)) hall

theorem next (h : NoTrace i s s') {r : Request} (hr : r.Beside i) (hs : s.next r = some t)
    (hs' : s'.next r = some t') : NoTrace i t t' := by
  obtain ⟨⟨_, x⟩, hx, rfl⟩ := Option.map_eq_some_iff.1 hs
  obtain ⟨⟨_, x'⟩, hx', rfl⟩ := Option.map_eq_some_iff.1 hs'
  exact (h.serve hr hx hx').2

end NoTrace

/-- Two serving databases that no other handle tells apart. -/
structure Twins (i : Nat) (s s' : Database) : Prop where
  left : Serving s
  right : Serving s'
  length : s'.transactions.length = s.transactions.length
  lt : i < s.transactions.length
  noTrace : NoTrace i s s'

namespace Twins

/-- Who begins now finds the same under every key. -/
theorem begun (h : Twins i s s') (key : Bytes) :
    (chainAt s'.inner.datastore key).fetchVersion s'.inner.timestamp =
      (chainAt s.inner.datastore key).fetchVersion s.inner.timestamp := by
  obtain ⟨n, hn⟩ : ∃ n, s.transactions.length = n := ⟨_, rfl⟩
  have hread : ∀ {db : Database}, Serving db → db.transactions.length = n →
      ∃ db₁ db₂, db.serve ⟨.transaction false, 0, none⟩ = some (db₁, .handle n) ∧
        db₁.serve ⟨.on n (.get key), 0, none⟩ = some (db₂, .value
          (.ok ((chainAt db.inner.datastore key).fetchVersion db.inner.timestamp))) := by
    intro db hs hlen
    obtain ⟨db₁, tx, ht, hs₁, hb⟩ := hs.transaction false
    have hjoin : db₁.transactions[n]?.join = some tx := by simp [hb.handles, ← hlen]
    have hget : (tx.get db₁.inner key).2 = _ := get_idle hs₁.idle hb.done (by simp [hb.writeset])
    rw [hb.datastore, hb.version] at hget
    refine ⟨db₁, { db₁ with
      transactions := db₁.transactions.set n (some (tx.get db₁.inner key).1) }, ?_, ?_⟩
    · rw [← hlen]
      exact ht
    · simp only [Database.serve, Database.step, hjoin, Database.call, Database.update, Prod.map,
        hget, id]
  obtain ⟨s₁, s₂, hb, hg⟩ := hread h.left hn
  obtain ⟨s₁', s₂', hb', hg'⟩ := hread h.right (h.length.trans hn)
  have htrace := (h.noTrace.serve (by rintro op ⟨⟩) hb hb').2
  have hsame := (htrace.serve (.of_ne (hn ▸ h.lt.ne') _ _ _) hg hg').1
  simpa [Response.read] using hsame

theorem write (h : Twins i s s') (key val : Bytes) (now : Nat) :
    ∃ t t', Twins i t t' ∧
      t.inner.timestamp = s.inner.nextVersion now ∧
      t'.inner.timestamp = s'.inner.nextVersion now ∧
      Written (s.inner.nextVersion now) ((∅ : Writeset).insert key (some val)) s.inner.datastore
        t.inner.datastore ∧
      Written (s'.inner.nextVersion now) ((∅ : Writeset).insert key (some val)) s'.inner.datastore
        t'.inner.datastore := by
  have hnext : ∀ {db db₁ : Database} {c r}, db.step (c, now) = some (db₁, r) →
      db.next ⟨c, now, some (.ok ())⟩ = some db₁ := by
    intro db db₁ c r hstep
    rw [Database.next_eq, hstep]
    rfl
  have hbeside : ∀ op, Request.Beside i ⟨.on s.transactions.length op, now, some (.ok ())⟩ :=
    fun op => .of_ne h.lt.ne' op now _
  obtain ⟨s₁, s₂, s₃, hb, hset, hc, -, hs, hlen, ht, hw⟩ := h.left.writer key val now
  obtain ⟨s₁', s₂', s₃', hb', hset', hc', -, hs', hlen', ht', hw'⟩ := h.right.writer key val now
  rw [h.length] at hset' hc'
  have h₁ := h.noTrace.next (by rintro op ⟨⟩) (hnext hb) (hnext hb')
  have h₂ := h₁.next (hbeside _) (hnext hset) (hnext hset')
  have h₃ := h₂.next (hbeside _) (hnext hc) (hnext hc')
  refine ⟨s₃, s₃', ⟨hs, hs', ?_, ?_, h₃⟩, ht, ht', hw, hw'⟩
  · rw [hlen, hlen', h.length]
  · rw [hlen]
    exact Nat.lt_succ_of_lt h.lt

theorem pass (h : Twins i s s') (key : Bytes) (now : Nat) :
    ∃ t t', Twins i t t' ∧ t.inner.timestamp = s.inner.nextVersion now ∧
      t'.inner.timestamp = s'.inner.nextVersion now ∧
      chainAt t.inner.datastore key = chainAt s.inner.datastore key ∧
      chainAt t'.inner.datastore key = chainAt s'.inner.datastore key := by
  obtain ⟨t, t', ht, hts, hts', hw, hw'⟩ := h.write (0 :: key) [] now
  refine ⟨t, t', ht, hts, hts', ?_, ?_⟩
  · unfold chainAt
    rw [hw key]
    simp
  · unfold chainAt
    rw [hw' key]
    simp

theorem ticks (h : Twins i s s') (key : Bytes) (n : Nat) :
    ∃ t t', Twins i t t' ∧ t.inner.timestamp = s.inner.timestamp + n ∧
      t'.inner.timestamp = s'.inner.timestamp + n ∧
      chainAt t.inner.datastore key = chainAt s.inner.datastore key ∧
      chainAt t'.inner.datastore key = chainAt s'.inner.datastore key := by
  induction n with
  | zero => exact ⟨s, s', h, rfl, rfl, rfl, rfl⟩
  | succ n ih =>
    obtain ⟨t, t', ht, hts, hts', hc, hc'⟩ := ih
    obtain ⟨u, u', hu, hus, hus', hcu, hcu'⟩ := ht.pass key 0
    refine ⟨u, u', hu, ?_, ?_, hcu.trans hc, hcu'.trans hc'⟩
    · rw [hus, Inner.nextVersion, if_pos (Nat.zero_le _), hts]
      rfl
    · rw [hus', Inner.nextVersion, if_pos (Nat.zero_le _), hts']
      rfl

end Twins

theorem Written.chainAt_self {before after : SkipMap Bytes Versions}
    (h : Written version ((∅ : Writeset).insert key value) before after) :
    chainAt after key = seededPush before[key]? ⟨version, value⟩ := by
  unfold chainAt
  rw [h key]
  simp

theorem Versions.exists_greatest {ch : Versions} {e : Version} (he : e ∈ ch.inner) :
    ∃ m ∈ ch.inner, ∀ a ∈ ch.inner, a.version ≤ m.version := by
  have ha := ch.ascending
  cases hl : ch.inner using List.reverseRecOn with
  | nil =>
    rw [hl] at he
    cases he
  | append_singleton l m =>
    rw [hl] at ha
    refine ⟨m, by simp, ?_⟩
    intro a hmem
    rcases List.mem_append.1 hmem with hmem | hmem
    · exact ((List.pairwise_append.1 ha).2.2 a hmem m (by simp)).le
    · rw [List.mem_singleton.1 hmem]

/-- With the second oracle ahead nothing may be stored beyond the next tick of the first: the
oracles can go on until a write lands below that version on one side, and not on the other. -/
theorem Twins.bound (h : Twins i s s') (hlt : s.inner.timestamp < s'.inner.timestamp)
    (hsub : ∀ p ∈ (chainAt s'.inner.datastore key).writes,
      p ∈ (chainAt s.inner.datastore key).writes ∨ p.1 = s'.inner.timestamp) :
    ∀ p ∈ (chainAt s.inner.datastore key).writes, p.1 ≤ s.inner.timestamp + 1 := by
  intro p hp
  obtain ⟨m, hm, hmax⟩ := Versions.exists_greatest (e := ⟨p.1, p.2⟩) hp
  refine (hmax _ hp).trans ?_
  by_contra hgt
  rw [Nat.not_le] at hgt
  obtain ⟨n, hn⟩ : ∃ n, n = m.version - 1 - s'.inner.timestamp := ⟨_, rfl⟩
  obtain ⟨q, hq⟩ : ∃ q, q = m.version + s'.inner.timestamp + n + 2 := ⟨_, rfl⟩
  let y := otherValue ((chainAt s.inner.datastore key).fetchVersion q)
  obtain ⟨t, t', ht, hts, hts', hc, hc'⟩ := h.ticks key n
  obtain ⟨u, u', hu, hus, hus', hw, hw'⟩ := ht.write key y 0
  obtain ⟨v, v', hv, hvs, hvs', hcv, hcv'⟩ := hu.pass key q
  rw [Inner.nextVersion, if_pos (Nat.zero_le _)] at hus hus' hw hw'
  have hvq : v.inner.timestamp = q := by
    rw [hvs, Inner.nextVersion, if_neg]
    omega
  have hvq' : v'.inner.timestamp = q := by
    rw [hvs', Inner.nextVersion, if_neg]
    omega
  have hsame := hv.begun key
  rw [hcv, hcv', hvq, hvq', hw.chainAt_self, hw'.chainAt_self] at hsame
  have hhidden :
      (seededPush t.inner.datastore[key]? ⟨t.inner.timestamp + 1, some y⟩).fetchVersion q =
        (chainAt s.inner.datastore key).fetchVersion q := by
    rw [← hc]
    refine fetchVersion_seededPush_hidden (p := (m.version, m.value)) ?_ ?_ ?_
    · change (m.version, m.value) ∈ (chainAt t.inner.datastore key).writes
      rw [hc]
      exact hm
    · change t.inner.timestamp + 1 < m.version
      omega
    · change m.version ≤ q
      omega
  have hshown :
      (seededPush t'.inner.datastore[key]? ⟨t'.inner.timestamp + 1, some y⟩).fetchVersion q =
        some y := by
    refine fetchVersion_seededPush_of_le (w := ⟨t'.inner.timestamp + 1, some y⟩) ?_ ?_
    · intro p hp
      change p ∈ (chainAt t'.inner.datastore key).writes at hp
      rw [hc'] at hp
      change p.1 ≤ t'.inner.timestamp + 1
      rcases hsub p hp with hp | hp
      · have hle : p.1 ≤ m.version := hmax ⟨p.1, p.2⟩ hp
        omega
      · omega
    · change t'.inner.timestamp + 1 ≤ q
      omega
  rw [hshown, hhidden] at hsame
  exact otherValue_ne _ hsame.symm

theorem lt_of_join (hi : db.transactions[i]?.join = some tx) : i < db.transactions.length := by
  rw [Option.join_eq_some_iff] at hi
  exact (List.getElem?_eq_some_iff.1 hi).1

/-- A writer turned to snapshot isolation, with one more key set. -/
def TransactionInner.setting (tx : TransactionInner) (key val : Bytes) : TransactionInner :=
  { tx with mode := .snapshotIsolation, writeset := tx.writeset.insert key (some val) }

theorem setting_verdict (hr : db.Reached) (hj : db.transactions[j]?.join = some tx)
    (key val : Bytes) :
    db.inner.verdict (tx.setting key val) = none ↔
      ¬ db.inner.WrittenSince tx.commit key ∧
        ∀ k ∈ tx.writeset, ¬ db.inner.WrittenSince tx.commit k := by
  have hm := hr.mirrors hj
  change Mirrors (tx.setting key val).readset (tx.setting key val).readsetBloom at hm
  have hmem : ∀ k, k ∈ (tx.setting key val).writeset ↔ key = k ∨ k ∈ tx.writeset := by
    intro k
    rw [TransactionInner.setting, ExtTreeMap.mem_insert, LawfulEqOrd.compare_eq_iff_eq]
  rw [verdict_none_iff hr.built hr.serving.queue hm]
  constructor
  · intro h
    refine ⟨fun hk => (h key hk).1 ((hmem key).2 (.inl rfl)), fun k hkey hk => ?_⟩
    exact (h k hk).1 ((hmem k).2 (.inr hkey))
  · rintro ⟨hfree, hopen⟩ k hk
    refine ⟨fun hkey => ?_, nofun⟩
    rcases (hmem k).1 hkey with rfl | hkey
    · exact hfree hk
    · exact hopen k hkey hk

theorem setting_next (hj : db.transactions[j]?.join = some tx) (hd : tx.done = false)
    (hw : tx.write = true) (key val : Bytes) :
    ∃ db₁ db₂, db.next ⟨.on j .withSnapshotIsolation, 0, none⟩ = some db₁ ∧
      db₁.next ⟨.on j (.set key val), 0, none⟩ = some db₂ ∧ db₂.inner = db.inner ∧
      db₂.transactions.length = db.transactions.length ∧
      db₂.transactions[j]?.join = some (tx.setting key val) := by
  have hlt := lt_of_join hj
  let tx₁ : TransactionInner := { tx with mode := .snapshotIsolation }
  let db₁ : Database := { db with transactions := db.transactions.set j (some tx₁) }
  have hj₁ : db₁.transactions[j]?.join = some tx₁ := by simp [db₁, hlt]
  let db₂ : Database :=
    { db₁ with transactions := db₁.transactions.set j (some (tx₁.store key (some val)).1) }
  refine ⟨db₁, db₂, ?_, ?_, rfl, ?_, ?_⟩
  · simp only [Database.next_eq, Database.step, hj]
    rfl
  · simp only [Database.next_eq, Database.step, hj₁]
    rfl
  · simp [db₂, db₁]
  · have hstore : tx₁.store key (some val) =
        ({ tx₁ with writeset := tx₁.writeset.insert key (some val) }, .ok ()) := by
      apply store_open
      · exact hd
      · exact hw
    simp [hstore, db₂, db₁, hlt, tx₁, TransactionInner.setting]

namespace Failed

theorem lt (h : Failed db i tx now db') : db.inner.timestamp < db'.inner.timestamp := by
  rw [h.timestamp]
  exact db.inner.timestamp_lt_nextVersion now

theorem redundant (h : Failed db i tx now db') (ht : Twins i db db')
    (hk : tx.writeset[key]? = some value) :
    value = db.inner.fetchInDatastore key db.inner.timestamp := by
  have hbegun := ht.begun key
  rw [h.written.fetch_new key, hk] at hbegun
  rw [fetchInDatastore_idle ht.left.idle]
  exact hbegun

theorem bound (h : Failed db i tx now db') (ht : Twins i db db') (key : Bytes) :
    ∀ p ∈ (chainAt db.inner.datastore key).writes, p.1 ≤ db.inner.timestamp + 1 := by
  refine ht.bound h.lt ?_
  intro p hp
  unfold chainAt at hp
  rw [h.written key] at hp
  cases hk : tx.writeset[key]? with
  | none =>
    rw [hk] at hp
    exact .inl hp
  | some value =>
    rw [hk] at hp
    rcases seededPush_writes_subset _ _ hp with rfl | hp
    · exact .inr rfl
    · exact .inl hp

theorem behind (h : Failed db i tx now db') (ht : Twins i db db') (key : Bytes) :
    (chainAt db.inner.datastore key).behind db.inner.timestamp := by
  intro e he
  have hbound := h.bound ht key
  rcases Nat.lt_or_ge db.inner.timestamp e.version with hlt | hge
  · have hev : e.version = db.inner.timestamp + 1 :=
      Nat.le_antisymm (hbound (e.version, e.value) he) hlt
    refine .inr ⟨hev, ?_⟩
    have hshown : ∀ q, db.inner.timestamp + 1 ≤ q →
        (chainAt db.inner.datastore key).fetchVersion q = e.value := by
      intro q hq
      rw [Versions.fetchVersion_of_le fun a ha => (hbound (a.version, a.value) ha).trans hq]
      refine Versions.lastValue_of_greatest he fun a ha => ?_
      rw [hev]
      exact hbound (a.version, a.value) ha
    cases hk : tx.writeset[key]? with
    | none =>
      -- The entry shows to whoever begins behind the failed commit.
      have hbegun := ht.begun key
      rw [h.written.fetch_new key, hk, Option.getD_none, hshown _ h.lt] at hbegun
      exact hbegun
    | some value =>
      -- It shows with the next commit, unless the failed one has covered it.
      obtain ⟨t, t', htw, hts, hts', hc, hc'⟩ := ht.pass key 0
      rw [Inner.nextVersion, if_pos (Nat.zero_le _)] at hts hts'
      have hsame := htw.begun key
      rw [hc, hc', hts, hts', hshown _ le_rfl] at hsame
      have hchain : chainAt db'.inner.datastore key =
          seededPush db.inner.datastore[key]? ⟨db'.inner.timestamp, value⟩ := by
        unfold chainAt
        rw [h.written key, hk]
        rfl
      rw [hchain, fetchVersion_seededPush_of_le (w := ⟨db'.inner.timestamp, value⟩)
        (fun p hp => (hbound p hp).trans h.lt) (Nat.le_succ _)] at hsame
      rw [← fetchInDatastore_idle ht.left.idle, ← h.redundant ht hk]
      exact hsame.symm
  · exact .inl hge

theorem matched (h : Failed db i tx now db') (hr : db.Reached) (hr' : db'.Reached)
    (hi : db.transactions[i]?.join = some tx) (hu : Unnoticed db i tx) :
    Matched i (fun key => lastValue (chainAt db.inner.datastore key).inner) db db' := by
  have hshows := Inner.Shows.of_behind hu.behind
  have hafter := hshows.publish h.lt h.written
  have hsame : (fun key => (tx.writeset[key]?).getD
      (lastValue (chainAt db.inner.datastore key).inner)) =
      fun key => lastValue (chainAt db.inner.datastore key).inner := by
    funext key
    cases hk : tx.writeset[key]? with
    | none => rfl
    | some value =>
      rw [Option.getD_some, hu.redundant key value hk, fetchInDatastore_idle hr.serving.idle]
      exact hshows.latest key _ le_rfl
  exact {
    length := by simp [h.handles]
    shows := hshows
    shows' := hsame ▸ hafter
    live := by
      intro j
      rw [h.handles]
      by_cases hji : j = i
      · subst hji
        rw [hi, List.getElem?_set_self (lt_of_join hi)]
        exact .some fun hne => absurd rfl hne
      · rw [List.getElem?_set_ne (Ne.symm hji)]
        cases hj : db.transactions[j]?.join with
        | none => exact .none
        | some x =>
          refine .some fun _ => ⟨⟨x.commit, x.version, x.resetThreshold, rfl⟩, ?_, ?_⟩
          · exact h.written.fetchInDatastore_old hr.serving.idle hr'.serving.idle
              ((hr.serving.live j x hj).2.trans_lt h.lt)
          · have hsince := writtenSince_queued hr.serving.not_queued h.queue (hr.commit_le hj)
            cases hd : x.done with
            | true => exact .closed hd
            | false =>
              cases hw : x.write with
              | false => exact .reader hw (hr.reader hj hw)
              | true =>
                rcases hu.covered j x hji hj hd hw with ⟨key, hk, hs⟩ | hall
                · exact .lost hk hs ((hsince key).2 (.inl hs))
                · apply Window.level
                  intro key
                  rw [hsince key]
                  exact or_iff_left_of_imp (hall key) }

/-- An open writer that has not lost yet can still set a key of the failed commit, and its own
commit tells the two states apart. -/
theorem covered (h : Failed db i tx now db') (ht : Twins i db db') (hr : db.Reached)
    (hr' : db'.Reached) (hji : j ≠ i) (hj : db.transactions[j]?.join = some x) (hd : x.done = false)
    (hw : x.write = true) :
    (∃ key ∈ x.writeset, db.inner.WrittenSince x.commit key) ∨
      ∀ key ∈ tx.writeset, db.inner.WrittenSince x.commit key := by
  by_contra hnot
  simp only [not_or, not_exists, not_and, not_forall] at hnot
  obtain ⟨hopen, key, hkey, hfree⟩ := hnot
  have hj' : db'.transactions[j]?.join = some x := by
    rw [h.handles, List.getElem?_set_ne (Ne.symm hji), hj]
  let y := otherValue ((chainAt db.inner.datastore key).fetchVersion db.inner.timestamp)
  have hset : (x.setting key y).writeset[key]? = some (some y) := ExtTreeMap.getElem?_insert_self
  have hpass : db.inner.verdict (x.setting key y) = none :=
    (setting_verdict hr hj key y).2 ⟨hfree, hopen⟩
  have hfail : db'.inner.verdict (x.setting key y) ≠ none := by
    intro hv
    have hsince := writtenSince_queued hr.serving.not_queued h.queue (hr.commit_le hj) key
    exact ((setting_verdict hr' hj' key y).1 hv).1 (hsince.2 (.inr hkey))
  -- On both sides the writer sets the key and commits.
  obtain ⟨s₁, s₂, hs₁, hs₂, hin, hlen, hx⟩ := setting_next hj hd hw key y
  obtain ⟨t₁, t₂, ht₁, ht₂, hin', hlen', hx'⟩ := setting_next hj' hd hw key y
  have hrs := (hr.next hs₁).next hs₂
  have hrt := (hr'.next ht₁).next ht₂
  obtain ⟨inner, x₂, res, hs₃, hcommit⟩ := hrs.serving.commit hx 0 (some (.ok ()))
  obtain ⟨inner', x₂', res', ht₃, hcommit'⟩ := hrt.serving.commit hx' 0 (some (.ok ()))
  have hshown := hcommit.shows hd hset
  have hkept := hcommit'.shows hd hset
  rw [hin, if_pos hpass] at hshown
  rw [hin', if_neg hfail, ht.begun key] at hkept
  have htrace := ht.noTrace.next (.of_ne hji _ _ _) hs₁ ht₁
  have htrace := htrace.next (.of_ne hji _ _ _) hs₂ ht₂
  have htwins : Twins i ⟨inner, s₂.pool, s₂.transactions.set j (some x₂)⟩
      ⟨inner', t₂.pool, t₂.transactions.set j (some x₂')⟩ := {
    left := (hrs.serve hs₃).serving
    right := (hrt.serve ht₃).serving
    length := by simp [hlen, hlen', ht.length]
    lt := by simpa [hlen] using ht.lt
    noTrace := (htrace.serve (.of_ne hji _ _ _) hs₃ ht₃).2 }
  exact otherValue_ne _ (hkept.symm.trans ((htwins.begun key).trans hshown))

end Failed

/-- A commit that could not be persisted leaves no trace exactly when it changes nothing that is
ever read. -/
theorem noTrace_iff
    (h : Execution.Run Database.next (fun _ _ => True) (.opened datastore clock threshold) db)
    (hi : db.transactions[i]?.join = some tx)
    (hc : db.serve ⟨.on i .commit, now, append⟩ =
      some (db', .done (.error (.txCommitNotPersisted e)))) :
    NoTrace i db db' ↔ Unnoticed db i tx := by
  have hr : db.Reached := ⟨datastore, clock, threshold, h⟩
  have hr' := hr.serve hc
  have hf := hr.serving.failed hi hc
  constructor
  · intro hn
    have ht : Twins i db db' :=
      ⟨hr.serving, hr'.serving, by simp [hf.handles], lt_of_join hi, hn⟩
    exact {
      redundant := fun _ _ hk => hf.redundant ht hk
      behind := hf.behind ht
      covered := fun _ _ hji hj hd hw => hf.covered ht hr hr' hji hj hd hw }
  · intro hu
    exact (hf.matched hr hr' hi hu).noTrace hr hr'

end

/-- A writer has set `[1]` on the database with `[7]` under it. -/
def Database.overwriting (val : Bytes) : Option Database :=
  Execution.exec Database.next sevenStored
    [⟨.transaction true, 0, none⟩, ⟨.on 0 (.set [1] val), 0, none⟩]

/-- A third writer has set `[1]` to the `[7]` it shows, which the second has stored once more. The
first is still open. -/
def Database.rewriting : Option Database :=
  Execution.exec Database.next sevenStored
    [⟨.transaction true, 0, none⟩, ⟨.transaction true, 0, none⟩, ⟨.on 1 (.set [1] [7]), 0, none⟩,
      ⟨.on 1 .commit, 6, some (.ok ())⟩, ⟨.transaction true, 0, none⟩,
      ⟨.on 2 (.set [1] [7]), 0, none⟩]

/-- A commit with an append that fails. -/
def failingCommit (i : Nat) : Request := ⟨.on i .commit, 9, some (.error .io)⟩

/-- The first writer loses to the second anyway. -/
theorem noTrace_rewriting :
    ∃ db db', Database.rewriting = some db ∧
      db.serve (failingCommit 2) = some (db', .done (.error (.txCommitNotPersisted .io))) ∧
      NoTrace 2 db db' := by
  have hcheck : (Database.rewriting.bind fun db => (db.serve (failingCommit 2)).map fun p =>
      decide (p.2 = .done (.error (.txCommitNotPersisted .io))) &&
        (db.inner.datastore.toList.all fun e => decide (e.2.behind db.inner.timestamp)) &&
        decide (db.inner.fetchInDatastore [1] db.inner.timestamp = some [7]) &&
        (db.inner.transactionCommitQueue[1]?.any fun c => c.writeset.contains [1]) &&
        decide (db.transactions.map (·.map fun tx => (tx.commit, tx.done)) =
          [some (0, false), some (0, true), some (1, false)]) &&
        db.transactions[2]?.join.any fun tx =>
          decide (tx.writeset.toList = [([1], some [7])])) = some true := by
    decide +kernel
  obtain ⟨db, hdb, hcheck⟩ := Option.bind_eq_some_iff.1 hcheck
  obtain ⟨⟨db', r⟩, hc, hcheck⟩ := Option.map_eq_some_iff.1 hcheck
  simp only [Bool.and_eq_true, decide_eq_true_eq] at hcheck
  obtain ⟨⟨⟨⟨⟨rfl, hbehind⟩, hfetch⟩, hqueue⟩, hhandles⟩, hset⟩ := hcheck
  obtain ⟨tx, hi, hset⟩ := (Option.any_eq_true _ _).1 hset
  obtain ⟨c, hc₁, hmem⟩ := (Option.any_eq_true _ _).1 hqueue
  have hwrites : ∀ (key : Bytes) value, tx.writeset[key]? = some value →
      key = [1] ∧ value = some [7] := by
    intro key value hk
    have hin := ExtTreeMap.mem_toList_iff_getElem?_eq_some.2 hk
    rw [of_decide_eq_true hset, List.mem_singleton] at hin
    exact Prod.mk.inj hin
  have hrun : Execution.Run Database.next (fun _ _ => True) sevenStored db := .of_exec hdb
  refine ⟨db, db', hdb, hc, (noTrace_iff hrun hi hc).2 ?_⟩
  exact {
    redundant := by
      intro key value hk
      obtain ⟨rfl, rfl⟩ := hwrites key value hk
      exact hfetch.symm
    behind := by
      intro key
      unfold chainAt
      cases hk : db.inner.datastore[key]? with
      | none => exact nofun
      | some ch =>
        have hin := ExtTreeMap.mem_toList_iff_getElem?_eq_some.2 hk
        exact of_decide_eq_true (List.all_eq_true.1 hbehind _ hin)
    covered := by
      intro j x hj hx hd _
      have hmap := congrArg (fun l => l[j]?.join) hhandles
      rw [Option.join_eq_some_iff] at hx
      simp only [List.getElem?_map, hx, Option.map_some, Option.join_some] at hmap
      match j with
      | 0 =>
        refine .inr fun key hk => ?_
        obtain ⟨value, hk⟩ := Option.isSome_iff_exists.1 (ExtTreeMap.mem_iff_isSome_getElem?.1 hk)
        obtain ⟨rfl, -⟩ := hwrites key value hk
        have hbegan : x.commit = 0 := (Prod.mk.inj (Option.some.inj hmap)).1
        exact ⟨1, c, hc₁, by omega, ExtTreeMap.contains_iff_mem.1 hmem⟩
      | 1 =>
        have hdone : x.done = true := (Prod.mk.inj (Option.some.inj hmap)).2
        cases hd.symm.trans hdone
      | 2 => exact absurd rfl hj
      | k + 3 => cases hmap }

/-- The writer sets `[8]`: its commit fails, and the next reader finds `[8]`. -/
theorem not_noTrace_overwritten :
    ¬ ∀ datastore clock threshold db db' i tx now append e,
      Execution.Run Database.next (fun _ _ => True) (.opened datastore clock threshold) db →
      db.transactions[i]?.join = some tx →
      db.serve ⟨.on i .commit, now, append⟩ =
        some (db', .done (.error (.txCommitNotPersisted e))) →
      NoTrace i db db' := by
  intro hall
  let rs : List Request := [⟨.transaction false, 0, none⟩, ⟨.on 1 (.get [1]), 0, none⟩]
  have hrs : ∀ r ∈ rs, r.Beside 0 := by
    intro r hr op hcall
    rcases List.mem_pair.1 hr with rfl | rfl
    · cases hcall
    · cases hcall
  have hserve : ((Database.overwriting [8]).bind fun db => (db.serve (failingCommit 0)).map fun p =>
      (decide (p.2 = .done (.error (.txCommitNotPersisted .io))) &&
        db.transactions[0]?.join.isSome && decide (p.1.reads rs ≠ db.reads rs))) =
      some true := by
    decide +kernel
  obtain ⟨db, hdb, hserve⟩ := Option.bind_eq_some_iff.1 hserve
  obtain ⟨⟨db', r⟩, hc, hr⟩ := Option.map_eq_some_iff.1 hserve
  simp only [Bool.and_eq_true, decide_eq_true_eq] at hr
  obtain ⟨⟨rfl, hi⟩, hne⟩ := hr
  obtain ⟨tx, hi⟩ := Option.isSome_iff_exists.1 hi
  have hrun : Execution.Run Database.next (fun _ _ => True) sevenStored db := .of_exec hdb
  exact hne (hall _ _ _ db db' 0 tx 9 _ _ hrun hi hc rs hrs)

end StupidKv
