import StupidKv.ConflictChecks

namespace StupidKv
open Std
set_option autoImplicit true

/-- Every entry of the commit queue is made by a commit. -/
def Inner.Built (db : Inner) : Prop :=
  ∀ (n : Nat) c, db.transactionCommitQueue[n]? = some c → ∃ id ws, c = Commit.ofWriteset id ws

/-- The key, unless the transaction has an entry of its own for it. -/
def TransactionInner.shared (tx : TransactionInner) (key : Bytes) : List Bytes :=
  if tx.writeset.contains key then [] else [key]

/-- A transaction at work. History: the keys whose answer came from the shared state, and those
for which it made a `put` fail. -/
structure Observer where
  tx : TransactionInner
  observed : List Bytes
  refused : List Bytes

namespace Observer

def begun (tx : TransactionInner) : Observer :=
  ⟨{ tx with mode := .serializableSnapshotIsolation }, [], []⟩

/-- One call, over the shared state it finds. -/
def step (s : Observer) : Inner × Op → Option Observer
  | (db, .get key) =>
    some { s with tx := (s.tx.get db key).1, observed := s.observed ++ s.tx.shared key }
  | (db, .exists key) =>
    some { s with tx := (s.tx.exists db key).1, observed := s.observed ++ s.tx.shared key }
  | (db, .put key val) =>
    let (tx, r) := s.tx.put db key val
    some {
      tx := tx
      observed := s.observed ++ s.tx.shared key
      refused := s.refused ++ if r = .error .keyAlreadyExists then s.tx.shared key else [] }
  | (_, .set key val) => some { s with tx := (s.tx.set key val).1 }
  | (_, .del key) => some { s with tx := (s.tx.del key).1 }
  | _ => none

/-- Whatever the queue holds when the transaction commits: if it passes, nobody in its window has
written a key it observed. -/
def Validated (s : Observer) : Prop :=
  ∀ k ∈ s.observed, ∀ (db : Inner) now append db' tx', db.Built →
    s.tx.writeset.isEmpty = false → s.tx.runCommit db now append = some (db', tx', .ok ()) →
    ∀ n c, db.transactionCommitQueue[n]? = some c → s.tx.commit < n →
      n < db.transactionCommitId + 1 → k ∉ c.writeset

/-- What the calls of a serializable writer keep: an observed key is tracked, written, or one a
`put` was refused for. -/
structure Covered (s : Observer) : Prop where
  live : s.tx.done = false
  write : s.tx.write = true
  mode : s.tx.mode = .serializableSnapshotIsolation
  mirrors : Mirrors s.tx.readset s.tx.readsetBloom
  seen : ∀ k ∈ s.observed, k ∈ s.tx.readset ∨ k ∈ s.tx.writeset ∨ k ∈ s.refused
  refused : ∀ k ∈ s.refused, k ∈ s.observed

end Observer

section
variable {tx tx' : TransactionInner} {db db' : Inner}

theorem mem_shared : k ∈ tx.shared key ↔ k = key ∧ key ∉ tx.writeset := by
  unfold TransactionInner.shared
  split
  · rename_i h
    simp [ExtTreeMap.contains_iff_mem.1 h]
  · rename_i h
    rw [ExtTreeMap.contains_iff_mem] at h
    simp [h]

theorem mem_track (hm : tx.mode = .serializableSnapshotIsolation) (key k : Bytes) :
    k ∈ (tx.track key).readset ↔ k = key ∨ k ∈ tx.readset := by
  have hat : tx.mode.atLeast .serializableSnapshotIsolation = true := by rw [hm]; rfl
  unfold TransactionInner.track
  rw [if_pos hat]
  split
  · rename_i h
    constructor
    · exact .inr
    · rintro (rfl | hk)
      · exact ExtTreeSet.contains_iff_mem.1 h
      · exact hk
  · rw [ExtTreeSet.mem_insert, LawfulEqOrd.compare_eq_iff_eq, eq_comm]

/-- What a look at a key leaves of an open writer. -/
def TransactionInner.look (tx : TransactionInner) (key : Bytes) : TransactionInner :=
  if tx.writeset.contains key then tx else tx.track key

theorem get_look (hd : tx.done = false) (hw : tx.write = true) (db : Inner) (key : Bytes) :
    (tx.get db key).1 = tx.look key := by
  unfold TransactionInner.get TransactionInner.look
  rw [if_neg (by simp [hd]), if_pos hw]
  split
  · rename_i v hv
    rw [if_pos (by rw [← ExtTreeMap.isSome_getElem?_eq_contains, hv]; rfl)]
  · rename_i hv
    rw [if_neg (by rw [← ExtTreeMap.isSome_getElem?_eq_contains, hv]; simp)]

theorem store_open (hd : tx.done = false) (hw : tx.write = true) (key : Bytes)
    (value : Option Bytes) :
    tx.store key value = ({ tx with writeset := tx.writeset.insert key value }, .ok ()) := by
  unfold TransactionInner.store
  rw [if_neg (by simp [hd]), if_neg (by simp [hw])]

theorem put_cases (hd : tx.done = false) (hw : tx.write = true) (db : Inner) (key val : Bytes) :
    tx.put db key val = (tx, .error .keyAlreadyExists) ∨
      tx.put db key val = tx.store key (some val) := by
  rw [store_open hd hw]
  unfold TransactionInner.put
  rw [if_neg (by simp [hd]), if_neg (by simp [hw])]
  split
  · exact .inl rfl
  · split
    · exact .inl rfl
    · exact .inr rfl

theorem validate_of_runCommit (h : tx.runCommit db now append = some (db', tx', .ok ()))
    (he : tx.writeset.isEmpty = false) :
    ∃ id, ∀ n c, db.transactionCommitQueue[n]? = some c → tx.commit < n →
      n < db.transactionCommitId + 1 →
      { tx with done := true, writeset := ∅ }.conflict (.ofWriteset id tx.writeset) c = none := by
  unfold TransactionInner.runCommit at h
  split at h
  · cases h
  · rw [if_neg (by simp [he])] at h
    obtain ⟨⟨db₁, version⟩, hauto, h⟩ := Option.bind_eq_some_iff.1 h
    simp only [Inner.autoCommit, Option.ite_none_right_eq_some, Option.some.injEq,
      Prod.mk.injEq] at hauto
    obtain ⟨-, rfl, rfl⟩ := hauto
    dsimp only at h
    split at h
    · cases h
    · rename_i hv
      refine ⟨db.transactionQueueId + 1, ?_⟩
      intro n c hc hlo hhi
      apply TransactionInner.validate_none_iff.1 hv n c _ hlo hhi
      rw [ExtTreeMap.getElem?_insertIfNew, if_neg]
      · exact hc
      · intro hn
        have hne : db.transactionCommitId + 1 = n := by simpa using hn.1
        omega

end

namespace Observer

section
variable {s t : Observer}

theorem Covered.begun {db db' : Database} {tx : TransactionInner}
    (h : db.poolGet true = some (db', tx)) : Covered (.begun tx) := by
  obtain ⟨-, hd, hw, hrs, hbl, -⟩ := Database.poolGet_fresh h
  exact {
    live := hd
    write := hw
    mode := rfl
    mirrors := by
      change Mirrors tx.readset tx.readsetBloom
      rw [hrs, hbl]
      exact .new
    seen := by simp [Observer.begun]
    refused := by simp [Observer.begun] }

theorem Covered.look (h : s.Covered) (key : Bytes) :
    Covered { s with tx := s.tx.look key, observed := s.observed ++ s.tx.shared key } := by
  unfold TransactionInner.look
  split
  · rename_i hc
    have hnone : s.tx.shared key = [] := by rw [TransactionInner.shared, if_pos hc]
    rw [hnone, List.append_nil]
    exact h
  · obtain ⟨readset, bloom, he⟩ := track_frame s.tx key
    have htrack := mem_track h.mode key
    have hm := h.mirrors.tracking (.track s.tx key)
    rw [he] at htrack hm ⊢
    exact {
      live := h.live
      write := h.write
      mode := h.mode
      mirrors := hm
      seen := by
        intro k hk
        rcases List.mem_append.1 hk with hk | hk
        · rcases h.seen k hk with hr | hw
          · exact .inl ((htrack k).2 (.inr hr))
          · exact .inr hw
        · exact .inl ((htrack k).2 (.inl (mem_shared.1 hk).1))
      refused := fun k hk => List.mem_append_left _ (h.refused k hk) }

theorem Covered.store (h : s.Covered) (key : Bytes) (value : Option Bytes) :
    Covered { s with tx := (s.tx.store key value).1 } := by
  rw [store_open h.live h.write]
  exact {
    live := h.live
    write := h.write
    mode := h.mode
    mirrors := h.mirrors
    seen := by
      intro k hk
      rcases h.seen k hk with hr | hw | hf
      · exact .inl hr
      · exact .inr (.inl (ExtTreeMap.mem_insert.2 (.inr hw)))
      · exact .inr (.inr hf)
    refused := h.refused }

/-- A refused `put` is observed, and tracked nowhere. -/
theorem Covered.refuse (h : s.Covered) (key : Bytes) :
    Covered { s with
      observed := s.observed ++ s.tx.shared key
      refused := s.refused ++ s.tx.shared key } where
  live := h.live
  write := h.write
  mode := h.mode
  mirrors := h.mirrors
  seen := by
    intro k hk
    rcases List.mem_append.1 hk with hk | hk
    · rcases h.seen k hk with hr | hw | hf
      · exact .inl hr
      · exact .inr (.inl hw)
      · exact .inr (.inr (List.mem_append_left _ hf))
    · exact .inr (.inr (List.mem_append_right _ hk))
  refused := by
    intro k hk
    rcases List.mem_append.1 hk with hk | hk
    · exact List.mem_append_left _ (h.refused k hk)
    · exact List.mem_append_right _ hk

theorem Covered.fill (h : s.Covered) (key : Bytes) (value : Option Bytes) :
    Covered { s with
      tx := (s.tx.store key value).1
      observed := s.observed ++ s.tx.shared key } := by
  have hst := h.store key value
  rw [store_open h.live h.write] at hst ⊢
  exact {
    live := hst.live
    write := hst.write
    mode := hst.mode
    mirrors := hst.mirrors
    seen := by
      intro k hk
      rcases List.mem_append.1 hk with hk | hk
      · exact hst.seen k hk
      · rw [(mem_shared.1 hk).1]
        exact .inr (.inl ExtTreeMap.mem_insert_self)
    refused := fun k hk => List.mem_append_left _ (h.refused k hk) }

theorem Covered.step (h : s.Covered) (hs : s.step a = some t) : t.Covered := by
  obtain ⟨db, op⟩ := a
  cases op with
  | get key =>
    cases hs
    rw [get_look h.live h.write]
    exact h.look key
  | «exists» key =>
    cases hs
    rw [exists_object, get_look h.live h.write]
    exact h.look key
  | put key val =>
    simp only [Observer.step, Option.some.injEq] at hs
    subst hs
    rcases put_cases h.live h.write db key val with hp | hp
    · rw [hp, if_pos rfl]
      exact h.refuse key
    · have hok : (s.tx.put db key val).2 ≠ .error .keyAlreadyExists := by
        rw [hp, store_open h.live h.write]
        simp
      rw [if_neg hok, hp, List.append_nil]
      exact h.fill key (some val)
  | set key val =>
    cases hs
    exact h.store key (some val)
  | del key =>
    cases hs
    exact h.store key none
  | _ => cases hs

theorem Covered.of_run {db db' : Database} {tx : TransactionInner}
    (hb : db.poolGet true = some (db', tx))
    (h : Execution.Run Observer.step (fun _ _ => True) (.begun tx) s) : s.Covered := by
  refine h.invariant ?_ (Covered.begun hb)
  intro s a t hs _ ht
  exact hs.step ht

theorem Covered.validated (h : s.Covered)
    (hr : ∀ k ∈ s.refused, k ∈ s.tx.readset ∨ k ∈ s.tx.writeset) : s.Validated := by
  intro k hk db now append db' tx' hbuilt he hrun n c hc hlo hhi hkc
  obtain ⟨id, hval⟩ := validate_of_runCommit hrun he
  obtain ⟨j, ws, rfl⟩ := hbuilt n c hc
  have hnone := hval n _ hc hlo hhi
  obtain ⟨hwrites, hreads⟩ := (conflict_none_iff
    { s.tx with done := true, writeset := ∅ } h.mirrors id j s.tx.writeset ws).1 hnone
  have hcover : k ∈ s.tx.readset ∨ k ∈ s.tx.writeset := by
    rcases h.seen k hk with hr' | hw | hf
    · exact .inl hr'
    · exact .inr hw
    · exact hr k hf
  rcases hcover with hr' | hw
  · exact hreads h.mode k hkc hr'
  · exact hwrites k hkc hw

/-- Another transaction has deleted the key since `tx` began. -/
def overtaken (tx : TransactionInner) (key : Bytes) : Inner :=
  { Inner.new 0 0 with
    transactionCommitId := tx.commit + 1
    transactionCommitQueue := (∅ : SkipMap Nat Commit).insert (tx.commit + 1)
      (.ofWriteset 0 ((∅ : Writeset).insert key none)) }

theorem overtaken_queue {tx : TransactionInner} {n : Nat}
    (h : (overtaken tx key).transactionCommitQueue[n]? = some c) :
    n = tx.commit + 1 ∧ c = .ofWriteset 0 ((∅ : Writeset).insert key none) := by
  unfold overtaken at h
  rw [ExtTreeMap.getElem?_insert] at h
  split at h
  · rename_i hn
    cases h
    exact ⟨(LawfulEqOrd.compare_eq_iff_eq.1 hn).symm, rfl⟩
  · simp at h

/-- A key only a refused `put` has seen is never validated. -/
theorem Covered.not_validated (h : s.Covered) (he : s.tx.writeset.isEmpty = false)
    (hk : key ∈ s.refused) (hr : key ∉ s.tx.readset) (hw : key ∉ s.tx.writeset) :
    ¬ s.Validated := by
  intro hval
  let db := overtaken s.tx key
  have hqueue : db.transactionCommitQueue[s.tx.commit + 1]? =
      some (.ofWriteset 0 ((∅ : Writeset).insert key none)) := by
    simp [db, overtaken]
  have hfree : db.transactionCommitId + 1 ∉ db.transactionCommitQueue := by
    intro hm
    obtain ⟨c, hc⟩ := Option.isSome_iff_exists.1 (ExtTreeMap.mem_iff_isSome_getElem?.1 hm)
    have hid : db.transactionCommitId = s.tx.commit + 1 := rfl
    have := (overtaken_queue hc).1
    omega
  have hpass : { s.tx with done := true, writeset := ∅ }.validate (db.queued s.tx)
      (db.transactionCommitId + 1) (db.entryOf s.tx) = none := by
    apply TransactionInner.validate_none_iff.2
    intro n c hc hlo hhi
    rw [Inner.queued, ExtTreeMap.getElem?_insertIfNew, if_neg] at hc
    · obtain ⟨-, rfl⟩ := overtaken_queue hc
      have hnot : ∀ k ∈ (∅ : Writeset).insert key none, k = key := by
        intro k hm
        rcases ExtTreeMap.mem_insert.1 hm with he | hm
        · exact (LawfulEqOrd.compare_eq_iff_eq.1 he).symm
        · exact absurd hm ExtTreeMap.not_mem_empty
      apply (conflict_none_iff { s.tx with done := true, writeset := ∅ } h.mirrors _ _ _ _).2
      constructor
      · intro k hm
        rw [hnot k hm]
        exact hw
      · intro _ k hm
        rw [hnot k hm]
        exact hr
    · intro hn
      have hne : db.transactionCommitId + 1 = n := by simpa using hn.1
      omega
  obtain ⟨dirty, datastore, -, happ⟩ := applyWriteset_eq (db.queued s.tx) rfl s.tx.writeset 0
  have hrun := runCommit_eq hfree h.live he 0 none
  rw [hpass] at hrun
  simp only [happ, Option.map_some] at hrun
  have hbuilt : db.Built := by
    intro n c hc
    exact ⟨_, _, (overtaken_queue hc).2⟩
  have hlt : s.tx.commit + 1 < db.transactionCommitId + 1 := Nat.lt_succ_self _
  refine hval key (h.refused key hk) db 0 none _ _ hbuilt he hrun _ _ hqueue (Nat.lt_succ_self _)
    hlt ?_
  exact ExtTreeMap.mem_insert_self

end

end Observer

section
variable {db db' : Inner}

theorem Inner.Built.runCommit {tx tx' : TransactionInner} (hb : db.Built)
    (h : tx.runCommit db now append = some (db', tx', r)) : db'.Built := by
  unfold TransactionInner.runCommit at h
  split at h
  · cases h
    exact hb
  · split at h
    · cases h
      exact hb
    · obtain ⟨⟨db₁, version⟩, hauto, h⟩ := Option.bind_eq_some_iff.1 h
      have hqueued : db₁.Built := by
        simp only [Inner.autoCommit, Option.ite_none_right_eq_some, Option.some.injEq,
          Prod.mk.injEq] at hauto
        obtain ⟨-, rfl, rfl⟩ := hauto
        intro n c hc
        dsimp only at hc
        rw [ExtTreeMap.getElem?_insertIfNew] at hc
        split at hc
        · cases hc
          exact ⟨_, _, rfl⟩
        · exact hb n c hc
      dsimp only at h
      split at h
      · cases h
        intro n c hc
        dsimp only at hc
        rw [ExtTreeMap.getElem?_erase] at hc
        split at hc
        · cases hc
        · exact hqueued n c hc
      · obtain ⟨⟨db₂, res⟩, happ, h⟩ := Option.bind_eq_some_iff.1 h
        cases h
        intro n c hc
        rw [(applyWriteset_frame happ).1] at hc
        exact hqueued n c hc

end

theorem transaction_queue {db db' : Database} (h : db.transaction write = some (db', r)) :
    db'.inner.transactionCommitQueue = db.inner.transactionCommitQueue := by
  obtain ⟨⟨db₁, tx⟩, hget, he⟩ := Option.bind_eq_some_iff.1 h
  cases he
  obtain ⟨hr, -⟩ := Database.poolGet_fresh hget
  simp only [Inner.register, Option.bind_eq_bind, Option.bind_eq_some_iff] at hr
  obtain ⟨_, -, _, -, he⟩ := hr
  rw [← Option.some.inj he]

theorem Inner.Built.call {db db' : Database} (hb : db.inner.Built)
    (h : db.call i tx now op = some (db', r)) : db'.inner.Built := by
  cases op with
  | commit =>
    obtain ⟨⟨inner, tx', res⟩, hrun, he⟩ := Option.bind_eq_some_iff.1 h
    cases he
    exact hb.runCommit hrun
  | _ =>
    cases h
    exact hb

theorem Inner.Built.of_run {datastore : SkipMap Bytes Versions} {db : Database}
    (h : Execution.Run Database.next (fun _ _ => True) (.opened datastore clock threshold) db) :
    db.inner.Built := by
  change (fun db : Database => db.inner.Built) db
  apply h.invariant
  · intro db r db' hb _ hn
    rw [Database.next_eq] at hn
    obtain ⟨⟨db₁, res⟩, hstep, rfl⟩ := Option.map_eq_some_iff.1 hn
    obtain ⟨call, now, append⟩ := r
    cases call with
    | transaction write =>
      intro n c hc
      rw [transaction_queue hstep] at hc
      exact hb n c hc
    | runGc =>
      cases hstep
      exact hb
    | runCleanup =>
      cases hstep
      intro n c hc
      simp only [Inner.runCleanupInner, ExtTreeMap.getElem?_filter', Option.filter_eq_some_iff] at hc
      exact hb n c hc.1
    | on i op =>
      simp only [Database.step] at hstep
      split at hstep
      · exact hb.call hstep
      · cases hstep
        exact hb
  · intro n c hc
    simp [Database.opened, Inner.new] at hc

/-- What a serializable writer learned from the shared state is validated exactly when it has also
read or written every key its `put` was refused for. -/
theorem Observer.validated_iff {db db' : Database} {tx : TransactionInner} {s : Observer}
    (hb : db.poolGet true = some (db', tx))
    (h : Execution.Run Observer.step (fun _ _ => True) (.begun tx) s) :
    s.Validated ↔ s.tx.writeset.isEmpty = true ∨
      ∀ k ∈ s.refused, k ∈ s.tx.readset ∨ k ∈ s.tx.writeset := by
  have hc := Covered.of_run hb h
  cases he : s.tx.writeset.isEmpty with
  | true =>
    apply iff_of_true _ (.inl rfl)
    intro k _ db now append db' tx' _ hne
    rw [he] at hne
    cases hne
  | false =>
    rw [or_iff_right Bool.false_ne_true]
    constructor
    · intro hval k hk
      by_contra hnot
      rw [not_or] at hnot
      exact hc.not_validated he hk hnot.1 hnot.2 hval
    · exact hc.validated

/-- A database with the value `[7]` under `[1]`. -/
def sevenStored : Database :=
  .opened ((∅ : SkipMap Bytes Versions).insert [1] (.ofVersion ⟨3, some [7]⟩)) 5 0

/-- The calls of a new serializable writer on it. -/
def Observer.after (ops : List Op) : Option Observer := do
  let (_, tx) ← sevenStored.poolGet true
  Execution.exec Observer.step (.begun tx) (ops.map fun op => (sevenStored.inner, op))

theorem Observer.after_run (h : Observer.after ops = some s) :
    ∃ db' tx, sevenStored.poolGet true = some (db', tx) ∧
      Execution.Run Observer.step (fun _ _ => True) (.begun tx) s := by
  simp only [Observer.after, Option.bind_eq_bind] at h
  obtain ⟨⟨db', tx⟩, hb, hs⟩ := Option.bind_eq_some_iff.1 h
  exact ⟨db', tx, hb, .of_exec hs⟩

/-- The key is read behind the `put` that was refused. -/
theorem Observer.validated_readBehind :
    ∃ s, Observer.after [.put [1] [8], .set [2] [9], .get [1]] = some s ∧ s.refused = [[1]] ∧
      s.Validated := by
  have hrun : (Observer.after [.put [1] [8], .set [2] [9], .get [1]]).map (fun s =>
      decide (s.refused = [[1]]) && s.tx.readset.contains [1]) = some true := by
    decide +kernel
  obtain ⟨s, hs, hb⟩ := Option.map_eq_some_iff.1 hrun
  rw [Bool.and_eq_true, decide_eq_true_eq] at hb
  obtain ⟨db', tx, hget, hr⟩ := Observer.after_run hs
  refine ⟨s, hs, hb.1, (Observer.validated_iff hget hr).2 (.inr ?_)⟩
  intro k hk
  rw [hb.1, List.mem_singleton] at hk
  rw [hk]
  exact .inl (ExtTreeSet.contains_iff_mem.1 hb.2)

/-- A `put` is refused for `[1]`, the transaction writes `[2]` and commits. -/
theorem Observer.not_validated_refused :
    ¬ ∀ (db db' : Database) tx s, db.poolGet true = some (db', tx) →
      Execution.Run Observer.step (fun _ _ => True) (.begun tx) s → s.Validated := by
  intro hall
  have hrun : (Observer.after [.put [1] [8], .set [2] [9]]).map (fun s =>
      decide (s.refused = [[1]]) && !s.tx.readset.contains [1] && !s.tx.writeset.contains [1] &&
        !s.tx.writeset.isEmpty) = some true := by
    decide +kernel
  obtain ⟨s, hs, hb⟩ := Option.map_eq_some_iff.1 hrun
  simp only [Bool.and_eq_true, decide_eq_true_eq, Bool.not_eq_true', ← Bool.not_eq_true,
    ExtTreeSet.contains_iff_mem, ExtTreeMap.contains_iff_mem] at hb
  obtain ⟨⟨⟨hrefused, hread⟩, hwrite⟩, hne⟩ := hb
  obtain ⟨db', tx, hget, hr⟩ := Observer.after_run hs
  have hmem : [1] ∈ s.refused := by
    rw [hrefused]
    exact List.mem_singleton_self _
  have hval := hall sevenStored db' tx s hget hr
  exact (Covered.of_run hget hr).not_validated (Bool.not_eq_true _ ▸ hne) hmem hread hwrite hval

end StupidKv
