import StupidKv.Requests

namespace StupidKv
open Std
set_option autoImplicit true

/-- The accelerated write check answers as the exact one does, from either side. -/
theorem Commit.isDisjointWritesetBloom_exact (i j : Nat) (a b : Writeset) :
    ((Commit.ofWriteset i a).isDisjointWritesetBloom (.ofWriteset j b) = true ↔
      ¬ ∃ k, k ∈ a ∧ k ∈ b) ∧
    (Commit.ofWriteset i a).isDisjointWritesetBloom (.ofWriteset j b) =
      (Commit.ofWriteset i a).isDisjointWriteset (.ofWriteset j b) ∧
    (Commit.ofWriteset i a).isDisjointWritesetBloom (.ofWriteset j b) =
      (Commit.ofWriteset j b).isDisjointWritesetBloom (.ofWriteset i a) := by
  have hbloom := isDisjointWritesetBloom_ofWriteset i j a b
  refine ⟨?_, ?_, ?_⟩
  · rw [hbloom]
    constructor
    · intro h hk
      obtain ⟨k, ha, hb⟩ := hk
      exact h k ha hb
    · intro h k ha hb
      exact h ⟨k, ha, hb⟩
  · apply Bool.eq_iff_iff.2
    rw [hbloom, isDisjointWriteset_iff]
    rfl
  · apply Bool.eq_iff_iff.2
    rw [hbloom, isDisjointWritesetBloom_ofWriteset j i b a]
    constructor
    · intro h k hb ha
      exact h k ha hb
    · intro h k ha hb
      exact h k hb ha

/-- The filter of a readset holds its keys, and nothing when there are none. -/
structure Mirrors (readset : Readset) (bloom : BloomFilter) : Prop where
  contains : ∀ k ∈ readset, bloom.mayContain k = true
  empty : bloom.isEmpty = true ↔ readset.isEmpty = true

theorem Mirrors.new : Mirrors ∅ .new := ⟨by simp, by simp [BloomFilter.isEmpty, BloomFilter.new]⟩

theorem Mirrors.readsetBloom (h : Mirrors readset bloom) : ReadsetBloom readset bloom where
  contains := h.contains
  empty := by
    intro hc k hk
    have he : readset.isEmpty = true := h.empty.1 (by simp [BloomFilter.isEmpty, hc])
    rw [ExtTreeSet.isEmpty_iff] at he
    exact ExtTreeSet.not_mem_empty (he ▸ hk)

theorem Mirrors.insert (h : Mirrors readset bloom) (key : Bytes) :
    Mirrors (readset.insert key) (bloom.insert key) where
  contains := (h.readsetBloom.insert key).contains
  empty := by simp [BloomFilter.isEmpty, BloomFilter.insert]

/-- What a method can do to the tracked reads of a transaction. -/
inductive Tracking (tx tx' : TransactionInner) : Prop
  | same (hr : tx'.readset = tx.readset) (hb : tx'.readsetBloom = tx.readsetBloom)
  | tracked (key : Bytes) (hr : tx'.readset = tx.readset.insert key)
      (hb : tx'.readsetBloom = tx.readsetBloom.insert key)
  | cleared (hr : tx'.readset = ∅) (hb : tx'.readsetBloom = .new)

theorem Mirrors.tracking (h : Mirrors tx.readset tx.readsetBloom) (ht : Tracking tx tx') :
    Mirrors tx'.readset tx'.readsetBloom := by
  cases ht with
  | same hr hb =>
    rw [hr, hb]
    exact h
  | tracked key hr hb =>
    rw [hr, hb]
    exact h.insert key
  | cleared hr hb =>
    rw [hr, hb]
    exact .new

theorem Tracking.congr {tx₀ tx tx' : TransactionInner} (h : Tracking tx₀ tx')
    (hr : tx₀.readset = tx.readset) (hb : tx₀.readsetBloom = tx.readsetBloom) :
    Tracking tx tx' := by
  cases h with
  | same hr' hb' => exact .same (hr'.trans hr) (hb'.trans hb)
  | tracked key hr' hb' => exact .tracked key (hr ▸ hr') (hb ▸ hb')
  | cleared hr' hb' => exact .cleared hr' hb'

section
variable (tx : TransactionInner) (db : Inner)

theorem Tracking.track (key : Bytes) : Tracking tx (tx.track key) := by
  unfold TransactionInner.track
  split
  · split
    · exact .same rfl rfl
    · exact .tracked key rfl rfl
  · exact .same rfl rfl

theorem Tracking.get (key : Bytes) : Tracking tx (tx.get db key).1 := by
  unfold TransactionInner.get
  split
  · exact .same rfl rfl
  · split
    · split
      · exact .same rfl rfl
      · exact .track tx key
    · exact .same rfl rfl

theorem Tracking.exists (key : Bytes) : Tracking tx (tx.exists db key).1 := by
  rw [exists_object]
  exact .get tx db key

theorem Tracking.store (key : Bytes) (value : Option Bytes) :
    Tracking tx (tx.store key value).1 := by
  unfold TransactionInner.store
  split
  · exact .same rfl rfl
  · split <;> exact .same rfl rfl

theorem Tracking.put (key val : Bytes) : Tracking tx (tx.put db key val).1 := by
  unfold TransactionInner.put
  split
  · exact .same rfl rfl
  · split
    · exact .same rfl rfl
    · split
      · exact .same rfl rfl
      · split <;> exact .same rfl rfl

theorem Tracking.clearSets : Tracking tx tx.clearSets := by
  unfold TransactionInner.clearSets
  split
  · exact .cleared rfl rfl
  · exact .same rfl rfl

theorem Tracking.cancel : Tracking tx tx.cancel.1 := by
  unfold TransactionInner.cancel
  split
  · exact .same rfl rfl
  · exact (Tracking.clearSets { tx with done := true }).congr rfl rfl

end

/-- A commit leaves its object alone, or closes it, with or without clearing. -/
theorem runCommit_object {db db' : Inner} {tx tx' : TransactionInner}
    (h : tx.runCommit db now append = some (db', tx', r)) :
    tx' = tx ∨ tx' = { tx with done := true } ∨
      tx' = { tx with done := true, writeset := ∅ }.clearSets := by
  unfold TransactionInner.runCommit at h
  split at h
  · cases h
    exact .inl rfl
  · split at h
    · cases h
      exact .inr (.inl rfl)
    · obtain ⟨⟨db₁, version⟩, -, h⟩ := Option.bind_eq_some_iff.1 h
      dsimp only at h
      split at h
      · cases h
        exact .inr (.inr rfl)
      · obtain ⟨⟨db₂, res⟩, -, h⟩ := Option.bind_eq_some_iff.1 h
        cases h
        exact .inr (.inr rfl)

theorem Tracking.perform (h : tx.perform db now op = some tx') : Tracking tx tx' := by
  cases op with
  | withSnapshotIsolation =>
    cases h
    exact .same rfl rfl
  | withSerializableSnapshotIsolation =>
    cases h
    exact .same rfl rfl
  | get key =>
    cases h
    exact .get tx db key
  | «exists» key =>
    cases h
    exact .exists tx db key
  | set key val =>
    cases h
    exact .store tx key (some val)
  | put key val =>
    cases h
    exact .put tx db key val
  | del key =>
    cases h
    exact .store tx key none
  | cancel =>
    cases h
    exact .cancel tx
  | drop =>
    cases h
    exact .same rfl rfl
  | commit =>
    obtain ⟨⟨db', tx₁, r⟩, hrun, rfl⟩ := Option.map_eq_some_iff.1 h
    rcases runCommit_object hrun with rfl | rfl | rfl
    · exact .same rfl rfl
    · exact .same rfl rfl
    · exact (Tracking.clearSets { tx with done := true, writeset := ∅ }).congr rfl rfl

/-- Recycled or not, every transaction's filter mirrors its readset. -/
theorem Mirrors.of_run {db : Database} {tx : TransactionInner}
    (h : Execution.Run Database.next (fun _ _ => True) (.opened datastore clock threshold) db)
    (htx : tx ∈ db.objects) : Mirrors tx.readset tx.readsetBloom := by
  apply objects_invariant (P := fun tx => Mirrors tx.readset tx.readsetBloom) h _ _ _ tx htx
  · intro inner write inner' tx hnew
    obtain ⟨db', -, he⟩ := Option.bind_eq_some_iff.1 hnew
    cases he
    exact .new
  · intro tx inner write inner' tx' _ hreset
    obtain ⟨db', -, he⟩ := Option.bind_eq_some_iff.1 hreset
    cases he
    exact .new
  · intro tx inner now op tx' hm hp
    exact hm.tracking (.perform hp)

/-- Every transaction's filter holds its readset, and the accelerated read check is exact. -/
theorem isDisjointReadsetBloom_exact {db : Database} {tx : TransactionInner}
    (h : Execution.Run Database.next (fun _ _ => True) (.opened datastore clock threshold) db)
    (htx : tx ∈ db.objects) :
    (∀ k ∈ tx.readset, tx.readsetBloom.mayContain k = true) ∧
      (tx.readsetBloom.isEmpty = true ↔ tx.readset.isEmpty = true) ∧
      ∀ c : Commit, c.isDisjointReadsetBloom tx.readset tx.readsetBloom = true ↔
        ∀ k ∈ c.writeset, k ∉ tx.readset := by
  have hm := Mirrors.of_run h htx
  exact ⟨hm.contains, hm.empty, fun c => c.isDisjointReadsetBloom_iff hm.readsetBloom⟩

theorem conflict_none_iff (tx : TransactionInner) (hm : Mirrors tx.readset tx.readsetBloom)
    (i j : Nat) (own other : Writeset) :
    tx.conflict (.ofWriteset i own) (.ofWriteset j other) = none ↔
      (∀ k ∈ other, k ∉ own) ∧
        (tx.mode = .serializableSnapshotIsolation → ∀ k ∈ other, k ∉ tx.readset) := by
  have hw := Commit.isDisjointWritesetBloom_ofWriteset j i other own
  have hr : (Commit.ofWriteset j other).isDisjointReadsetBloom tx.readset tx.readsetBloom = true ↔
      ∀ k ∈ other, k ∉ tx.readset :=
    Commit.isDisjointReadsetBloom_iff hm.readsetBloom (.ofWriteset j other)
  unfold TransactionInner.conflict
  rw [← hw, ← hr]
  cases (Commit.ofWriteset j other).isDisjointWritesetBloom (.ofWriteset i own) <;>
    cases (Commit.ofWriteset j other).isDisjointReadsetBloom tx.readset tx.readsetBloom <;>
    cases tx.mode <;> simp [IsolationLevel.atLeast]

/-- A request on a database without persistence, at time 0. -/
def Request.plain (call : Call) : Request := ⟨call, 0, none⟩

/-- A reader commits; the next one takes over its object and reads another key. -/
def takenOver : List Request :=
  [.transaction true, .on 0 .withSerializableSnapshotIsolation, .on 0 (.get [1]), .on 0 .commit,
    .on 0 .drop, .transaction true, .on 1 .withSerializableSnapshotIsolation,
    .on 1 (.exists [2])].map .plain

theorem isDisjointReadsetBloom_takenOver :
    ∃ db tx, Execution.Run Database.next (fun _ _ => True) (.opened ∅ 5 0) db ∧ tx ∈ db.objects ∧
      tx.readset.toList = [[2]] ∧
      (Commit.ofWriteset 1 ((∅ : Writeset).insert [2] none)).isDisjointReadsetBloom tx.readset
        tx.readsetBloom = false := by
  have hrun : (Execution.exec Database.next (.opened ∅ 5 0) takenOver).map (fun db =>
      db.transactions[1]?.join.any fun tx => decide (tx.readset.toList = [[2]])) = some true := by
    decide +kernel
  obtain ⟨db, hs, hb⟩ := Execution.exec_check hrun
  obtain ⟨tx, htx, hread⟩ := (Option.any_eq_true _ _).1 hb
  have hlist : tx.readset.toList = [[2]] := of_decide_eq_true hread
  have hmem : tx ∈ db.objects := mem_objects_of_join htx
  refine ⟨db, tx, .of_exec hs, hmem, hlist, ?_⟩
  obtain ⟨-, -, hexact⟩ := isDisjointReadsetBloom_exact (.of_exec hs) hmem
  apply Bool.eq_false_iff.2
  intro hdisjoint
  refine (hexact _).1 hdisjoint [2] ?_ ?_
  · change [2] ∈ (∅ : Writeset).insert [2] none
    simp
  · rw [← ExtTreeSet.mem_toList, hlist]
    exact List.mem_singleton_self _

end StupidKv
