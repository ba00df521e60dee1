import StupidKv.Refinement

namespace StupidKv
open Std Timeline
set_option autoImplicit true

section
variable {db : Inner} {hist : List Published} {tx tx' : TransactionInner} {s s' : Session}

/-- A transaction keeps its two snapshot numbers for life. -/
theorem TxSim.change (h : TxSim db hist tx s) (hv : tx'.version = tx.version)
    (hc : tx'.commit = tx.commit) (hs : s'.snapshot = s.snapshot) (hm : tx'.mode = s'.mode)
    (hd : tx'.done = s'.done) (hw : tx'.write = s'.write)
    (hsets : tx'.done = false → SetsAgree tx' s') : TxSim db hist tx' s' where
  mode := hm
  done := hd
  write := hw
  sets := hsets
  snapshot := hs ▸ h.snapshot
  past := by
    rw [hs, hv, hc]
    exact h.past
  future := by
    rw [hs, hv, hc]
    exact h.future
  version := hv ▸ h.version
  commit := hc ▸ h.commit
  floor := hv ▸ h.floor
  queue := hc ▸ h.queue

/-- A method of a transaction and the session's, from matching states: the same answer, and
matching states again. -/
structure Agrees (db : Inner) (hist : List Published) (tx : TransactionInner)
    (r : TransactionInner × ρ) (r' : Session × ρ) : Prop where
  response : r.2 = r'.2
  sim : TxSim db hist r.1 r'.1
  version : r.1.version = tx.version
  commit : r.1.commit = tx.commit

theorem TxSim.same (h : TxSim db hist tx s) (r : ρ) : Agrees db hist tx (tx, r) (s, r) :=
  ⟨rfl, h, rfl, rfl⟩

theorem SetsAgree.track (h : SetsAgree tx s) (hm : tx.mode = s.mode) (hw : tx.write = s.write)
    (ht : tx.write = true) (key : Bytes) : SetsAgree (tx.track key) (s.track key) := by
  unfold TransactionInner.track Session.track
  rw [← hm, ← hw, ht]
  cases hmode : tx.mode with
  | snapshotIsolation => simpa [IsolationLevel.atLeast] using h
  | serializableSnapshotIsolation =>
    simp only [IsolationLevel.atLeast, if_true, and_self]
    split
    · rename_i hc
      refine ⟨h.writeset, fun k => ?_, h.bloom⟩
      rw [List.mem_cons, ← h.readset]
      refine ⟨.inr, ?_⟩
      rintro (rfl | hk)
      · exact ExtTreeSet.contains_iff_mem.1 hc
      · exact hk
    · refine ⟨h.writeset, fun k => ?_, h.bloom.insert key⟩
      rw [ExtTreeSet.mem_insert, List.mem_cons, ← h.readset, LawfulEqOrd.compare_eq_iff_eq]
      exact or_congr_left eq_comm

theorem TxSim.track (h : TxSim db hist tx s) (hd : tx.done = false) (ht : tx.write = true)
    (key : Bytes) (r : ρ) : Agrees db hist tx (tx.track key, r) (s.track key, r) := by
  have hsets := (h.sets hd).track h.mode h.write ht key
  have hv : (tx.track key).version = tx.version ∧ (tx.track key).commit = tx.commit ∧
      (tx.track key).mode = tx.mode ∧ (tx.track key).done = tx.done ∧
      (tx.track key).write = tx.write := by
    unfold TransactionInner.track
    split
    · split <;> simp
    · simp
  have hs : (s.track key).snapshot = s.snapshot ∧ (s.track key).mode = s.mode ∧
      (s.track key).done = s.done ∧ (s.track key).write = s.write := by
    unfold Session.track
    split <;> simp
  obtain ⟨hv, hc, hm, hdn, hw⟩ := hv
  obtain ⟨hs, hm', hdn', hw'⟩ := hs
  refine ⟨rfl, h.change hv hc hs ?_ ?_ ?_ fun _ => hsets, hv, hc⟩
  · rw [hm, hm', h.mode]
  · rw [hdn, hdn', h.done]
  · rw [hw, hw', h.write]

/-- The read both `get` and `exists` do: an own write answers first, else the shared state. -/
theorem TxSim.read (h : TxSim db hist tx s) (hd : tx.done = false) (f : Option Bytes → ρ)
    (x : ρ) (key : Bytes) :
    Agrees db hist tx
      (if tx.write then
        match tx.writeset[key]? with
        | some v => (tx, f v)
        | none => (tx.track key, x)
      else (tx, x))
      (match s.own key with
        | some v => (s, f v)
        | none => (s.track key, x)) := by
  unfold Session.own
  rw [← h.write]
  cases ht : tx.write with
  | false =>
    have hs : s.track key = s := by simp [Session.track, ← h.write, ht]
    simpa [hs] using h.same x
  | true =>
    rw [← (h.sets hd).writeset]
    cases tx.writeset[key]? with
    | some v => exact h.same (f v)
    | none => exact h.track hd ht key x

theorem TxSim.get (h : TxSim db hist tx s) (hd : Stores db hist txs) (key : Bytes) :
    Agrees db hist tx (tx.get db key)
      (s.get (lookup ((hist.map Published.writeset).take s.snapshot)) key) := by
  unfold TransactionInner.get Session.get
  rw [← h.done, h.fetch hd]
  cases hdn : tx.done with
  | true => exact h.same _
  | false => exact h.read hdn Except.ok _ key

theorem TxSim.exists (h : TxSim db hist tx s) (hd : Stores db hist txs) (key : Bytes) :
    Agrees db hist tx (tx.exists db key)
      (s.exists (lookup ((hist.map Published.writeset).take s.snapshot)) key) := by
  unfold TransactionInner.exists Session.exists
  rw [← h.done, Inner.existsInDatastore_eq, h.fetch hd]
  cases hdn : tx.done with
  | true => exact h.same _
  | false => exact h.read hdn (fun _ => Except.ok true) _ key

theorem TxSim.insert (h : TxSim db hist tx s) (hd : tx.done = false) (key : Bytes)
    (value : Option Bytes) (r : ρ) :
    Agrees db hist tx ({ tx with writeset := tx.writeset.insert key value }, r)
      ({ s with writeset := s.writeset.insert key value }, r) := by
  have hs := h.sets hd
  refine ⟨rfl, h.change rfl rfl rfl h.mode h.done h.write fun _ => ?_, rfl, rfl⟩
  exact ⟨by simp [hs.writeset], hs.readset, hs.bloom⟩

theorem TxSim.store (h : TxSim db hist tx s) (key : Bytes) (value : Option Bytes) :
    Agrees db hist tx (tx.store key value) (s.store key value) := by
  unfold TransactionInner.store Session.store
  by_cases hd : tx.done = true
  · rw [if_pos hd, if_pos (h.done ▸ hd)]
    exact h.same _
  · have hds : ¬ s.done = true := h.done ▸ hd
    rw [if_neg hd, if_neg hds]
    by_cases hw : (!tx.write) = true
    · rw [if_pos hw, if_pos (h.write ▸ hw)]
      exact h.same _
    · have hws : ¬ (!s.write) = true := h.write ▸ hw
      rw [if_neg hw, if_neg hws]
      exact h.insert (Bool.eq_false_iff.2 hd) key value _

theorem TxSim.put (h : TxSim db hist tx s) (hd : Stores db hist txs) (key val : Bytes) :
    Agrees db hist tx (tx.put db key val)
      (s.put (lookup ((hist.map Published.writeset).take s.snapshot)) key val) := by
  unfold TransactionInner.put Session.put
  by_cases hd' : tx.done = true
  · rw [if_pos hd', if_pos (h.done ▸ hd')]
    exact h.same _
  · have hds : ¬ s.done = true := h.done ▸ hd'
    rw [if_neg hd', if_neg hds]
    by_cases hw : (!tx.write) = true
    · rw [if_pos hw, if_pos (h.write ▸ hw)]
      exact h.same _
    · have hws : ¬ (!s.write) = true := h.write ▸ hw
      rw [if_neg hw, if_neg hws, Inner.existsInDatastore_eq, h.fetch hd]
      have hdn := Bool.eq_false_iff.2 hd'
      have hc : s.writeset.contains key = tx.writeset[key]?.isSome := by
        rw [← (h.sets hdn).writeset, ExtTreeMap.contains_eq_isSome_getElem?]
      rw [hc]
      cases tx.writeset[key]? with
      | some v => exact h.same _
      | none =>
        cases lookup ((hist.map Published.writeset).take s.snapshot) key with
        | some v => exact h.same _
        | none => exact h.insert hdn key (some val) _

theorem track_frame (tx : TransactionInner) (key : Bytes) :
    ∃ readset bloom, tx.track key = { tx with readset := readset, readsetBloom := bloom } := by
  unfold TransactionInner.track
  split
  · split
    · exact ⟨tx.readset, tx.readsetBloom, rfl⟩
    · exact ⟨_, _, rfl⟩
  · exact ⟨tx.readset, tx.readsetBloom, rfl⟩

theorem get_frame (tx : TransactionInner) (db : Inner) (key : Bytes) :
    ∃ readset bloom, (tx.get db key).1 = { tx with readset := readset, readsetBloom := bloom } := by
  unfold TransactionInner.get
  split
  · exact ⟨tx.readset, tx.readsetBloom, rfl⟩
  · split
    · split
      · exact ⟨tx.readset, tx.readsetBloom, rfl⟩
      · exact track_frame tx key
    · exact ⟨tx.readset, tx.readsetBloom, rfl⟩

theorem exists_object (tx : TransactionInner) (db : Inner) (key : Bytes) :
    (tx.exists db key).1 = (tx.get db key).1 := by
  unfold TransactionInner.exists TransactionInner.get
  split
  · rfl
  · split
    · cases tx.writeset[key]? <;> rfl
    · rfl

theorem clearSets_frame (tx : TransactionInner) :
    tx.clearSets.version = tx.version ∧ tx.clearSets.commit = tx.commit ∧
      tx.clearSets.mode = tx.mode ∧ tx.clearSets.done = tx.done ∧
      tx.clearSets.write = tx.write := by
  unfold TransactionInner.clearSets
  split <;> simp

theorem clearSets_writeset (tx : TransactionInner) : tx.clearSets.writeset = ∅ := by
  unfold TransactionInner.clearSets
  split <;> rfl

/-- Once a transaction is done, its sets no longer matter. -/
theorem TxSim.close (h : TxSim db hist tx s) (tx' : TransactionInner) (hv : tx'.version = tx.version)
    (hc : tx'.commit = tx.commit) (hm : tx'.mode = tx.mode) (hd : tx'.done = true)
    (hw : tx'.write = tx.write) (r : ρ) : Agrees db hist tx (tx', r) (s.close, r) := by
  refine ⟨rfl, h.change hv hc rfl (hm.trans h.mode) hd (hw.trans h.write) ?_, hv, hc⟩
  intro hn
  rw [hd] at hn
  cases hn

theorem TxSim.cancel (h : TxSim db hist tx s) : Agrees db hist tx tx.cancel s.cancel := by
  unfold TransactionInner.cancel Session.cancel
  rw [← h.done]
  cases hd : tx.done with
  | true => exact h.same _
  | false =>
    obtain ⟨hv, hc, hm, hd', hw⟩ := clearSets_frame { tx with done := true }
    exact h.close _ hv hc hm hd' hw _

end

end StupidKv
