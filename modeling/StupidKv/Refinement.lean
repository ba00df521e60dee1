import StupidKv.History
import StupidKv.Holders

namespace StupidKv
open Std Timeline
set_option autoImplicit true

/-- The sets a live transaction carries are those of its session. -/
structure SetsAgree (tx : TransactionInner) (s : Session) : Prop where
  writeset : tx.writeset = s.writeset
  readset : ∀ key, key ∈ tx.readset ↔ key ∈ s.readset
  bloom : ReadsetBloom tx.readset tx.readsetBloom

/-- Both snapshot numbers of a transaction cut the history where its session does, and what it
still needs is there. -/
structure TxSim (db : Inner) (hist : List Published) (tx : TransactionInner) (s : Session) :
    Prop where
  mode : tx.mode = s.mode
  done : tx.done = s.done
  write : tx.write = s.write
  sets : tx.done = false → SetsAgree tx s
  snapshot : s.snapshot ≤ hist.length
  past : ∀ h ∈ hist.take s.snapshot, h.version ≤ tx.version ∧ h.commit ≤ tx.commit
  future : ∀ h ∈ hist.drop s.snapshot, tx.version < h.version ∧ tx.commit < h.commit
  version : tx.version ≤ db.timestamp
  commit : tx.commit ≤ db.transactionCommitId
  floor : db.gcFloor ≤ tx.version
  queue : ∀ h ∈ hist, tx.commit < h.commit → h.commit ∈ db.transactionCommitQueue

def holders (f : TransactionInner → Nat) (transactions : List (Option TransactionInner))
    (v : Nat) : Nat :=
  transactions.countP fun o => o.any fun tx => v == f tx

/-- The shared state stores the history: what the chains, the queue and the counters hold. -/
structure Stores (db : Inner) (hist : List Published)
    (transactions : List (Option TransactionInner)) : Prop where
  versions : Chronological hist
  commits : hist.Pairwise fun a b => a.commit < b.commit
  bounded : ∀ h ∈ hist, h.version ≤ db.timestamp ∧ h.commit ≤ db.transactionCommitId
  idle : db.transactionMergeQueue = ∅
  queue : ∀ c e, db.transactionCommitQueue[c]? = some e →
    ∃ h ∈ hist, h.commit = c ∧ e = .ofWriteset e.id h.writeset
  floor : db.gcFloor ≤ db.timestamp
  chains : Covers db.gcFloor db.datastore (writesOf hist)
  byOracle : Holds db.counterByOracle (holders (·.version) transactions)
  byCommit : Holds db.counterByCommit (holders (·.commit) transactions)

/-- The simulation between the database and the ledger. -/
structure Sim (db : Database) (l : Ledger) (hist : List Published) : Prop where
  stores : Stores db.inner hist db.transactions
  committed : l.committed = hist.map Published.writeset
  length : db.transactions.length = l.sessions.length
  sessions : ∀ i : Nat,
    Option.Rel (TxSim db.inner hist) db.transactions[i]?.join l.sessions[i]?.join

theorem Sim.new (start threshold : Nat) : Sim (.new start threshold) .new [] where
  stores := {
    versions := .nil
    commits := .nil
    bounded := by simp
    idle := rfl
    queue := by simp [Database.new, Inner.new]
    floor := Nat.zero_le _
    chains := fun key => by
      have he : writesOf [] key = ∅ := by
        ext p
        simp [writesOf]
      rw [he]
      simpa [Database.new, Inner.new, chainAt] using CoversFrom.empty 0
    byOracle := Holds.empty
    byCommit := Holds.empty }
  committed := rfl
  length := rfl
  sessions _ := .none

section
variable {db : Inner} {hist : List Published} {txs : List (Option TransactionInner)}

theorem holders_concat (f : TransactionInner → Nat) (tx : TransactionInner) (v : Nat) :
    holders f (txs ++ [some tx]) v = holders f txs v + if v = f tx then 1 else 0 := by
  simp [holders, List.countP_append, List.countP_singleton]

theorem holders_pos {i : Nat} (f : TransactionInner → Nat) (h : txs[i]?.join = some tx) :
    0 < holders f txs (f tx) := by
  refine List.countP_pos_iff.2 ⟨some tx, ?_, by simp⟩
  rcases hi : txs[i]? with _ | o
  · simp [hi] at h
  · rw [hi] at h
    exact List.mem_of_getElem? (hi.trans (congrArg some h))

theorem getElem_of_join {xs : List (Option α)} {i : Nat} (h : xs[i]?.join = some x) :
    ∃ hi : i < xs.length, xs[i] = some x := by
  rcases hi : xs[i]? with _ | o
  · simp [hi] at h
  · rw [hi] at h
    obtain ⟨hl, he⟩ := List.getElem?_eq_some_iff.1 hi
    exact ⟨hl, he.trans h⟩

theorem holders_set_some {i : Nat} (f : TransactionInner → Nat) (h : txs[i]?.join = some tx)
    (he : f tx' = f tx) (v : Nat) : holders f (txs.set i (some tx')) v = holders f txs v := by
  obtain ⟨hi, hg⟩ := getElem_of_join h
  have hp := holders_pos f h
  unfold holders at hp ⊢
  rw [List.countP_set hi, hg]
  simp only [Option.any_some, he]
  split
  · rename_i hv
    rw [beq_iff_eq] at hv
    rw [← hv] at hp
    omega
  · omega

theorem holders_set_none {i : Nat} (f : TransactionInner → Nat) (h : txs[i]?.join = some tx)
    (v : Nat) : holders f (txs.set i none) v = holders f txs v - if v = f tx then 1 else 0 := by
  obtain ⟨hi, hg⟩ := getElem_of_join h
  unfold holders
  rw [List.countP_set hi, hg]
  simp

end

theorem rel_set {R : α → β → Prop} {xs : List (Option α)} {ys : List (Option β)}
    (hl : xs.length = ys.length) (h : ∀ j : Nat, Option.Rel R xs[j]?.join ys[j]?.join)
    (hx : Option.Rel R x y) (i j : Nat) :
    Option.Rel R (xs.set i x)[j]?.join (ys.set i y)[j]?.join := by
  rw [List.getElem?_set, List.getElem?_set]
  split
  · rw [hl]
    split
    · simpa using hx
    · exact .none
  · exact h j

theorem rel_concat {R : α → β → Prop} {xs : List (Option α)} {ys : List (Option β)}
    (hl : xs.length = ys.length) (h : ∀ j : Nat, Option.Rel R xs[j]?.join ys[j]?.join)
    (hx : Option.Rel R x y) (j : Nat) :
    Option.Rel R (xs ++ [x])[j]?.join (ys ++ [y])[j]?.join := by
  rcases Nat.lt_trichotomy j xs.length with hj | hj | hj
  · rw [List.getElem?_append_left hj, List.getElem?_append_left (hl ▸ hj)]
    exact h j
  · rw [hj, List.getElem?_concat_length, hl, List.getElem?_concat_length]
    simpa using hx
  · rw [List.getElem?_eq_none (by simp; omega), List.getElem?_eq_none (by simp; omega)]
    exact .none

theorem rel_mono {R R' : α → β → Prop} (h : Option.Rel R x y)
    (hR : ∀ a b, x = some a → R a b → R' a b) : Option.Rel R' x y := by
  cases h with
  | some h => exact .some (hR _ _ rfl h)
  | none => exact .none

section
variable {db : Inner} {hist : List Published}

theorem Inner.pendingWrite_idle (h : db.transactionMergeQueue = ∅) (key : Bytes) (q : Nat) :
    db.pendingWrite key q = none := by
  simp [pendingWrite, h]

theorem TxSim.fetch (h : TxSim db hist tx s) (hd : Stores db hist txs) (key : Bytes) :
    db.fetchInDatastore key tx.version =
      lookup ((hist.map Published.writeset).take s.snapshot) key := by
  have hv := lookup_visible hd.versions (fun a ha => (h.past a ha).1)
    (fun a ha => (h.future a ha).1) key
  have hc := (hd.chains key).visible tx.version h.floor
  rw [Inner.fetchInDatastore, Inner.pendingWrite_idle hd.idle,
    ← hc.unique (writesOf_functional hd.versions key) hv]
  unfold chainAt
  cases db.datastore[key]? <;> simp

end

end StupidKv
