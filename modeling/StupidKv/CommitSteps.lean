import StupidKv.LocalSteps

namespace StupidKv
open Std Timeline
set_option autoImplicit true

theorem eq_of_sorted_of_mem {l l' : List (Nat × α)} (hl : l.Pairwise fun a b => a.1 < b.1)
    (hl' : l'.Pairwise fun a b => a.1 < b.1) (h : ∀ x, x ∈ l ↔ x ∈ l') : l = l' := by
  have hn : ∀ {l : List (Nat × α)}, (l.Pairwise fun a b => a.1 < b.1) → l.Nodup := by
    intro l hp
    refine hp.imp ?_
    rintro a b hab rfl
    exact absurd hab (Nat.lt_irrefl _)
  refine ((List.perm_ext_iff_of_nodup (hn hl) (hn hl')).2 h).eq_of_pairwise ?_ hl hl'
  intro a b _ _ hab hba
  exact absurd (Nat.lt_trans hab hba) (Nat.lt_irrefl _)

section
variable {db : Inner} {hist : List Published} {tx : TransactionInner} {s : Session}

theorem overlap_iff (ws : Writeset) (p : Bytes → Bool) :
    ws.keys.any p = true ↔ ¬ ∀ key ∈ ws, p key = false := by
  simp [List.any_eq_true]

/-- With both sets agreeing, the filtered check of an earlier commit is the exact one. -/
theorem conflict_eq (hs : SetsAgree tx s) (hm : tx.mode = s.mode) (i j : Nat) (ws : Writeset) :
    { tx with done := true, writeset := ∅ }.conflict (.ofWriteset i tx.writeset)
      (.ofWriteset j ws) = s.conflict ws := by
  have hw : (Commit.ofWriteset j ws).isDisjointWritesetBloom (.ofWriteset i tx.writeset) =
      !ws.keys.any fun key => s.writeset.contains key := by
    rw [Bool.eq_iff_iff, Commit.isDisjointWritesetBloom_ofWriteset, Bool.not_eq_true',
      ← Bool.not_eq_true, overlap_iff, hs.writeset]
    simp [← Bool.not_eq_true]
  have hr : (Commit.ofWriteset j ws).isDisjointReadsetBloom tx.readset tx.readsetBloom =
      !ws.keys.any fun key => s.readset.contains key := by
    rw [Bool.eq_iff_iff, Commit.isDisjointReadsetBloom_iff hs.bloom, Bool.not_eq_true',
      ← Bool.not_eq_true, overlap_iff]
    simp [hs.readset, Commit.ofWriteset]
  unfold TransactionInner.conflict Session.conflict
  simp only [hw, hr, hm, Bool.not_not]
  cases s.mode <;> simp only [IsolationLevel.atLeast, Bool.true_and, Bool.false_and, true_and,
    false_and, reduceCtorEq]

theorem TransactionInner.validate_none_iff {tx : TransactionInner} {db : Inner} {entry : Commit}
    {n : Nat} : tx.validate db n entry = none ↔ ∀ c e, db.transactionCommitQueue[c]? = some e →
      tx.commit < c → c < n → tx.conflict entry e = none := by
  have hm : tx.mode.atLeast .snapshotIsolation = true := by cases tx.mode <;> rfl
  unfold TransactionInner.validate
  rw [if_pos hm, List.findSome?_eq_none_iff]
  simp only [List.mem_filter, Bool.and_eq_true, decide_eq_true_eq, Prod.forall,
    ExtTreeMap.mem_toList_iff_getElem?_eq_some, Nat.succ_le_iff, and_imp]

/-- The queue as the validation of the next commit finds it. -/
def Inner.window (db : Inner) (updates : Commit) (commit : Nat) : List (Nat × Commit) :=
  (db.transactionCommitQueue.insertIfNew (db.transactionCommitId + 1) updates).toList.filter
    fun e => commit + 1 ≤ e.1 && decide (e.1 < db.transactionCommitId + 1)

theorem Inner.mem_window (db : Inner) (updates : Commit) (commit : Nat) (e : Nat × Commit) :
    e ∈ db.window updates commit ↔
      db.transactionCommitQueue[e.1]? = some e.2 ∧ commit < e.1 ∧
        e.1 ≤ db.transactionCommitId := by
  simp only [Inner.window, List.mem_filter, Bool.and_eq_true, decide_eq_true_eq,
    ExtTreeMap.mem_toList_iff_getElem?_eq_some (k := e.1) (v := e.2),
    ExtTreeMap.getElem?_insertIfNew, Nat.compare_eq_eq]
  by_cases he : db.transactionCommitId + 1 = e.1
  · constructor <;> omega
  · rw [if_neg fun hc => he hc.1]
    constructor
    · rintro ⟨hm, hlo, hhi⟩
      exact ⟨hm, hlo, by omega⟩
    · rintro ⟨hm, hlo, hhi⟩
      exact ⟨hm, hlo, by omega⟩

/-- The entries the validation meets are the commits past the snapshot, in order. -/
theorem TxSim.window (h : TxSim db hist tx s) (hd : Stores db hist txs) (updates : Commit) :
    ((db.window updates tx.commit).map fun e => (e.1, e.2.writeset)) =
      (hist.drop s.snapshot).map fun p => (p.commit, p.writeset) := by
  refine eq_of_sorted_of_mem ?_ ?_ ?_
  · refine List.pairwise_map.2 (List.Pairwise.sublist List.filter_sublist ?_)
    exact SkipMap.sorted_toList _
  · exact List.pairwise_map.2 (hd.commits.sublist (List.drop_sublist _ _))
  · rintro ⟨c, ws⟩
    simp only [List.mem_map, Inner.mem_window, Prod.mk.injEq]
    constructor
    · rintro ⟨⟨c', e⟩, ⟨hm, hlo, hhi⟩, rfl, rfl⟩
      obtain ⟨a, ha, rfl, he⟩ := hd.queue _ _ hm
      refine ⟨a, ?_, rfl, by rw [he]; rfl⟩
      rw [← List.take_append_drop s.snapshot hist] at ha
      rcases List.mem_append.1 ha with ha | ha
      · have := (h.past a ha).2
        simp only at hlo
        omega
      · exact ha
    · rintro ⟨a, ha, rfl, rfl⟩
      have hm : a ∈ hist := List.mem_of_mem_drop ha
      have hlo := (h.future a ha).2
      obtain ⟨e, he⟩ := Option.isSome_iff_exists.1
        (ExtTreeMap.mem_iff_isSome_getElem?.1 (h.queue a hm hlo))
      obtain ⟨b, hb, hbc, hbe⟩ := hd.queue _ _ he
      have hab := eq_of_increasing hd.commits hb hm hbc
      subst hab
      refine ⟨(b.commit, e), ⟨he, hlo, (hd.bounded b hm).2⟩, rfl, ?_⟩
      rw [hbe]
      rfl

theorem findSome?_eq_map {l : List α} {f : α → Option γ} {g : α → β} {f' : β → Option γ}
    (h : ∀ a ∈ l, f a = f' (g a)) : l.findSome? f = (l.map g).findSome? f' := by
  induction l with
  | nil => rfl
  | cons a l ih =>
    rw [List.map_cons, List.findSome?_cons, List.findSome?_cons, h a (by simp),
      ih fun b hb => h b (by simp [hb])]

theorem TxSim.validate (h : TxSim db hist tx s) (hd : Stores db hist txs)
    (hdn : tx.done = false) (hq : db'.transactionCommitQueue =
      db.transactionCommitQueue.insertIfNew (db.transactionCommitId + 1)
        (.ofWriteset qid tx.writeset)) :
    { tx with done := true, writeset := ∅ }.validate db' (db.transactionCommitId + 1)
        (.ofWriteset qid tx.writeset) =
      ((hist.map Published.writeset).drop s.snapshot).findSome? s.conflict := by
  have hw := h.window hd (.ofWriteset qid tx.writeset)
  have hwin : (hist.map Published.writeset).drop s.snapshot =
      (db.window (.ofWriteset qid tx.writeset) tx.commit).map fun e => e.2.writeset := by
    have := congrArg (List.map Prod.snd) hw
    simpa [List.map_map, Function.comp_def, List.map_drop] using this.symm
  have hm : tx.mode.atLeast .snapshotIsolation = true := by cases tx.mode <;> rfl
  unfold TransactionInner.validate
  rw [if_pos hm, hq, hwin]
  refine findSome?_eq_map fun e he => ?_
  obtain ⟨hm, -, -⟩ := (Inner.mem_window _ _ _ e).1 he
  obtain ⟨a, -, -, hae⟩ := hd.queue _ _ hm
  rw [hae]
  exact conflict_eq (h.sets hdn) h.mode qid _ a.writeset

theorem Stores.not_queued (hd : Stores db hist txs) :
    db.transactionCommitId + 1 ∉ db.transactionCommitQueue := by
  intro hm
  obtain ⟨e, he⟩ := Option.isSome_iff_exists.1 (ExtTreeMap.mem_iff_isSome_getElem?.1 hm)
  obtain ⟨a, ha, hc, -⟩ := hd.queue _ _ he
  have := (hd.bounded a ha).2
  omega

theorem Inner.autoCommit_free (db : Inner)
    (h : db.transactionCommitId + 1 ∉ db.transactionCommitQueue)
    (updates : Commit) :
    db.autoCommit updates = some ({ db with
      transactionCommitQueue :=
        db.transactionCommitQueue.insertIfNew (db.transactionCommitId + 1) updates
      transactionCommitId := db.transactionCommitId + 1 }, db.transactionCommitId + 1) := by
  simp only [Inner.autoCommit, SkipMap.getElem?_insertIfNew_self h, Option.any_some,
    beq_self_eq_true, if_true]

/-- The version `atomic_merge` gives out when it is alone. -/
def Inner.nextVersion (db : Inner) (now : Nat) : Nat :=
  if now ≤ db.timestamp then db.timestamp + 1 else now

theorem Inner.timestamp_lt_nextVersion (db : Inner) (now : Nat) :
    db.timestamp < db.nextVersion now := by
  unfold nextVersion
  split <;> omega

theorem Inner.atomicMerge_free (db : Inner) (h : db.transactionMergeQueue = ∅) (updates : Merge)
    (now : Nat) :
    db.atomicMerge updates now = some ({ db with
      transactionMergeQueue := db.transactionMergeQueue.insertIfNew (db.nextVersion now) updates
      timestamp := db.nextVersion now }, db.nextVersion now) := by
  have hmax : max db.timestamp (db.nextVersion now) = db.nextVersion now :=
    Nat.max_eq_right (db.timestamp_lt_nextVersion now).le
  have hn : db.nextVersion now ∉ db.transactionMergeQueue := by
    rw [h]
    exact ExtTreeMap.not_mem_empty
  unfold nextVersion at hmax hn ⊢
  simp only [Inner.atomicMerge, SkipMap.getElem?_insertIfNew_self hn, Option.any_some,
    beq_self_eq_true, if_true, hmax]

end

end StupidKv
