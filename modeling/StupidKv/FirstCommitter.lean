import StupidKv.Interleaving
import StupidKv.CommitSteps

namespace StupidKv
open Std
set_option autoImplicit true

/-- Of two transactions that both committed and share a key, one began after the other's merge. -/
def System.NoLostUpdate (s : System) : Prop :=
  ∀ (i j : Nat) tx tx' id id' version version', i ≠ j →
    s.stages[i]? = some (.committed tx id version) →
    s.stages[j]? = some (.committed tx' id' version') →
    tx.writeset.sharesKey tx'.writeset = true → version ≤ tx'.version ∨ version' ≤ tx.version

/-- The validation of `b` does not look at `a`, although they share a key. -/
def Committer.skippedBy (a b : Committer) : Bool :=
  decide (a.id ≤ b.commit) && a.writeset.sharesKey b.writeset

def System.others (s : System) (i : Nat) : List Committer :=
  ((List.range s.stages.length).filter (· != i)).filterMap s.committer

/-- Nobody slips through the window between a commit's `auto_commit` and its `atomic_merge`: a
transaction that validates has in its snapshot every merged commit it skips, and a commit that
merges was skipped by nobody. -/
def System.windowsClosed (s : System) : Action → Bool
  | .validate i =>
    (s.committer i).all fun b =>
      (s.others i).all fun a => !a.skippedBy b || a.merged.all (· ≤ b.version)
  | .merge i _ =>
    (s.committer i).all fun a => (s.others i).all fun b => !(b.passed && a.skippedBy b)
  | _ => true

/-- What the two committers `a` and `b` know of each other. -/
structure Committer.Ordered (a b : Committer) : Prop where
  ne : a.id ≠ b.id
  seen : b.passed = true → a.writeset.sharesKey b.writeset = true → a.id < b.id →
    a.id ≤ b.commit
  visible : b.passed = true → a.skippedBy b = true → ∀ v, a.merged = some v → v ≤ b.version

theorem Writeset.sharesKey_iff (a b : Writeset) :
    a.sharesKey b = true ↔ ∃ key, key ∈ a ∧ key ∈ b := by
  simp [Writeset.sharesKey, List.any_eq_true]

theorem Writeset.sharesKey_comm (a b : Writeset) : a.sharesKey b = b.sharesKey a := by
  rw [Bool.eq_iff_iff, Writeset.sharesKey_iff, Writeset.sharesKey_iff]
  exact exists_congr fun _ => and_comm

theorem TransactionInner.validate_none {tx : TransactionInner} {db : Inner} {c n : Nat}
    (h : tx.validate db n (.ofWriteset qid ws) = none)
    (hq : db.transactionCommitQueue[c]? = some (.ofWriteset q w)) (hlo : tx.commit < c)
    (hhi : c < n) : w.sharesKey ws = false := by
  have hc := TransactionInner.validate_none_iff.1 h c _ hq hlo hhi
  unfold TransactionInner.conflict at hc
  rw [Bool.eq_false_iff]
  intro hs
  obtain ⟨key, hkw, hks⟩ := (Writeset.sharesKey_iff w ws).1 hs
  split at hc
  · cases hc
  · rename_i hd
    have hdis : (Commit.ofWriteset q w).isDisjointWritesetBloom (.ofWriteset qid ws) = true := by
      simpa using hd
    exact (Commit.isDisjointWritesetBloom_ofWriteset q qid w ws).1 hdis key hkw hks

structure System.Orderly (s : System) : Prop where
  queued : ∀ i a, s.committer i = some a → a.id ≤ s.db.transactionCommitId ∧
    ∃ qid, s.db.transactionCommitQueue[a.id]? = some (.ofWriteset qid a.writeset)
  entries : ∀ (i : Nat) tx entry id, s.stages[i]? = some (.queued tx entry id) →
    ∃ qid, entry = .ofWriteset qid tx.writeset
  bound : ∀ c ∈ s.db.transactionCommitQueue, c ≤ s.db.transactionCommitId
  pairs : ∀ i j a b, i ≠ j → s.committer i = some a → s.committer j = some b → a.Ordered b

namespace System

theorem Orderly.new (start threshold : Nat) : (System.new start threshold).Orderly where
  queued := by simp [System.new, committer, view]
  entries := by simp [System.new]
  bound := by simp [System.new, Inner.new]
  pairs := by simp [System.new, committer, view]

section
variable {s s' : System} {i : Nat}

theorem mem_others {j : Nat} (hij : j ≠ i) (hj : s.committer j = some a) : a ∈ s.others i := by
  have hlt : j < s.stages.length := by
    by_contra hn
    simp [committer, view, Processes.look, List.getElem?_eq_none (Nat.not_lt.1 hn)] at hj
  refine List.mem_filterMap.2 ⟨j, ?_, hj⟩
  simp [hlt, hij]

theorem Orderly.quiet (h : s.Orderly) (hc : ∀ j, s'.committer j = s.committer j)
    (he : ∀ (j : Nat) tx entry id, s'.stages[j]? = some (.queued tx entry id) →
      s.stages[j]? = some (.queued tx entry id))
    (hq : s'.db.transactionCommitQueue = s.db.transactionCommitQueue)
    (hid : s'.db.transactionCommitId = s.db.transactionCommitId) : s'.Orderly where
  queued := by
    intro j a hj
    rw [hc] at hj
    rw [hq, hid]
    exact h.queued j a hj
  entries := fun j tx entry id hj => h.entries j tx entry id (he j tx entry id hj)
  bound := by
    rw [hq, hid]
    exact h.bound
  pairs := by
    intro j k a b hjk hj hk
    rw [hc] at hj hk
    exact h.pairs j k a b hjk hj hk

theorem stages_put {st st' : Stage} (hi : s.stages[i]? = some st)
    (hn : ∀ tx entry id, st' ≠ .queued tx entry id) (db : Inner) (j : Nat)
    (tx : TransactionInner) (entry : Commit) (id : Nat)
    (hj : (s.put i db st').stages[j]? = some (.queued tx entry id)) :
    s.stages[j]? = some (.queued tx entry id) := by
  obtain ⟨hlt, -⟩ := List.getElem?_eq_some_iff.1 hi
  unfold put at hj
  rw [List.getElem?_set] at hj
  by_cases hij : i = j
  · subst hij
    simp only [if_pos hlt, if_true, Option.some.injEq] at hj
    exact absurd hj (hn tx entry id)
  · simpa [hij] using hj

theorem Orderly.stay {db : Inner} {st st' : Stage} (h : s.Orderly) (hi : s.stages[i]? = some st)
    (hc : st'.committer = st.committer) (hn : ∀ tx entry id, st' ≠ .queued tx entry id)
    (hq : db.transactionCommitQueue = s.db.transactionCommitQueue)
    (hid : db.transactionCommitId = s.db.transactionCommitId) : (s.put i db st').Orderly := by
  exact h.quiet (view_put_same hi db hc) (stages_put hi hn db) hq hid

theorem Orderly.change {db : Inner} {st st' : Stage} (h : s.Orderly) (hi : s.stages[i]? = some st)
    (hold : st.committer = some a) (hnew : st'.committer = some a') (hid : a'.id = a.id)
    (hw : a'.writeset = a.writeset) (hn : ∀ tx entry id, st' ≠ .queued tx entry id)
    (hq : db.transactionCommitQueue = s.db.transactionCommitQueue)
    (hc : db.transactionCommitId = s.db.transactionCommitId)
    (hl : ∀ j b, j ≠ i → s.committer j = some b → a'.Ordered b)
    (hr : ∀ j b, j ≠ i → s.committer j = some b → b.Ordered a') : (s.put i db st').Orderly := by
  have hia : s.committer i = some a := (view_of_stage hi).trans hold
  exact {
    queued := by
      intro j b hj
      rw [committer, view_put hi] at hj
      rw [show (s.put i db st').db = db from rfl, hq, hc]
      split at hj
      · rw [hnew] at hj
        cases hj
        rw [hid, hw]
        exact h.queued i a hia
      · exact h.queued j b hj
    entries := fun j tx entry id hj => h.entries j tx entry id (stages_put hi hn db j tx entry id hj)
    bound := by
      rw [show (s.put i db st').db = db from rfl, hq, hc]
      exact h.bound
    pairs := by
      intro j k b c hjk hj hk
      rw [committer, view_put hi] at hj hk
      split at hj
      · rename_i hij
        rw [hnew] at hj
        cases hj
        rw [if_neg fun hik => hjk (hij.symm.trans hik)] at hk
        exact hl k c (fun hki => hjk (hij.symm.trans hki.symm)) hk
      · rename_i hij
        split at hk
        · rw [hnew] at hk
          cases hk
          exact hr j b (fun hji => hij hji.symm) hj
        · exact h.pairs j k b c hjk hj hk }

theorem Orderly.enqueue {tx : TransactionInner} {db : Inner} (h : s.Orderly)
    (hi : s.stages[i]? = some (.active tx))
    (hq : db.transactionCommitQueue = s.db.transactionCommitQueue.insertIfNew
      (s.db.transactionCommitId + 1) (.ofWriteset qid tx.writeset))
    (hid : db.transactionCommitId = s.db.transactionCommitId + 1) :
    (s.put i db (.queued tx (.ofWriteset qid tx.writeset)
      (s.db.transactionCommitId + 1))).Orderly := by
  have hfree : s.db.transactionCommitId + 1 ∉ s.db.transactionCommitQueue := fun hm =>
    absurd (h.bound _ hm) (Nat.not_le.2 (Nat.lt_succ_self _))
  have hdb : ∀ st, (s.put i db st).db = db := fun _ => rfl
  exact {
    queued := by
      intro j b hj
      rw [committer, view_put hi] at hj
      rw [hdb, hq, hid]
      split at hj
      · cases hj
        exact ⟨le_rfl, qid, SkipMap.getElem?_insertIfNew_self hfree _⟩
      · obtain ⟨hle, q, hb⟩ := h.queued j b hj
        refine ⟨hle.trans (Nat.le_succ _), q, ?_⟩
        rw [ExtTreeMap.getElem?_insertIfNew, if_neg, hb]
        intro hc
        have := Nat.compare_eq_eq.1 hc.1
        omega
    entries := by
      intro j tx' entry id hj
      obtain ⟨hlt, -⟩ := List.getElem?_eq_some_iff.1 hi
      unfold put at hj
      rw [List.getElem?_set] at hj
      split at hj
      · cases hj
        exact ⟨qid, rfl⟩
      · exact h.entries j tx' entry id hj
    bound := by
      intro c hc
      rw [hdb, hq, ExtTreeMap.mem_insertIfNew] at hc
      rw [hdb, hid]
      rcases hc with hc | hc
      · exact (Nat.compare_eq_eq.1 hc).ge
      · exact (h.bound c hc).trans (Nat.le_succ _)
    pairs := by
      intro j k a b hjk hj hk
      rw [committer, view_put hi] at hj hk
      split at hj
      · rename_i hij
        rw [if_neg fun hik => hjk (hij.symm.trans hik)] at hk
        cases hj
        have hle := (h.queued k b hk).1
        refine ⟨by simp only; omega, fun _ _ hlt => ?_, ?_⟩
        · simp only at hlt
          omega
        · intro _ _ v hv
          cases hv
      · split at hk
        · cases hk
          have hle := (h.queued j a hj).1
          refine ⟨by simp only; omega, ?_, ?_⟩
          · intro hp
            cases hp
          · intro hp
            cases hp
        · exact h.pairs j k a b hjk hj hk }

theorem Orderly.refuse {tx : TransactionInner} {entry : Commit} {id : Nat} {db : Inner} {e : Error}
    (h : s.Orderly) (hi : s.stages[i]? = some (.queued tx entry id))
    (hq : db.transactionCommitQueue = s.db.transactionCommitQueue.erase id)
    (hid : db.transactionCommitId = s.db.transactionCommitId) :
    (s.put i db (.refused tx e)).Orderly := by
  have hdb : (s.put i db (.refused tx e)).db = db := rfl
  have hown : s.committer i = _ := view_of_stage hi
  exact {
    queued := by
      intro j b hj
      rw [committer, view_put hi] at hj
      rw [hdb, hq, hid]
      split at hj
      · cases hj
      · rename_i hij
        obtain ⟨hle, q, hb⟩ := h.queued j b hj
        have hne := (h.pairs i j _ b hij hown hj).ne
        refine ⟨hle, q, ?_⟩
        rw [ExtTreeMap.getElem?_erase, if_neg, hb]
        intro hc
        exact hne (Nat.compare_eq_eq.1 hc)
    entries := fun j tx entry id hj =>
      h.entries j tx entry id (stages_put hi (by simp) db j tx entry id hj)
    bound := by
      intro c hc
      rw [hdb, hq, ExtTreeMap.mem_erase] at hc
      rw [hdb, hid]
      exact h.bound c hc.2
    pairs := by
      intro j k a b hjk hj hk
      rw [committer, view_put hi] at hj hk
      split at hj
      · cases hj
      · split at hk
        · cases hk
        · exact h.pairs j k a b hjk hj hk }

theorem Orderly.pass {tx : TransactionInner} {entry : Commit} {id : Nat} (h : s.Orderly)
    (hg : s.windowsClosed (.validate i) = true) (hi : s.stages[i]? = some (.queued tx entry id))
    (hv : { tx with done := true, writeset := ∅ }.validate s.db id entry = none) :
    (s.put i s.db (.validated tx id)).Orderly := by
  have hown : s.committer i = _ := view_of_stage hi
  obtain ⟨qid, rfl⟩ := h.entries i tx entry id hi
  refine h.change hi rfl rfl rfl rfl (by simp) rfl rfl ?_ ?_
  · intro j b hji hj
    have hp := h.pairs i j _ b (Ne.symm hji) hown hj
    exact ⟨hp.ne, hp.seen, hp.visible⟩
  · intro j b hji hj
    have hp := h.pairs j i b _ hji hj hown
    refine ⟨hp.ne, ?_, ?_⟩
    · intro _ hs hlt
      obtain ⟨-, q, hb⟩ := h.queued j b hj
      by_contra hn
      have := TransactionInner.validate_none hv hb (Nat.not_le.1 hn) hlt
      rw [this] at hs
      cases hs
    · intro _ hs v hm
      simp only [windowsClosed, hown, Stage.committer, Option.all_some, List.all_eq_true] at hg
      have hb := hg b (mem_others hji hj)
      rw [Bool.or_eq_true, hm, Option.all_some] at hb
      rcases hb with hb | hb
      · have hs' : b.skippedBy ⟨id, tx.commit, tx.version, tx.writeset, false, none⟩ = true := hs
        rw [hs'] at hb
        cases hb
      · simpa using hb

theorem Orderly.merge {tx : TransactionInner} {id : Nat} {db : Inner} (h : s.Orderly)
    (hg : s.windowsClosed (.merge i now) = true) (hi : s.stages[i]? = some (.validated tx id))
    (hq : db.transactionCommitQueue = s.db.transactionCommitQueue)
    (hid : db.transactionCommitId = s.db.transactionCommitId) (version : Nat)
    (pending : List (Bytes × Option Bytes)) :
    (s.put i db (.merged tx id version pending)).Orderly := by
  have hown : s.committer i = _ := view_of_stage hi
  refine h.change hi rfl rfl rfl rfl (by simp) hq hid ?_ ?_
  · intro j b hji hj
    have hp := h.pairs i j _ b (Ne.symm hji) hown hj
    refine ⟨hp.ne, hp.seen, ?_⟩
    intro hb hs
    simp only [windowsClosed, hown, Stage.committer, Option.all_some, List.all_eq_true] at hg
    have hn := hg b (mem_others hji hj)
    have hs' : Committer.skippedBy ⟨id, tx.commit, tx.version, tx.writeset, true, none⟩ b = true :=
      hs
    rw [hb, hs'] at hn
    cases hn
  · intro j b hji hj
    have hp := h.pairs j i b _ hji hj hown
    exact ⟨hp.ne, hp.seen, hp.visible⟩

theorem Orderly.step (h : s.Orderly) (hg : s.windowsClosed a = true) (hs : s.step a = some s') :
    s'.Orderly := by
  cases step_cases hs with
  | registerVersion map =>
    refine h.quiet (view_concat _ rfl) (fun j tx entry id hj => ?_) rfl rfl
    rw [List.getElem?_append] at hj
    split at hj
    · exact hj
    · cases hn : j - s.stages.length <;> simp [hn] at hj
  | registerCommit i mode version ho map => exact h.stay ho rfl (by simp) rfl rfl
  | work a i tx tx' ho => exact h.stay ho rfl (by simp) rfl rfl
  | autoCommit i tx ho => exact h.enqueue ho rfl rfl
  | pass i tx entry id ho hv => exact h.pass hg ho hv
  | refuse i tx entry id e ho => exact h.refuse ho rfl rfl
  | merge i now version tx id ho hv => refine h.merge hg ho ?_ ?_ version _ <;> rfl
  | push i tx id version e pending ho => exact h.stay ho rfl (by simp) rfl rfl
  | remove i tx id version ho => exact h.stay ho rfl (by simp) rfl rfl

theorem Orderly.noLostUpdate (h : s.Orderly) : s.NoLostUpdate := by
  intro i j tx tx' id id' version version' hij hi hj hs
  have hci : s.committer i = _ := view_of_stage hi
  have hcj : s.committer j = _ := view_of_stage hj
  have hp := h.pairs i j _ _ hij hci hcj
  have hp' := h.pairs j i _ _ (Ne.symm hij) hcj hci
  have hs' : tx'.writeset.sharesKey tx.writeset = true := Writeset.sharesKey_comm _ _ ▸ hs
  rcases Nat.lt_or_gt_of_ne hp.ne with hlt | hlt
  · refine .inl (hp.visible rfl ?_ version rfl)
    simp [Committer.skippedBy, hs, hp.seen rfl hs hlt]
  · refine .inr (hp'.visible rfl ?_ version' rfl)
    simp [Committer.skippedBy, hs', hp'.seen rfl hs' hlt]

end

/-- First committer wins: as long as nobody slips through a commit window, no update is lost, in
any interleaving. -/
theorem noLostUpdate_of_windowsClosed (start threshold : Nat) {s : System}
    (h : Execution.Run System.step (fun s a => s.windowsClosed a = true)
      (.new start threshold) s) : s.NoLostUpdate :=
  (h.invariant (fun _ _ _ hi hg hs => Orderly.step hi hg hs) (.new start threshold)).noLostUpdate

/-- Two writers of one key, the second begun after the first merged. -/
def successive : List Action :=
  [.registerVersion, .registerCommit 0 .snapshotIsolation, .set 0 [1] [10], .autoCommit 0,
    .validate 0, .merge 0 5, .registerVersion, .push 0, .registerCommit 1 .snapshotIsolation,
    .set 1 [1] [20], .autoCommit 1, .remove 0, .validate 1, .merge 1 3, .push 1, .remove 1]

def bothCommitted (s : System) : Bool :=
  match s.stages[0]?, s.stages[1]? with
  | some (Stage.committed tx _ _), some (Stage.committed tx' _ _) => tx.writeset.sharesKey tx'.writeset
  | _, _ => false

theorem noLostUpdate_successive :
    ∃ s, Execution.Run System.step (fun s a => s.windowsClosed a = true) (.new 0 8) s ∧
      bothCommitted s = true ∧ s.NoLostUpdate := by
  have hrun : (Execution.exec (fun s a => if s.windowsClosed a then System.step s a else none)
      (.new 0 8) successive).map bothCommitted = some true := by decide +kernel
  obtain ⟨s, hs, hb⟩ := Execution.exec_check hrun
  exact ⟨s, .of_guarded hs, hb, noLostUpdate_of_windowsClosed 0 8 (.of_guarded hs)⟩

/-- The second writer takes both snapshot numbers while the first has its commit id but is not
yet merged. -/
def lostUpdate : List Action :=
  [.registerVersion, .registerCommit 0 .snapshotIsolation, .set 0 [1] [10], .autoCommit 0,
    .validate 0, .registerVersion, .registerCommit 1 .snapshotIsolation, .set 1 [1] [20],
    .merge 0 5, .push 0, .remove 0, .autoCommit 1, .validate 1, .merge 1 6, .push 1, .remove 1]

def updateLost (s : System) : Bool :=
  match s.stages[0]?, s.stages[1]? with
  | some (Stage.committed tx _ version), some (Stage.committed tx' _ version') =>
    tx.writeset.sharesKey tx'.writeset && decide (tx'.version < version) &&
      decide (tx.version < version')
  | _, _ => false

theorem not_noLostUpdate :
    ∃ s, Execution.exec System.step (.new 0 8) lostUpdate = some s ∧ ¬ s.NoLostUpdate := by
  have hrun : (Execution.exec System.step (.new 0 8) lostUpdate).map updateLost = some true := by
    decide +kernel
  obtain ⟨s, hs, hl⟩ := Execution.exec_check hrun
  refine ⟨s, hs, fun hn => ?_⟩
  unfold updateLost at hl
  split at hl
  · rename_i tx id version tx' id' version' hi hj
    simp only [Bool.and_eq_true, decide_eq_true_eq] at hl
    have := hn 0 1 tx tx' id id' version version' (by decide) hi hj hl.1.1
    omega
  · cases hl

end System

end StupidKv
