import StupidKv.Interleaving
import StupidKv.History

namespace StupidKv
open Std Timeline
set_option autoImplicit true

/-- A transaction that executed `atomic_merge`; it is live while it stands in the merge queue. -/
structure MergedTx where
  version : Nat
  writeset : Writeset
  pending : List (Bytes × Option Bytes)
  live : Bool

def Stage.mergedTx : Stage → Option MergedTx
  | .merged tx _ version pending => some ⟨version, tx.writeset, pending, true⟩
  | .committed tx _ version => some ⟨version, tx.writeset, [], false⟩
  | _ => none

/-- The snapshot version of a transaction. -/
def Stage.snapshot : Stage → Nat
  | .registered version => version
  | .active tx => tx.version
  | .queued tx _ _ => tx.version
  | .validated tx _ => tx.version
  | .merged tx _ _ _ => tx.version
  | .committed tx _ _ => tx.version
  | .refused tx _ => tx.version

/-- The steps at the granularity of readers: a begin is one step, and so are `auto_commit` and
the validation together. -/
inductive CoarseAction where
  | begin (mode : IsolationLevel)
  | get (i : Nat) (key : Bytes)
  | set (i : Nat) (key val : Bytes)
  | del (i : Nat) (key : Bytes)
  | commit (i : Nat)
  | merge (i now : Nat)
  | push (i : Nat)
  | remove (i : Nat)

namespace System

def mergedTx (s : System) : Nat → Option MergedTx := s.view Stage.mergedTx

/-- The timeline of a key: the writes of all merged transactions. -/
def mergedWrites (s : System) (key : Bytes) : Set (Nat × Option Bytes) :=
  {p | ∃ i m, s.mergedTx i = some m ∧ m.version = p.1 ∧ m.writeset[key]? = some p.2}

/-- Every transaction reads, under every key, what the newest merged transaction in its snapshot
wrote there. -/
def ReadsNewest (s : System) : Prop :=
  ∀ (i : Nat) st, s.stages[i]? = some st → ∀ key, ∃ value,
    Visible (s.mergedWrites key) st.snapshot value ∧
    s.db.fetchInDatastore key st.snapshot = value ∧
    s.db.existsInDatastore key st.snapshot = value.isSome

def coarseSteps (s : System) : CoarseAction → List Action
  | .begin mode => [.registerVersion, .registerCommit s.stages.length mode]
  | .get i key => [.get i key]
  | .set i key val => [.set i key val]
  | .del i key => [.del i key]
  | .commit i => [.autoCommit i, .validate i]
  | .merge i now => [.merge i now]
  | .push i => [.push i]
  | .remove i => [.remove i]

def coarseStep (s : System) (a : CoarseAction) : Option System :=
  Execution.exec System.step s (s.coarseSteps a)

def mergedTxs (s : System) : List MergedTx := s.stages.filterMap Stage.mergedTx

/-- The writes of a key reach its chain, and leave the merge queue, in the order of their versions
where that matters: a write the chain already shows, which `push` drops, has no older write of
another value still to come, and the transaction that leaves the queue leaves no older one there
that wrote something else. -/
def inOrder (s : System) : Action → Bool
  | .push i =>
    match s.stages[i]? with
    | some (.merged _ _ version (e :: _)) =>
      !(s.db.datastore[e.1]?.any fun ch => ch.fetchVersion version == e.2) ||
        s.mergedTxs.all fun m => version ≤ m.version ||
          m.pending.all fun f => f.1 != e.1 || f.2 == e.2
    | _ => true
  | .remove i =>
    match s.stages[i]? with
    | some (.merged tx _ version _) =>
      s.mergedTxs.all fun m => !m.live || version ≤ m.version ||
        m.writeset.toList.all fun e => tx.writeset[e.1]?.all (· == e.2)
    | _ => true
  | _ => true

def coarseInOrder (s : System) (a : CoarseAction) : Bool := (s.coarseSteps a).all s.inOrder

/-- The writes of a key that have reached its chain. -/
def pushedWrites (s : System) (key : Bytes) : Set (Nat × Option Bytes) :=
  {p | ∃ i m, s.mergedTx i = some m ∧ m.version = p.1 ∧ m.writeset[key]? = some p.2 ∧
    ∀ v, (key, v) ∉ m.pending}

structure Settled (s : System) : Prop where
  bounded : ∀ i m, s.mergedTx i = some m → m.version ≤ s.db.timestamp
  distinct : ∀ i j m m', s.mergedTx i = some m → s.mergedTx j = some m' →
    m.version = m'.version → i = j
  queue : ∀ v e, s.db.transactionMergeQueue[v]? = some e →
    ∃ i m, s.mergedTx i = some m ∧ m.live = true ∧ m.version = v ∧ m.writeset = e.writeset
  live : ∀ i m, s.mergedTx i = some m → m.live = true →
    ∃ e, s.db.transactionMergeQueue[m.version]? = some e ∧ e.writeset = m.writeset
  gone : ∀ i m, s.mergedTx i = some m → m.live = false → m.pending = []
  pending : ∀ i m, s.mergedTx i = some m → (∀ key v, (key, v) ∈ m.pending →
    m.writeset[key]? = some v) ∧ m.pending.Pairwise fun e f => e.1 ≠ f.1
  chains : Covers 0 s.db.datastore s.pushedWrites
  absorbed : ∀ key p, p ∈ s.pushedWrites key → p ∉ (chainAt s.db.datastore key).writes →
    ∀ i m v, s.mergedTx i = some m → (key, v) ∈ m.pending → p.1 ≤ m.version ∨ p.2 = v
  removed : ∀ i j m m', s.mergedTx i = some m → s.mergedTx j = some m' → m.live = false →
    m'.live = true → m'.version < m.version → ∀ (key : Bytes) v v', m.writeset[key]? = some v →
    m'.writeset[key]? = some v' → v' = v

end System

theorem Inner.pendingWrite_none {db : Inner} (h : db.pendingWrite key q = none)
    (hm : db.transactionMergeQueue[v]? = some e) (hv : v ≤ q) : e.writeset[key]? = none := by
  unfold pendingWrite at h
  have hmem := ExtTreeMap.mem_toList_iff_getElem?_eq_some.2 hm
  exact List.findSome?_eq_none_iff.1 h (v, e) (by simp [hmem, hv])

theorem Inner.pendingWrite_some {db : Inner} (h : db.pendingWrite key q = some x) :
    ∃ v e, db.transactionMergeQueue[v]? = some e ∧ v ≤ q ∧ e.writeset[key]? = some x ∧
      ∀ v' e', db.transactionMergeQueue[v']? = some e' → v' ≤ q → e'.writeset[key]? ≠ none →
        v' ≤ v := by
  unfold pendingWrite at h
  obtain ⟨l₁, ⟨v, e⟩, l₂, hl, hx, hn⟩ := List.findSome?_eq_some_iff.1 h
  have hmem : ∀ {v e}, (v, e) ∈ (db.transactionMergeQueue.toList.filter fun e => e.1 ≤ q) ↔
      db.transactionMergeQueue[v]? = some e ∧ v ≤ q := by
    intro v e
    rw [List.mem_filter, ExtTreeMap.mem_toList_iff_getElem?_eq_some, decide_eq_true_eq]
  have hsorted : (l₁ ++ (v, e) :: l₂).Pairwise fun a b => b.1 < a.1 := by
    rw [← hl, List.pairwise_reverse]
    exact (SkipMap.sorted_toList _).sublist List.filter_sublist
  have hve := hmem.1 (List.mem_reverse.1 (hl ▸ List.mem_append_right l₁ (List.mem_cons_self ..)))
  refine ⟨v, e, hve.1, hve.2, hx, ?_⟩
  intro v' e' he' hv' hne
  have hm : (v', e') ∈ l₁ ++ (v, e) :: l₂ := hl ▸ List.mem_reverse.2 (hmem.2 ⟨he', hv'⟩)
  rcases List.mem_append.1 hm with hm | hm
  · exact absurd (hn _ hm) hne
  · rcases List.mem_cons.1 hm with hm | hm
    · cases hm
      exact le_rfl
    · exact ((List.pairwise_cons.1 (List.pairwise_append.1 hsorted).2.1).1 _ hm).le

namespace System

theorem mem_mergedTxs {s : System} : m ∈ s.mergedTxs ↔ ∃ i, s.mergedTx i = some m := by
  unfold mergedTxs mergedTx view
  rw [List.mem_filterMap]
  constructor
  · rintro ⟨st, hst, hm⟩
    obtain ⟨i, hi⟩ := List.mem_iff_getElem?.1 hst
    exact ⟨i, Processes.look_eq_some.2 ⟨st, hi, hm⟩⟩
  · rintro ⟨i, hi⟩
    obtain ⟨st, hst, hm⟩ := Processes.look_eq_some.1 hi
    exact ⟨st, List.mem_of_getElem? hst, hm⟩

/-- A settled state answers every reader with the newest merged write, at any snapshot. -/
theorem Settled.fetch {s : System} (h : s.Settled) (key : Bytes) (q : Nat) :
    Visible (s.mergedWrites key) q (s.db.fetchInDatastore key q) := by
  have hsub : s.pushedWrites key ⊆ s.mergedWrites key := by
    rintro p ⟨i, m, hm, hv, hw, -⟩
    exact ⟨i, m, hm, hv, hw⟩
  have hchain := (h.chains key).visible q (Nat.zero_le q)
  -- A merged write that has not reached the chain is still in the queue.
  have hqueued : ∀ t y, (t, y) ∈ s.mergedWrites key → (t, y) ∉ s.pushedWrites key →
      ∃ e, s.db.transactionMergeQueue[t]? = some e ∧ e.writeset[key]? = some y := by
    rintro t y ⟨i, m, hm, rfl, hw⟩ hn
    cases hlive : m.live with
    | true =>
      obtain ⟨e, he, hew⟩ := h.live i m hm hlive
      exact ⟨e, he, hew ▸ hw⟩
    | false =>
      refine absurd ⟨i, m, hm, rfl, hw, ?_⟩ hn
      simp [h.gone i m hm hlive]
  unfold Inner.fetchInDatastore
  cases hp : s.db.pendingWrite key q with
  | none =>
    have hfetch : (s.db.datastore[key]?.bind fun e => e.fetchVersion q) =
        (chainAt s.db.datastore key).fetchVersion q := by
      unfold chainAt
      cases s.db.datastore[key]? <;> rfl
    rw [hfetch]
    refine hchain.congr fun t y ht => ⟨fun hm => hsub hm, fun hm => ?_⟩
    by_contra hn
    obtain ⟨e, he, hw⟩ := hqueued t y hm hn
    rw [Inner.pendingWrite_none hp he ht] at hw
    cases hw
  | some x =>
    obtain ⟨v, e, he, hvq, hx, hnewest⟩ := Inner.pendingWrite_some hp
    obtain ⟨i, m, hm, hlive, rfl, hmw⟩ := h.queue v e he
    have hmx : (m.version, x) ∈ s.mergedWrites key := ⟨i, m, hm, rfl, hmw ▸ hx⟩
    have hbelow : ∀ t y, (t, y) ∈ s.mergedWrites key → (t, y) ∉ s.pushedWrites key → t ≤ q →
        t ≤ m.version := by
      intro t y ht hn htq
      obtain ⟨e', he', hw'⟩ := hqueued t y ht hn
      exact hnewest t e' he' htq (by simp [hw'])
    generalize (chainAt s.db.datastore key).fetchVersion q = y at hchain
    cases hchain with
    | unwritten hn =>
      refine .written hmx hvq fun t z ht htq => hbelow t z ht (fun hp => ?_) htq
      exact absurd (hn t z hp) (Nat.not_lt.2 htq)
    | @written t _ hy htq hlast =>
      by_cases hle : t ≤ m.version
      · refine .written hmx hvq fun t' z ht' htq' => ?_
        by_cases hp : (t', z) ∈ s.pushedWrites key
        · exact (hlast t' z hp htq').trans hle
        · exact hbelow t' z ht' hp htq'
      · -- The newest pushed write overtook the pending one, so its transaction has left the queue.
        have hlt : m.version < t := Nat.not_le.1 hle
        obtain ⟨j, m', hm', rfl, hw', -⟩ := id hy
        have hgone : m'.live = false := by
          by_contra hl
          obtain ⟨e', he', hew'⟩ := h.live j m' hm' (Bool.not_eq_false _ ▸ hl)
          exact hle (hnewest _ e' he' htq (by simp [hew', hw']))
        have hxy := h.removed j i m' m hm' hm hgone hlive hlt key _ x hw' (hmw ▸ hx)
        subst hxy
        refine .written (hsub hy) htq fun t' z ht' htq' => ?_
        by_cases hp : (t', z) ∈ s.pushedWrites key
        · exact hlast t' z hp htq'
        · exact (hbelow t' z ht' hp htq').trans hlt.le

theorem Settled.readsNewest {s : System} (h : s.Settled) : s.ReadsNewest := by
  intro i st hi key
  exact ⟨_, h.fetch key st.snapshot, rfl, s.db.existsInDatastore_eq key st.snapshot⟩

theorem Settled.new (start threshold : Nat) : (System.new start threshold).Settled where
  bounded := by simp [System.new, mergedTx, view]
  distinct := by simp [System.new, mergedTx, view]
  queue := by simp [System.new, Inner.new]
  live := by simp [System.new, mergedTx, view]
  gone := by simp [System.new, mergedTx, view]
  pending := by simp [System.new, mergedTx, view]
  chains := by
    intro key
    have he : pushedWrites (System.new start threshold) key = ∅ := by
      ext p
      simp [pushedWrites, System.new, mergedTx, view]
    rw [he]
    simpa [System.new, Inner.new, chainAt] using CoversFrom.empty 0
  absorbed := by
    rintro key p ⟨i, m, hm, -⟩
    simp [System.new, mergedTx, view] at hm
  removed := by simp [System.new, mergedTx, view]

section
variable {s s' : System} {i : Nat}

theorem Settled.quiet (h : s.Settled) (hm : ∀ j, s'.mergedTx j = s.mergedTx j)
    (ht : s'.db.timestamp = s.db.timestamp)
    (hq : s'.db.transactionMergeQueue = s.db.transactionMergeQueue)
    (hd : s'.db.datastore = s.db.datastore) : s'.Settled := by
  have hf : s'.mergedTx = s.mergedTx := funext hm
  have hp : s'.pushedWrites = s.pushedWrites := by
    funext key
    simp only [pushedWrites, hf]
  exact {
    bounded := by
      rw [hf, ht]
      exact h.bounded
    distinct := by
      rw [hf]
      exact h.distinct
    queue := by
      rw [hf, hq]
      exact h.queue
    live := by
      rw [hf, hq]
      exact h.live
    gone := by
      rw [hf]
      exact h.gone
    pending := by
      rw [hf]
      exact h.pending
    chains := by
      rw [hp, hd]
      exact h.chains
    absorbed := by
      rw [hf, hp, hd]
      exact h.absorbed
    removed := by
      rw [hf]
      exact h.removed }

end

end System

end StupidKv
