import StupidKv.PendingReads

namespace StupidKv
open Std Timeline
set_option autoImplicit true

namespace System

section
variable {s s' : System} {i : Nat}

theorem Settled.merge {tx : TransactionInner} {id version : Nat} {db : Inner} {e : Merge}
    (h : s.Settled) (hi : s.stages[i]? = some (.validated tx id))
    (hv : s.db.timestamp < version) (ht : db.timestamp = version)
    (hq : db.transactionMergeQueue = s.db.transactionMergeQueue.insertIfNew version e)
    (he : e.writeset = tx.writeset) (hd : db.datastore = s.db.datastore) :
    (s.put i db (.merged tx id version tx.writeset.toList)).Settled := by
  have hview : ∀ j, (s.put i db (.merged tx id version tx.writeset.toList)).mergedTx j =
      if i = j then some ⟨version, tx.writeset, tx.writeset.toList, true⟩ else s.mergedTx j :=
    view_put hi db _
  have hnone : s.mergedTx i = none := view_of_stage hi
  have hfree : version ∉ s.db.transactionMergeQueue := by
    intro hm
    obtain ⟨e, he⟩ := Option.isSome_iff_exists.1 (ExtTreeMap.mem_iff_isSome_getElem?.1 hm)
    obtain ⟨j, m, hm, -, hmv, -⟩ := h.queue _ _ he
    have := h.bounded j m hm
    omega
  have hold : ∀ {j m}, s.mergedTx j = some m → i ≠ j := by
    intro j m hm hij
    rw [← hij, hnone] at hm
    cases hm
  have hpushed : ∀ key,
      (s.put i db (.merged tx id version tx.writeset.toList)).pushedWrites key =
        s.pushedWrites key := by
    intro key
    ext p
    constructor
    · rintro ⟨j, m, hm, hmv, hw, hn⟩
      rw [hview] at hm
      split at hm
      · cases hm
        exact absurd (ExtTreeMap.mem_toList_iff_getElem?_eq_some.2 hw) (hn p.2)
      · exact ⟨j, m, hm, hmv, hw, hn⟩
    · rintro ⟨j, m, hm, hmv, hw, hn⟩
      exact ⟨j, m, by rw [hview, if_neg (hold hm), hm], hmv, hw, hn⟩
  have hdb : (s.put i db (.merged tx id version tx.writeset.toList)).db = db := rfl
  exact {
    bounded := by
      intro j m hm
      rw [hview] at hm
      rw [hdb, ht]
      split at hm
      · cases hm
        exact le_rfl
      · exact (h.bounded j m hm).trans hv.le
    distinct := by
      intro j k m m' hm hm' heq
      rw [hview] at hm hm'
      split at hm
      · rename_i hij
        split at hm'
        · rename_i hik
          exact hij.symm.trans hik
        · cases hm
          have := h.bounded k m' hm'
          simp only at heq
          omega
      · split at hm'
        · cases hm'
          have := h.bounded j m hm
          simp only at heq
          omega
        · exact h.distinct j k m m' hm hm' heq
    queue := by
      intro v e' he'
      rw [hdb, hq, ExtTreeMap.getElem?_insertIfNew] at he'
      split at he'
      · rename_i hc
        cases he'
        refine ⟨i, _, by rw [hview, if_pos rfl], rfl, Nat.compare_eq_eq.1 hc.1, he.symm⟩
      · obtain ⟨j, m, hm, hl⟩ := h.queue v e' he'
        exact ⟨j, m, by rw [hview, if_neg (hold hm), hm], hl⟩
    live := by
      intro j m hm hl
      rw [hview] at hm
      rw [hdb, hq]
      split at hm
      · cases hm
        exact ⟨e, SkipMap.getElem?_insertIfNew_self hfree e, he⟩
      · obtain ⟨e', he', hw⟩ := h.live j m hm hl
        refine ⟨e', ?_, hw⟩
        rw [ExtTreeMap.getElem?_insertIfNew, if_neg, he']
        intro hc
        have := Nat.compare_eq_eq.1 hc.1
        have := h.bounded j m hm
        omega
    gone := by
      intro j m hm hl
      rw [hview] at hm
      split at hm
      · cases hm
        cases hl
      · exact h.gone j m hm hl
    pending := by
      intro j m hm
      rw [hview] at hm
      split at hm
      · cases hm
        refine ⟨fun key v hkv => ExtTreeMap.mem_toList_iff_getElem?_eq_some.1 hkv, ?_⟩
        exact Writeset.toList_distinct tx.writeset
      · exact h.pending j m hm
    chains := by
      intro key
      rw [hpushed, hdb, hd]
      exact h.chains key
    absorbed := by
      intro key p hp hn j m v hm hpend
      rw [hpushed] at hp
      rw [hdb, hd] at hn
      rw [hview] at hm
      split at hm
      · cases hm
        obtain ⟨k, m', hm', hmv, -⟩ := hp
        have := h.bounded k m' hm'
        simp only
        omega
      · exact h.absorbed key p hp hn j m v hm hpend
    removed := by
      intro j k m m' hm hm' hl hl' hlt key v v' hw hw'
      rw [hview] at hm hm'
      split at hm
      · cases hm
        cases hl
      · split at hm'
        · cases hm'
          have := h.bounded j m hm
          simp only at hlt
          omega
        · exact h.removed j k m m' hm hm' hl hl' hlt key v v' hw hw' }

theorem pushedWrites_push {tx : TransactionInner} {id version : Nat} {e : Bytes × Option Bytes}
    {pending : List (Bytes × Option Bytes)} (h : s.Settled)
    (hi : s.stages[i]? = some (.merged tx id version (e :: pending))) (db : Inner) (key : Bytes) :
    (s.put i db (.merged tx id version pending)).pushedWrites key =
      if e.1 = key then insert (version, e.2) (s.pushedWrites key) else s.pushedWrites key := by
  have hview : ∀ j, (s.put i db (.merged tx id version pending)).mergedTx j =
      if i = j then some ⟨version, tx.writeset, pending, true⟩ else s.mergedTx j :=
    view_put hi db _
  have hold : s.mergedTx i = some ⟨version, tx.writeset, e :: pending, true⟩ := view_of_stage hi
  obtain ⟨hwrite, hdistinct⟩ := h.pending i _ hold
  have he : tx.writeset[e.1]? = some e.2 := hwrite e.1 e.2 (List.mem_cons_self ..)
  ext p
  constructor
  · rintro ⟨j, m, hm, hmv, hw, hn⟩
    rw [hview] at hm
    split at hm
    · cases hm
      by_cases hk : e.1 = key
      · rw [if_pos hk]
        refine .inl (Prod.ext hmv.symm ?_)
        rw [← hk] at hw
        exact Option.some.inj (hw.symm.trans he)
      · rw [if_neg hk]
        refine ⟨i, _, hold, hmv, hw, ?_⟩
        intro v hv
        rcases List.mem_cons.1 hv with hv | hv
        · exact hk (congrArg Prod.fst hv).symm
        · exact hn v hv
    · have hp : p ∈ s.pushedWrites key := ⟨j, m, hm, hmv, hw, hn⟩
      split
      · exact .inr hp
      · exact hp
  · intro hp
    have hrest : p ∈ s.pushedWrites key →
        p ∈ (s.put i db (.merged tx id version pending)).pushedWrites key := by
      rintro ⟨j, m, hm, hmv, hw, hn⟩
      by_cases hij : i = j
      · subst hij
        rw [hold] at hm
        cases hm
        have hi' := (hview i).trans (if_pos rfl)
        exact ⟨i, _, hi', hmv, hw, fun v hv => hn v (List.mem_cons_of_mem e hv)⟩
      · exact ⟨j, m, by rw [hview, if_neg hij, hm], hmv, hw, hn⟩
    split at hp
    · rename_i hk
      rcases hp with rfl | hp
      · refine ⟨i, _, by rw [hview, if_pos rfl], rfl, hk ▸ he, ?_⟩
        intro v hv
        exact (List.pairwise_cons.1 hdistinct).1 _ hv hk
      · exact hrest hp
    · exact hrest hp

theorem Settled.push {tx : TransactionInner} {id version : Nat} {e : Bytes × Option Bytes}
    {pending : List (Bytes × Option Bytes)} (h : s.Settled)
    (hi : s.stages[i]? = some (.merged tx id version (e :: pending)))
    (hg : s.inOrder (.push i) = true) :
    (s.put i (s.db.writeKey version e) (.merged tx id version pending)).Settled := by
  have hview : ∀ j, (s.put i (s.db.writeKey version e) (.merged tx id version pending)).mergedTx j =
      if i = j then some ⟨version, tx.writeset, pending, true⟩ else s.mergedTx j :=
    view_put hi _ _
  have hold : s.mergedTx i = some ⟨version, tx.writeset, e :: pending, true⟩ := view_of_stage hi
  -- Every merged transaction keeps all but its pending list, which can only lose `e`.
  have hback : ∀ {j m}, (s.put i (s.db.writeKey version e)
      (.merged tx id version pending)).mergedTx j = some m → ∃ m₀, s.mergedTx j = some m₀ ∧
        m₀.version = m.version ∧ m₀.writeset = m.writeset ∧ m₀.live = m.live ∧
        m.pending.Sublist m₀.pending := by
    intro j m hm
    rw [hview] at hm
    split at hm
    · rename_i hij
      subst hij
      cases hm
      exact ⟨⟨version, tx.writeset, e :: pending, true⟩, hold, rfl, rfl, rfl,
        List.sublist_cons_self e pending⟩
    · exact ⟨m, hm, rfl, rfl, rfl, List.Sublist.refl _⟩
  have hchain : ∀ key, chainAt (s.db.writeKey version e).datastore key =
      if e.1 = key then seededPush s.db.datastore[key]? ⟨version, e.2⟩
      else chainAt s.db.datastore key := by
    intro key
    unfold chainAt Inner.writeKey
    simp only [Inner.pushKey_getElem?]
    split <;> rfl
  have hpushed := pushedWrites_push h hi (s.db.writeKey version e)
  have hfresh : ∀ key, e.1 = key → ∀ p ∈ s.pushedWrites key, p.1 ≠ version := by
    rintro key rfl p ⟨j, m, hm, hmv, -, hn⟩ hp
    have hij := h.distinct j i m _ hm hold (hmv.trans hp)
    subst hij
    rw [hold] at hm
    cases hm
    exact hn e.2 (List.mem_cons_self ..)
  exact {
    bounded := by
      intro j m hm
      obtain ⟨m₀, hm₀, hv, -⟩ := hback hm
      rw [← hv]
      exact h.bounded j m₀ hm₀
    distinct := by
      intro j k m m' hm hm' heq
      obtain ⟨m₀, hm₀, hv, -⟩ := hback hm
      obtain ⟨m₁, hm₁, hv', -⟩ := hback hm'
      exact h.distinct j k m₀ m₁ hm₀ hm₁ (by rw [hv, hv', heq])
    queue := by
      intro v e' he'
      obtain ⟨j, m, hm, hl, hv, hw⟩ := h.queue v e' he'
      by_cases hij : i = j
      · subst hij
        rw [hold] at hm
        cases hm
        exact ⟨i, _, (hview i).trans (if_pos rfl), rfl, hv, hw⟩
      · exact ⟨j, m, (hview j).trans ((if_neg hij).trans hm), hl, hv, hw⟩
    live := by
      intro j m hm hl
      obtain ⟨m₀, hm₀, hv, hw, hl₀, -⟩ := hback hm
      rw [← hv, ← hw]
      exact h.live j m₀ hm₀ (hl₀.trans hl)
    gone := by
      intro j m hm hl
      obtain ⟨m₀, hm₀, -, -, hl₀, hsub⟩ := hback hm
      rw [h.gone j m₀ hm₀ (hl₀.trans hl)] at hsub
      exact List.sublist_nil.1 hsub
    pending := by
      intro j m hm
      obtain ⟨m₀, hm₀, -, hw, -, hsub⟩ := hback hm
      obtain ⟨hp, hd⟩ := h.pending j m₀ hm₀
      exact ⟨fun key v hkv => hw ▸ hp key v (hsub.subset hkv), hd.sublist hsub⟩
    chains := by
      intro key
      have hc := h.chains key
      rw [hpushed]
      change CoversFrom 0 (chainAt (s.db.writeKey version e).datastore key) _
      rw [hchain]
      by_cases hk : e.1 = key
      · rw [if_pos hk, if_pos hk]
        refine CoversFrom.seededPush (w := ⟨version, e.2⟩) hc ?_
        intro p hp hn
        exact h.absorbed key p hp hn i _ e.2 hold (hk ▸ List.mem_cons_self ..)
      · rw [if_neg hk, if_neg hk]
        exact hc
    absorbed := by
      intro key p hp hn j m v hm hpend
      obtain ⟨m₀, hm₀, hv, -, -, hsub⟩ := hback hm
      rw [← hv]
      have hpend₀ := hsub.subset hpend
      rw [hpushed] at hp
      change p ∉ (chainAt (s.db.writeKey version e).datastore key).writes at hn
      rw [hchain] at hn
      by_cases hk : e.1 = key
      · rw [if_pos hk] at hp hn
        rcases hp with rfl | hp
        · -- The write was dropped: the guard leaves no older write of another value to come.
          obtain hs | ⟨ch, hch, hshow⟩ :=
            mem_seededPush_or_shown s.db.datastore[key]? ⟨version, e.2⟩
          · exact absurd hs hn
          · simp only [inOrder, hi, hk, hch, Option.any_some, hshow, beq_self_eq_true,
              Bool.not_true, Bool.false_or, List.all_eq_true] at hg
            have hg := hg m₀ (mem_mergedTxs.2 ⟨j, hm₀⟩)
            simp only [Bool.or_eq_true, decide_eq_true_eq, List.all_eq_true] at hg
            rcases hg with hle | hall
            · exact .inl hle
            · have := hall (key, v) hpend₀
              simp only [bne_self_eq_false, Bool.false_eq_true, false_or, beq_iff_eq] at this
              exact .inr this.symm
        · refine h.absorbed key p hp ?_ j m₀ v hm₀ hpend₀
          intro hw
          exact hn (mem_seededPush_of_ne hw (hfresh key hk p hp))
      · rw [if_neg hk] at hp hn
        exact h.absorbed key p hp hn j m₀ v hm₀ hpend₀
    removed := by
      intro j k m m' hm hm' hl hl' hlt key v v' hw hw'
      obtain ⟨m₀, hm₀, hv, hw₀, hl₀, -⟩ := hback hm
      obtain ⟨m₁, hm₁, hv₁, hw₁, hl₁, -⟩ := hback hm'
      exact h.removed j k m₀ m₁ hm₀ hm₁ (hl₀.trans hl) (hl₁.trans hl') (by omega) key v v'
        (hw₀ ▸ hw) (hw₁ ▸ hw') }

theorem Settled.remove {tx : TransactionInner} {id version : Nat} (h : s.Settled)
    (hi : s.stages[i]? = some (.merged tx id version []))
    (hg : s.inOrder (.remove i) = true) :
    (s.put i (s.db.removeMerge version) (.committed tx id version)).Settled := by
  have hview : ∀ j, (s.put i (s.db.removeMerge version) (.committed tx id version)).mergedTx j =
      if i = j then some ⟨version, tx.writeset, [], false⟩ else s.mergedTx j :=
    view_put hi _ _
  have hold : s.mergedTx i = some ⟨version, tx.writeset, [], true⟩ := view_of_stage hi
  -- The transaction itself changes nothing but its being live.
  have hback : ∀ {j m}, (s.put i (s.db.removeMerge version)
      (.committed tx id version)).mergedTx j = some m → ∃ m₀, s.mergedTx j = some m₀ ∧
        m₀.version = m.version ∧ m₀.writeset = m.writeset ∧ m₀.pending = m.pending ∧
        (m.live = true → i ≠ j ∧ m₀ = m) := by
    intro j m hm
    rw [hview] at hm
    split at hm
    · rename_i hij
      subst hij
      cases hm
      exact ⟨⟨version, tx.writeset, [], true⟩, hold, rfl, rfl, rfl, by simp⟩
    · rename_i hij
      exact ⟨m, hm, rfl, rfl, rfl, fun _ => ⟨hij, rfl⟩⟩
  have hforth : ∀ {j m}, s.mergedTx j = some m → ∃ m₁, (s.put i (s.db.removeMerge version)
      (.committed tx id version)).mergedTx j = some m₁ ∧ m₁.version = m.version ∧
        m₁.writeset = m.writeset ∧ m₁.pending = m.pending := by
    intro j m hm
    by_cases hij : i = j
    · subst hij
      rw [hold] at hm
      cases hm
      exact ⟨_, (hview i).trans (if_pos rfl), rfl, rfl, rfl⟩
    · exact ⟨m, (hview j).trans ((if_neg hij).trans hm), rfl, rfl, rfl⟩
  have hpushed : ∀ key, (s.put i (s.db.removeMerge version)
      (.committed tx id version)).pushedWrites key = s.pushedWrites key := by
    intro key
    ext p
    constructor
    · rintro ⟨j, m, hm, hmv, hw, hn⟩
      obtain ⟨m₀, hm₀, hv, hw₀, hp, -⟩ := hback hm
      exact ⟨j, m₀, hm₀, hv.trans hmv, hw₀ ▸ hw, hp ▸ hn⟩
    · rintro ⟨j, m, hm, hmv, hw, hn⟩
      obtain ⟨m₁, hm₁, hv, hw₁, hp⟩ := hforth hm
      exact ⟨j, m₁, hm₁, hv.trans hmv, hw₁ ▸ hw, hp ▸ hn⟩
  exact {
    bounded := by
      intro j m hm
      obtain ⟨m₀, hm₀, hv, -⟩ := hback hm
      rw [← hv]
      exact h.bounded j m₀ hm₀
    distinct := by
      intro j k m m' hm hm' heq
      obtain ⟨m₀, hm₀, hv, -⟩ := hback hm
      obtain ⟨m₁, hm₁, hv', -⟩ := hback hm'
      exact h.distinct j k m₀ m₁ hm₀ hm₁ (by rw [hv, hv', heq])
    queue := by
      intro v e he
      change (s.db.transactionMergeQueue.erase version)[v]? = some e at he
      rw [ExtTreeMap.getElem?_erase] at he
      split at he
      · cases he
      · rename_i hne
        obtain ⟨j, m, hm, hl, hv, hw⟩ := h.queue v e he
        have hij : i ≠ j := by
          rintro rfl
          rw [hold] at hm
          cases hm
          exact hne (Nat.compare_eq_eq.2 hv)
        exact ⟨j, m, (hview j).trans ((if_neg hij).trans hm), hl, hv, hw⟩
    live := by
      intro j m hm hl
      obtain ⟨m₀, hm₀, -, -, -, hsame⟩ := hback hm
      obtain ⟨hij, rfl⟩ := hsame hl
      obtain ⟨e, he, hw⟩ := h.live j m₀ hm₀ hl
      refine ⟨e, ?_, hw⟩
      change (s.db.transactionMergeQueue.erase version)[m₀.version]? = some e
      rw [ExtTreeMap.getElem?_erase, if_neg, he]
      intro hc
      exact hij (h.distinct i j _ m₀ hold hm₀ (Nat.compare_eq_eq.1 hc))
    gone := by
      intro j m hm hl
      rw [hview] at hm
      split at hm
      · cases hm
        rfl
      · exact h.gone j m hm hl
    pending := by
      intro j m hm
      obtain ⟨m₀, hm₀, -, hw, hp, -⟩ := hback hm
      rw [← hw, ← hp]
      exact h.pending j m₀ hm₀
    chains := by
      intro key
      rw [hpushed]
      exact h.chains key
    absorbed := by
      intro key p hp hn j m v hm hpend
      rw [hpushed] at hp
      obtain ⟨m₀, hm₀, hv, -, hp₀, -⟩ := hback hm
      rw [← hv]
      exact h.absorbed key p hp hn j m₀ v hm₀ (hp₀ ▸ hpend)
    removed := by
      intro j k m m' hm hm' hl hl' hlt key v v' hw hw'
      obtain ⟨m₁, hm₁, -, -, -, hsame⟩ := hback hm'
      obtain ⟨hik, rfl⟩ := hsame hl'
      rw [hview] at hm
      split at hm
      · -- The guard: whatever older transaction stays in the queue wrote the same.
        cases hm
        simp only [inOrder, hi, List.all_eq_true] at hg
        have hg := hg m₁ (mem_mergedTxs.2 ⟨k, hm₁⟩)
        have hle : ¬ version ≤ m₁.version := Nat.not_le.2 hlt
        simp only [hl', Bool.not_true, hle, decide_false, Bool.false_or, List.all_eq_true] at hg
        have hall := hg (key, v') (ExtTreeMap.mem_toList_iff_getElem?_eq_some.2 hw')
        simp only at hw
        simp only [hw, Option.all_some, beq_iff_eq] at hall
        exact hall.symm
      · exact h.removed j k m m₁ hm hm₁ hl hl' hlt key v v' hw hw' }

theorem Settled.step {a : Action} (h : s.Settled) (hg : s.inOrder a = true)
    (hs : s.step a = some s') : s'.Settled := by
  cases step_cases hs with
  | registerVersion map => exact h.quiet (view_concat _ rfl) rfl rfl rfl
  | registerCommit i mode version ho map => exact h.quiet (view_put_same ho _ rfl) rfl rfl rfl
  | work a i tx tx' ho => exact h.quiet (view_put_same ho _ rfl) rfl rfl rfl
  | autoCommit i tx ho => exact h.quiet (view_put_same ho _ rfl) rfl rfl rfl
  | pass i tx entry id ho hv => exact h.quiet (view_put_same ho _ rfl) rfl rfl rfl
  | refuse i tx entry id e ho => exact h.quiet (view_put_same ho _ rfl) rfl rfl rfl
  | merge i now version tx id ho hv => exact h.merge ho hv rfl rfl rfl rfl
  | push i tx id version e pending ho => exact h.push ho hg
  | remove i tx id version ho => exact h.remove ho hg

theorem Settled.coarseStep {a : CoarseAction} (h : s.Settled) (hg : s.coarseInOrder a = true)
    (hs : s.coarseStep a = some s') : s'.Settled := by
  have hg : ∀ b ∈ s.coarseSteps a, s.inOrder b = true := List.all_eq_true.1 hg
  cases a with
  | begin mode =>
    obtain ⟨t, ht, hs⟩ := Option.bind_eq_some_iff.1 hs
    obtain ⟨u, hu, hs⟩ := Option.bind_eq_some_iff.1 hs
    cases hs
    exact (h.step rfl ht).step rfl hu
  | commit i =>
    obtain ⟨t, ht, hs⟩ := Option.bind_eq_some_iff.1 hs
    obtain ⟨u, hu, hs⟩ := Option.bind_eq_some_iff.1 hs
    cases hs
    exact (h.step rfl ht).step rfl hu
  | _ =>
    obtain ⟨t, ht, hs⟩ := Option.bind_eq_some_iff.1 hs
    cases hs
    exact h.step (hg _ (List.mem_singleton.2 rfl)) ht

end

/-- Readers meet the newest merged write as long as the commits of a key finish in order. -/
theorem readsNewest_of_inOrder (referenceUnix resetThreshold : Nat) {s : System}
    (h : Execution.Run coarseStep (fun s a => s.coarseInOrder a = true)
      (.new referenceUnix resetThreshold) s) : s.ReadsNewest := by
  have hsettled : s.Settled := by
    refine h.invariant ?_ (Settled.new referenceUnix resetThreshold)
    intro s a t hs hg ht
    exact hs.coarseStep hg ht
  exact hsettled.readsNewest

/-- The second commit of the key overtakes the first in the datastore, not in the merge queue. -/
def overtaking : List CoarseAction :=
  [.begin .snapshotIsolation, .set 0 [1] [10], .commit 0, .merge 0 5, .begin .snapshotIsolation,
    .set 1 [1] [20], .commit 1, .merge 1 9, .push 1, .begin .snapshotIsolation, .push 0,
    .remove 0, .remove 1]

/-- The last reader, at the version of the newest commit, is answered `value`. -/
def answers (value : Option Bytes) (s : System) : Bool :=
  s.stages[2]?.any fun st => st.snapshot == 9 && s.db.fetchInDatastore [1] 9 == value

theorem readsNewest_overtaking :
    ∃ s, Execution.Run coarseStep (fun s a => s.coarseInOrder a = true) (.new 0 8) s ∧
      answers (some [20]) s = true ∧ s.ReadsNewest := by
  have hrun : (Execution.exec (fun s a => if s.coarseInOrder a then coarseStep s a else none)
      (.new 0 8) overtaking).map (answers (some [20])) = some true := by decide +kernel
  obtain ⟨s, hs, hb⟩ := Execution.exec_check hrun
  exact ⟨s, .of_guarded hs, hb, readsNewest_of_inOrder 0 8 (.of_guarded hs)⟩

/-- The second commit of the key leaves the merge queue while the first stands there. -/
def staleMerge : List CoarseAction :=
  [.begin .snapshotIsolation, .set 0 [1] [10], .commit 0, .merge 0 5, .begin .snapshotIsolation,
    .set 1 [1] [20], .commit 1, .merge 1 9, .push 1, .remove 1, .begin .snapshotIsolation]

def newestIs (version : Nat) (value : Option Bytes) (s : System) : Bool :=
  (s.mergedTxs.any fun m => m.version == version && m.writeset[([1] : Bytes)]? == some value) &&
    s.mergedTxs.all fun m => m.version != version || m.writeset[([1] : Bytes)]? == some value

theorem not_readsNewest :
    ¬ ∀ s, Execution.Run coarseStep (fun _ _ => True) (.new 0 8) s → s.ReadsNewest := by
  intro hall
  have hrun : (Execution.exec coarseStep (.new 0 8) staleMerge).map
      (fun s => answers (some [10]) s && newestIs 9 (some [20]) s) = some true := by decide +kernel
  obtain ⟨s, hs, hb⟩ := Execution.exec_check hrun
  obtain ⟨hans, hnew⟩ := Bool.and_eq_true_iff.1 hb
  obtain ⟨st, hst, hst'⟩ := (Option.any_eq_true _ _).1 hans
  simp only [Bool.and_eq_true, beq_iff_eq] at hst'
  obtain ⟨hq, hfetch⟩ := hst'
  obtain ⟨value, hvis, hval, -⟩ := hall s (.of_exec hs) 2 st hst [1]
  rw [hq] at hvis hval
  obtain rfl : some [10] = value := hfetch.symm.trans hval
  simp only [newestIs, Bool.and_eq_true, List.any_eq_true, List.all_eq_true, Bool.or_eq_true,
    beq_iff_eq, bne_iff_ne] at hnew
  obtain ⟨⟨m, hm, hmv, hmw⟩, hsame⟩ := hnew
  obtain ⟨i, hi⟩ := mem_mergedTxs.1 hm
  have hwrote : (9, some [20]) ∈ s.mergedWrites [1] := ⟨i, m, hi, hmv, hmw⟩
  cases hvis with
  | @written t _ ht htq hlast =>
    have h9 : t = 9 := Nat.le_antisymm htq (hlast 9 _ hwrote le_rfl)
    obtain ⟨j, m', hm', hv', hw'⟩ := ht
    rcases hsame m' (mem_mergedTxs.2 ⟨j, hm'⟩) with hne | heq
    · exact hne (hv'.trans h9)
    · rw [heq] at hw'
      simp at hw'

end System

end StupidKv
