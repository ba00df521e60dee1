import StupidKv.Lib.Execution
import StupidKv.Lib.Processes
import StupidKv.Inner

namespace StupidKv
open Std Processes
set_option autoImplicit true

/-- Where a commit stands in `auto_commit`, and behind it. -/
inductive SlotStage where
  | load
  | insert (version : Nat)
  | bump (version : Nat)
  | returned (version : Nat)
  | done
deriving DecidableEq, Repr

/-- The commit queue, with the id of the commit in every slot. The versions inserted and returned
so far are history, in their order. -/
structure CommitSlots where
  transactionCommitId : Nat
  transactionCommitQueue : SkipMap Nat Nat
  stages : List SlotStage
  inserted : List Nat
  issued : List Nat

inductive SlotAction where
  | commit
  | advance (i : Nat)
  /-- A conflict is found, and the commit takes its own entry out. -/
  | conflict (i : Nat)
  /-- `run_cleanup_inner` removes an entry below an `oldest` that is no later than the commit id. -/
  | cleanup (version : Nat)

namespace CommitSlots

def new : CommitSlots := ⟨0, ∅, [], [], []⟩

/-- One atomic step of `auto_commit`. -/
def stageStep (s : CommitSlots) (i : Nat) : SlotStage → Option CommitSlots
  | .load => some { s with stages := s.stages.set i (.insert (s.transactionCommitId + 1)) }
  | .insert version =>
    match s.transactionCommitQueue[version]? with
    | none =>
      some { s with
        transactionCommitQueue := s.transactionCommitQueue.insert version i
        inserted := s.inserted ++ [version]
        stages := s.stages.set i (.bump version) }
    | some id =>
      if id = i then some { s with stages := s.stages.set i (.bump version) }
      else some { s with stages := s.stages.set i .load }
  | .bump version =>
    some { s with
      transactionCommitId := s.transactionCommitId + 1
      issued := s.issued ++ [version]
      stages := s.stages.set i (.returned version) }
  | .returned _ | .done => none

def step (s : CommitSlots) : SlotAction → Option CommitSlots
  | .commit => some { s with stages := s.stages ++ [.load] }
  | .advance i => do
    let stage ← s.stages[i]?
    s.stageStep i stage
  | .conflict i =>
    match s.stages[i]? with
    | some (.returned version) =>
      some { s with
        transactionCommitQueue := s.transactionCommitQueue.erase version
        stages := s.stages.set i .done }
    | _ => none
  | .cleanup version =>
    if version < s.transactionCommitId then
      some { s with transactionCommitQueue := s.transactionCommitQueue.erase version }
    else none

/-- No version is issued twice. A version is inserted above all those inserted before, so that
each of them lies in the scan range of its commit or at or below the snapshot of it. -/
structure InOrder (s : CommitSlots) : Prop where
  once : s.issued.Nodup
  above : ∀ before version after, s.inserted = before ++ version :: after → ∀ m ∈ before,
    m < version ∧ ∀ commit, m ≤ commit ∨ commit + 1 ≤ m ∧ m < version

/-- A vacant slot is taken only while the commit id is the one it was computed from. -/
def current (s : CommitSlots) : SlotAction → Bool
  | .advance i =>
    match s.stages[i]? with
    | some (.insert version) =>
      s.transactionCommitQueue[version]?.isSome || decide (version = s.transactionCommitId + 1)
    | _ => true
  | _ => true

/-- At most one commit has inserted its entry and not yet moved the commit id on. -/
structure Slotted (s : CommitSlots) : Prop where
  ascending : s.inserted.Pairwise (· < ·)
  settled : ∀ v ∈ s.inserted, v ≤ s.transactionCommitId ∨
    ∃ i : Nat, s.stages[i]? = some (.bump v)
  pending : ∀ (i : Nat) v, s.stages[i]? = some (.bump v) →
    v = s.transactionCommitId + 1 ∧ s.transactionCommitQueue[v]? = some i
  owned : ∀ v i : Nat, s.transactionCommitQueue[v]? = some i →
    s.stages[i]? = some (.bump v) ∨ s.stages[i]? = some (.returned v)
  past : ∀ (i : Nat) v, s.stages[i]? = some (.returned v) → v ≤ s.transactionCommitId
  issuedPast : ∀ v ∈ s.issued, v ≤ s.transactionCommitId
  once : s.issued.Nodup

section
variable {s t : CommitSlots} {a : SlotAction} {i : Nat}

theorem Slotted.new : Slotted .new := by
  constructor <;> simp [CommitSlots.new]

theorem Slotted.inOrder (h : s.Slotted) : s.InOrder where
  once := h.once
  above := by
    intro before version after he m hm
    have hp := h.ascending
    rw [he] at hp
    have hlt := (List.pairwise_append.1 hp).2.2 m hm version (List.mem_cons_self ..)
    refine ⟨hlt, fun commit => ?_⟩
    rcases Nat.lt_or_ge commit m with hc | hc
    · exact .inr ⟨hc, hlt⟩
    · exact .inl hc

theorem Slotted.move (h : s.Slotted) (hi : s.stages[i]? = some x) (hx : ∀ v, x ≠ .bump v)
    (hy : ∀ v, y ≠ .bump v ∧ y ≠ .returned v)
    (hown : ∀ w : Nat, s.transactionCommitQueue[w]? ≠ some i) :
    Slotted { s with stages := s.stages.set i y } where
  ascending := h.ascending
  settled := by
    intro v hv
    rcases h.settled v hv with hle | ⟨j, hj⟩
    · exact .inl hle
    · refine .inr ⟨j, getElem?_set_ne hj ?_ y⟩
      rintro rfl
      rw [hi] at hj
      exact hx v (Option.some.inj hj)
  pending := by
    intro j v hj
    rcases getElem?_set_cases hj with ⟨-, rfl⟩ | ⟨-, hj⟩
    · exact absurd rfl (hy v).1
    · exact h.pending j v hj
  owned := by
    intro v j hj
    have hne : i ≠ j := by
      rintro rfl
      exact hown v hj
    rcases h.owned v j hj with hs | hs
    · exact .inl (getElem?_set_ne hs hne y)
    · exact .inr (getElem?_set_ne hs hne y)
  past := by
    intro j v hj
    rcases getElem?_set_cases hj with ⟨-, rfl⟩ | ⟨-, hj⟩
    · exact absurd rfl (hy v).2
    · exact h.past j v hj
  issuedPast := h.issuedPast
  once := h.once

theorem Slotted.not_owner (h : s.Slotted) (hi : s.stages[i]? = some x)
    (hx : ∀ v, x ≠ .bump v ∧ x ≠ .returned v) (w : Nat) :
    s.transactionCommitQueue[w]? ≠ some i := by
  intro hw
  rcases h.owned w i hw with hs | hs
  · rw [hi] at hs
    exact (hx w).1 (Option.some.inj hs)
  · rw [hi] at hs
    exact (hx w).2 (Option.some.inj hs)

theorem Slotted.take (h : s.Slotted) (hi : s.stages[i]? = some (.insert v))
    (hn : s.transactionCommitQueue[v]? = none) (hv : v = s.transactionCommitId + 1) :
    Slotted { s with
      transactionCommitQueue := s.transactionCommitQueue.insert v i
      inserted := s.inserted ++ [v]
      stages := s.stages.set i (.bump v) } := by
  have hnone : ∀ (j : Nat) w, s.stages[j]? ≠ some (.bump w) := by
    intro j w hj
    obtain ⟨rfl, hq⟩ := h.pending j w hj
    rw [← hv, hn] at hq
    cases hq
  have hself : (s.stages.set i (.bump v))[i]? = some (.bump v) := getElem?_set_at hi _
  have hbelow : ∀ w ∈ s.inserted, w < v := by
    intro w hw
    rcases h.settled w hw with hle | ⟨j, hj⟩
    · omega
    · exact absurd hj (hnone j w)
  exact {
    ascending := by
      refine List.pairwise_append.2 ⟨h.ascending, List.pairwise_singleton _ _, ?_⟩
      intro w hw u hu
      rw [List.mem_singleton.1 hu]
      exact hbelow w hw
    settled := by
      intro w hw
      rcases List.mem_append.1 hw with hw | hw
      · rcases h.settled w hw with hle | ⟨j, hj⟩
        · exact .inl hle
        · exact absurd hj (hnone j w)
      · rw [List.mem_singleton.1 hw]
        exact .inr ⟨i, hself⟩
    pending := by
      intro j w hj
      rcases getElem?_set_cases hj with ⟨rfl, hw⟩ | ⟨-, hj⟩
      · cases hw
        exact ⟨hv, by simp⟩
      · exact absurd hj (hnone j w)
    owned := by
      intro w j hj
      rw [ExtTreeMap.getElem?_insert] at hj
      by_cases hw : v = w
      · subst hw
        rw [if_pos ReflCmp.compare_self, Option.some.injEq] at hj
        subst hj
        exact .inl hself
      · rw [if_neg fun he => hw (LawfulEqCmp.eq_of_compare he)] at hj
        have hne : i ≠ j := by
          rintro rfl
          rcases h.owned w i hj with hs | hs
          · exact hnone i w hs
          · rw [hi] at hs
            cases hs
        rcases h.owned w j hj with hs | hs
        · exact absurd hs (hnone j w)
        · exact .inr (getElem?_set_ne hs hne _)
    past := by
      intro j w hj
      rcases getElem?_set_cases hj with ⟨-, hw⟩ | ⟨-, hj⟩
      · cases hw
      · exact h.past j w hj
    issuedPast := h.issuedPast
    once := h.once }

theorem Slotted.bump (h : s.Slotted) (hi : s.stages[i]? = some (.bump v)) :
    Slotted { s with
      transactionCommitId := s.transactionCommitId + 1
      issued := s.issued ++ [v]
      stages := s.stages.set i (.returned v) } := by
  obtain ⟨hv, hq⟩ := h.pending i v hi
  have hsole : ∀ (j : Nat) w, s.stages[j]? = some (.bump w) → i = j := by
    intro j w hj
    obtain ⟨hw, hq'⟩ := h.pending j w hj
    rw [hw, ← hv, hq] at hq'
    exact Option.some.inj hq'
  have hself : (s.stages.set i (.returned v))[i]? = some (.returned v) := getElem?_set_at hi _
  exact {
    ascending := h.ascending
    settled := by
      intro w hw
      refine .inl ?_
      rcases h.settled w hw with hle | ⟨j, hj⟩
      · exact hle.trans (Nat.le_succ _)
      · exact (h.pending j w hj).1.le
    pending := by
      intro j w hj
      rcases getElem?_set_cases hj with ⟨-, hw⟩ | ⟨hij, hj⟩
      · cases hw
      · exact absurd (hsole j w hj) hij
    owned := by
      intro w j hj
      by_cases hij : i = j
      · subst hij
        rcases h.owned w i hj with hs | hs
        · rw [hi] at hs
          cases hs
          exact .inr hself
        · rw [hi] at hs
          cases hs
      · rcases h.owned w j hj with hs | hs
        · exact .inl (getElem?_set_ne hs hij _)
        · exact .inr (getElem?_set_ne hs hij _)
    past := by
      intro j w hj
      rcases getElem?_set_cases hj with ⟨-, hw⟩ | ⟨-, hj⟩
      · cases hw
        exact hv.le
      · exact (h.past j w hj).trans (Nat.le_succ _)
    issuedPast := by
      intro w hw
      rcases List.mem_append.1 hw with hw | hw
      · exact (h.issuedPast w hw).trans (Nat.le_succ _)
      · rw [List.mem_singleton.1 hw]
        exact hv.le
    once := by
      refine List.nodup_append.2 ⟨h.once, List.nodup_singleton v, ?_⟩
      intro w hw u hu he
      rw [List.mem_singleton.1 hu] at he
      have hle := h.issuedPast w hw
      omega }

theorem Slotted.erase (h : s.Slotted) (hv : v ≤ s.transactionCommitId) :
    Slotted { s with transactionCommitQueue := s.transactionCommitQueue.erase v } where
  ascending := h.ascending
  settled := h.settled
  pending := by
    intro j w hj
    obtain ⟨hw, hq⟩ := h.pending j w hj
    have hne : v ≠ w := by omega
    refine ⟨hw, ?_⟩
    rw [ExtTreeMap.getElem?_erase, if_neg fun he => hne (LawfulEqCmp.eq_of_compare he), hq]
  owned := by
    intro w j hj
    rw [ExtTreeMap.getElem?_erase] at hj
    split at hj
    · cases hj
    · exact h.owned w j hj
  past := h.past
  issuedPast := h.issuedPast
  once := h.once

theorem Slotted.commit (h : s.Slotted) : Slotted { s with stages := s.stages ++ [.load] } where
  ascending := h.ascending
  settled := by
    intro v hv
    rcases h.settled v hv with hle | ⟨j, hj⟩
    · exact .inl hle
    · exact .inr ⟨j, getElem?_concat_of hj _⟩
  pending := by
    intro j v hj
    rcases getElem?_concat_cases hj with hj | ⟨-, hv⟩
    · exact h.pending j v hj
    · cases hv
  owned := by
    intro v j hj
    rcases h.owned v j hj with hs | hs
    · exact .inl (getElem?_concat_of hs _)
    · exact .inr (getElem?_concat_of hs _)
  past := by
    intro j v hj
    rcases getElem?_concat_cases hj with hj | ⟨-, hv⟩
    · exact h.past j v hj
    · cases hv
  issuedPast := h.issuedPast
  once := h.once

theorem Slotted.step (h : s.Slotted) (hg : s.current a = true) (hs : s.step a = some t) :
    t.Slotted := by
  cases a with
  | commit =>
    cases hs
    exact h.commit
  | advance i =>
    obtain ⟨x, hi, hs⟩ := Option.bind_eq_some_iff.1 hs
    cases x with
    | load =>
      cases hs
      exact h.move hi (by simp) (by simp) (h.not_owner hi (by simp))
    | insert v =>
      have hown := h.not_owner hi (by simp)
      simp only [current, hi, Bool.or_eq_true, decide_eq_true_eq] at hg
      simp only [stageStep] at hs
      split at hs
      · rename_i hn
        cases hs
        rw [hn] at hg
        rcases hg with hg | hg
        · cases hg
        · exact h.take hi hn hg
      · rename_i id hid
        split at hs
        · rename_i he
          exact absurd (he ▸ hid) (hown v)
        · cases hs
          exact h.move hi (by simp) (by simp) hown
    | bump v =>
      cases hs
      exact h.bump hi
    | returned v => cases hs
    | done => cases hs
  | conflict i =>
    simp only [CommitSlots.step] at hs
    split at hs
    · rename_i v hi
      cases hs
      refine (h.erase (h.past i v hi)).move hi (by simp) (by simp) fun w hw => ?_
      rw [ExtTreeMap.getElem?_erase] at hw
      split at hw
      · cases hw
      · rename_i hne
        rcases h.owned w i hw with hs | hs
        · rw [hi] at hs
          cases hs
        · rw [hi] at hs
          cases hs
          exact hne ReflCmp.compare_self
    · cases hs
  | cleanup v =>
    obtain ⟨hlt, hs⟩ := Option.ite_none_right_eq_some.1 hs
    cases hs
    exact h.erase hlt.le

end

/-- As long as vacant slots are taken at the current commit id only, slots are issued once and in
order. -/
theorem inOrder_of_current {s : CommitSlots}
    (h : Execution.Run step (fun s a => s.current a = true) .new s) : s.InOrder := by
  have hs : s.Slotted := by
    refine h.invariant ?_ Slotted.new
    intro s a t hs hg ht
    exact hs.step hg ht
  exact hs.inOrder

def advances (i n : Nat) : List SlotAction := List.replicate n (.advance i)

/-- Two commits compute the same slot; the loser tries again, aborts, and cleanup takes the entry
of the winner. -/
def retried : List SlotAction :=
  .commit :: .commit :: .advance 0 :: .advance 1 :: advances 0 2 ++ advances 1 4 ++
    [.cleanup 1, .conflict 1]

theorem inOrder_retried :
    ∃ s, Execution.Run step (fun s a => s.current a = true) .new s ∧ s.issued = [1, 2] ∧
      s.InOrder := by
  have hrun : (Execution.exec (fun s a => if s.current a then step s a else none) .new
      retried).map (fun s => decide (s.issued = [1, 2])) = some true := by
    decide +kernel
  obtain ⟨s, hs, hb⟩ := Execution.exec_check hrun
  exact ⟨s, .of_guarded hs, of_decide_eq_true hb, inOrder_of_current (.of_guarded hs)⟩

/-- Behind a first commit, one computes its slot and waits; another one takes it, finds a conflict
with the first, and frees it again. -/
def reissued : List SlotAction :=
  .commit :: .commit :: .commit :: advances 0 3 ++ .advance 1 :: advances 2 3 ++ .conflict 2 ::
    advances 1 2

theorem not_inOrder : ¬ ∀ s, Execution.Run step (fun _ _ => True) .new s → s.InOrder := by
  intro hall
  have hrun : (Execution.exec step .new reissued).map (fun s => decide (s.issued = [1, 2, 2])) =
      some true := by
    decide +kernel
  obtain ⟨s, hs, hb⟩ := Execution.exec_check hrun
  have honce := (hall s (.of_exec hs)).once
  rw [of_decide_eq_true hb] at honce
  exact absurd honce (by decide)

end CommitSlots

end StupidKv
