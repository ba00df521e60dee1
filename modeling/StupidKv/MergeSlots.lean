import StupidKv.Counters
import StupidKv.ReferenceCounts

namespace StupidKv
open Std Processes
set_option autoImplicit true

/-- The value of the watched atomic a thread has loaded. -/
def Thread.watched : Thread → Option Nat
  | slot v | read v _ | cas v _ _ | check v _ | floor v _ _ | registered v _ | release _ v _
  | releaseCas _ v _ _ | unlink v _ | unlinkEntry v _ | remove v _ => some v
  | load | done => none

theorem Thread.watched_of_snapshot {t : Thread} (h : t.snapshot = some v) :
    t.watched = some v := by
  cases t with
  | registered w a => exact h
  | release exit w a =>
    cases exit with
    | rollback => cases h
    | drop => exact h
  | releaseCas exit w a current =>
    cases exit with
    | rollback => cases h
    | drop => exact h
  | _ => cases h

theorem Exit.watched_afterRelease {exit : Exit} {last : Bool}
    (h : (exit.afterRelease v a last).watched = some w) : w = v := by
  cases exit <;> cases last <;> cases h <;> rfl

theorem Thread.step_watched {t t' : Thread} (h : t.step c spurious = some (c', t'))
    (hv : t'.watched = some v) : t.watched = some v ∨ c.atomic = v := by
  cases t with
  | load =>
    cases h
    exact .inr (Option.some.inj hv)
  | releaseCas exit w a current =>
    simp only [Thread.step] at h
    split at h <;> split at h <;> cases h
    · rw [Exit.watched_afterRelease hv]
      exact .inl rfl
    · exact .inl hv
    · rw [Exit.watched_afterRelease hv]
      exact .inl rfl
    · exact .inl hv
  | _ => grind [Thread.step, Thread.watched, Option.map_eq_some_iff]

/-- Where a commit stands in `atomic_merge`, and behind it. -/
inductive MergeStage where
  | clock
  | load (now : Nat)
  | insert (version : Nat)
  | bump (version : Nat)
  | returned (version : Nat)
  | done
deriving DecidableEq, Repr

/-- The oracle with its reference counts, and the merge queue with the id of the commit in every
slot. History: the versions inserted, each with the number of snapshots handed out before, the
versions returned, and the snapshots. -/
structure MergeSlots where
  oracle : Counters
  transactionMergeQueue : SkipMap Nat Nat
  stages : List MergeStage
  readers : List Thread
  inserted : List (Nat × Nat)
  issued : List Nat
  snapshots : List Nat

inductive MergeAction where
  | commit
  /-- One step of `atomic_merge`; the clock reads `now`. -/
  | merge (i now : Nat)
  | remove (i : Nat)
  | begin
  | reader (i : Nat) (spurious : Bool)
  | publishFloor (floor : Nat)

namespace MergeSlots

def new (timestamp floor : Nat) : MergeSlots :=
  ⟨.new timestamp (some floor), ∅, [], [], [], [], []⟩

def stageStep (s : MergeSlots) (i now : Nat) : MergeStage → Option MergeSlots
  | .clock => some { s with stages := s.stages.set i (.load now) }
  | .load now =>
    let lastTs := s.oracle.atomic
    let version := if now ≤ lastTs then lastTs + 1 else now
    some { s with stages := s.stages.set i (.insert version) }
  | .insert version =>
    match s.transactionMergeQueue[version]? with
    | none =>
      some { s with
        transactionMergeQueue := s.transactionMergeQueue.insert version i
        inserted := s.inserted ++ [(version, s.snapshots.length)]
        stages := s.stages.set i (.bump version) }
    | some id =>
      if id = i then some { s with stages := s.stages.set i (.bump version) }
      else some { s with stages := s.stages.set i .clock }
  | .bump version =>
    some { s with
      oracle := { s.oracle with atomic := max s.oracle.atomic version }
      issued := s.issued ++ [version]
      stages := s.stages.set i (.returned version) }
  | .returned _ | .done => none

/-- The snapshot a step of `register_counter` returns. -/
def returnedSnapshot (before after : Thread) : List Nat :=
  if before.snapshot.isNone then after.snapshot.toList else []

def step (s : MergeSlots) : MergeAction → Option MergeSlots
  | .commit => some { s with stages := s.stages ++ [.clock] }
  | .merge i now => do
    let stage ← s.stages[i]?
    s.stageStep i now stage
  | .remove i =>
    match s.stages[i]? with
    | some (.returned version) =>
      some { s with
        transactionMergeQueue := s.transactionMergeQueue.erase version
        stages := s.stages.set i .done }
    | _ => none
  | .begin => some { s with readers := s.readers ++ [.load] }
  | .reader i spurious => do
    let thread ← s.readers[i]?
    let (oracle, thread') ← thread.step s.oracle spurious
    return { s with
      oracle := oracle
      readers := s.readers.set i thread'
      snapshots := s.snapshots ++ returnedSnapshot thread thread' }
  | .publishFloor floor =>
    some { s with oracle := { s.oracle with gcFloor := s.oracle.gcFloor.map (max · floor) } }

/-- No version is returned twice, and each was inserted above every snapshot handed out before. -/
structure FreshVersions (s : MergeSlots) : Prop where
  once : s.issued.Nodup
  above : ∀ p ∈ s.inserted, ∀ q ∈ s.snapshots.take p.2, q < p.1

/-- A vacant slot is taken only above the oracle's timestamp. -/
def ahead (s : MergeSlots) : MergeAction → Bool
  | .merge i _ =>
    match s.stages[i]? with
    | some (.insert version) =>
      s.transactionMergeQueue[version]?.isSome || decide (s.oracle.atomic < version)
    | _ => true
  | _ => true

/-- The timestamp bounds whatever was returned, and a commit that has inserted its entry owns a
version nobody else has returned. -/
structure Ahead (s : MergeSlots) : Prop where
  fresh : s.FreshVersions
  counted : ∀ p ∈ s.inserted, p.2 ≤ s.snapshots.length
  snapshots : ∀ q ∈ s.snapshots, q ≤ s.oracle.atomic
  watched : ∀ (i : Nat) x v, s.readers[i]? = some x → x.watched = some v → v ≤ s.oracle.atomic
  issued : ∀ v ∈ s.issued, v ≤ s.oracle.atomic
  pending : ∀ (i : Nat) v, s.stages[i]? = some (.bump v) →
    s.transactionMergeQueue[v]? = some i ∧ v ∉ s.issued
  owned : ∀ v i : Nat, s.transactionMergeQueue[v]? = some i →
    s.stages[i]? = some (.bump v) ∨ s.stages[i]? = some (.returned v)
  past : ∀ (i : Nat) v, s.stages[i]? = some (.returned v) → v ∈ s.issued

section
variable {s t : MergeSlots} {a : MergeAction} {i : Nat}

theorem Ahead.new (timestamp floor : Nat) : Ahead (.new timestamp floor) := by
  constructor
  · constructor <;> simp [MergeSlots.new]
  all_goals simp [MergeSlots.new]

theorem Ahead.move (h : s.Ahead) (hy : ∀ v, y ≠ .bump v ∧ y ≠ .returned v)
    (hown : ∀ w : Nat, s.transactionMergeQueue[w]? ≠ some i) :
    Ahead { s with stages := s.stages.set i y } where
  fresh := ⟨h.fresh.once, h.fresh.above⟩
  counted := h.counted
  snapshots := h.snapshots
  watched := h.watched
  issued := h.issued
  pending := by
    intro j v hj
    rcases getElem?_set_cases hj with ⟨-, rfl⟩ | ⟨-, hj⟩
    · exact absurd rfl (hy v).1
    · exact h.pending j v hj
  owned := by
    intro v j hj
    have hne : i ≠ j := by
      rintro rfl
      exact hown v hj
    rcases h.owned v j hj with hs | hs
    · exact .inl (getElem?_set_ne hs hne y)
    · exact .inr (getElem?_set_ne hs hne y)
  past := by
    intro j v hj
    rcases getElem?_set_cases hj with ⟨-, rfl⟩ | ⟨-, hj⟩
    · exact absurd rfl (hy v).2
    · exact h.past j v hj

theorem Ahead.not_owner (h : s.Ahead) (hi : s.stages[i]? = some x)
    (hx : ∀ v, x ≠ .bump v ∧ x ≠ .returned v) (w : Nat) :
    s.transactionMergeQueue[w]? ≠ some i := by
  intro hw
  rcases h.owned w i hw with hs | hs
  · rw [hi] at hs
    exact (hx w).1 (Option.some.inj hs)
  · rw [hi] at hs
    exact (hx w).2 (Option.some.inj hs)

theorem Ahead.take (h : s.Ahead) (hi : s.stages[i]? = some (.insert v))
    (hn : s.transactionMergeQueue[v]? = none) (hv : s.oracle.atomic < v) :
    Ahead { s with
      transactionMergeQueue := s.transactionMergeQueue.insert v i
      inserted := s.inserted ++ [(v, s.snapshots.length)]
      stages := s.stages.set i (.bump v) } := by
  have hself : (s.stages.set i (.bump v))[i]? = some (.bump v) := getElem?_set_at hi _
  have hissued : v ∉ s.issued := by
    intro hm
    exact absurd (h.issued v hm) (Nat.not_le.2 hv)
  exact {
    fresh := {
      once := h.fresh.once
      above := by
        intro p hp q hq
        rcases List.mem_append.1 hp with hp | hp
        · exact h.fresh.above p hp q hq
        · rw [List.mem_singleton.1 hp] at hq ⊢
          exact (h.snapshots q (List.mem_of_mem_take hq)).trans_lt hv }
    counted := by
      intro p hp
      rcases List.mem_append.1 hp with hp | hp
      · exact h.counted p hp
      · rw [List.mem_singleton.1 hp]
    snapshots := h.snapshots
    watched := h.watched
    issued := h.issued
    pending := by
      intro j w hj
      rcases getElem?_set_cases hj with ⟨rfl, hw⟩ | ⟨-, hj⟩
      · cases hw
        exact ⟨by simp, hissued⟩
      · obtain ⟨hq, hw⟩ := h.pending j w hj
        refine ⟨?_, hw⟩
        rw [ExtTreeMap.getElem?_insert, if_neg, hq]
        intro he
        rw [← LawfulEqCmp.eq_of_compare he, hn] at hq
        cases hq
    owned := by
      intro w j hj
      rw [ExtTreeMap.getElem?_insert] at hj
      by_cases hw : v = w
      · subst hw
        rw [if_pos ReflCmp.compare_self, Option.some.injEq] at hj
        subst hj
        exact .inl hself
      · rw [if_neg fun he => hw (LawfulEqCmp.eq_of_compare he)] at hj
        have hne : i ≠ j := by
          rintro rfl
          exact h.not_owner hi (by simp) w hj
        rcases h.owned w j hj with hs | hs
        · exact .inl (getElem?_set_ne hs hne _)
        · exact .inr (getElem?_set_ne hs hne _)
    past := by
      intro j w hj
      rcases getElem?_set_cases hj with ⟨-, hw⟩ | ⟨-, hj⟩
      · cases hw
      · exact h.past j w hj }

theorem Ahead.bump (h : s.Ahead) (hi : s.stages[i]? = some (.bump v)) :
    Ahead { s with
      oracle := { s.oracle with atomic := max s.oracle.atomic v }
      issued := s.issued ++ [v]
      stages := s.stages.set i (.returned v) } := by
  obtain ⟨hq, hv⟩ := h.pending i v hi
  have hself : (s.stages.set i (.returned v))[i]? = some (.returned v) := getElem?_set_at hi _
  exact {
    fresh := {
      once := by
        refine List.nodup_append.2 ⟨h.fresh.once, List.nodup_singleton v, ?_⟩
        intro w hw u hu he
        rw [List.mem_singleton.1 hu] at he
        exact hv (he ▸ hw)
      above := h.fresh.above }
    counted := h.counted
    snapshots := by
      intro q hq
      exact (h.snapshots q hq).trans (Nat.le_max_left ..)
    watched := by
      intro j x w hj hw
      exact (h.watched j x w hj hw).trans (Nat.le_max_left ..)
    issued := by
      intro w hw
      rcases List.mem_append.1 hw with hw | hw
      · exact (h.issued w hw).trans (Nat.le_max_left ..)
      · rw [List.mem_singleton.1 hw]
        exact Nat.le_max_right ..
    pending := by
      intro j w hj
      rcases getElem?_set_cases hj with ⟨-, hw⟩ | ⟨hij, hj⟩
      · cases hw
      · obtain ⟨hq', hw⟩ := h.pending j w hj
        refine ⟨hq', fun hm => ?_⟩
        rcases List.mem_append.1 hm with hm | hm
        · exact hw hm
        · -- the slot has one owner
          rw [List.mem_singleton.1 hm, hq] at hq'
          exact hij (Option.some.inj hq')
    owned := by
      intro w j hj
      by_cases hij : i = j
      · subst hij
        rcases h.owned w i hj with hs | hs
        · rw [hi] at hs
          cases hs
          exact .inr hself
        · rw [hi] at hs
          cases hs
      · rcases h.owned w j hj with hs | hs
        · exact .inl (getElem?_set_ne hs hij _)
        · exact .inr (getElem?_set_ne hs hij _)
    past := by
      intro j w hj
      rcases getElem?_set_cases hj with ⟨-, hw⟩ | ⟨-, hj⟩
      · cases hw
        simp
      · exact List.mem_append.2 (.inl (h.past j w hj)) }

theorem Ahead.erase (h : s.Ahead) (hv : v ∈ s.issued) :
    Ahead { s with transactionMergeQueue := s.transactionMergeQueue.erase v } where
  fresh := ⟨h.fresh.once, h.fresh.above⟩
  counted := h.counted
  snapshots := h.snapshots
  watched := h.watched
  issued := h.issued
  pending := by
    intro j w hj
    obtain ⟨hq, hw⟩ := h.pending j w hj
    refine ⟨?_, hw⟩
    rw [ExtTreeMap.getElem?_erase, if_neg, hq]
    intro he
    exact hw (LawfulEqCmp.eq_of_compare he ▸ hv)
  owned := by
    intro w j hj
    rw [ExtTreeMap.getElem?_erase] at hj
    split at hj
    · cases hj
    · exact h.owned w j hj
  past := h.past

theorem Ahead.commit (h : s.Ahead) : Ahead { s with stages := s.stages ++ [.clock] } where
  fresh := ⟨h.fresh.once, h.fresh.above⟩
  counted := h.counted
  snapshots := h.snapshots
  watched := h.watched
  issued := h.issued
  pending := by
    intro j v hj
    rcases getElem?_concat_cases hj with hj | ⟨-, hv⟩
    · exact h.pending j v hj
    · cases hv
  owned := by
    intro v j hj
    rcases h.owned v j hj with hs | hs
    · exact .inl (getElem?_concat_of hs _)
    · exact .inr (getElem?_concat_of hs _)
  past := by
    intro j v hj
    rcases getElem?_concat_cases hj with hj | ⟨-, hv⟩
    · exact h.past j v hj
    · cases hv

theorem Ahead.read {c : Counters} {l : List Thread} {q : List Nat} (h : s.Ahead) (hc : c.atomic = s.oracle.atomic)
    (hw : ∀ (i : Nat) x v, l[i]? = some x → x.watched = some v → v ≤ s.oracle.atomic)
    (hq : ∀ v ∈ q, v ≤ s.oracle.atomic) :
    Ahead { s with oracle := c, readers := l, snapshots := s.snapshots ++ q } where
  fresh := {
    once := h.fresh.once
    above := by
      intro p hp v hm
      rw [List.take_append_of_le_length (h.counted p hp)] at hm
      exact h.fresh.above p hp v hm }
  counted := by
    intro p hp
    rw [List.length_append]
    exact (h.counted p hp).trans (Nat.le_add_right ..)
  snapshots := by
    intro v hm
    rw [hc]
    rcases List.mem_append.1 hm with hm | hm
    · exact h.snapshots v hm
    · exact hq v hm
  watched := by
    intro i x v hi hv
    rw [hc]
    exact hw i x v hi hv
  issued := by
    intro v hv
    rw [hc]
    exact h.issued v hv
  pending := h.pending
  owned := h.owned
  past := h.past

theorem Ahead.begin (h : s.Ahead) : Ahead { s with readers := s.readers ++ [.load] } := by
  have hr := h.read (c := s.oracle) (l := s.readers ++ [.load]) rfl ?_ (q := []) (by simp)
  · rwa [List.append_nil] at hr
  · intro i x v hi hv
    rcases getElem?_concat_cases hi with hi | ⟨-, rfl⟩
    · exact h.watched i x v hi hv
    · cases hv

theorem Ahead.reader {x x' : Thread} (h : s.Ahead) (hi : s.readers[i]? = some x)
    (hx : x.step s.oracle spurious = some (c, x')) :
    Ahead { s with
      oracle := c
      readers := s.readers.set i x'
      snapshots := s.snapshots ++ returnedSnapshot x x' } := by
  have hw : ∀ v, x'.watched = some v → v ≤ s.oracle.atomic := by
    intro v hv
    rcases Thread.step_watched hx hv with hv | hv
    · exact h.watched i x v hi hv
    · exact hv.ge
  apply h.read (Thread.step_frame hx).1
  · intro j y v hj hv
    rcases getElem?_set_cases hj with ⟨-, rfl⟩ | ⟨-, hj⟩
    · exact hw v hv
    · exact h.watched j y v hj hv
  · intro q hq
    rw [returnedSnapshot] at hq
    split at hq
    · exact hw q (Thread.watched_of_snapshot (Option.mem_toList.1 hq))
    · cases hq

theorem Ahead.step (h : s.Ahead) (hg : s.ahead a = true) (hs : s.step a = some t) : t.Ahead := by
  cases a with
  | commit =>
    cases hs
    exact h.commit
  | merge i now =>
    obtain ⟨x, hi, hs⟩ := Option.bind_eq_some_iff.1 hs
    cases x with
    | clock =>
      cases hs
      exact h.move (by simp) (h.not_owner hi (by simp))
    | load now =>
      cases hs
      exact h.move (by simp) (h.not_owner hi (by simp))
    | insert v =>
      have hown := h.not_owner hi (by simp)
      simp only [ahead, hi, Bool.or_eq_true, decide_eq_true_eq] at hg
      simp only [stageStep] at hs
      split at hs
      · rename_i hn
        cases hs
        rw [hn] at hg
        rcases hg with hg | hg
        · cases hg
        · exact h.take hi hn hg
      · rename_i id hid
        split at hs
        · rename_i he
          exact absurd (he ▸ hid) (hown v)
        · cases hs
          exact h.move (by simp) hown
    | bump v =>
      cases hs
      exact h.bump hi
    | returned v => cases hs
    | done => cases hs
  | remove i =>
    simp only [MergeSlots.step] at hs
    split at hs
    · rename_i v hi
      cases hs
      refine (h.erase (h.past i v hi)).move (by simp) fun w hw => ?_
      rw [ExtTreeMap.getElem?_erase] at hw
      split at hw
      · cases hw
      · rename_i hne
        rcases h.owned w i hw with hs | hs
        · rw [hi] at hs
          cases hs
        · rw [hi] at hs
          cases hs
          exact hne ReflCmp.compare_self
    · cases hs
  | begin =>
    cases hs
    exact h.begin
  | reader i spurious =>
    obtain ⟨x, hi, hs⟩ := Option.bind_eq_some_iff.1 hs
    obtain ⟨⟨c, x'⟩, hx, hs⟩ := Option.bind_eq_some_iff.1 hs
    cases hs
    exact h.reader hi hx
  | publishFloor floor =>
    cases hs
    have hr := h.read (c := { s.oracle with gcFloor := s.oracle.gcFloor.map (max · floor) }) rfl
      h.watched (q := []) (by simp)
    rwa [List.append_nil] at hr

end

/-- As long as vacant slots are taken above the timestamp only, merge versions are fresh. -/
theorem freshVersions_of_ahead {s : MergeSlots}
    (h : Execution.Run step (fun s a => s.ahead a = true) (.new timestamp floor) s) :
    s.FreshVersions := by
  have hs : s.Ahead := by
    refine h.invariant ?_ (Ahead.new timestamp floor)
    intro s a t hs hg ht
    exact hs.step hg ht
  exact hs.fresh

def merges (i now n : Nat) : List MergeAction := List.replicate n (.merge i now)

def reads (i n : Nat) : List MergeAction := List.replicate n (.reader i false)

/-- Two commits compute the same version, and a snapshot is taken at it; the loser tries again
with a clock that has jumped back. -/
def jumpedBack : List MergeAction :=
  .commit :: .commit :: merges 0 6 2 ++ merges 1 6 2 ++ merges 0 6 2 ++ .begin :: reads 0 6 ++
    merges 1 3 5 ++ [.remove 0, .remove 1]

theorem freshVersions_jumpedBack :
    ∃ s, Execution.Run step (fun s a => s.ahead a = true) (.new 5 5) s ∧ s.issued = [6, 7] ∧
      s.inserted = [(6, 0), (7, 1)] ∧ s.snapshots = [6] ∧ s.FreshVersions := by
  have hrun : (Execution.exec (fun s a => if s.ahead a then step s a else none) (.new 5 5)
      jumpedBack).map (fun s => decide (s.issued = [6, 7] ∧ s.inserted = [(6, 0), (7, 1)] ∧
        s.snapshots = [6])) = some true := by
    decide +kernel
  obtain ⟨s, hs, hb⟩ := Execution.exec_check hrun
  obtain ⟨hissued, hinserted, hsnapshots⟩ := of_decide_eq_true hb
  exact ⟨s, .of_guarded hs, hissued, hinserted, hsnapshots,
    freshVersions_of_ahead (.of_guarded hs)⟩

/-- A commit computes its version and waits; another one passes it, and a snapshot is taken there
before the first inserts its entry. -/
def overtaken : List MergeAction :=
  .commit :: .commit :: merges 0 6 2 ++ merges 1 7 4 ++ .begin :: reads 0 6 ++ merges 0 6 1

theorem not_freshVersions : ¬ ∀ s, Execution.Run step (fun _ _ => True) (.new 5 5) s →
    s.FreshVersions := by
  intro hall
  have hrun : (Execution.exec step (.new 5 5) overtaken).map (fun s =>
      decide ((6, 1) ∈ s.inserted ∧ 7 ∈ s.snapshots.take 1)) = some true := by
    decide +kernel
  obtain ⟨s, hs, hb⟩ := Execution.exec_check hrun
  obtain ⟨hinserted, hsnapshot⟩ := of_decide_eq_true hb
  have hlt := (hall s (.of_exec hs)).above (6, 1) hinserted 7 hsnapshot
  exact absurd hlt (by decide)

end MergeSlots

end StupidKv
