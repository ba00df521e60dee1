import StupidKv.ReferenceCounts

namespace StupidKv
open Std Processes
set_option autoImplicit true

/-- Where a commit stands in `auto_commit`. -/
inductive AutoCommit where
  | load
  | insert (version : Nat)
  | add (version : Nat)
  | returned (version : Nat)
deriving DecidableEq, Repr

/-- Where a call of `run_cleanup_inner` stands: it loads the fallback, scans the counters behind
`cursor`, and sweeps the queue below `oldest`, one entry after the other. -/
inductive Cleaner where
  | load
  | scan (fallback : Nat) (cursor : Option Nat)
  | sweep (oldest : Nat) (cursor : Option Nat)
  | entry (oldest key id : Nat)
  | done
deriving DecidableEq, Repr

/-- The part of a database that commit-queue GC works on. The watched atomic of `counters` is
`transaction_commit_id`, and an entry of the queue is the commit that owns it. -/
structure CommitGc where
  counters : Counters
  threads : List Thread
  queue : SkipMap Nat Nat
  commits : List AutoCommit
  cleaners : List Cleaner

inductive CommitGcAction where
  | spawn
  | thread (i : Nat) (spurious : Bool)
  | autoCommit
  | commit (i : Nat)
  | runCleanup
  | cleaner (i : Nat)
deriving DecidableEq, Repr

namespace CommitGc

def new : CommitGc := ⟨.new 0 none, [], ∅, [], []⟩

def commitStep (s : CommitGc) (i : Nat) : AutoCommit → Option CommitGc
  | .load => some { s with commits := s.commits.set i (.insert (s.counters.atomic + 1)) }
  | .insert version =>
    let queue := s.queue.insertIfNew version i
    let next : AutoCommit := if queue[version]? = some i then .add version else .load
    some { s with queue := queue, commits := s.commits.set i next }
  | .add version =>
    some { s with
      counters := { s.counters with atomic := s.counters.atomic + 1 }
      commits := s.commits.set i (.returned version) }
  | .returned _ => none

def cleanerStep (s : CommitGc) (i : Nat) : Cleaner → Option CommitGc
  | .load => some { s with cleaners := s.cleaners.set i (.scan s.counters.atomic none) }
  | .scan fallback cursor =>
    let next : Cleaner := match s.counters.scan cursor with
      | .skip key => .scan fallback (some key)
      | .found key => .sweep key none
      | .finished => .sweep fallback none
    some { s with cleaners := s.cleaners.set i next }
  | .sweep oldest cursor =>
    let next : Cleaner :=
      match s.queue.toList.find? fun e => cursor.all (· < e.1) && decide (e.1 < oldest) with
      | some e => .entry oldest e.1 e.2
      | none => .done
    some { s with cleaners := s.cleaners.set i next }
  | .entry oldest key id =>
    some { s with
      queue := if s.queue[key]? = some id then s.queue.erase key else s.queue
      cleaners := s.cleaners.set i (.sweep oldest (some key)) }
  | .done => none

def step (s : CommitGc) : CommitGcAction → Option CommitGc
  | .spawn => some { s with threads := s.threads ++ [.load] }
  | .thread i spurious => do
    let t ← s.threads[i]?
    let (counters, t) ← t.step s.counters spurious
    return { s with counters := counters, threads := s.threads.set i t }
  | .autoCommit => some { s with commits := s.commits ++ [.load] }
  | .commit i => s.commits[i]?.bind (s.commitStep i)
  | .runCleanup => some { s with cleaners := s.cleaners ++ [.load] }
  | .cleaner i => s.cleaners[i]?.bind (s.cleanerStep i)

/-- The snapshot `v` is registered and not dropped. -/
def Active (s : CommitGc) (v : Nat) : Prop := ∃ i, look s.threads Thread.snapshot i = some v

/-- The step removes no queue entry that an active transaction still has to validate against. -/
def KeepsWindows (s s' : CommitGc) : Prop :=
  ∀ key, key ∈ s.queue → key ∉ s'.queue → ∀ v, s.Active v → key ≤ v

/-- The scan does not answer with a snapshot above the fallback it was given. -/
def belowFallback (s : CommitGc) : CommitGcAction → Bool
  | .cleaner i =>
    match s.cleaners[i]? with
    | some (.scan fallback cursor) =>
      match s.counters.scan cursor with
      | .found key => key ≤ fallback
      | _ => true
    | _ => true
  | _ => true

end CommitGc

/-- What a cleaner may assume: the scan has passed no active snapshot below its fallback, and the
sweep removes nothing above one. -/
def Cleaner.Safe (atomic : Nat) (active : Nat → Prop) : Cleaner → Prop
  | .load | .done => True
  | .scan fallback cursor =>
    fallback ≤ atomic ∧ ∀ v, active v → fallback ≤ v ∨ cursor.all (· < v) = true
  | .sweep oldest _ => oldest ≤ atomic ∧ ∀ v, active v → oldest ≤ v
  | .entry oldest key _ => key < oldest ∧ oldest ≤ atomic ∧ ∀ v, active v → oldest ≤ v

/-- Newly active snapshots stand at the current commit id, so no cleaner is surprised by them. -/
theorem Cleaner.Safe.mono (h : Cleaner.Safe n p cl) (hn : n ≤ m)
    (hp : ∀ v, q v → p v ∨ n ≤ v) : Cleaner.Safe m q cl := by
  cases cl with
  | load => trivial
  | done => trivial
  | scan fallback cursor =>
    refine ⟨h.1.trans hn, fun v hv => ?_⟩
    rcases hp v hv with hv | hv
    · exact h.2 v hv
    · exact .inl (h.1.trans hv)
  | sweep oldest cursor =>
    refine ⟨h.1.trans hn, fun v hv => ?_⟩
    rcases hp v hv with hv | hv
    · exact h.2 v hv
    · exact h.1.trans hv
  | entry oldest key id =>
    refine ⟨h.1, h.2.1.trans hn, fun v hv => ?_⟩
    rcases hp v hv with hv | hv
    · exact h.2.2 v hv
    · exact h.2.1.trans hv

namespace CommitGc

structure Guarded (s : CommitGc) : Prop where
  exact : Exact s.counters s.threads
  floorless : s.counters.gcFloor = none
  cleaners : ∀ cl ∈ s.cleaners, Cleaner.Safe s.counters.atomic s.Active cl

theorem Guarded.new : CommitGc.new.Guarded where
  exact := Exact.new 0 none
  floorless := rfl
  cleaners := by simp [CommitGc.new]

section
variable {s s' : CommitGc}

theorem Guarded.cleanerStep (h : s.Guarded) (hi : s.cleaners[i]? = some cl)
    (hg : s.belowFallback (.cleaner i) = true) (hs : s.cleanerStep i cl = some s') :
    s'.Guarded ∧ s.KeepsWindows s' := by
  have hcl := h.cleaners cl (List.mem_of_getElem? hi)
  have hput : ∀ {cl' queue}, Cleaner.Safe s.counters.atomic s.Active cl' →
      ({ s with queue := queue, cleaners := s.cleaners.set i cl' } : CommitGc).Guarded := by
    intro cl' queue hsafe
    refine ⟨h.exact, h.floorless, ?_⟩
    intro x hx
    rcases List.mem_or_eq_of_mem_set hx with hx | rfl
    · exact h.cleaners x hx
    · exact hsafe
  have hkeep : ∀ {cl' : List Cleaner}, s.KeepsWindows { s with cleaners := cl' } :=
    fun key hk hn => absurd hk hn
  cases cl with
  | load =>
    cases hs
    exact ⟨hput ⟨le_rfl, fun v _ => .inr rfl⟩, hkeep⟩
  | scan fallback cursor =>
    cases hs
    obtain ⟨hle, hcl⟩ := hcl
    refine ⟨hput ?_, hkeep⟩
    simp only [belowFallback, hi] at hg
    have hscan : ∀ v, s.Active v → v < fallback → (∀ k, s.counters.scan cursor = .skip k → k < v) ∧
        (∀ k, s.counters.scan cursor = .found k → k ≤ v) ∧ s.counters.scan cursor ≠ .finished := by
      intro v hv hlt
      obtain ⟨j, hj⟩ := hv
      rcases hcl v ⟨j, hj⟩ with hf | hc
      · exact absurd hf (Nat.not_le.2 hlt)
      · exact h.exact.scan hj hc
    split
    · rename_i key hkey
      refine ⟨hle, fun v hv => ?_⟩
      by_cases hlt : v < fallback
      · exact .inr (by simpa using (hscan v hv hlt).1 key hkey)
      · exact .inl (Nat.not_lt.1 hlt)
    · rename_i key hkey
      rw [hkey] at hg
      have hkf : key ≤ fallback := by simpa using hg
      refine ⟨hkf.trans hle, fun v hv => ?_⟩
      by_cases hlt : v < fallback
      · exact (hscan v hv hlt).2.1 key hkey
      · exact hkf.trans (Nat.not_lt.1 hlt)
    · rename_i hfin
      refine ⟨hle, fun v hv => ?_⟩
      by_contra hlt
      exact (hscan v hv (Nat.not_le.1 hlt)).2.2 hfin
  | sweep oldest cursor =>
    cases hs
    refine ⟨hput ?_, hkeep⟩
    split
    · rename_i e he
      have hlt := List.find?_some he
      simp only [Bool.and_eq_true, decide_eq_true_eq] at hlt
      exact ⟨hlt.2, hcl⟩
    · trivial
  | entry oldest key id =>
    cases hs
    refine ⟨hput hcl.2, ?_⟩
    intro k hk hn v hv
    have hkey : k = key := by
      simp only at hn
      split at hn
      · rw [ExtTreeMap.mem_erase] at hn
        by_contra hne
        exact hn ⟨fun he => hne (Nat.compare_eq_eq.1 he).symm, hk⟩
      · exact absurd hk hn
    rw [hkey]
    exact hcl.1.le.trans (hcl.2.2 v hv)
  | done => cases hs

theorem Guarded.threadStep (h : s.Guarded) (hi : s.threads[i]? = some t)
    (hs : t.step s.counters spurious = some (c, t')) :
    ({ s with counters := c, threads := s.threads.set i t' } : CommitGc).Guarded := by
  obtain ⟨hatomic, hfloor⟩ := Thread.step_frame hs
  refine ⟨h.exact.step hi hs, hfloor.trans h.floorless, ?_⟩
  intro cl hcl
  refine (h.cleaners cl hcl).mono hatomic.ge ?_
  rintro v ⟨j, hj⟩
  rw [look_set hi] at hj
  split at hj
  · rcases Thread.step_snapshot hs hj with hv | ⟨-, hv⟩ | ⟨f, hf, -⟩
    · exact .inl ⟨i, (look_of_getElem? hi).trans hv⟩
    · exact .inr hv.le
    · rw [h.floorless] at hf
      cases hf
  · exact .inl ⟨j, hj⟩

theorem Guarded.commitStep (h : s.Guarded) (hs : s.commitStep i cm = some s') :
    s'.Guarded ∧ s.KeepsWindows s' := by
  cases cm with
  | load =>
    cases hs
    exact ⟨⟨h.exact, h.floorless, h.cleaners⟩, fun key hk hn => absurd hk hn⟩
  | insert version =>
    cases hs
    refine ⟨⟨h.exact, h.floorless, h.cleaners⟩, fun key hk hn => absurd ?_ hn⟩
    exact ExtTreeMap.mem_insertIfNew.2 (.inr hk)
  | add version =>
    cases hs
    refine ⟨⟨h.exact.frame rfl rfl, h.floorless, ?_⟩, fun key hk hn => absurd hk hn⟩
    intro cl hcl
    exact (h.cleaners cl hcl).mono (Nat.le_succ _) fun v hv => .inl hv
  | returned version => cases hs

theorem Guarded.step (h : s.Guarded) (hg : s.belowFallback a = true) (hs : s.step a = some s') :
    s'.Guarded ∧ s.KeepsWindows s' := by
  cases a with
  | spawn =>
    cases hs
    refine ⟨⟨h.exact.spawn, h.floorless, ?_⟩, fun key hk hn => absurd hk hn⟩
    intro cl hcl
    refine (h.cleaners cl hcl).mono le_rfl ?_
    rintro v ⟨j, hj⟩
    rw [look_concat rfl] at hj
    exact .inl ⟨j, hj⟩
  | thread i spurious =>
    obtain ⟨t, ht, hs⟩ := Option.bind_eq_some_iff.1 hs
    obtain ⟨⟨c, t'⟩, hstep, hs⟩ := Option.bind_eq_some_iff.1 hs
    cases hs
    exact ⟨h.threadStep ht hstep, fun key hk hn => absurd hk hn⟩
  | autoCommit =>
    cases hs
    exact ⟨⟨h.exact, h.floorless, h.cleaners⟩, fun key hk hn => absurd hk hn⟩
  | commit i =>
    obtain ⟨cm, -, hs⟩ := Option.bind_eq_some_iff.1 hs
    exact h.commitStep hs
  | runCleanup =>
    cases hs
    refine ⟨⟨h.exact, h.floorless, ?_⟩, fun key hk hn => absurd hk hn⟩
    intro cl hcl
    rcases List.mem_append.1 hcl with hcl | hcl
    · exact h.cleaners cl hcl
    · rw [List.mem_singleton.1 hcl]
      trivial
  | cleaner i =>
    obtain ⟨cl, hi, hs⟩ := Option.bind_eq_some_iff.1 hs
    exact h.cleanerStep hi hg hs

end

/-- Commit-queue GC spares every entry an active transaction needs, as long as no scan answers
above its fallback. -/
theorem keepsWindows_of_belowFallback {s s' : CommitGc} {a : CommitGcAction}
    (h : Execution.Run step (fun s a => s.belowFallback a = true) .new s)
    (hg : s.belowFallback a = true) (hs : s.step a = some s') : s.KeepsWindows s' := by
  have hs₀ : s.Guarded := by
    refine h.invariant ?_ Guarded.new
    intro s a t hs hg ht
    exact (hs.step hg ht).1
  exact (hs₀.step hg hs).2

def advance (i n : Nat) : List CommitGcAction := List.replicate n (.thread i false)

def advanceCleaner (n : Nat) : List CommitGcAction := List.replicate n (.cleaner 0)

/-- The steps of one undisturbed registration. -/
def register (i : Nat) : List CommitGcAction := .spawn :: advance i 5

/-- The steps of one undisturbed `auto_commit`. -/
def autoCommits (i : Nat) : List CommitGcAction := .autoCommit :: List.replicate 3 (.commit i)

/-- The next step of the cleaner removes the entry `key` from the queue, while `v` is active. -/
def removesNext (key v : Nat) (s : CommitGc) : Bool :=
  (s.threads.any fun t => t.snapshot == some v) && s.queue.contains key &&
    (s.step (.cleaner 0)).any fun s' => !s'.queue.contains key

theorem removesNext_spec {s : CommitGc} (h : removesNext key v s = true) :
    ∃ s', s.step (.cleaner 0) = some s' ∧ key ∈ s.queue ∧ key ∉ s'.queue ∧ s.Active v := by
  simp only [removesNext, Bool.and_eq_true, List.any_eq_true, beq_iff_eq] at h
  obtain ⟨⟨⟨t, ht, hv⟩, hk⟩, hs⟩ := h
  obtain ⟨s', hs', hn⟩ := (Option.any_eq_true _ _).1 hs
  obtain ⟨i, hi⟩ := List.mem_iff_getElem?.1 ht
  refine ⟨s', hs', hk, ?_, i, (look_of_getElem? hi).trans hv⟩
  intro hk'
  rw [ExtTreeMap.mem_iff_contains.1 hk'] at hn
  cases hn

/-- Two commits, a transaction after them, and a cleanup about to take the first one's entry. -/
def cleanup : List CommitGcAction :=
  autoCommits 0 ++ autoCommits 1 ++ register 0 ++ .runCleanup :: advanceCleaner 3

theorem keepsWindows_cleanup :
    ∃ s s', Execution.Run step (fun s a => s.belowFallback a = true) .new s ∧
      s.step (.cleaner 0) = some s' ∧ 1 ∈ s.queue ∧ 1 ∉ s'.queue ∧ s.Active 2 ∧
      s.KeepsWindows s' := by
  have hrun : (Execution.exec (fun s a => if s.belowFallback a then step s a else none) .new
      cleanup).map (fun s => removesNext 1 2 s && s.belowFallback (.cleaner 0)) = some true := by
    decide +kernel
  obtain ⟨s, hs, hb⟩ := Execution.exec_check hrun
  obtain ⟨hrem, hg⟩ := Bool.and_eq_true_iff.1 hb
  obtain ⟨s', hs', hk, hn, hv⟩ := removesNext_spec hrem
  exact ⟨s, s', .of_guarded hs, hs', hk, hn, hv,
    keepsWindows_of_belowFallback (.of_guarded hs) hg hs'⟩

/-- The scan passes a slot before its transaction has counted itself there; the transaction
registers at commit id one, and the next active key the scan meets belongs to a transaction begun
two commits later. -/
def overtakenScan : List CommitGcAction :=
  autoCommits 0 ++ .spawn :: advance 0 2 ++ .runCleanup :: advanceCleaner 2 ++ advance 0 3 ++
    autoCommits 1 ++ autoCommits 2 ++ register 1 ++ advanceCleaner 4

theorem not_keepsWindows :
    ¬ ∀ s a s', Execution.Run step (fun _ _ => True) .new s → s.step a = some s' →
      s.KeepsWindows s' := by
  intro hall
  have hrun : (Execution.exec step .new overtakenScan).map (removesNext 2 1) = some true := by
    decide +kernel
  obtain ⟨s, hs, hb⟩ := Execution.exec_check hrun
  obtain ⟨s', hs', hk, hn, hv⟩ := removesNext_spec hb
  have hle := hall s _ s' (.of_exec hs) hs' 2 hk hn 1 hv
  omega

end CommitGc

end StupidKv
