import StupidKv.ReferenceCounts

namespace StupidKv
open Std Processes
set_option autoImplicit true

/-- Where a call of `compute_cleanup_ts` stands; the clock read `now` in its first step. -/
inductive CleanupTs where
  | scanFirst (now : Nat) (cursor : Option Nat)
  | loadOracle (now earliestTx : Nat)
  | publish (now proposed : Nat)
  | scanAfter (now proposed : Nat) (cursor : Option Nat)
  | returned (cleanupTs : Nat)
deriving DecidableEq, Repr

/-- The part of a database that version GC works on. The watched atomic of `counters` is
`oracle.timestamp`, and its floor is `gc_floor`. -/
structure VersionGc where
  counters : Counters
  threads : List Thread
  calls : List CleanupTs

inductive VersionGcAction where
  | spawn
  | thread (i : Nat) (spurious : Bool)
  | bump (version : Nat)
  | computeCleanupTs (now : Nat)
  | call (i : Nat)
deriving DecidableEq, Repr

namespace VersionGc

def new (timestamp : Nat) : VersionGc := ⟨.new timestamp (some 0), [], []⟩

def callStep (s : VersionGc) (i : Nat) : CleanupTs → Option VersionGc
  | .scanFirst now cursor =>
    let next : CleanupTs := match s.counters.scan cursor with
      | .skip key => .scanFirst now (some key)
      | .found key => .loadOracle now key
      | .finished => .loadOracle now now
    some { s with calls := s.calls.set i next }
  | .loadOracle now earliestTx =>
    let proposed := min (min now earliestTx) s.counters.atomic
    some { s with calls := s.calls.set i (.publish now proposed) }
  | .publish now proposed =>
    some { s with
      counters := { s.counters with gcFloor := s.counters.gcFloor.map (max · proposed) }
      calls := s.calls.set i (.scanAfter now proposed none) }
  | .scanAfter now proposed cursor =>
    let next : CleanupTs := match s.counters.scan cursor with
      | .skip key => .scanAfter now proposed (some key)
      | .found key => .returned (min proposed key)
      | .finished => .returned (min proposed now)
    some { s with calls := s.calls.set i next }
  | .returned _ => none

def step (s : VersionGc) : VersionGcAction → Option VersionGc
  | .spawn => some { s with threads := s.threads ++ [.load] }
  | .thread i spurious => do
    let t ← s.threads[i]?
    let (counters, t) ← t.step s.counters spurious
    return { s with counters := counters, threads := s.threads.set i t }
  | .bump version =>
    some { s with counters := { s.counters with atomic := max s.counters.atomic version } }
  | .computeCleanupTs now => some { s with calls := s.calls ++ [.scanFirst now none] }
  | .call i => s.calls[i]?.bind (s.callStep i)

/-- The snapshot `v` is registered and not dropped. -/
def Active (s : VersionGc) (v : Nat) : Prop := ∃ i, look s.threads Thread.snapshot i = some v

/-- Compaction at any watermark ever returned is invisible to every active transaction. -/
def ReadsKept (s : VersionGc) : Prop :=
  ∀ W, .returned W ∈ s.calls → ∀ v, s.Active v → W ≤ v ∧ ∀ versions : Versions,
    (versions.gcOlderVersions W).fetchVersion v = versions.fetchVersion v ∧
    (versions.gcOlderVersions W).existsVersion v = versions.existsVersion v

end VersionGc

/-- From the publication on, every active snapshot below the proposed watermark was registered
before it, and the second scan has yet to meet it. -/
def CleanupTs.Safe (floor : Nat) (active : Nat → Prop) : CleanupTs → Prop
  | .scanAfter _ proposed cursor =>
    proposed ≤ floor ∧ ∀ v, active v → proposed ≤ v ∨ cursor.all (· < v) = true
  | .returned W => W ≤ floor ∧ ∀ v, active v → W ≤ v
  | _ => True

/-- Newly active snapshots stand at or above the floor. -/
theorem CleanupTs.Safe.mono (h : CleanupTs.Safe f p call) (hf : f ≤ g)
    (hp : ∀ v, q v → p v ∨ f ≤ v) : CleanupTs.Safe g q call := by
  cases call with
  | scanAfter now proposed cursor =>
    refine ⟨h.1.trans hf, fun v hv => ?_⟩
    rcases hp v hv with hv | hv
    · exact h.2 v hv
    · exact .inl (h.1.trans hv)
  | returned W =>
    refine ⟨h.1.trans hf, fun v hv => ?_⟩
    rcases hp v hv with hv | hv
    · exact h.2 v hv
    · exact h.1.trans hv
  | _ => trivial

namespace VersionGc

/-- The floor that `register_counter` checks stands above every watermark in use. -/
structure Guarded (s : VersionGc) : Prop where
  exact : Exact s.counters s.threads
  calls : ∃ floor, s.counters.gcFloor = some floor ∧
    ∀ call ∈ s.calls, call.Safe floor s.Active

theorem Guarded.new (timestamp : Nat) : (VersionGc.new timestamp).Guarded where
  exact := Exact.new timestamp (some 0)
  calls := ⟨0, rfl, by simp [VersionGc.new]⟩

section
variable {s s' : VersionGc}

theorem Guarded.threadStep (h : s.Guarded) (hi : s.threads[i]? = some t)
    (hs : t.step s.counters spurious = some (c, t')) :
    ({ s with counters := c, threads := s.threads.set i t' } : VersionGc).Guarded := by
  obtain ⟨-, hfloor⟩ := Thread.step_frame hs
  obtain ⟨floor, hf, hcalls⟩ := h.calls
  refine ⟨h.exact.step hi hs, floor, hfloor.trans hf, ?_⟩
  intro call hcall
  refine (hcalls call hcall).mono le_rfl ?_
  rintro v ⟨j, hj⟩
  rw [look_set hi] at hj
  split at hj
  · rcases Thread.step_snapshot hs hj with hv | ⟨hn, -⟩ | ⟨f, hf', hv⟩
    · exact .inl ⟨i, (look_of_getElem? hi).trans hv⟩
    · rw [hf] at hn
      cases hn
    · rw [hf] at hf'
      cases hf'
      exact .inr hv
  · exact .inl ⟨j, hj⟩

/-- What the second scan answers, capped by what was proposed, is below every active snapshot. -/
theorem Guarded.scanAfter (h : s.Guarded)
    (hcall : CleanupTs.Safe floor s.Active (.scanAfter now proposed cursor)) :
    CleanupTs.Safe floor s.Active (match s.counters.scan cursor with
      | .skip key => .scanAfter now proposed (some key)
      | .found key => .returned (min proposed key)
      | .finished => .returned (min proposed now)) := by
  obtain ⟨hle, hcall⟩ := hcall
  have hscan : ∀ v, s.Active v → v < proposed →
      (∀ k, s.counters.scan cursor = .skip k → k < v) ∧
        (∀ k, s.counters.scan cursor = .found k → k ≤ v) ∧
        s.counters.scan cursor ≠ .finished := by
    intro v hv hlt
    obtain ⟨j, hj⟩ := hv
    rcases hcall v ⟨j, hj⟩ with hp | hc
    · exact absurd hp (Nat.not_le.2 hlt)
    · exact h.exact.scan hj hc
  split
  · rename_i key hkey
    refine ⟨hle, fun v hv => ?_⟩
    by_cases hlt : v < proposed
    · exact .inr (by simpa using (hscan v hv hlt).1 key hkey)
    · exact .inl (Nat.not_lt.1 hlt)
  · rename_i key hkey
    refine ⟨(Nat.min_le_left _ _).trans hle, fun v hv => ?_⟩
    by_cases hlt : v < proposed
    · exact (Nat.min_le_right _ _).trans ((hscan v hv hlt).2.1 key hkey)
    · exact (Nat.min_le_left _ _).trans (Nat.not_lt.1 hlt)
  · rename_i hfin
    refine ⟨(Nat.min_le_left _ _).trans hle, fun v hv => ?_⟩
    by_cases hlt : v < proposed
    · exact absurd hfin (hscan v hv hlt).2.2
    · exact (Nat.min_le_left _ _).trans (Nat.not_lt.1 hlt)

theorem Guarded.callStep (h : s.Guarded) (hi : s.calls[i]? = some call)
    (hs : s.callStep i call = some s') : s'.Guarded := by
  obtain ⟨floor, hf, hcalls⟩ := h.calls
  have hput : ∀ {call'}, CleanupTs.Safe floor s.Active call' →
      ({ s with calls := s.calls.set i call' } : VersionGc).Guarded := by
    intro call' hsafe
    refine ⟨h.exact, floor, hf, ?_⟩
    intro x hx
    rcases List.mem_or_eq_of_mem_set hx with hx | rfl
    · exact hcalls x hx
    · exact hsafe
  cases call with
  | scanFirst now cursor =>
    cases hs
    refine hput ?_
    split <;> trivial
  | loadOracle now earliestTx =>
    cases hs
    exact hput trivial
  | publish now proposed =>
    cases hs
    refine ⟨h.exact.frame rfl rfl, max floor proposed, by simp [hf], ?_⟩
    intro x hx
    rcases List.mem_or_eq_of_mem_set hx with hx | rfl
    · exact (hcalls x hx).mono (Nat.le_max_left _ _) fun v hv => .inl hv
    · exact ⟨Nat.le_max_right _ _, fun v _ => .inr rfl⟩
  | scanAfter now proposed cursor =>
    cases hs
    exact hput (h.scanAfter (hcalls _ (List.mem_of_getElem? hi)))
  | returned W => cases hs

theorem Guarded.step (h : s.Guarded) (hs : s.step a = some s') : s'.Guarded := by
  obtain ⟨floor, hf, hcalls⟩ := h.calls
  cases a with
  | spawn =>
    cases hs
    refine ⟨h.exact.spawn, floor, hf, ?_⟩
    intro call hcall
    refine (hcalls call hcall).mono le_rfl ?_
    rintro v ⟨j, hj⟩
    rw [look_concat rfl] at hj
    exact .inl ⟨j, hj⟩
  | thread i spurious =>
    obtain ⟨t, ht, hs⟩ := Option.bind_eq_some_iff.1 hs
    obtain ⟨⟨c, t'⟩, hstep, hs⟩ := Option.bind_eq_some_iff.1 hs
    cases hs
    exact h.threadStep ht hstep
  | bump version =>
    cases hs
    exact ⟨h.exact.frame rfl rfl, floor, hf, hcalls⟩
  | computeCleanupTs now =>
    cases hs
    refine ⟨h.exact, floor, hf, ?_⟩
    intro call hcall
    rcases List.mem_append.1 hcall with hcall | hcall
    · exact hcalls call hcall
    · rw [List.mem_singleton.1 hcall]
      trivial
  | call i =>
    obtain ⟨call, hi, hs⟩ := Option.bind_eq_some_iff.1 hs
    exact h.callStep hi hs

theorem Guarded.readsKept (h : s.Guarded) : s.ReadsKept := by
  intro W hW v hv
  obtain ⟨floor, -, hcalls⟩ := h.calls
  have hle : W ≤ v := (hcalls _ hW).2 v hv
  refine ⟨hle, fun versions => ?_⟩
  have hfetch := versions.fetchVersion_gcOlderVersions hle
  exact ⟨hfetch, by rw [Versions.existsVersion_eq, Versions.existsVersion_eq, hfetch]⟩

end

theorem guarded_of_run (timestamp : Nat) {s : VersionGc}
    (h : Execution.Run step (fun _ _ => True) (.new timestamp) s) : s.Guarded := by
  refine h.invariant ?_ (Guarded.new timestamp)
  intro s a t hs _ ht
  exact hs.step ht

/-- Version GC never changes what an active transaction reads, whatever the clock says. -/
theorem readsKept_of_run (timestamp : Nat) {s : VersionGc}
    (h : Execution.Run step (fun _ _ => True) (.new timestamp) s) : s.ReadsKept := by
  exact (guarded_of_run timestamp h).readsKept

def advance (n : Nat) : List VersionGcAction := List.replicate n (.thread 0 false)

/-- The first scan passes the slot before the transaction counts itself there, and its check of
the floor comes after the publication: it takes the count back and registers at the next version. -/
def straddling : List VersionGcAction :=
  .spawn :: advance 2 ++ .computeCleanupTs 9 :: .call 0 :: .call 0 :: advance 3 ++
    .bump 7 :: .call 0 :: .call 0 :: .call 0 :: advance 11

def returnedBelow (W v : Nat) (s : VersionGc) : Bool :=
  s.calls.contains (.returned W) && s.threads.any fun t => t.snapshot == some v

theorem readsKept_straddling :
    ∃ s, Execution.Run step (fun _ _ => True) (.new 5) s ∧ returnedBelow 5 7 s = true ∧
      s.ReadsKept := by
  have hrun : (Execution.exec step (.new 5) straddling).map (returnedBelow 5 7) = some true := by
    decide +kernel
  obtain ⟨s, hs, hb⟩ := Execution.exec_check hrun
  exact ⟨s, .of_exec hs, hb, readsKept_of_run 5 (.of_exec hs)⟩

end VersionGc

end StupidKv
