import StupidKv.AppendWorker
import StupidKv.Truncation

namespace StupidKv
open Files
set_option autoImplicit true

inductive FsyncMode where
  | never
  | everyAppend
  | interval (duration : Nat)
deriving DecidableEq, Repr

/-- What the critical sections of the AOL mutex share. Every snapshot run that has not truncated
yet holds the length it found. -/
structure SyncState where
  mode : FsyncMode
  aol : Aol
  lastFsync : Nat
  runs : List (Option Nat)

/-- The critical sections; the clock readings are arbitrary. -/
inductive SyncAction where
  | append (version : Nat) (writeset : Writeset) (now : Nat)
  | batch (ops : List AsyncAppendOperation) (now : Nat)
  /-- The fsync worker wakes up. -/
  | fsync
  /-- A snapshot run records the length of the AOL. -/
  | cutoff
  /-- Run `i` truncates the AOL. -/
  | truncate (i : Nat) (io : TruncateIo)

namespace SyncState

/-- What the file holds when it is opened counts as synced. -/
def opened (mode : FsyncMode) (content : Bytes) (now : Nat) : SyncState :=
  ⟨mode, .opened content, now, []⟩

/-- Whether a write is followed by a sync. -/
def shouldSync (s : SyncState) (now : Nat) : Bool :=
  match s.mode with
  | .never => false
  | .everyAppend => true
  | .interval duration => decide (now - s.lastFsync ≥ duration)

/-- `EveryAppend` syncs without a look at the counter. -/
def synced (s : SyncState) (now : Nat) : SyncState :=
  match s.mode with
  | .interval _ =>
    { s with aol := ⟨s.aol.file.syncAll, 0, s.aol.appends⟩, lastFsync := now }
  | _ => { s with aol := ⟨s.aol.file.syncAll, s.aol.pendingSyncs, s.aol.appends⟩ }

/-- The records are written, then synced or counted. The counter is a `u64` and wraps. -/
def writeRecords (s : SyncState) (records : List Record) (now : Nat) : SyncState :=
  let file := s.aol.file.write (Bincode.record.encodeAll records)
  if s.shouldSync now then
    synced { s with aol := ⟨file, s.aol.pendingSyncs, s.aol.appends⟩ } now
  else { s with aol := ⟨file, (s.aol.pendingSyncs + 1) % (u64Max + 1), s.aol.appends⟩ }

/-- `append` in `SynchronousOnCommit` mode. -/
def append (s : SyncState) (version : Nat) (writeset : Writeset) (now : Nat) : SyncState :=
  s.writeRecords (recordsOf version writeset) now

/-- The append worker writes a batch. -/
def appendBatch (s : SyncState) (ops : List AsyncAppendOperation) (now : Nat) : SyncState :=
  s.writeRecords (ops.flatMap AsyncAppendOperation.records) now

/-- The check of the fsync worker. -/
def fsyncCheck (s : SyncState) : SyncState :=
  if s.aol.pendingSyncs > 0 then
    { s with aol := ⟨s.aol.file.syncAll, 0, s.aol.appends⟩ }
  else s

/-- One critical section in which no I/O fails. -/
def step (s : SyncState) : SyncAction → Option SyncState
  | .append version writeset now => some (s.append version writeset now)
  | .batch ops now =>
    if ops.isEmpty || ops.length > batchSize then none else some (s.appendBatch ops now)
  | .fsync =>
    match s.mode with
    | .interval _ => some s.fsyncCheck
    | _ => none
  | .cutoff => some { s with runs := s.runs ++ [some s.aol.file.cells.length] }
  | .truncate i io =>
    match s.runs[i]?.join with
    | none => none
    | some position =>
      match s.aol.truncate position io with
      | (aol, .ok ()) => some { s with aol := aol, runs := s.runs.set i none }
      | _ => none

/-- Bytes written since the last sync are counted. -/
def Covered (s : SyncState) : Prop :=
  (∃ c ∈ s.aol.file.cells, c.synced = false) → 0 < s.aol.pendingSyncs

instance (s : SyncState) : Decidable s.Covered := inferInstanceAs (Decidable (_ → _))

/-- A truncation that finds the AOL longer than its cutoff has a cutoff above zero and a sync
pending, and no count wraps. -/
def counted (s : SyncState) : SyncAction → Bool
  | .append _ _ now | .batch _ now => s.shouldSync now || decide (s.aol.pendingSyncs < u64Max)
  | .truncate i _ =>
    match s.runs[i]?.join with
    | none => true
    | some position =>
      decide (s.aol.file.cells.length ≤ position) ||
        decide (0 < position) && decide (0 < s.aol.pendingSyncs)
  | .fsync | .cutoff => true

section
variable {s t : SyncState}

theorem covered_of_clean (h : s.aol.file.Clean) : s.Covered := by
  intro hc
  obtain ⟨c, hc, hn⟩ := hc
  exact absurd ((h c hc).symm.trans hn) (by simp)

theorem synced_covered (s : SyncState) (now : Nat) : (s.synced now).Covered := by
  apply covered_of_clean
  unfold synced
  split
  · exact s.aol.file.clean_syncAll
  · exact s.aol.file.clean_syncAll

theorem writeRecords_covered {records : List Record} {now : Nat}
    (h : (s.shouldSync now || decide (s.aol.pendingSyncs < u64Max)) = true) :
    (s.writeRecords records now).Covered := by
  unfold writeRecords
  dsimp only
  split
  · exact synced_covered _ now
  · rename_i hs
    intro _
    have hlt : s.aol.pendingSyncs < u64Max := by simpa [hs] using h
    change 0 < (s.aol.pendingSyncs + 1) % (u64Max + 1)
    rw [Nat.mod_eq_of_lt (Nat.succ_lt_succ hlt)]
    exact Nat.succ_pos _

theorem fsyncCheck_covered (h : s.Covered) : s.fsyncCheck.Covered := by
  unfold fsyncCheck
  split
  · exact covered_of_clean s.aol.file.clean_syncAll
  · exact h

/-- The copies a truncation writes are counted exactly when the counter has a reason to stand. -/
theorem truncate_covered_iff {aol : Aol} {mode : FsyncMode} {last : Nat} {runs : List (Option Nat)}
    {position : Nat} (h : s.aol.truncate position io = (aol, .ok ())) :
    Covered ⟨mode, aol, last, runs⟩ ↔
      s.aol.file.cells.length ≤ position ∨ 0 < position ∧ 0 < s.aol.pendingSyncs := by
  obtain ⟨hp, hcells⟩ := Aol.truncate_cases h
  unfold Covered
  rw [hp, hcells]
  split
  · rename_i hlt
    have hne : s.aol.file.content.drop position ≠ [] := by
      intro hnil
      have hle := List.drop_eq_nil_iff.1 hnil
      rw [File.content, List.length_map] at hle
      omega
    obtain ⟨b, hb⟩ := List.exists_mem_of_ne_nil _ hne
    have hdirty : ∃ c ∈ s.aol.file.cells ++
        (s.aol.file.content.drop position).map (⟨·, false⟩ : UInt8 → Cell UInt8),
        c.synced = false := by
      refine ⟨⟨b, false⟩, ?_, rfl⟩
      exact List.mem_append_right _ (List.mem_map.2 ⟨b, hb, rfl⟩)
    split
    · rename_i h0
      subst h0
      constructor
      · intro hc
        exact absurd (hc hdirty) (Nat.lt_irrefl 0)
      · intro hc
        omega
    · rename_i h0
      constructor
      · intro hc
        exact .inr ⟨Nat.pos_of_ne_zero h0, hc hdirty⟩
      · intro hc _
        omega
  · rename_i hle
    constructor
    · intro _
      exact .inl (Nat.not_lt.1 hle)
    · intro _ hc
      obtain ⟨c, hc, -⟩ := hc
      cases hc

theorem Covered.step (h : s.Covered) (hg : s.counted a = true) (hs : s.step a = some t) :
    t.Covered := by
  cases a with
  | append version writeset now =>
    simp only [SyncState.step, Option.some.injEq] at hs
    subst hs
    exact writeRecords_covered hg
  | batch ops now =>
    simp only [SyncState.step] at hs
    split at hs
    · cases hs
    · simp only [Option.some.injEq] at hs
      subst hs
      exact writeRecords_covered hg
  | fsync =>
    simp only [SyncState.step] at hs
    split at hs
    · simp only [Option.some.injEq] at hs
      subst hs
      exact fsyncCheck_covered h
    · cases hs
  | cutoff =>
    simp only [SyncState.step, Option.some.injEq] at hs
    subst hs
    exact h
  | truncate i io =>
    simp only [SyncState.step, SyncState.counted] at hs hg
    split at hs
    · cases hs
    · rename_i position hi
      rw [hi] at hg
      split at hs
      · rename_i aol hok
        simp only [Option.some.injEq] at hs
        subst hs
        apply (truncate_covered_iff hok).2
        simpa using hg
      · cases hs

end

/-- In every run whose truncations keep the counter up, unsynced bytes of the AOL are counted. -/
theorem covered_of_run {s : SyncState} {mode : FsyncMode}
    (h : Execution.Run step (fun s a => counted s a = true) (.opened mode content clock) s) :
    s.Covered := by
  apply h.invariant
  · intro s a t hs hg ht
    exact hs.step hg ht
  · apply covered_of_clean
    intro c hc
    obtain ⟨b, -, rfl⟩ := List.mem_map.1 hc
    rfl

/-- A commit of one key, a moment after the start. -/
def oneAppend : SyncAction := .append 3 ((∅ : Writeset).insert [1] (some [7])) 1

/-- One commit before the cutoff and one behind it. -/
theorem covered_secondAppend :
    ∃ s, Execution.Run step (fun s a => counted s a = true) (.opened (.interval 10) [] 0) s ∧
      s.aol.file.content.length = 18 ∧ s.aol.pendingSyncs = 2 ∧ s.Covered := by
  have hrun : (Execution.exec (fun s a => if counted s a then step s a else none)
      (.opened (.interval 10) [] 0) [oneAppend, .cutoff, oneAppend, .truncate 0 .flawless]).map
        (fun s => decide (s.aol.file.content.length = 18 ∧ s.aol.pendingSyncs = 2)) =
        some true := by
    decide +kernel
  obtain ⟨s, hs, hb⟩ := Execution.exec_check hrun
  obtain ⟨hlen, hp⟩ := of_decide_eq_true hb
  exact ⟨s, .of_guarded hs, hlen, hp, covered_of_run (.of_guarded hs)⟩

/-- A commit lands while a snapshot of the empty log runs: its bytes stay, the count does not. -/
theorem not_covered_emptyCutoff :
    ¬ ∀ mode content clock s, mode ≠ .everyAppend →
      Execution.Run step (fun _ _ => True) (.opened mode content clock) s → s.Covered := by
  intro hall
  have hrun : (Execution.exec step (.opened (.interval 10) [] 0)
      [.cutoff, oneAppend, .truncate 0 .flawless]).map (fun s => decide (¬ s.Covered)) =
        some true := by
    decide +kernel
  obtain ⟨s, hs, hb⟩ := Execution.exec_check hrun
  exact of_decide_eq_true hb (hall _ _ _ s (by simp) (.of_exec hs))

end SyncState

end StupidKv
