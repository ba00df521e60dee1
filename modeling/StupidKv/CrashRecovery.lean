import StupidKv.Compression
import StupidKv.Durability

namespace StupidKv
open Std Timeline Processes
set_option autoImplicit true

/-- A run that has recorded its cutoff and not yet used it. -/
def SnapshotRun.cutoff : SnapshotRun → Option Cutoff
  | encoding _ cutoff _ _ | flushed cutoff | renamed cutoff => some cutoff
  | _ => none

theorem SnapshotRun.ne_done {run : SnapshotRun} {cut : Cutoff} (h : run.cutoff = some cut) :
    run ≠ .done := by
  rintro rfl
  cases h

namespace Store

/-- Commits run one at a time, and so do snapshots. -/
def serial (s : Store) : StoreAction → Bool
  | .commit .. => s.commits.all CommitRun.isReturned
  | .snapshot => s.disk.runs.all fun run => decide (run = .done)
  | _ => true

/-- At most one commit and one snapshot run are in flight, and the run's cutoff is not stale. -/
structure Solo (s : Store) : Prop where
  commit : ∀ (i j : Nat) c c', s.commits[i]? = some c → s.commits[j]? = some c' →
    c.isReturned = false → c'.isReturned = false → i = j
  run : ∀ (i j : Nat) r r', s.disk.runs[i]? = some r → s.disk.runs[j]? = some r' →
    r ≠ .done → r' ≠ .done → i = j
  fresh : ∀ r ∈ s.disk.runs, ∀ cutoff, r.cutoff = some cutoff → cutoff.cleared = s.disk.cleared

section
variable {fmt : Format} {s t : Store} {a : StoreAction} {i : Nat}

theorem not_returned {c : CommitRun} (h : c.isLogged = false) : c.isReturned = false := by
  cases c with
  | writing version writeset pending => rfl
  | logged version writeset => cases h
  | returned version writeset => cases h

theorem Solo.pushesInOrder (h : s.Solo) (hi : s.commits[i]? = some (.writing version writeset rest))
    (key : Bytes) : s.pushesInOrder version key = true := by
  refine List.all_eq_true.2 fun c hc => ?_
  obtain ⟨j, hj⟩ := List.mem_iff_getElem?.1 hc
  cases hr : c.isLogged with
  | true => simp [pending_of_isLogged hr]
  | false =>
    obtain rfl := h.commit i j _ c hi hj rfl (not_returned hr)
    rw [hi] at hj
    cases hj
    simp [CommitRun.version]

theorem Solo.logsInOrder (h : s.Solo) (hi : s.commits[i]? = some (.writing version writeset rest))
    (ws : Writeset) : s.logsInOrder version ws = true := by
  refine List.all_eq_true.2 fun c hc => ?_
  obtain ⟨j, hj⟩ := List.mem_iff_getElem?.1 hc
  cases hr : c.isLogged with
  | true => rfl
  | false =>
    obtain rfl := h.commit i j _ c hi hj rfl (not_returned hr)
    rw [hi] at hj
    cases hj
    simp [CommitRun.version]

theorem Solo.orderly (h : s.Solo) (hg : s.serial a = true) : s.orderly .any a = true := by
  cases a with
  | push i =>
    simp only [Store.orderly]
    split
    · rename_i hi
      exact h.pushesInOrder hi _
    · rfl
  | append i =>
    simp only [Store.orderly]
    split
    · rename_i hi
      rw [h.logsInOrder hi]
      simp [FirstKeys.any]
    · rfl
  | snapshot =>
    refine List.all_eq_true.2 fun run hr => ?_
    rw [of_decide_eq_true (List.all_eq_true.1 hg run hr)]
    rfl
  | run i chunk =>
    simp only [Store.orderly]
    split
    · simp [FirstKeys.any]
    · rename_i cutoff hi
      rw [h.fresh _ (List.mem_of_getElem? hi) cutoff rfl]
      simp
    · rfl
  | _ => rfl

theorem Solo.moveCommit {c c' : CommitRun} (h : s.Solo) (hi : s.commits[i]? = some c)
    (hr : c.isReturned = false) (hc : t.commits = s.commits.set i c') (hd : t.disk.runs = s.disk.runs)
    (hk : t.disk.cleared = s.disk.cleared) : t.Solo where
  commit := by
    intro j k x y hj hk hx hy
    rw [hc] at hj hk
    rcases getElem?_set_cases hj with ⟨rfl, -⟩ | ⟨-, hj⟩
    · rcases getElem?_set_cases hk with ⟨rfl, -⟩ | ⟨-, hk⟩
      · rfl
      · exact h.commit i k c y hi hk hr hy
    · rcases getElem?_set_cases hk with ⟨rfl, -⟩ | ⟨-, hk⟩
      · exact h.commit j i x c hj hi hx hr
      · exact h.commit j k x y hj hk hx hy
  run := by
    rw [hd]
    exact h.run
  fresh := by
    rw [hd, hk]
    exact h.fresh

theorem Solo.moveRun {run run' : SnapshotRun} {disk : Disk} (h : s.Solo)
    (hi : s.disk.runs[i]? = some run) (hr : run ≠ .done) (hd : disk.runs = s.disk.runs.set i run')
    (hc : ∀ cutoff, run'.cutoff = some cutoff → cutoff.cleared = disk.cleared) : Solo { s with disk := disk } where
  commit := h.commit
  run := by
    intro j k x y hj hk hx hy
    change disk.runs[j]? = some x at hj
    change disk.runs[k]? = some y at hk
    rw [hd] at hj hk
    rcases getElem?_set_cases hj with ⟨rfl, -⟩ | ⟨-, hj⟩
    · rcases getElem?_set_cases hk with ⟨rfl, -⟩ | ⟨-, hk⟩
      · rfl
      · exact h.run i k run y hi hk hr hy
    · rcases getElem?_set_cases hk with ⟨rfl, -⟩ | ⟨-, hk⟩
      · exact h.run j i x run hj hi hx hr
      · exact h.run j k x y hj hk hx hy
  fresh := by
    intro r hm cutoff hcut
    change r ∈ disk.runs at hm
    rw [hd] at hm
    rcases (mem_set_iff hi _ r).1 hm with rfl | ⟨j, hij, hj⟩
    · exact hc cutoff hcut
    · have hne := SnapshotRun.ne_done hcut
      exact absurd (h.run i j run r hi hj hr hne) hij

theorem Solo.new (referenceUnix resetThreshold : Nat) : Solo (.new referenceUnix resetThreshold) where
  commit := by simp [Store.new]
  run := by simp [Store.new, Disk.new]
  fresh := by simp [Store.new, Disk.new]

theorem Solo.runStep {chunk : Nat} {disk : Disk} {run : SnapshotRun} (h : s.Solo)
    (hi : s.disk.runs[i]? = some run)
    (hs : s.disk.runStep fmt s.db.datastore s.log.length i chunk run = some disk) :
    Solo { s with disk := disk } := by
  have hfresh := h.fresh _ (List.mem_of_getElem? hi)
  cases run with
  | created inode =>
    obtain ⟨-, hs⟩ := Option.ite_none_left_eq_some.1 hs
    cases hs
    refine h.moveRun hi (by simp) rfl fun cut hc => ?_
    cases hc
    rfl
  | encoding inode cut cursor stream =>
    have hcut := hfresh cut rfl
    simp only [Disk.runStep] at hs
    split at hs
    · split at hs
      · cases hs
        refine h.moveRun hi (by simp) rfl fun cut hc => ?_
        cases hc
        exact hcut
      · obtain ⟨-, hs⟩ := Option.ite_none_right_eq_some.1 hs
        cases hs
        refine h.moveRun hi (by simp) rfl fun cut hc => ?_
        cases hc
        exact hcut
    · cases hs
      refine h.moveRun hi (by simp) rfl fun cut hc => ?_
      cases hc
      exact hcut
  | flushed cut =>
    have hcut := hfresh cut rfl
    simp only [Disk.runStep] at hs
    split at hs
    · cases hs
      refine h.moveRun hi (by simp) rfl fun cut hc => ?_
      cases hc
      exact hcut
    · cases hs
      exact h.moveRun hi (by simp) rfl (by simp [SnapshotRun.cutoff])
  | renamed cut =>
    simp only [Disk.runStep, Option.ite_none_left_eq_some] at hs
    obtain ⟨-, hs⟩ := hs
    split at hs
    · cases hs
      exact h.moveRun hi (by simp) rfl (by simp [SnapshotRun.cutoff])
    · cases hs
      exact h.moveRun hi (by simp) rfl (by simp [SnapshotRun.cutoff])
  | copying rest =>
    simp only [Disk.runStep] at hs
    split at hs
    · cases hs
      exact h.moveRun hi (by simp) rfl (by simp [SnapshotRun.cutoff])
    · cases hs
      exact h.moveRun hi (by simp) rfl (by simp [SnapshotRun.cutoff])
  | failed =>
    cases hs
    exact h.moveRun hi (by simp) rfl (by simp [SnapshotRun.cutoff])
  | done => cases hs

theorem Disk.createTemp_frame (d : Disk) : d.createTemp.cleared = d.cleared ∧
    ∃ inode, d.createTemp.runs = d.runs ++ [.created inode] := by
  unfold Disk.createTemp
  split <;> exact ⟨rfl, _, rfl⟩

theorem Solo.step (h : s.Solo) (hg : s.serial a = true) (hs : s.step fmt a = some t) : t.Solo := by
  cases a with
  | commit writeset now =>
    simp only [Store.step, Option.ite_none_left_eq_some] at hs
    obtain ⟨-, hs⟩ := hs
    obtain ⟨⟨db, version⟩, hm, hs⟩ := Option.bind_eq_some_iff.1 hs
    obtain ⟨-, hs⟩ := Option.ite_none_right_eq_some.1 hs
    cases hs
    refine ⟨?_, h.run, h.fresh⟩
    intro j k x y hj hk hx hy
    have hlast : ∀ {n : Nat} {z}, (s.commits ++ [.writing version writeset writeset.toList])[n]? =
        some z → z.isReturned = false → n = s.commits.length := by
      intro n z hn hz
      rcases getElem?_concat_cases hn with hn | ⟨hn, -⟩
      · rw [List.all_eq_true.1 hg z (List.mem_of_getElem? hn)] at hz
        cases hz
      · exact hn
    exact (hlast hj hx).trans (hlast hk hy).symm
  | push i =>
    simp only [Store.step] at hs
    split at hs
    · rename_i hi
      cases hs
      exact h.moveCommit hi rfl rfl rfl rfl
    · cases hs
  | append i =>
    simp only [Store.step] at hs
    split at hs
    · rename_i hi
      obtain ⟨-, hs⟩ := Option.ite_none_left_eq_some.1 hs
      cases hs
      exact h.moveCommit hi rfl rfl rfl rfl
    · cases hs
  | remove i =>
    simp only [Store.step] at hs
    split at hs
    · rename_i hi
      cases hs
      exact h.moveCommit hi rfl rfl rfl rfl
    · cases hs
  | gc cleanupTs key =>
    cases hs
    exact ⟨h.commit, h.run, h.fresh⟩
  | snapshot =>
    cases hs
    obtain ⟨hc, inode, hr⟩ := Disk.createTemp_frame s.disk
    have hdone : ∀ r ∈ s.disk.runs, r = .done :=
      fun r hm => of_decide_eq_true (List.all_eq_true.1 hg r hm)
    have hlast : ∀ {n : Nat} {r}, s.disk.createTemp.runs[n]? = some r → r ≠ .done →
        n = s.disk.runs.length ∧ r = .created inode := by
      intro n r hn hne
      rw [hr] at hn
      rcases getElem?_concat_cases hn with hn | ⟨hlen, rfl⟩
      · exact absurd (hdone r (List.mem_of_getElem? hn)) hne
      · exact ⟨hlen, rfl⟩
    refine ⟨h.commit, ?_, ?_⟩
    · intro j k x y hj hk hx hy
      exact (hlast hj hx).1.trans (hlast hk hy).1.symm
    · intro r hm cut hcut
      obtain ⟨n, hn⟩ := List.mem_iff_getElem?.1 hm
      obtain ⟨-, rfl⟩ := hlast hn (SnapshotRun.ne_done hcut)
      cases hcut
  | run i chunk =>
    obtain ⟨run, hi, hs⟩ := Option.bind_eq_some_iff.1 hs
    obtain ⟨disk, hd, hs⟩ := Option.bind_eq_some_iff.1 hs
    cases hs
    exact h.runStep hi hd

theorem Durable.of_serial (hf : fmt.RoundTrips)
    (h : Execution.Run (Store.step fmt) (fun s a => s.serial a = true)
      (.new referenceUnix resetThreshold) s) : Durable fmt .any s := by
  have hs : Durable fmt .any s ∧ s.Solo := by
    induction h with
    | refl => exact ⟨.new referenceUnix resetThreshold, .new referenceUnix resetThreshold⟩
    | step _ hg ht ih => exact ⟨ih.1.step hf.reads (ih.2.orderly hg) ht, ih.2.step hg ht⟩
  exact hs.1

end

/-- Whatever the crash point, `load` finds for every key the newest write that reached the log, or
a newer one of the commit in flight. -/
theorem recoversKeys_of_serial {fmt : Format} (hf : fmt.RoundTrips) (referenceUnix resetThreshold : Nat)
    {s : Store} (h : Execution.Run (Store.step fmt) (fun s a => s.serial a = true)
      (.new referenceUnix resetThreshold) s) : s.RecoversKeys fmt :=
  (Durable.of_serial hf h).recoversKeys hf.reads

def write (key value : Bytes) : Writeset := (∅ : Writeset).insert key (some value)

/-- One commit of a single key, from its version to its return. -/
def wholeCommit (i : Nat) (writeset : Writeset) : List StoreAction :=
  [.commit writeset 1, .push i, .append i, .remove i]

def advance (i n : Nat) : List StoreAction := List.replicate n (.run i 0)

/-- A snapshot starts after the first commit and copies the second one's record back; the crash
comes inside the copy and finds a third commit in flight. -/
def crashed : List StoreAction :=
  wholeCommit 0 (write [1] [5]) ++ .snapshot :: advance 0 2 ++ wholeCommit 1 (write [2] [6]) ++
    .gc 9 [1] :: advance 0 6 ++ [.commit (write [1] [7]) 1, .push 2]

def isCopying (s : Store) : Bool :=
  s.disk.locked && s.commits.any fun c => !c.isLogged

theorem recoversKeys_crashed :
    ∃ s, Execution.Run (Store.step Format.plain) (fun s a => s.serial a = true) (.new 0 100) s ∧
      s.isCopying = true ∧ s.RecoversKeys Format.plain := by
  have hrun : (Execution.exec (fun s a => if s.serial a then Store.step Format.plain s a else none)
      (.new 0 100) crashed).map isCopying = some true := by
    decide +kernel
  obtain ⟨s, hs, hb⟩ := Execution.exec_check hrun
  exact ⟨s, .of_guarded hs, hb, recoversKeys_of_serial Format.plain_roundTrips 0 100 (.of_guarded hs)⟩

end Store

end StupidKv
