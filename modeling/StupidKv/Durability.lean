import StupidKv.MemorySteps

namespace StupidKv
open Std Timeline Processes
set_option autoImplicit true

theorem head?_all_take {l : List α} {p : α → Bool} (h : l.head?.all p = true) (n : Nat) :
    (l.take n).head?.all p = true := by
  cases n with
  | zero => rfl
  | succ n =>
    cases l with
    | nil => rfl
    | cons a l => exact h

theorem Format.Reads.read_append {fmt : Format} {keys : FirstKeys} (hf : fmt.Reads keys)
    {l l' : List Record} (hv : ∀ r ∈ l ++ l', fmt.record.valid r)
    (hk : ((l ++ l').head?.all fun r => keys.aol r.1) = true) (hp : p <+: fmt.record.encodeAll l') :
    fmt.aolReader (fmt.record.encodeAll l ++ p) = .ok (fmt.record.encodeAll l ++ p) := by
  refine hf.aol (l ++ l') _ hv hk ?_
  rw [Framing.Codec.encodeAll_append]
  exact (List.prefix_append_right_inj _).2 hp

namespace Shape

section
variable {fmt : Format} {keys : FirstKeys} {P : Bytes → Set (Nat × Option Bytes)} {log recs : List Record}
  {mark c : Nat} {d : Disk}

/-- The AOL decodes to its records, some of them repeated when a copy was cut short. -/
theorem decoded (hshape : Shape fmt keys P log mark c recs d) (hf : fmt.Reads keys)
    (hv : ∀ r ∈ log, fmt.record.valid r) :
    ∃ recs', decodeFile fmt.record fmt.aolReader (some d.aol) = .ok recs' ∧
      (∀ r, r ∈ recs' ↔ r ∈ log.drop c) ∧ Replayable recs' := by
  have hpart : ∃ part extra, d.aol = fmt.record.encodeAll recs ++ part ∧
      part <+: fmt.record.encodeAll extra ∧ extra ⊆ recs := by
    cases hshape.aol with
    | whole _ ha => exact ⟨[], [], by rw [ha, List.append_nil], List.nil_prefix, by simp⟩
    | copying i rest part extra _ _ ha hp he => exact ⟨part, extra, ha, ⟨rest, hp⟩, he⟩
  obtain ⟨part, extra, ha, hp, he⟩ := hpart
  have hrecs : ∀ r ∈ recs, fmt.record.valid r :=
    fun r hr => hv r (List.mem_of_mem_drop ((hshape.held r).1 hr))
  have hboth : ∀ r ∈ recs ++ extra, fmt.record.valid r := by
    intro r hr
    rcases List.mem_append.1 hr with hr | hr
    · exact hrecs r hr
    · exact hrecs r (he hr)
  have hfirst : ((recs ++ extra).head?.all fun r => keys.aol r.1) = true := by
    refine head?_all_append hshape.first fun hr => ?_
    rw [hr] at he
    rw [List.eq_nil_of_subset_nil he]
    rfl
  obtain ⟨n, hn⟩ := decodeFile_cut hboth (hf.read_append hboth hfirst hp) hp
  have htake : extra.take n ⊆ recs := fun r hr => he (List.mem_of_mem_take hr)
  refine ⟨recs ++ extra.take n, by rw [ha, hn], ?_, hshape.replayable.repeated htake⟩
  intro r
  rw [List.mem_append, ← hshape.held r]
  exact ⟨fun hr => hr.elim id fun hr => htake hr, .inl⟩

theorem recovers (hshape : Shape fmt keys P log mark c recs d) (hf : fmt.Reads keys)
    (hv : ∀ r ∈ log, fmt.record.valid r) (ho : LogOrdered log) (hP : ∀ key v y, (key, v, y) ∈ log → (v, y) ∈ P key) :
    ∃ ds, load fmt (d.file d.snapshot) (some d.aol) = .ok ds ∧
      ∀ key, Reflects (P key) (stamps log key) (chainAt ds key) := by
  obtain ⟨recs', hd, held, hr⟩ := hshape.decoded hf hv
  obtain ⟨entries, he, hent⟩ := hshape.snapshot
  refine ⟨_, ?_, fun key => hent.replay held hr hshape.covered ho hP key⟩
  simp only [load, hf.decodeFile_snapshot he hent.valid hent.first, hd]
  rfl

/-- A crash inside an append leaves some of its records. -/
theorem recovers_torn {new : List Record} (hshape : Shape fmt keys P log mark c recs d)
    (hf : fmt.Reads keys) (hl : d.locked = false)
    (hk : d.aol = [] → (new.head?.all fun r => keys.aol r.1) = true)
    (hv : ∀ r ∈ log ++ new, fmt.record.valid r) (ho : LogOrdered (log ++ new))
    (hP : ∀ key v y, (key, v, y) ∈ log ++ new → (v, y) ∈ P key)
    (hp : p <+: fmt.record.encodeAll new) :
    ∃ ds, load fmt (d.file d.snapshot) (some (d.aol ++ p)) = .ok ds ∧
      ∀ key, Reflects (P key) (stamps log key) (chainAt ds key) := by
  have hrecs : ∀ r ∈ recs ++ new, fmt.record.valid r := by
    intro r hr
    rcases List.mem_append.1 hr with hr | hr
    · exact hv r (List.mem_append_left _ (List.mem_of_mem_drop ((hshape.held r).1 hr)))
    · exact hv r (List.mem_append_right _ hr)
  have haol := hshape.unlocked hl
  have hfirst : ((recs ++ new).head?.all fun r => keys.aol r.1) = true :=
    head?_all_append hshape.first fun hr => hk (by rw [haol, hr]; rfl)
  obtain ⟨n, hn⟩ := decodeFile_cut hrecs (hf.read_append hrecs hfirst hp) hp
  have hsub : (log ++ new.take n).Sublist (log ++ new) := (List.take_sublist n new).append_left log
  have hshape' := hshape.append hl (ho.sublist hsub) fun he => head?_all_take (hk he) n
  obtain ⟨ds, hds, hrefl⟩ := hshape'.recovers hf (fun r hr => hv r (hsub.subset hr))
    (ho.sublist hsub) fun key v y hr => hP key v y (hsub.subset hr)
  refine ⟨ds, ?_, fun key => (hrefl key).mono Set.Subset.rfl ?_⟩
  · have hwhole : decodeFile fmt.record fmt.aolReader
        (some (d.aol ++ fmt.record.encodeAll (new.take n))) = .ok (recs ++ new.take n) := by
      have hsome : ∀ r ∈ recs ++ new.take n, fmt.record.valid r := fun r hr =>
        hrecs r (((List.take_sublist n new).append_left recs).subset hr)
      rw [haol, ← Framing.Codec.encodeAll_append]
      exact decodeFile_encodeAll hsome (hf.aol _ _ hsome hshape'.first List.prefix_rfl)
        (fmt.record.eq_nil_of_encodeAll hsome)
    rw [← hds]
    change load fmt _ _ = load fmt (d.file d.snapshot) _
    unfold load
    rw [hwhole, haol, hn]
  · rw [stamps_append]
    exact Set.subset_union_left

end

end Shape

namespace Store

/-- Writes of one key are pushed and logged in the order of their versions, no snapshot run starts
while another one builds its file, and none truncates by a cutoff from before the AOL was last
emptied, unless the AOL is empty. Neither file begins with a key outside of `keys`. -/
def orderly (keys : FirstKeys) (s : Store) : StoreAction → Bool
  | .push i =>
    match s.commits[i]? with
    | some (.writing version _ (e :: _)) => s.pushesInOrder version e.1
    | _ => true
  | .append i =>
    match s.commits[i]? with
    | some (.writing version writeset []) => s.logsInOrder version writeset &&
      (!s.disk.aol.isEmpty || (recordsOf version writeset).head?.all fun r => keys.aol r.1)
    | _ => true
  | .snapshot => s.disk.runs.all fun run => !run.building
  | .run i _ =>
    match s.disk.runs[i]? with
    | some (.encoding _ _ cursor []) =>
      (Disk.nextEntry s.db.datastore cursor).all fun e =>
        e.2.allVersions.isEmpty || keys.snapshot e.1
    | some (.renamed cutoff) => decide (cutoff.cleared = s.disk.cleared) || s.disk.aol.isEmpty
    | _ => true
  | _ => true

/-- The disk holds what memory has logged. -/
structure Durable (fmt : Format) (keys : FirstKeys) (s : Store) : Prop where
  sound : s.Sound
  shape : ∃ mark c recs, Shape fmt keys s.pushed s.log mark c recs s.disk

section
variable {fmt : Format} {keys : FirstKeys} {s t : Store} {a : StoreAction}

theorem Sound.valid (h : s.Sound) (hf : fmt.Reads keys) : ∀ r ∈ s.log, fmt.record.valid r := by
  intro r hr
  obtain ⟨c, hc, -, hr⟩ := (h.log r).1 hr
  exact hf.record r (h.fits c hc r hr)

theorem Sound.mem_pushed (h : s.Sound) (key : Bytes) (v : Nat) (y : Option Bytes)
    (hr : (key, v, y) ∈ s.log) : (v, y) ∈ s.pushed key :=
  s.loggedWrites_subset key (h.mem_log.1 hr)

theorem Durable.new (referenceUnix resetThreshold : Nat) :
    Durable fmt keys (.new referenceUnix resetThreshold) where
  sound := .new referenceUnix resetThreshold
  shape := by
    refine ⟨0, 0, [], ?_⟩
    exact {
      held := by simp [Store.new]
      replayable := by
        intro a r b he
        simp at he
      first := rfl
      covered := le_rfl
      marked := Nat.zero_le _
      aol := .whole rfl rfl
      snapshot := by
        refine ⟨[], .inl ⟨rfl, rfl⟩, by simp, rfl, ?_, fun _ hk => absurd trivial hk⟩
        intro key _
        refine .unwritten ?_ (by simp [loadedChain, chainAt])
        rintro v ⟨y, hy⟩
        cases hy
      runs := by simp [Store.new, Disk.new]
      sole := by simp [Store.new, Disk.new]
      idle := fun _ => rfl
      apart := fun i hi => by cases hi
      named := fun i hi => by cases hi }

theorem opens_of_orderly {aol : Bytes} {b : Bool} (h : aol.isEmpty = false ∨ b = true)
    (he : aol = []) : b = true := by
  rw [he] at h
  exact h.resolve_left (by simp)

theorem Durable.runStep {i chunk : Nat} {disk : Disk} {run : SnapshotRun} (h : Durable fmt keys s)
    (hf : fmt.Reads keys) (hg : s.orderly keys (.run i chunk) = true) (hi : s.disk.runs[i]? = some run)
    (hs : s.disk.runStep fmt s.db.datastore s.log.length i chunk run = some disk) :
    ∃ mark c recs, Shape fmt keys s.pushed s.log mark c recs disk := by
  obtain ⟨mark, c, recs, hshape⟩ := h.shape
  cases run with
  | created inode =>
    simp only [Disk.runStep, Option.ite_none_left_eq_some, Bool.not_eq_true] at hs
    obtain ⟨hl, hs⟩ := hs
    cases hs
    exact ⟨mark, c, recs, hshape.recordCutoff hi hl⟩
  | encoding inode cutoff cursor stream =>
    simp only [Disk.runStep] at hs
    split at hs
    · rename_i key versions hn
      have hk : versions.allVersions ≠ [] → stream = [] → keys.snapshot key = true := by
        rintro hne rfl
        simp only [orderly, hi, hn, Option.all_some, Bool.or_eq_true, List.isEmpty_iff] at hg
        exact hg.resolve_left hne
      have henc := fun hv => hshape.encode hi h.sound.reflects hn hv hk
      by_cases he : versions.allVersions = []
      · have hempty : versions.allVersions.isEmpty = true := by rw [he]; rfl
        rw [if_pos hempty] at hs
        cases hs
        have henc := henc fun hne => absurd he hne
        rw [if_pos he] at henc
        exact ⟨mark, c, recs, henc⟩
      · have hempty : versions.allVersions.isEmpty = false := by simpa using he
        rw [hempty, if_neg Bool.false_ne_true, Option.ite_none_right_eq_some] at hs
        obtain ⟨hfit, hs⟩ := hs
        cases hs
        have henc := henc fun _ => hf.entry _ hfit
        rw [if_neg he] at henc
        exact ⟨mark, c, recs, henc⟩
    · rename_i hn
      cases hs
      exact ⟨mark, c, recs, hshape.flush hi h.sound.reflects hn⟩
  | flushed cutoff =>
    obtain ⟨-, -, inode, -, ht, -⟩ := hshape.runs i _ hi
    simp only [Disk.runStep, ht, Option.some.injEq] at hs
    cases hs
    exact ⟨_, c, recs, hshape.rename hi ht⟩
  | renamed cutoff =>
    simp only [Disk.runStep, Option.ite_none_left_eq_some, Bool.not_eq_true] at hs
    obtain ⟨hl, hs⟩ := hs
    simp only [orderly, hi, Bool.or_eq_true, decide_eq_true_eq, List.isEmpty_iff] at hg
    split at hs
    · rename_i hlen
      cases hs
      have hc : cutoff.cleared = s.disk.cleared := by
        rcases hg with hg | hg
        · exact hg
        · rw [hg] at hlen
          cases hlen
      exact ⟨mark, c, recs, hshape.startCopy hi hl hc⟩
    · rename_i hlen
      cases hs
      have hv : ∀ r ∈ recs, fmt.record.valid r := fun r hr =>
        h.sound.valid hf r (List.mem_of_mem_drop ((hshape.held r).1 hr))
      obtain ⟨c', hc'⟩ := hshape.clear hi hl hv hlen hg
      exact ⟨mark, c', [], hc'⟩
  | copying rest =>
    simp only [Disk.runStep] at hs
    split at hs
    · rename_i he
      cases hs
      rw [List.isEmpty_iff] at he
      subst he
      obtain ⟨recs', h'⟩ := hshape.endCopy hi
      exact ⟨mark, c, recs', h'⟩
    · cases hs
      exact ⟨mark, c, recs, hshape.copy hi (chunk + 1)⟩
  | failed => exact absurd (hshape.runs i _ hi) id
  | done => cases hs

theorem Durable.step (h : Durable fmt keys s) (hf : fmt.Reads keys) (hg : s.orderly keys a = true)
    (hs : s.step fmt a = some t) : Durable fmt keys t := by
  obtain ⟨mark, c, recs, hshape⟩ := h.shape
  cases a with
  | commit writeset now =>
    simp only [step, Option.ite_none_left_eq_some] at hs
    obtain ⟨-, hs⟩ := hs
    obtain ⟨⟨db, version⟩, hm, hs⟩ := Option.bind_eq_some_iff.1 hs
    obtain ⟨hfits, hs⟩ := Option.ite_none_right_eq_some.1 hs
    cases hs
    obtain ⟨hlt, hdb⟩ := Inner.atomicMerge_cases hm
    obtain ⟨hpush, hsound⟩ := h.sound.commit db hlt (by rw [hdb]) (by rw [hdb])
      (List.all_eq_true.1 hfits)
    refine ⟨hsound, mark, c, recs, ?_⟩
    rw [hpush]
    exact hshape
  | push i =>
    simp only [step] at hs
    split at hs
    · rename_i version writeset e rest hi
      cases hs
      simp only [orderly, hi] at hg
      refine ⟨h.sound.push hi hg, mark, c, recs, hshape.mono fun key => ?_⟩
      rw [pushed_push (t := { s with
        db := s.db.writeKey version e
        commits := s.commits.set i (.writing version writeset rest) }) h.sound hi rfl key]
      split
      · exact Set.subset_insert _ _
      · exact Set.Subset.rfl
    · cases hs
  | append i =>
    simp only [step] at hs
    split at hs
    · rename_i version writeset hi
      obtain ⟨hl, hs⟩ := Option.ite_none_left_eq_some.1 hs
      cases hs
      simp only [orderly, hi, Bool.and_eq_true, Bool.or_eq_true, Bool.not_eq_true'] at hg
      obtain ⟨hpush, hsound⟩ := h.sound.append hi hg.1
      refine ⟨hsound, mark, c, recs ++ recordsOf version writeset, ?_⟩
      rw [hpush]
      exact hshape.append (Bool.not_eq_true _ ▸ hl) (h.sound.append_ordered hi) (opens_of_orderly hg.2)
    · cases hs
  | remove i =>
    simp only [step] at hs
    split at hs
    · rename_i version writeset hi
      cases hs
      refine ⟨h.sound.remove hi, mark, c, recs, ?_⟩
      have hpush : Store.pushed { s with
          db := s.db.removeMerge version
          commits := s.commits.set i (.returned version writeset) } = s.pushed :=
        pushed_set hi rfl rfl rfl rfl
      rw [hpush]
      exact hshape
    · cases hs
  | gc cleanupTs key =>
    cases hs
    exact ⟨h.sound.gc cleanupTs key, mark, c, recs, hshape⟩
  | snapshot =>
    cases hs
    simp only [orderly, List.all_eq_true, Bool.not_eq_true'] at hg
    exact ⟨h.sound.disk _, mark, c, recs, hshape.createTemp hg⟩
  | run i chunk =>
    obtain ⟨run, hi, hs⟩ := Option.bind_eq_some_iff.1 hs
    obtain ⟨disk, hd, hs⟩ := Option.bind_eq_some_iff.1 hs
    cases hs
    exact ⟨h.sound.disk disk, h.runStep hf hg hi hd⟩

end

/-- The AOL a crash leaves behind: as it was, or with the first bytes of an append that the guard
lets through. -/
inductive Crash (fmt : Format) (guard : StoreAction → Bool) (s : Store) : Bytes → Prop
  | between : Crash fmt guard s s.disk.aol
  | torn {i : Nat} (hi : s.commits[i]? = some (.writing version writeset []))
      (hl : s.disk.locked = false) (hg : guard (.append i) = true)
      (hp : p <+: fmt.record.encodeAll (recordsOf version writeset)) :
      Crash fmt guard s (s.disk.aol ++ p)

/-- `x` is the value of the newest write of `key` among the commits whose append completed, or of
a newer write of one in flight. -/
def Survives (s : Store) (key : Bytes) (x : Option Bytes) : Prop :=
  Visible (s.loggedWrites key) u64Max x ∨
    ∃ v, (v, x) ∈ s.openWrites key ∧ ∀ p ∈ s.loggedWrites key, p.1 < v

def RecoversKeys (fmt : Format) (s : Store) : Prop :=
  ∃ ds, s.recover fmt = .ok ds ∧
    ∀ key, s.Survives key ((chainAt ds key).fetchVersion u64Max)

section
variable {fmt : Format} {keys : FirstKeys} {s t : Store} {ch : Versions}

theorem fetchVersion_of_empty (h : ch.writes = ∅) (q : Nat) : ch.fetchVersion q = none := by
  refine (ch.fetchVersion_visible q).unique ch.writes_functional (.unwritten ?_)
  intro t x hx
  rw [h] at hx
  exact absurd hx (Set.notMem_empty _)

theorem Sound.le_u64Max (h : s.Sound) (hp : (v, x) ∈ s.pushed key) : v ≤ u64Max := by
  obtain ⟨c, hc, rfl, hw, -⟩ := hp
  have hfit := h.fits c hc (key, c.version, x) (mem_recordsOf.2 ⟨rfl, hw⟩)
  simp only [Record.fits, Bool.and_eq_true, decide_eq_true_eq] at hfit
  exact hfit.1.2

theorem Sound.same_commit (h : s.Sound) (hc : c ∈ s.commits) (hc' : c' ∈ s.commits)
    (hv : c.version = c'.version) : c = c' := by
  obtain ⟨i, hi⟩ := List.mem_iff_getElem?.1 hc
  obtain ⟨j, hj⟩ := List.mem_iff_getElem?.1 hc'
  obtain rfl := h.distinct i j c c' hi hj hv
  rw [hi] at hj
  exact Option.some.inj hj

theorem Sound.survives (h : s.Sound)
    (hr : Reflects (s.pushed key) (stamps s.log key) ch) :
    s.Survives key (ch.fetchVersion u64Max) := by
  cases hr with
  | @written t x hp hV hn =>
    have ht := h.le_u64Max hp
    rw [hn.fetch ht]
    obtain ⟨c, hc, hv, hw, -⟩ := hp
    have hle : ∀ p ∈ s.loggedWrites key, p.1 ≤ t :=
      fun p hp => hV p.1 ⟨p.2, h.mem_log.2 hp⟩
    by_cases hl : c.isLogged = true
    · exact .inl (.written ⟨c, hc, hl, hv, hw⟩ ht fun t' x' hm _ => hle _ hm)
    · refine .inr ⟨t, ⟨c, hc, Bool.not_eq_true _ ▸ hl, hv, hw⟩, ?_⟩
      rintro p ⟨c', hc', hl', hv', hw'⟩
      refine Nat.lt_of_le_of_ne (hle p ⟨c', hc', hl', hv', hw'⟩) fun hpt => ?_
      obtain rfl := h.same_commit hc hc' (hv.trans (hpt.symm.trans hv'.symm))
      exact hl hl'
  | unwritten hV hn =>
    rw [fetchVersion_of_empty hn]
    refine .inl (.unwritten fun t x hm => ?_)
    exact absurd ⟨x, h.mem_log.2 hm⟩ (hV t)

theorem Durable.reflects (h : Durable fmt keys s) (hf : fmt.Reads keys) (hc : Crash fmt (s.orderly keys) s aol) :
    ∃ ds, load fmt (s.disk.file s.disk.snapshot) (some aol) = .ok ds ∧
      ∀ key, Reflects (s.pushed key) (stamps s.log key) (chainAt ds key) := by
  obtain ⟨mark, c, recs, hshape⟩ := h.shape
  have hvalid := h.sound.valid hf
  cases hc with
  | between => exact hshape.recovers hf hvalid h.sound.ordered h.sound.mem_pushed
  | torn hi hl hg hp =>
    have hi' := List.mem_of_getElem? hi
    simp only [orderly, hi, Bool.and_eq_true, Bool.or_eq_true, Bool.not_eq_true'] at hg
    refine hshape.recovers_torn hf hl (opens_of_orderly hg.2) ?_ (h.sound.append_ordered hi) ?_ hp
    · intro r hr
      rcases List.mem_append.1 hr with hr | hr
      · exact hvalid r hr
      · exact hf.record r (h.sound.fits _ hi' r hr)
    · intro key v y hr
      rcases List.mem_append.1 hr with hr | hr
      · exact h.sound.mem_pushed key v y hr
      · obtain ⟨hv, hw⟩ := mem_recordsOf.1 hr
        exact ⟨_, hi', hv.symm, hw, by simp [CommitRun.pending]⟩

theorem Durable.recoversKeys (h : Durable fmt keys s) (hf : fmt.Reads keys) : s.RecoversKeys fmt := by
  obtain ⟨ds, hds, hr⟩ := h.reflects hf .between
  exact ⟨ds, hds, fun key => h.sound.survives (hr key)⟩

theorem Durable.of_run (hf : fmt.Reads keys)
    (h : Execution.Run (Store.step fmt) (fun s a => s.orderly keys a = true)
      (.new referenceUnix resetThreshold) s) : Durable fmt keys s := by
  refine h.invariant ?_ (Durable.new referenceUnix resetThreshold)
  intro s a t hs hg ht
  exact hs.step hf hg ht

end

end Store

end StupidKv
