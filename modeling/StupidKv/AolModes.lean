import StupidKv.StaleLog

namespace StupidKv
open Std
set_option autoImplicit true

inductive AolMode where
  | never
  | synchronousOnCommit
  | asynchronousAfterCommit
deriving DecidableEq, Repr

/-- The file behind `Persistence::new_with_options`: created if need be, but not in `Never` mode. -/
def AolMode.openAol (mode : AolMode) (aol : Option Bytes) : Option Bytes :=
  match mode with
  | never => aol
  | _ => some (aol.getD [])

/-- The file behind an append on commit. -/
def AolMode.append (mode : AolMode) (fmt : Format) (aol : Option Bytes) (records : List Record) :
    Option Bytes :=
  match mode with
  | never => aol
  | _ => aol.map (· ++ fmt.record.encodeAll records)

/-- The file behind a snapshot that nothing disturbs: it is cut where it ended. -/
def AolMode.truncate (mode : AolMode) (aol : Option Bytes) : Option Bytes :=
  match mode with
  | never => aol
  | _ => aol.map fun aol => StupidKv.truncate aol aol.length

/-- One directory and the database open on it. The commits of all sessions are history, and so is
whether a `Never` session has made one since its last snapshot. -/
structure Directory where
  db : Database
  mode : AolMode
  snapshot : Option Bytes
  aol : Option Bytes
  committed : List Writeset
  unsaved : Bool

inductive SessionAction where
  /-- An API call on a clock that reads `now`. -/
  | call (c : Call) (now : Nat)
  | snapshot
  /-- The database is closed and opened again. -/
  | reopen (mode : AolMode) (clock : Nat)

namespace Directory

def new (mode : AolMode) (clock threshold : Nat) : Directory :=
  ⟨.new clock threshold, mode, none, mode.openAol none, [], false⟩

/-- What the next `new_with_persistence` returns. -/
def restart (fmt : Format) (s : Directory) (mode : AolMode) (clock : Nat) :
    Except PersistenceError Database :=
  Database.newWithPersistence fmt s.snapshot (mode.openAol s.aol) clock s.db.inner.resetThreshold

/-- A session may end: what it committed in `Never` mode is in a snapshot. The clock goes on and
asynchronous sessions are left out. -/
def reopens (s : Directory) (mode : AolMode) (clock : Nat) : Bool :=
  !s.unsaved && decide (s.db.inner.timestamp ≤ clock) && decide (mode ≠ .asynchronousAfterCommit)

def step (fmt : Format) (s : Directory) : SessionAction → Option Directory
  | .call c now => do
    let (db, r) ← s.db.step (c, now)
    let written := published s.db c r
    -- a commit is stamped with the timestamp it leaves behind
    let records := written.flatMap (recordsOf db.inner.timestamp)
    if records.all Record.fits then
      some { s with
        db := db
        aol := s.mode.append fmt s.aol records
        committed := s.committed ++ written
        unsaved := s.unsaved || decide (s.mode = .never) && written.any fun ws => !ws.isEmpty }
    else none
  | .snapshot =>
    let entries := entriesOf s.db.inner.datastore
    if entries.all Entry.fits then
      some { s with
        snapshot := some (fmt.writer (fmt.entry.encodeAll entries))
        aol := s.mode.truncate s.aol
        unsaved := false }
    else none
  | .reopen mode clock =>
    if s.reopens mode clock then
      match s.restart fmt mode clock with
      | .ok db => some { s with db := db, mode := mode, aol := mode.openAol s.aol }
      | .error _ => none
    else none

/-- A session that ends here leaves a directory that opens, and every key then reads the value of
its last commit. -/
def Restores (fmt : Format) (s : Directory) : Prop :=
  ∀ mode clock, s.reopens mode clock = true →
    ∃ db, s.restart fmt mode clock = .ok db ∧
      ∃ db' tx, db.transaction false = some (db', .handle 0) ∧ db'.transactions = [some tx] ∧
        ∀ key, (tx.get db'.inner key).2 = .ok (lookup s.committed key)

/-- A snapshot in `Never` mode has a value for every key whose last record in the AOL is one. -/
def unerased (fmt : Format) (s : Directory) : SessionAction → Bool
  | .snapshot =>
    match s.mode, decodeFile fmt.record fmt.aolReader s.aol with
    | .never, .ok log => log.all fun r =>
      (chainAt s.db.inner.datastore r.1).inner.any (·.value.isSome) || (lastLogged log r.1).isNone
    | _, _ => true
  | _ => true

/-- What memory shows and what lies on disk: the snapshot of `saved` and the records of `log`. -/
structure Kept (fmt : Format) (saved : SkipMap Bytes Versions) (log : List Record)
    (s : Directory) : Prop where
  serving : Serving s.db
  memory : ∀ key, Newest (chainAt s.db.inner.datastore key) s.db.inner.timestamp
    (lookup s.committed key)
  sheltered : ∀ key, Sheltered (chainAt s.db.inner.datastore key) log key
  ordered : LogOrdered log
  past : ∀ r ∈ log, r.2.1 ≤ s.db.inner.timestamp
  disk : s.unsaved = false → ∀ key, Newest (chainAt (restored saved log) key)
    s.db.inner.timestamp (lookup s.committed key)
  mode : s.mode ≠ .asynchronousAfterCommit
  saving : s.mode ≠ .never → s.unsaved = false
  snapshot : s.snapshot = none ∧ entriesOf saved = [] ∨
    s.snapshot = some (fmt.writer (fmt.entry.encodeAll (entriesOf saved)))
  aol : s.aol = none ∧ log = [] ∧ s.mode = .never ∨ s.aol = some (fmt.record.encodeAll log)
  entries : ∀ e ∈ entriesOf saved, Entry.fits e = true
  records : ∀ r ∈ log, Record.fits r = true

def Recoverable (fmt : Format) (s : Directory) : Prop := ∃ saved log, Kept fmt saved log s

section
variable {s t : Directory} {fmt : Format} {saved : SkipMap Bytes Versions} {log : List Record}

theorem Kept.new {mode : AolMode} (hm : mode ≠ .asynchronousAfterCommit) (clock threshold : Nat) :
    Kept fmt ∅ [] (.new mode clock threshold) where
  serving := Serving.new ∅ clock threshold
  memory := fun key => ⟨by simp [Directory.new, Database.new, Inner.new, chainAt], rfl⟩
  sheltered := fun key => .nil _ key
  ordered := .nil
  past := by simp
  disk := fun _ key => by
    have he : restored ∅ [] = ∅ := by simp [restored, entriesOf_empty]
    rw [he]
    exact ⟨by simp [chainAt], rfl⟩
  mode := hm
  saving := fun _ => rfl
  snapshot := .inl ⟨rfl, entriesOf_empty⟩
  aol := by
    cases mode with
    | never => exact .inl ⟨rfl, rfl, rfl⟩
    | synchronousOnCommit => exact .inr rfl
    | asynchronousAfterCommit => exact .inr rfl
  entries := by simp [entriesOf_empty]
  records := by simp

theorem Kept.decoded (h : Kept fmt saved log s) (hf : fmt.RoundTrips) (mode : AolMode) :
    decodeFile fmt.record fmt.aolReader (mode.openAol s.aol) = .ok log := by
  have hv : ∀ r ∈ log, fmt.record.valid r := fun r hr => hf.record r (h.records r hr)
  have hsome : decodeFile fmt.record fmt.aolReader (some (fmt.record.encodeAll log)) = .ok log :=
    decodeFile_encodeAll hv (hf.aol _) (fmt.record.eq_nil_of_encodeAll hv)
  rcases h.aol with ⟨ha, rfl, -⟩ | ha
  · rw [ha]
    cases mode <;> rfl
  · rw [ha]
    cases mode <;> exact hsome

theorem Kept.restart (h : Kept fmt saved log s) (hf : fmt.RoundTrips) (mode : AolMode)
    (clock : Nat) :
    s.restart fmt mode clock = .ok ⟨{ Inner.new clock s.db.inner.resetThreshold with
      datastore := restored saved log }, [], []⟩ := by
  have hentries := hf.reads.decodeFile_snapshot h.snapshot
    (fun e he => hf.entry e (h.entries e he)) (by simp [FirstKeys.any])
  simp only [Directory.restart, Database.newWithPersistence, load, hentries, h.decoded hf mode]
  rfl

theorem Kept.restores (h : Kept fmt saved log s) (hf : fmt.RoundTrips) : s.Restores fmt := by
  intro mode clock hr
  simp only [reopens, Bool.and_eq_true, Bool.not_eq_true', decide_eq_true_eq] at hr
  refine ⟨_, h.restart hf mode clock, ?_⟩
  obtain ⟨db', tx, ht, hs, hb⟩ :=
    (Serving.new (restored saved log) clock s.db.inner.resetThreshold).transaction false
  refine ⟨db', tx, ht, hb.handles, fun key => ?_⟩
  rw [get_idle hs.idle hb.done (by simp [hb.writeset]), hb.datastore, hb.version]
  exact congrArg Except.ok ((h.disk hr.1.1 key).fetch hr.1.2)

theorem Kept.same (h : Kept fmt saved log s) (hs : Serving t.db)
    (hd : t.db.inner.datastore = s.db.inner.datastore)
    (ht : t.db.inner.timestamp = s.db.inner.timestamp)
    (hc : ∀ key, lookup t.committed key = lookup s.committed key) (hu : t.unsaved = s.unsaved)
    (hm : t.mode = s.mode) (hsn : t.snapshot = s.snapshot) (ha : t.aol = s.aol) :
    Kept fmt saved log t where
  serving := hs
  memory := by
    intro key
    rw [hd, ht, hc]
    exact h.memory key
  sheltered := by
    rw [hd]
    exact h.sheltered
  ordered := h.ordered
  past := by
    rw [ht]
    exact h.past
  disk := by
    intro hn key
    rw [ht, hc]
    exact h.disk (hu ▸ hn) key
  mode := hm ▸ h.mode
  saving := by
    rw [hm, hu]
    exact h.saving
  snapshot := hsn ▸ h.snapshot
  aol := by
    rw [ha, hm]
    exact h.aol
  entries := h.entries
  records := h.records

theorem Kept.collect {inner : Inner} (h : Kept fmt saved log s)
    (hs : Serving { s.db with inner := inner })
    (hi : ∀ Q : Bytes → Versions → Prop,
      (∀ key ch, Q key ch → Q key (ch.gcOlderVersions watermark)) →
      (∀ key, Q key (chainAt s.db.inner.datastore key)) → ∀ key, Q key (chainAt inner.datastore key))
    (ht : inner.timestamp = s.db.inner.timestamp) :
    Kept fmt saved log { s with db := { s.db with inner := inner } } where
  serving := hs
  memory := by
    simp only [ht]
    refine hi (fun key ch => Newest ch s.db.inner.timestamp (lookup s.committed key)) ?_ h.memory
    exact fun key ch hn => hn.gc watermark
  sheltered := by
    refine hi (fun key ch => Sheltered ch log key) ?_ h.sheltered
    exact fun key ch hn => hn.gc watermark
  ordered := h.ordered
  past := by
    simp only [ht]
    exact h.past
  disk := by
    simp only [ht]
    exact h.disk
  mode := h.mode
  saving := h.saving
  snapshot := h.snapshot
  aol := h.aol
  entries := h.entries
  records := h.records

/-- What a commit does to memory, before its records go anywhere. -/
theorem Kept.memory_publish {datastore : SkipMap Bytes Versions} (h : Kept fmt saved log s)
    (hv : s.db.inner.timestamp < v) (hw : Written v ws s.db.inner.datastore datastore)
    (key : Bytes) :
    Newest (chainAt datastore key) v (lookup (s.committed ++ [ws]) key) ∧
      Sheltered (chainAt datastore key) log key ∧
      ∀ u y, (key, u, y) ∈ recordsOf v ws → (chainAt datastore key).fetchVersion u = y := by
  have hmemory := h.memory key
  have hsheltered := h.sheltered key
  unfold chainAt at hmemory hsheltered ⊢
  rw [lookup_concat, hw key]
  cases hk : ws[key]? with
  | none =>
    refine ⟨hmemory.later hv.le, hsheltered, fun u y hm => ?_⟩
    have := (mem_recordsOf.1 hm).2
    rw [hk] at this
    cases this
  | some y =>
    have hn : Newest (seededPush s.db.inner.datastore[key]? ⟨v, y⟩) v y := hmemory.seededPush hv y
    refine ⟨hn, ?_, fun u z hm => ?_⟩
    · exact hsheltered.seededPush (fun u z hm => (h.past _ hm).trans_lt hv) y
    · obtain ⟨hu, hz⟩ := mem_recordsOf.1 hm
      have hu : u = v := hu
      have hz : z = y := Option.some.inj (hz.symm.trans hk)
      rw [hu, hz]
      exact hn.shown

theorem Kept.publish_never {db : Database} (h : Kept fmt saved log s) (hm : s.mode = .never)
    (hs : Serving db) (hv : s.db.inner.timestamp < db.inner.timestamp)
    (hw : Written db.inner.timestamp ws s.db.inner.datastore db.inner.datastore) :
    Kept fmt saved log { s with
      db := db
      committed := s.committed ++ [ws]
      unsaved := true } where
  serving := hs
  memory := fun key => (h.memory_publish hv hw key).1
  sheltered := fun key => (h.memory_publish hv hw key).2.1
  ordered := h.ordered
  past := fun r hr => (h.past r hr).trans hv.le
  disk := fun hn => by cases hn
  mode := h.mode
  saving := fun hn => absurd hm hn
  snapshot := h.snapshot
  aol := h.aol
  entries := h.entries
  records := h.records

theorem Kept.publish_synchronous {db : Database} (h : Kept fmt saved log s)
    (hm : s.mode ≠ .never) (hs : Serving db) (hv : s.db.inner.timestamp < db.inner.timestamp)
    (hw : Written db.inner.timestamp ws s.db.inner.datastore db.inner.datastore)
    (hfit : ∀ r ∈ recordsOf db.inner.timestamp ws, Record.fits r = true) :
    Kept fmt saved (log ++ recordsOf db.inner.timestamp ws) { s with
      db := db
      aol := s.aol.map (· ++ fmt.record.encodeAll (recordsOf db.inner.timestamp ws))
      committed := s.committed ++ [ws] } where
  serving := hs
  memory := fun key => (h.memory_publish hv hw key).1
  sheltered := fun key =>
    (h.memory_publish hv hw key).2.1.append (h.memory_publish hv hw key).2.2
  ordered := by
    refine List.pairwise_append.2 ⟨h.ordered, ?_, ?_⟩
    · exact (recordsOf_pairwise _ ws).imp fun hne he => absurd he hne
    · intro a ha b hb _
      rw [(mem_recordsOf.1 hb).1]
      exact (h.past a ha).trans_lt hv
  past := by
    intro r hr
    rcases List.mem_append.1 hr with hr | hr
    · exact (h.past r hr).trans hv.le
    · exact (mem_recordsOf.1 hr).1.le
  disk := by
    intro hn key
    have hlogged := (h.disk hn key).logged hv ws
    rw [lookup_concat, restored, List.foldl_append]
    exact hlogged
  mode := h.mode
  saving := h.saving
  snapshot := h.snapshot
  aol := by
    rcases h.aol with ⟨-, -, hn⟩ | ha
    · exact absurd hn hm
    · exact .inr (by rw [ha, Option.map_some, Framing.Codec.encodeAll_append])
  entries := h.entries
  records := by
    intro r hr
    rcases List.mem_append.1 hr with hr | hr
    · exact h.records r hr
    · exact hfit r hr

theorem Kept.publish {db : Database} (h : Kept fmt saved log s) (hs : Serving db)
    (hv : s.db.inner.timestamp < db.inner.timestamp)
    (hw : Written db.inner.timestamp ws s.db.inner.datastore db.inner.datastore)
    (he : ws.isEmpty = false)
    (hfit : ∀ r ∈ recordsOf db.inner.timestamp ws, Record.fits r = true) :
    ∃ log, Kept fmt saved log { s with
      db := db
      aol := s.mode.append fmt s.aol (recordsOf db.inner.timestamp ws)
      committed := s.committed ++ [ws]
      unsaved := s.unsaved || decide (s.mode = .never) && !ws.isEmpty } := by
  by_cases hm : s.mode = .never
  · have hk := h.publish_never hm hs hv hw
    refine ⟨log, ?_⟩
    simpa [hm, he, AolMode.append] using hk
  · have hk := h.publish_synchronous hm hs hv hw hfit
    have ha : s.mode.append fmt s.aol (recordsOf db.inner.timestamp ws) =
        s.aol.map (· ++ fmt.record.encodeAll (recordsOf db.inner.timestamp ws)) := by
      cases hmode : s.mode with
      | never => exact absurd hmode hm
      | synchronousOnCommit => rfl
      | asynchronousAfterCommit => rfl
    refine ⟨log ++ recordsOf db.inner.timestamp ws, ?_⟩
    rw [ha]
    simpa [hm] using hk

theorem Kept.call (h : Kept fmt saved log s) (hstep : s.step fmt (.call c now) = some t) :
    ∃ log, Kept fmt saved log t := by
  obtain ⟨db, r, hdb, hs, hd⟩ := h.serving.step c now
  simp only [Directory.step, hdb, Option.bind_eq_bind, Option.bind_some,
    Option.ite_none_right_eq_some, Option.some.injEq] at hstep
  obtain ⟨hfit, rfl⟩ := hstep
  -- without a writeset there are no records
  have hempty : (∀ ws ∈ published s.db c r, ws = ∅) →
      (published s.db c r).flatMap (recordsOf db.inner.timestamp) = [] ∧
      ((published s.db c r).any fun ws => !ws.isEmpty) = false ∧
      ∀ key, lookup (s.committed ++ published s.db c r) key = lookup s.committed key := by
    intro hp
    refine ⟨?_, ?_, fun key => ?_⟩
    · rw [List.flatMap_eq_nil_iff]
      intro ws hws
      rw [hp ws hws]
      rfl
    · rw [List.any_eq_false]
      intro ws hws
      rw [hp ws hws]
      simp
    · have hv := valueAfter_empties hp (fun _ => none) s.committed key
      simpa only [lookup_eq_valueAfter] using hv
  have hquiet : (∀ ws ∈ published s.db c r, ws = ∅) →
      db.inner.datastore = s.db.inner.datastore → db.inner.timestamp = s.db.inner.timestamp →
      Kept fmt saved log { s with
        db := db
        aol := s.mode.append fmt s.aol
          ((published s.db c r).flatMap (recordsOf db.inner.timestamp))
        committed := s.committed ++ published s.db c r
        unsaved := s.unsaved || decide (s.mode = .never) &&
          (published s.db c r).any fun ws => !ws.isEmpty } := by
    intro hp hi ht
    obtain ⟨hrec, hany, hlook⟩ := hempty hp
    rw [hrec, hany]
    refine h.same hs hi ht hlook (by simp) rfl rfl ?_
    cases s.mode <;> simp [AolMode.append]
  cases hd with
  | begins hcall hb =>
    exact ⟨log, hquiet (by simp [hcall, published]) hb.datastore hb.timestamp⟩
  | quiet hi ht _ hp => exact ⟨log, hquiet hp hi ht⟩
  | publishes _ hp he hv ht hi =>
    rw [hp] at hfit ⊢
    subst ht
    simp only [List.flatMap_singleton, List.all_eq_true] at hfit ⊢
    have hk := h.publish hs hv hi he hfit
    simpa using hk
  | collects hcall _ _ hi ht =>
    have hp : published s.db c r = [] := by
      rw [hcall]
      rfl
    rw [hp]
    refine ⟨log, (h.collect hs hi ht).same hs rfl rfl (by simp) (by simp) rfl rfl ?_⟩
    cases s.mode <;> simp [AolMode.append]

theorem Kept.save (h : Kept fmt saved log s) (hf : fmt.RoundTrips)
    (hg : s.unerased fmt .snapshot = true) (hstep : s.step fmt .snapshot = some t) :
    t.Recoverable fmt := by
  simp only [Directory.step, Option.ite_none_right_eq_some, Option.some.injEq,
    List.all_eq_true] at hstep
  obtain ⟨hfit, rfl⟩ := hstep
  by_cases hm : s.mode = .never
  · refine ⟨s.db.inner.datastore, log, {
      serving := h.serving
      memory := h.memory
      sheltered := h.sheltered
      ordered := h.ordered
      past := h.past
      disk := ?_
      mode := h.mode
      saving := fun _ => rfl
      snapshot := .inr rfl
      aol := ?_
      entries := hfit
      records := h.records }⟩
    · intro _ key
      refine (h.memory key).restored (h.sheltered key) h.ordered h.past ?_
      have hdecoded := h.decoded hf .never
      simp only [AolMode.openAol] at hdecoded
      simp only [unerased, hm, hdecoded, List.all_eq_true, Bool.or_eq_true, List.any_eq_true,
        Option.isNone_iff_eq_none] at hg
      by_cases hk : ∃ r ∈ log, r.1 = key
      · obtain ⟨r, hr, rfl⟩ := hk
        exact hg r hr
      · refine .inr ?_
        rw [lastLogged, List.find?_eq_none.2, Option.bind_none]
        intro r hr
        simpa using fun he => hk ⟨r, List.mem_reverse.1 hr, he⟩
    · simp only [hm, AolMode.truncate]
      simpa [hm] using h.aol
  · refine ⟨s.db.inner.datastore, [], {
      serving := h.serving
      memory := h.memory
      sheltered := fun key => .nil _ key
      ordered := .nil
      past := by simp
      disk := ?_
      mode := h.mode
      saving := fun _ => rfl
      snapshot := .inr rfl
      aol := ?_
      entries := hfit
      records := by simp }⟩
    · intro _ key
      exact (h.memory key).restored (.nil _ key) .nil (by simp) (.inr rfl)
    · rcases h.aol with ⟨-, -, hn⟩ | ha
      · exact absurd hn hm
      · refine .inr ?_
        simp only [ha]
        cases hmode : s.mode with
        | never => exact absurd hmode hm
        | synchronousOnCommit => simp [AolMode.truncate, StupidKv.truncate]
        | asynchronousAfterCommit => simp [AolMode.truncate, StupidKv.truncate]

theorem Kept.reopen {mode : AolMode} (h : Kept fmt saved log s) (hf : fmt.RoundTrips)
    (hstep : s.step fmt (.reopen mode clock) = some t) : Kept fmt saved log t := by
  simp only [Directory.step, Option.ite_none_right_eq_some, h.restart hf mode clock,
    Option.some.injEq] at hstep
  obtain ⟨hr, rfl⟩ := hstep
  simp only [reopens, Bool.and_eq_true, Bool.not_eq_true', decide_eq_true_eq] at hr
  obtain ⟨⟨hsaved, hclock⟩, hmode⟩ := hr
  have hnewest : ∀ key, Newest (chainAt (restored saved log) key) clock
      (lookup s.committed key) := fun key => (h.disk hsaved key).later hclock
  exact {
    serving := .new _ clock _
    memory := hnewest
    sheltered := by
      intro key v y hm
      exact .inr (replay_shows h.ordered hm)
    ordered := h.ordered
    past := fun r hr => (h.past r hr).trans hclock
    disk := fun _ => hnewest
    mode := hmode
    saving := fun _ => hsaved
    snapshot := h.snapshot
    aol := by
      change mode.openAol s.aol = none ∧ log = [] ∧ mode = .never ∨
        mode.openAol s.aol = some (fmt.record.encodeAll log)
      rcases h.aol with ⟨ha, hl, -⟩ | ha
      · rw [ha, hl]
        cases mode with
        | never => exact .inl ⟨rfl, rfl, rfl⟩
        | synchronousOnCommit => exact .inr rfl
        | asynchronousAfterCommit => exact .inr rfl
      · rw [ha]
        cases mode <;> exact .inr rfl
    entries := h.entries
    records := h.records }

theorem Kept.step (h : Kept fmt saved log s) (hf : fmt.RoundTrips)
    (hg : s.unerased fmt a = true) (hstep : s.step fmt a = some t) : t.Recoverable fmt := by
  cases a with
  | call c now => exact ⟨saved, h.call hstep⟩
  | snapshot => exact h.save hf hg hstep
  | reopen mode clock => exact ⟨saved, log, h.reopen hf hstep⟩

end

/-- Sessions of both modes restore the last commits, as long as no snapshot in `Never` mode has
lost a key to version GC that the AOL it cannot truncate still has a value for. -/
theorem restores_of_unerased {s : Directory} {fmt : Format} {mode : AolMode}
    (hf : fmt.RoundTrips) (hm : mode ≠ .asynchronousAfterCommit)
    (h : Execution.Run (step fmt) (fun s a => s.unerased fmt a = true)
      (.new mode clock threshold) s) : s.Restores fmt := by
  have hs : s.Recoverable fmt := by
    have hnew : Recoverable fmt (.new mode clock threshold) :=
      ⟨∅, [], Kept.new hm clock threshold⟩
    refine h.invariant ?_ hnew
    rintro s a t ⟨saved, log, hs⟩ hg ht
    exact hs.step hf hg ht
  obtain ⟨saved, log, hs⟩ := hs
  exact hs.restores hf

/-- A transaction of its own that stores or deletes the key `[1]`. -/
def writeOne (op : Op) (now : Nat) : List SessionAction :=
  [.call (.transaction true) now, .call (.on 0 op) now, .call (.on 0 .commit) now,
    .call (.on 0 .drop) now]

/-- The key is deleted in `Never` mode, and version GC only comes behind the snapshot. -/
def savedFirst : List SessionAction :=
  writeOne (.set [1] [7]) 10 ++ .reopen .never 20 :: writeOne (.del [1]) 30 ++
    [.snapshot, .call .runGc 40, .reopen .synchronousOnCommit 50]

theorem restores_savedFirst :
    ∃ s, Execution.Run (step .plain) (fun s a => s.unerased .plain a = true)
        (.new .synchronousOnCommit 5 0) s ∧
      s.committed.length = 2 ∧ lookup s.committed [1] = none ∧ s.aol ≠ some [] ∧
      s.Restores .plain := by
  have hrun : (Execution.exec (fun s a => if s.unerased .plain a then step .plain s a else none)
      (.new .synchronousOnCommit 5 0) savedFirst).map (fun s =>
        decide (s.committed.length = 2 ∧ lookup s.committed [1] = none ∧ s.aol ≠ some [])) =
        some true := by
    decide +kernel
  obtain ⟨s, hs, hb⟩ := Execution.exec_check hrun
  obtain ⟨hlength, hdeleted, haol⟩ := of_decide_eq_true hb
  exact ⟨s, .of_guarded hs, hlength, hdeleted, haol,
    restores_of_unerased Format.plain_roundTrips (by decide) (.of_guarded hs)⟩

/-- Version GC takes the deleted key before the snapshot of the `Never` session. -/
def erasedFirst : List SessionAction :=
  writeOne (.set [1] [7]) 10 ++ .reopen .never 20 :: writeOne (.del [1]) 30 ++
    [.call .runGc 40, .snapshot]

/-- What a new transaction reads for the key `[1]` once the directory is opened again. -/
def readsBack (s : Directory) : Option (Option Bytes) :=
  match s.restart .plain .never 50 with
  | .ok db =>
    match db.transaction false with
    | some (db', _) =>
      match db'.transactions with
      | [some tx] => (tx.get db'.inner [1]).2.toOption
      | _ => none
    | none => none
  | .error _ => none

theorem not_restores : ¬ ∀ s, Execution.Run (step .plain) (fun _ _ => True)
    (.new .synchronousOnCommit 5 0) s → s.Restores .plain := by
  intro hall
  have hrun : (Execution.exec (step .plain) (.new .synchronousOnCommit 5 0) erasedFirst).map
      (fun s => decide (s.reopens .never 50 = true ∧ lookup s.committed [1] = none ∧
        s.readsBack = some (some [7]))) = some true := by
    decide +kernel
  obtain ⟨s, hs, hb⟩ := Execution.exec_check hrun
  obtain ⟨hreopens, hdeleted, hread⟩ := of_decide_eq_true hb
  obtain ⟨db, hdb, db', tx, ht, htxs, hget⟩ := hall s (.of_exec hs) .never 50 hreopens
  simp only [readsBack, hdb, ht, htxs, hget, hdeleted] at hread
  cases hread

end Directory

end StupidKv
