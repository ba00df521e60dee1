import StupidKv.Maintenance

namespace StupidKv
open Std
set_option autoImplicit true

/-- At or below the watermark the chain holds one entry at most, and no tombstone. -/
def Compact (ts : Nat) (ch : Versions) : Prop :=
  ∀ e ∈ ch.inner, e.version ≤ ts →
    e.value.isSome = true ∧ ∀ e' ∈ ch.inner, e'.version ≤ ts → e' = e

section
variable {ch ch' : Versions} {ts : Nat}

theorem Compact.new (ts : Nat) : Compact ts .new := by
  intro e he
  cases he

theorem Compact.of_subset (h : Compact ts ch)
    (hs : ∀ e ∈ ch'.inner, e.version ≤ ts → e ∈ ch.inner) : Compact ts ch' := by
  intro e he hts
  obtain ⟨hv, hu⟩ := h e (hs e he hts) hts
  exact ⟨hv, fun e' he' hts' => hu e' (hs e' he' hts') hts'⟩

theorem Compact.max (h : Compact ts ch) (h' : Compact w ch) : Compact (max ts w) ch := by
  rcases Nat.le_total ts w with hle | hle
  · rwa [Nat.max_eq_right hle]
  · rwa [Nat.max_eq_left hle]

theorem Compact.gc (h : Compact ts ch) (w : Nat) : Compact ts (ch.gcOlderVersions w) :=
  h.of_subset fun _ he _ => (gcOlderVersions_suffix ch.ascending w).subset he

theorem compact_gcOlderVersions (ch : Versions) (w : Nat) : Compact w (ch.gcOlderVersions w) := by
  obtain ⟨-, -, -, hone, hsome, -⟩ := ch.gcOlderVersions_exact w
  intro e he hw
  refine ⟨hsome e he hw, fun e' he' hw' => ?_⟩
  have hm : e ∈ (ch.gcOlderVersions w).inner.filter fun e => decide (e.version ≤ w) :=
    List.mem_filter.2 ⟨he, decide_eq_true hw⟩
  have hm' : e' ∈ (ch.gcOlderVersions w).inner.filter fun e => decide (e.version ≤ w) :=
    List.mem_filter.2 ⟨he', decide_eq_true hw'⟩
  obtain ⟨x, hx⟩ :=
    List.length_eq_one_iff.1 (Nat.le_antisymm hone (List.length_pos_of_mem hm))
  rw [hx, List.mem_singleton] at hm hm'
  rw [hm, hm']

/-- A commit above the watermark does not undo the compaction. -/
theorem Compact.seededPush {entry : Option Versions} (h : Compact ts (entry.getD .new))
    (hv : ts < w.version) : Compact ts (seededPush entry w) := by
  have hpush : ∀ ch : Versions, Compact ts ch → Compact ts (ch.push w) := by
    intro ch hch
    apply hch.of_subset
    intro e he hts
    obtain ⟨lo, mid, hi, hl, -, -, -, hp⟩ := ch.push_cases w
    rw [hl]
    rcases hp with ⟨-, -, hp⟩ | hp
    · rw [hp] at he
      simp only [List.mem_append] at he ⊢
      tauto
    · rw [hp] at he
      simp only [List.mem_append, List.mem_singleton] at he ⊢
      rcases he with (he | rfl) | he
      · exact .inl (.inl he)
      · exact absurd hts (Nat.not_le.2 hv)
      · exact .inr he
  cases entry with
  | some ch => exact hpush ch h
  | none =>
    apply hpush
    intro e he hts
    rw [List.mem_singleton.1 he] at hts
    exact absurd hts (Nat.not_le.2 hv)

end

section
variable {db db' : Database} {c : Call}

theorem Served.timestamp_le (h : Served db c db' r) :
    db.inner.timestamp ≤ db'.inner.timestamp := by
  cases h with
  | begins _ hb => exact hb.timestamp.ge
  | quiet _ ht => exact ht.ge
  | publishes _ _ _ hv ht => exact ht ▸ hv.le
  | collects _ _ _ _ ht => exact ht.ge

theorem Served.compact (h : Served db c db' r) (hts : ts ≤ db.inner.timestamp) (key : Bytes)
    (hc : Compact ts (chainAt db.inner.datastore key)) :
    Compact ts (chainAt db'.inner.datastore key) := by
  cases h with
  | begins _ hb => rwa [hb.datastore]
  | quiet hi => rwa [hi]
  | publishes _ _ _ hv _ hi =>
    unfold chainAt at hc ⊢
    rw [hi key]
    split
    · exact hc.seededPush (hts.trans_lt hv)
    · exact hc
  | collects _ _ _ hi =>
    refine hi (fun k ch => k = key → Compact ts ch) (fun k ch hk he => (hk he).gc _) ?_ key rfl
    intro k he
    rwa [he]

end

theorem chainAt_absent {datastore : SkipMap Bytes Versions} (h : key ∉ datastore) :
    chainAt datastore key = .new := by
  rw [chainAt, ExtTreeMap.getElem?_eq_none h]
  rfl

theorem Compact.gcKey (h : Compact ts (chainAt datastore key)) (w : Nat) (k : Bytes) :
    Compact ts (chainAt (Inner.gcKey w datastore k) key) := by
  rw [chainAt_gcKey]
  split
  · exact h.gc w
  · exact h

theorem compact_gcKey (w : Nat) (datastore : SkipMap Bytes Versions) (key : Bytes) :
    Compact w (chainAt (Inner.gcKey w datastore key) key) := by
  rw [chainAt_gcKey, if_pos rfl]
  exact compact_gcOlderVersions _ w

theorem serving_restock {db : Database} (h : Serving db) (datastore : SkipMap Bytes Versions)
    (dirty : List Bytes) :
    Serving { db with inner := { db.inner with datastore := datastore, gcDirtyKeys := dirty } } :=
  { h with }

theorem serving_computeCleanupTs {db : Database} (h : Serving db) (now : Nat) :
    Serving { db with inner := (db.inner.computeCleanupTs now).1 } := by
  obtain ⟨hs, -⟩ := h.runGc (r := .unit) now
  exact { h with floor := hs.floor, live := hs.live }

theorem computeCleanupTs_le (db : Inner) (now : Nat) : (db.computeCleanupTs now).2 ≤ db.timestamp :=
  (Nat.min_le_left _ _).trans (Nat.min_le_right _ _)

namespace Maintained
variable {m : Maintained}

/-- What the pass under way has behind it is compact at its watermark. -/
def Progress (m : Maintained) : GcStage → Prop
  | .parked => True
  | .dirty cleanupTs _ => cleanupTs ≤ m.db.inner.timestamp
  | .full cleanupTs cursor => cleanupTs ≤ m.db.inner.timestamp ∧
      ∀ c ∈ cursor, ∀ key, compare key c ≠ .gt →
        Compact cleanupTs (chainAt m.db.inner.datastore key)

def isFull : GcStage → Bool
  | .full .. => true
  | .parked | .dirty .. => false

/-- The invariant of the garbage worker. -/
structure Sweeping (frequency : Nat) (m : Maintained) : Prop where
  serving : Serving m.db
  compact : ∀ ts ∈ m.swept, ∀ key, Compact ts (chainAt m.db.inner.datastore key)
  swept : ∀ ts ∈ m.swept, ts ≤ m.db.inner.timestamp
  progress : m.Progress m.stage
  frequency : m.fullScanFrequency = max frequency 1
  sweeps : m.sweeps + (isFull m.stage).toNat = m.cycle / m.fullScanFrequency

theorem nextKey_eq_none (h : nextKey datastore cursor = none) (hk : key ∈ datastore) :
    ∃ c ∈ cursor, compare key c ≠ .gt := by
  have hn := List.find?_eq_none.1 h key (ExtTreeMap.mem_keys.2 hk)
  cases cursor with
  | none => simp at hn
  | some c =>
    refine ⟨c, rfl, fun hgt => hn ?_⟩
    simpa using OrientedCmp.lt_of_gt hgt

theorem nextKey_eq_some (h : nextKey datastore cursor = some next) (hk : key ∈ datastore)
    (hle : compare key next ≠ .gt) : key = next ∨ ∃ c ∈ cursor, compare key c ≠ .gt := by
  obtain ⟨-, as, bs, hl, has⟩ := List.find?_eq_some_iff_append.1 h
  have hm : key ∈ as ++ next :: bs := hl ▸ ExtTreeMap.mem_keys.2 hk
  rcases List.mem_append.1 hm with hm | hm
  · right
    have hn := has key hm
    cases cursor with
    | none => simp at hn
    | some c =>
      refine ⟨c, rfl, fun hgt => ?_⟩
      simp [OrientedCmp.lt_of_gt hgt] at hn
  · rcases List.mem_cons.1 hm with rfl | hm
    · exact .inl rfl
    · have ho : datastore.keys.Pairwise fun a b => compare a b = .lt := ExtTreeMap.ordered_keys
      rw [hl] at ho
      have hlt := (List.pairwise_cons.1 (List.pairwise_append.1 ho).2.1).1 key hm
      exact absurd (OrientedCmp.gt_of_lt hlt) hle

theorem Sweeping.opened (datastore : SkipMap Bytes Versions) (start threshold frequency : Nat) :
    Sweeping frequency (.opened datastore start threshold frequency) where
  serving := Serving.new datastore start threshold
  compact _ h := nomatch h
  swept _ h := nomatch h
  progress := trivial
  frequency := rfl
  sweeps := (Nat.zero_div _).symm

/-- A call moves the data under the worker's feet, but never below its watermarks. -/
theorem Sweeping.call {db : Database} (h : Sweeping f m) (hs : Serving db)
    (hd : Served m.db c db r) : Sweeping f { m with db } where
  serving := hs
  compact ts hts key := hd.compact (h.swept ts hts) key (h.compact ts hts key)
  swept ts hts := (h.swept ts hts).trans hd.timestamp_le
  progress := by
    have hp := h.progress
    cases hstage : m.stage with
    | parked => trivial
    | dirty cleanupTs seen =>
      rw [hstage] at hp
      exact hp.trans hd.timestamp_le
    | full cleanupTs cursor =>
      rw [hstage] at hp
      refine ⟨hp.1.trans hd.timestamp_le, fun c hc key hle => ?_⟩
      exact hd.compact hp.1 key (hp.2 c hc key hle)
  frequency := h.frequency
  sweeps := h.sweeps

theorem Sweeping.collect (h : Sweeping f m) (hc : Collects m now m') : Sweeping f m' := by
  have hp := h.progress
  have hn := h.sweeps
  have hdiv : (m.cycle + 1) / m.fullScanFrequency = m.cycle / m.fullScanFrequency +
      if (m.cycle + 1) % m.fullScanFrequency = 0 then 1 else 0 := by
    simp only [Nat.succ_div, Nat.dvd_iff_mod_eq_zero]
  cases hc with
  | wakes hs =>
    rw [hs] at hn
    exact { h with
      serving := serving_computeCleanupTs h.serving now
      progress := computeCleanupTs_le m.db.inner now
      sweeps := hn }
  | skips hs =>
    rw [hs] at hp hn
    exact { h with serving := serving_restock h.serving _ _, progress := hp, sweeps := hn }
  | compacts hs =>
    rw [hs] at hp hn
    exact { h with
      serving := serving_restock h.serving _ _
      compact := fun ts hts k => (h.compact ts hts k).gcKey _ _
      progress := hp
      sweeps := hn }
  | drained hs _ hc =>
    rw [hs] at hn
    exact { h with progress := trivial, sweeps := by rw [hdiv, if_neg hc]; exact hn }
  | turns hs _ hc =>
    rw [hs] at hp hn
    exact { h with
      progress := ⟨hp, fun _ hc => nomatch hc⟩
      sweeps := by rw [hdiv, if_pos hc, ← hn]; rfl }
  | @passes cleanupTs cursor key hs hnext =>
    rw [hs] at hp hn
    refine { h with
      serving := serving_restock h.serving _ _
      compact := fun ts hts k => (h.compact ts hts k).gcKey _ _
      progress := ⟨hp.1, fun c hc k hle => ?_⟩
      sweeps := hn }
    cases hc
    by_cases hk : k ∈ m.db.inner.datastore
    · rcases nextKey_eq_some hnext hk hle with rfl | ⟨c, hc, hle⟩
      · exact compact_gcKey cleanupTs _ k
      · exact (hp.2 c hc k hle).gcKey _ _
    · apply Compact.gcKey
      rw [chainAt_absent hk]
      exact Compact.new cleanupTs
  | @ends cleanupTs cursor hs hnext =>
    rw [hs] at hp hn
    have hall : ∀ key, Compact cleanupTs (chainAt m.db.inner.datastore key) := by
      intro key
      by_cases hk : key ∈ m.db.inner.datastore
      · obtain ⟨c, hc, hle⟩ := nextKey_eq_none hnext hk
        exact hp.2 c hc key hle
      · rw [chainAt_absent hk]
        exact Compact.new cleanupTs
    exact { h with
      compact := by
        rintro ts ⟨⟩ key
        cases hs : m.swept with
        | none => exact hall key
        | some ts => exact (hall key).max (h.compact ts hs key)
      swept := by
        rintro ts ⟨⟩
        cases hs : m.swept with
        | none => exact hp.1
        | some ts => exact Nat.max_le.2 ⟨hp.1, h.swept ts hs⟩
      progress := trivial
      sweeps := hn }

theorem Sweeping.step (h : Sweeping f m) (a : MaintainedAction) :
    ∃ m' r, m.step a = some (m', r) ∧ Sweeping f m' := by
  cases a with
  | call c now =>
    obtain ⟨db, r, hstep, hs, hd⟩ := h.serving.step c now
    exact ⟨_, _, by simp only [Maintained.step, hstep]; rfl, h.call hs hd⟩
  | collect now => exact ⟨_, _, rfl, h.collect (m.collects now)⟩
  | cleanup =>
    obtain ⟨db, r, hstep, hs, hd⟩ := h.serving.step .runCleanup 0
    cases hstep
    exact ⟨_, _, rfl, h.call hs hd⟩

theorem Sweeping.run (h : Sweeping f m) (actions : List MaintainedAction) :
    ∃ m' answers, Execution.collect Maintained.step m actions = some (m', answers) ∧
      Sweeping f m' := by
  induction actions generalizing m with
  | nil => exact ⟨m, [], rfl, h⟩
  | cons a actions ih =>
    obtain ⟨m₁, r, hstep, h₁⟩ := h.step a
    obtain ⟨m', answers, hrun, h'⟩ := ih h₁
    exact ⟨m', r :: answers, by simp [Execution.collect, hstep, hrun], h'⟩

/-- Every `fullScanFrequency`-th turn of the garbage worker runs a full pass, and what a full pass
has compacted stays compact. Neither the commits that come in while it is under way nor those
after it bring back a second version or a tombstone below its watermark. -/
theorem swept_stays_compact (datastore : SkipMap Bytes Versions) (start threshold frequency : Nat)
    (actions : List MaintainedAction) :
    ∃ m answers, Execution.collect Maintained.step (.opened datastore start threshold frequency)
        actions = some (m, answers) ∧
      m.sweeps + (isFull m.stage).toNat = m.cycle / max frequency 1 ∧
      ∀ ts ∈ m.swept, ts ≤ m.db.inner.timestamp ∧
        ∀ (key : Bytes) ch, m.db.inner.datastore[key]? = some ch → Compact ts ch := by
  obtain ⟨m, answers, hrun, h⟩ :=
    (Sweeping.opened datastore start threshold frequency).run actions
  refine ⟨m, answers, hrun, ?_, fun ts hts => ⟨h.swept ts hts, fun key ch hk => ?_⟩⟩
  · rw [← h.frequency]
    exact h.sweeps
  · have hc := h.compact ts hts key
    rwa [chainAt, hk] at hc

end Maintained

end StupidKv
