import StupidKv.VersionLaws

namespace StupidKv
open Std
set_option autoImplicit true

theorem survivor_append (lo : List Version) (h : mid ≠ []) :
    survivor (lo ++ mid) = survivor mid := by
  cases mid using List.reverseRecOn with
  | nil => exact absurd rfl h
  | append_singleton mid x => rw [← List.append_assoc, survivor_concat, survivor_concat]

theorem survivor_survivor (lo : List Version) : survivor (survivor lo) = survivor lo := by
  cases lo using List.reverseRecOn with
  | nil => rfl
  | append_singleton lo x =>
    rw [survivor_concat]
    cases hx : x.value with
    | none => rfl
    | some b => simp [survivor, hx]

theorem survivor_survivor_append (lo mid : List Version) :
    survivor (survivor lo ++ mid) = survivor (lo ++ mid) := by
  by_cases h : mid = []
  · rw [h, List.append_nil, List.append_nil, survivor_survivor]
  · rw [survivor_append _ h, survivor_append _ h]

section
variable {lo mid hi : List Version} {v w : Nat}

/-- A later pass at a higher watermark meets the entries between the two untouched. -/
theorem gcOlderVersions_raised (hlo : ∀ a ∈ lo, a.version ≤ v)
    (hmid : ∀ a ∈ mid, v < a.version ∧ a.version ≤ w) (hhi : ∀ a ∈ hi, w < a.version)
    (hvw : v ≤ w) :
    gcOlderVersions (gcOlderVersions (lo ++ mid ++ hi) v) w =
      gcOlderVersions (lo ++ mid ++ hi) w := by
  have hsurv : ∀ a ∈ survivor lo ++ mid, a.version ≤ w := by
    intro a ha
    rcases List.mem_append.1 ha with ha | ha
    · exact (hlo a (survivor_subset lo ha)).trans hvw
    · exact (hmid a ha).2
  have hbelow : ∀ a ∈ lo ++ mid, a.version ≤ w := by
    intro a ha
    rcases List.mem_append.1 ha with ha | ha
    · exact (hlo a ha).trans hvw
    · exact (hmid a ha).2
  have habove : ∀ a ∈ mid ++ hi, v < a.version := by
    intro a ha
    rcases List.mem_append.1 ha with ha | ha
    · exact (hmid a ha).1
    · exact hvw.trans_lt (hhi a ha)
  calc gcOlderVersions (gcOlderVersions (lo ++ mid ++ hi) v) w
      = gcOlderVersions (survivor lo ++ mid ++ hi) w := by
        rw [List.append_assoc, gcOlderVersions_survivor habove hlo, List.append_assoc]
    _ = survivor (survivor lo ++ mid) ++ hi := gcOlderVersions_survivor hhi hsurv
    _ = survivor (lo ++ mid) ++ hi := by rw [survivor_survivor_append]
    _ = gcOlderVersions (lo ++ mid ++ hi) w := (gcOlderVersions_survivor hhi hbelow).symm

/-- A later pass at a lower watermark finds at most the entry the first one kept. -/
theorem gcOlderVersions_lowered (hlo : ∀ a ∈ lo, a.version ≤ v) (hhi : ∀ a ∈ hi, v < a.version)
    (hvw : w ≤ v) :
    gcOlderVersions (gcOlderVersions (lo ++ hi) v) w = gcOlderVersions (lo ++ hi) v := by
  have hw : ∀ a ∈ hi, w < a.version := fun a ha => hvw.trans_lt (hhi a ha)
  have hnone : ∀ l : List Version, (∀ a ∈ l, w < a.version) → gcOlderVersions l w = l := by
    intro l hl
    have hnil : ∀ a ∈ ([] : List Version), a.version ≤ w := by simp
    exact gcOlderVersions_survivor hl hnil
  rw [gcOlderVersions_survivor hhi hlo]
  by_cases hs : ∀ a ∈ survivor lo, a.version ≤ w
  · rw [gcOlderVersions_survivor hw hs, survivor_survivor]
  · apply hnone
    -- The survivor, a single entry, lies above the lower watermark.
    obtain ⟨x, hx, hxw⟩ : ∃ x ∈ survivor lo, w < x.version := by simpa using hs
    have hone : (survivor lo).length = 1 :=
      Nat.le_antisymm (survivor_length lo) (List.length_pos_of_mem hx)
    obtain ⟨y, hy⟩ := List.length_eq_one_iff.1 hone
    rw [hy, List.mem_singleton] at hx
    subst hx
    intro a ha
    rw [hy] at ha
    rcases List.mem_append.1 ha with ha | ha
    · rw [List.mem_singleton.1 ha]
      exact hxw
    · exact hw a ha

end

theorem Versions.gcOlderVersions_gcOlderVersions (ch : Versions) (v w : Nat) :
    (ch.gcOlderVersions v).gcOlderVersions w = ch.gcOlderVersions (max v w) := by
  apply Versions.ext
  change StupidKv.gcOlderVersions (StupidKv.gcOlderVersions ch.inner v) w =
    StupidKv.gcOlderVersions ch.inner (max v w)
  obtain ⟨lo, rest, hl, hlo, hrest⟩ := ch.ascending.split v
  rcases Nat.le_total v w with hvw | hwv
  · have ha : Ascending rest := by
      refine ch.ascending.sublist ?_
      rw [hl]
      exact List.sublist_append_right lo rest
    obtain ⟨mid, hi, rfl, hmid, hhi⟩ := ha.split w
    rw [Nat.max_eq_right hvw, hl, ← List.append_assoc]
    apply gcOlderVersions_raised hlo _ hhi hvw
    intro a ha
    exact ⟨hrest a (List.mem_append_left hi ha), hmid a ha⟩
  · rw [Nat.max_eq_left hwv, hl]
    exact gcOlderVersions_lowered hlo hrest hwv

theorem gcEntry_gcEntry (hvw : v ≤ w) (ch : Versions) :
    (gcEntry v ch).bind (gcEntry w) = gcEntry w ch := by
  have hcomp := ch.gcOlderVersions_gcOlderVersions v w
  rw [Nat.max_eq_right hvw] at hcomp
  by_cases hn : (ch.gcOlderVersions v).inner.length = 0
  · have hnil : (ch.gcOlderVersions w).inner = [] := by
      rw [← hcomp]
      change gcOlderVersions (ch.gcOlderVersions v).inner w = []
      rw [List.length_eq_zero_iff.1 hn]
      rfl
    simp only [gcEntry, hn, hnil, ↓reduceIte, Option.bind_none, List.length_nil]
  · simp only [gcEntry, hn, ↓reduceIte, Option.bind_some, hcomp]

theorem gcEntry_eq_none_iff (w : Nat) (ch : Versions) :
    gcEntry w ch = none ↔ (ch.gcOlderVersions w).inner = [] := by
  simp only [gcEntry, ite_eq_left_iff, reduceCtorEq, imp_false, not_not, List.length_eq_zero_iff]

theorem gcEntry_eq_some (h : (ch.gcOlderVersions w).inner ≠ []) :
    gcEntry w ch = some (ch.gcOlderVersions w) := by
  rw [gcEntry, if_neg (mt List.length_eq_zero_iff.1 h)]

namespace Inner

theorem getElem?_gcKey (w : Nat) (datastore : SkipMap Bytes Versions) (key key' : Bytes) :
    (gcKey w datastore key)[key']? =
      if key = key' then datastore[key']?.bind (gcEntry w) else datastore[key']? := by
  simp only [gcKey, ExtTreeMap.getElem?_alter, LawfulEqOrd.compare_eq_iff_eq]
  split
  · rename_i he
    rw [he]
  · rfl

/-- The drain compacts the keys it meets, each of them once, and leaves the others alone. -/
theorem getElem?_gcDirtyLoop (w : Nat) (datastore : SkipMap Bytes Versions) (keys : List Bytes)
    (seen : ExtTreeSet Bytes compare) (key : Bytes) :
    (gcDirtyLoop w datastore keys seen)[key]? =
      if key ∈ keys ∧ key ∉ seen then datastore[key]?.bind (gcEntry w) else datastore[key]? := by
  induction keys generalizing datastore seen with
  | nil => simp [gcDirtyLoop]
  | cons k keys ih =>
    unfold gcDirtyLoop
    by_cases hk : k ∈ seen
    · rw [if_pos (ExtTreeSet.contains_iff_mem.2 hk), ih]
      apply if_congr _ rfl rfl
      grind
    · rw [if_neg (mt ExtTreeSet.contains_iff_mem.1 hk), ih, getElem?_gcKey]
      simp only [ExtTreeSet.mem_insert, LawfulEqOrd.compare_eq_iff_eq, List.mem_cons]
      by_cases he : k = key
      · subst he
        simp [hk]
      · have he' : key ≠ k := fun h => he h.symm
        simp [he, he']

theorem getElem?_runGcFull (db : Inner) (w : Nat) (key : Bytes) :
    (db.runGcFull w).datastore[key]? = db.datastore[key]?.bind (gcEntry w) := by
  simp only [runGcFull, ExtTreeMap.getElem?_filterMap']

/-- Whatever the dirty queue holds, a full pass at the same or a higher watermark makes the
incremental one before it superfluous. -/
theorem runGcFull_runGcDirtyInner (db : Inner) (hvw : v ≤ w) :
    ((db.runGcDirtyInner v).runGcFull w).datastore = (db.runGcFull w).datastore := by
  apply ExtTreeMap.ext_getElem?
  intro key
  rw [getElem?_runGcFull, getElem?_runGcFull]
  simp only [runGcDirtyInner, getElem?_gcDirtyLoop]
  split
  · cases db.datastore[key]? with
    | none => rfl
    | some ch => exact gcEntry_gcEntry hvw ch
  · rfl

end Inner

/-- Compaction composes, on one chain and over the whole datastore. -/
theorem compaction_composes :
    (∀ (ch : Versions) (v w : Nat),
      (ch.gcOlderVersions v).gcOlderVersions w = ch.gcOlderVersions (max v w)) ∧
    ∀ (db : Inner) (w : Nat),
      ((db.runGcDirtyInner w).runGcFull w).datastore = (db.runGcFull w).datastore ∧
      (∀ key : Bytes, db.datastore[key]? = none → (db.runGcFull w).datastore[key]? = none) ∧
      ∀ (key : Bytes) (ch : Versions), db.datastore[key]? = some ch →
        ((db.runGcFull w).datastore[key]? = none ↔ (ch.gcOlderVersions w).inner = []) ∧
        ((ch.gcOlderVersions w).inner ≠ [] →
          (db.runGcFull w).datastore[key]? = some (ch.gcOlderVersions w)) := by
  refine ⟨Versions.gcOlderVersions_gcOlderVersions, fun db w => ⟨?_, ?_, ?_⟩⟩
  · exact db.runGcFull_runGcDirtyInner le_rfl
  · intro key hkey
    rw [db.getElem?_runGcFull, hkey]
    rfl
  · intro key ch hkey
    rw [db.getElem?_runGcFull, hkey]
    exact ⟨gcEntry_eq_none_iff w ch, gcEntry_eq_some⟩

end StupidKv
