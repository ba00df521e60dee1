import StupidKv.Ledger

namespace StupidKv
open Std Timeline
set_option autoImplicit true

/-- A commit that went through, with the two numbers it was given. -/
structure Published where
  commit : Nat
  version : Nat
  writeset : Writeset

/-- The timeline of one key. -/
def writesOf (hist : List Published) (key : Bytes) : Set (Nat × Option Bytes) :=
  {p | ∃ h ∈ hist, h.version = p.1 ∧ h.writeset[key]? = some p.2}

abbrev Chronological (hist : List Published) : Prop :=
  hist.Pairwise fun a b => a.version < b.version

theorem writesOf_functional (hs : Chronological hist) (key : Bytes) :
    Functional (writesOf hist key) := by
  rintro t x y ⟨a, ha, rfl, hx⟩ ⟨b, hb, he, hy⟩
  have hab := eq_of_increasing hs ha hb he.symm
  subst hab
  exact Option.some.inj (hx.symm.trans hy)

theorem writesOf_concat_some {h : Published} (hv : h.writeset[key]? = some v)
    (hist : List Published) :
    writesOf (hist ++ [h]) key = insert (h.version, v) (writesOf hist key) := by
  ext ⟨t, x⟩
  simp only [writesOf, Set.mem_ofPred_eq, List.mem_append, List.mem_singleton, Set.mem_insert_iff]
  constructor
  · rintro ⟨a, ha | rfl, he, hx⟩
    · exact .inr ⟨a, ha, he, hx⟩
    · rw [hv] at hx
      cases hx
      cases he
      exact .inl rfl
  · rintro (he | ⟨a, ha, he, hx⟩)
    · cases he
      exact ⟨h, .inr rfl, rfl, hv⟩
    · exact ⟨a, .inl ha, he, hx⟩

theorem writesOf_concat_none {h : Published} (hv : h.writeset[key]? = none)
    (hist : List Published) : writesOf (hist ++ [h]) key = writesOf hist key := by
  ext ⟨t, x⟩
  simp only [writesOf, Set.mem_ofPred_eq, List.mem_append, List.mem_singleton]
  constructor
  · rintro ⟨a, ha | rfl, he, hx⟩
    · exact ⟨a, ha, he, hx⟩
    · rw [hv] at hx
      cases hx
  · rintro ⟨a, ha, he, hx⟩
    exact ⟨a, .inl ha, he, hx⟩

theorem lookup_concat (committed : List Writeset) (ws : Writeset) (key : Bytes) :
    lookup (committed ++ [ws]) key = (ws[key]?).getD (lookup committed key) := by
  unfold lookup
  rw [List.reverse_concat, List.findSome?_cons]
  cases ws[key]? <;> simp

/-- The commits up to the reader, in order, give the value the reader sees. -/
theorem lookup_visible_of_le {lo : List Published} (hs : Chronological lo)
    (hq : ∀ h ∈ lo, h.version ≤ q) (key : Bytes) :
    Visible (writesOf lo key) q (lookup (lo.map Published.writeset) key) := by
  induction lo using List.reverseRecOn with
  | nil => exact .unwritten (by simp [writesOf])
  | append_singleton lo h ih =>
    obtain ⟨hs, _, hlast⟩ := List.pairwise_append.1 hs
    have ih := ih hs fun a ha => hq a (by simp [ha])
    rw [List.map_append, List.map_singleton, lookup_concat]
    cases hv : h.writeset[key]? with
    | none => simpa only [writesOf_concat_none hv, Option.getD_none] using ih
    | some v =>
      rw [writesOf_concat_some hv, Option.getD_some]
      refine Visible.insert_last (hq h (by simp)) ?_
      rintro t x ⟨a, ha, rfl, -⟩ -
      exact (hlast a ha h (by simp)).le

theorem lookup_visible {hist : List Published} (hs : Chronological hist)
    (past : ∀ h ∈ hist.take n, h.version ≤ q) (future : ∀ h ∈ hist.drop n, q < h.version)
    (key : Bytes) :
    Visible (writesOf hist key) q (lookup ((hist.map Published.writeset).take n) key) := by
  rw [← List.map_take]
  refine (lookup_visible_of_le (hs.sublist (List.take_sublist n hist)) past key).congr ?_
  intro t x ht
  constructor
  · rintro ⟨a, ha, he⟩
    exact ⟨a, List.mem_of_mem_take ha, he⟩
  · rintro ⟨a, ha, rfl, hx⟩
    rw [← List.take_append_drop n hist] at ha
    rcases List.mem_append.1 ha with ha | ha
    · exact ⟨a, ha, rfl, hx⟩
    · exact absurd (future a ha) (Nat.not_lt.2 ht)

/-- The chain a reader of the datastore meets under `key`. -/
def chainAt (datastore : SkipMap Bytes Versions) (key : Bytes) : Versions :=
  datastore[key]?.getD .new

theorem Versions.ext {a b : Versions} (h : a.inner = b.inner) : a = b := by
  cases a
  cases b
  cases h
  rfl

theorem gcEntry_getD (v : Nat) (entry : Option Versions) :
    (entry.bind (gcEntry v)).getD .new = (entry.getD .new).gcOlderVersions v := by
  cases entry with
  | none => exact Versions.ext rfl
  | some ch =>
    simp only [Option.bind_some, gcEntry, Option.getD_some]
    split
    · rename_i h
      refine Versions.ext ?_
      simpa [Versions.new] using (List.length_eq_zero_iff.1 h).symm
    · rfl

/-- Every chain keeps what a reader from `W` on sees. -/
abbrev Covers (W : Nat) (datastore : SkipMap Bytes Versions)
    (P : Bytes → Set (Nat × Option Bytes)) : Prop :=
  ∀ key, CoversFrom W (chainAt datastore key) (P key)

/-- What compaction of a chain preserves, a pass over the datastore preserves for every key. -/
theorem gcPass_preserves {Q : Bytes → Versions → Prop}
    (hQ : ∀ key ch, Q key ch → Q key (ch.gcOlderVersions v)) (db : Inner)
    (h : ∀ key, Q key (chainAt db.datastore key)) (key : Bytes) :
    Q key (chainAt (db.gcPass v).datastore key) := by
  have hkey : ∀ datastore key, (∀ key, Q key (chainAt datastore key)) →
      ∀ key', Q key' (chainAt (Inner.gcKey v datastore key) key') := by
    intro datastore key h key'
    unfold chainAt Inner.gcKey
    rw [ExtTreeMap.getElem?_alter]
    split
    · rename_i he
      have he : key = key' := by simpa using he
      subst he
      rw [gcEntry_getD]
      exact hQ key _ (h key)
    · exact h key'
  have hloop : ∀ keys datastore seen, (∀ key, Q key (chainAt datastore key)) →
      ∀ key, Q key (chainAt (Inner.gcDirtyLoop v datastore keys seen) key) := by
    intro keys
    induction keys with
    | nil => exact fun _ _ h => h
    | cons k keys ih =>
      intro datastore seen h
      unfold Inner.gcDirtyLoop
      split
      · exact ih datastore seen h
      · exact ih _ _ (hkey datastore k h)
  have hd := hloop db.gcDirtyKeys db.datastore ∅ h key
  unfold chainAt at hd ⊢
  simp only [Inner.gcPass, Inner.runGcFull, Inner.runGcDirtyInner, ExtTreeMap.getElem?_filterMap']
  rw [gcEntry_getD]
  exact hQ key _ hd

theorem Covers.gcPass (db : Inner) (h : Covers W db.datastore P) (hv : v ≤ W) :
    Covers W (db.gcPass v).datastore P := by
  refine gcPass_preserves (Q := fun key ch => CoversFrom W ch (P key)) ?_ db h
  intro key ch hch
  simpa only [Nat.max_eq_left hv] using hch.gc v

theorem Versions.push_ofVersion (w : Version) : (Versions.ofVersion w).push w = .ofVersion w := by
  refine Versions.ext ?_
  simp [Versions.push, Versions.ofVersion, pushVersion]

@[simp] theorem Versions.writes_new : Versions.new.writes = ∅ := by
  ext p
  simp [Versions.writes, Versions.new]

/-- The seeded push of a commit: a missing entry starts as the write itself. -/
def seededPush (entry : Option Versions) (w : Version) : Versions :=
  (entry.getD (.ofVersion w)).push w

theorem CoversFrom.ofVersion (h : CoversFrom W .new P)
    (hm : ∀ p ∈ P, p.1 ≤ w.version ∨ p.2 = w.value) :
    CoversFrom W (.ofVersion w) (insert (w.version, w.value) P) where
  subset := by
    rintro ⟨t, x⟩ hp
    have he : (⟨t, x⟩ : Version) = w := List.mem_singleton.1 hp
    exact .inl (by rw [← he])
  visible q hq := by
    by_cases hw : w.version ≤ q
    · have he : (Versions.ofVersion w).fetchVersion q = w.value :=
        Versions.fetchVersion_split _ [w] [] rfl (by simp) (by simpa using hw)
      rw [he]
      exact (h.visible q hq).insert_last_or hw fun s y hs _ => hm (s, y) hs
    · have he : (Versions.ofVersion w).fetchVersion q = Versions.new.fetchVersion q :=
        Versions.fetchVersion_split _ [] [w] rfl (by simpa using hw) (by simp)
      rw [he]
      exact (h.visible q hq).insert_future (Nat.not_le.1 hw)

theorem CoversFrom.seededPush (h : CoversFrom W (entry.getD .new) P)
    (hm : ∀ p ∈ P, p ∉ (entry.getD .new).writes → p.1 ≤ w.version ∨ p.2 = w.value) :
    CoversFrom W (seededPush entry w) (insert (w.version, w.value) P) := by
  cases entry with
  | some ch => exact CoversFrom.push_new h hm
  | none =>
    unfold StupidKv.seededPush
    rw [Option.getD_none, Versions.push_ofVersion]
    exact CoversFrom.ofVersion h fun p hp => hm p hp (by simp)

theorem mem_seededPush_of_ne {entry : Option Versions} (h : p ∈ (entry.getD .new).writes)
    (hn : p.1 ≠ w.version) : p ∈ (seededPush entry w).writes := by
  cases entry with
  | some ch => exact ch.mem_push_of_ne h hn
  | none => simp at h

theorem mem_seededPush_or_shown (entry : Option Versions) (w : Version) :
    (w.version, w.value) ∈ (seededPush entry w).writes ∨
      ∃ ch, entry = some ch ∧ ch.fetchVersion w.version = w.value := by
  cases entry with
  | some ch =>
    rcases ch.mem_push_or_absorbed w with h | h
    · exact .inl h
    · exact .inr ⟨ch, rfl, h.1⟩
  | none =>
    refine .inl ?_
    unfold seededPush
    rw [Option.getD_none, Versions.push_ofVersion]
    simp [Versions.writes, Versions.ofVersion]

theorem Writeset.toList_distinct (ws : Writeset) : ws.toList.Pairwise fun a b => a.1 ≠ b.1 := by
  refine List.Pairwise.imp ?_ ExtTreeMap.ordered_keys_toList
  intro a b hab he
  simp [he] at hab

namespace Inner

theorem pushKey_getElem? (datastore : SkipMap Bytes Versions) (version : Nat) (key : Bytes)
    (value : Option Bytes) (key' : Bytes) :
    (pushKey datastore version key value)[key']? =
      if key = key' then some (seededPush datastore[key']? ⟨version, value⟩)
      else datastore[key']? := by
  rw [pushKey, ExtTreeMap.getElem?_alter]
  by_cases h : key = key'
  · subst h
    simp [seededPush]
  · simp [h]

theorem writeAll_frame (db : Inner) (version : Nat) (ws : Writeset) :
    ∃ dirty, db.writeAll version ws =
      { db with datastore := (db.writeAll version ws).datastore, gcDirtyKeys := dirty } := by
  unfold writeAll
  generalize ws.toList = l
  induction l generalizing db with
  | nil => exact ⟨db.gcDirtyKeys, rfl⟩
  | cons e l ih =>
    obtain ⟨dirty, hd⟩ := ih (db.writeKey version e)
    exact ⟨dirty, hd⟩

theorem foldl_writeKey_datastore (db : Inner) (version : Nat) (l : List (Bytes × Option Bytes))
    (hl : l.Pairwise fun a b => a.1 ≠ b.1) (key : Bytes) :
    (l.foldl (fun db e => db.writeKey version e) db).datastore[key]? =
      match l.find? fun e => e.1 = key with
      | some e => some (seededPush db.datastore[key]? ⟨version, e.2⟩)
      | none => db.datastore[key]? := by
  induction l generalizing db with
  | nil => rfl
  | cons e l ih =>
    obtain ⟨he, hl⟩ := List.pairwise_cons.1 hl
    rw [List.foldl_cons, ih _ hl, List.find?_cons]
    by_cases hk : e.1 = key
    · have hn : l.find? (fun e => e.1 = key) = none := by
        refine List.find?_eq_none.2 fun a ha => ?_
        have := he a ha
        simpa [← hk] using fun h => this h.symm
      simp [hn, hk, writeKey, pushKey_getElem?]
    · simp [hk, writeKey, pushKey_getElem?]

theorem writeAll_datastore (db : Inner) (version : Nat) (ws : Writeset) (key : Bytes) :
    (db.writeAll version ws).datastore[key]? =
      match ws[key]? with
      | some v => some (seededPush db.datastore[key]? ⟨version, v⟩)
      | none => db.datastore[key]? := by
  rw [writeAll, foldl_writeKey_datastore db version _ (Writeset.toList_distinct ws)]
  cases hw : ws[key]? with
  | none =>
    have hn : ws.toList.find? (fun e => e.1 = key) = none := by
      refine List.find?_eq_none.2 ?_
      rintro ⟨k, v⟩ hm hk
      have hk : k = key := by simpa using hk
      rw [ExtTreeMap.mem_toList_iff_getElem?_eq_some, hk, hw] at hm
      cases hm
    rw [hn]
  | some v =>
    cases hf : ws.toList.find? fun e => e.1 = key with
    | none =>
      have hm := ExtTreeMap.mem_toList_iff_getElem?_eq_some.2 hw
      simpa using List.find?_eq_none.1 hf _ hm
    | some e =>
      have hk : e.1 = key := by simpa using List.find?_some hf
      have hm := List.mem_of_find?_eq_some hf
      rw [ExtTreeMap.mem_toList_iff_getElem?_eq_some (k := e.1) (v := e.2), hk, hw] at hm
      rw [Option.some.inj hm]

end Inner

/-- The datastore behind a commit that has written all its keys. -/
def Written (version : Nat) (ws : Writeset) (before after : SkipMap Bytes Versions) : Prop :=
  ∀ key : Bytes, after[key]? =
    match ws[key]? with
    | some value => some (seededPush before[key]? ⟨version, value⟩)
    | none => before[key]?

/-- A commit above every earlier version is covered once its keys are written. -/
theorem Covers.written (h : Covers W before (writesOf hist)) (hw : Written version ws before after)
    (hv : ∀ a ∈ hist, a.version < version) (c : Nat) :
    Covers W after (writesOf (hist ++ [⟨c, version, ws⟩])) := by
  intro key
  have hk := h key
  unfold chainAt at hk ⊢
  rw [hw key]
  cases hw : ws[key]? with
  | none => simpa only [writesOf_concat_none (h := ⟨c, version, ws⟩) hw] using hk
  | some v =>
    rw [writesOf_concat_some (h := ⟨c, version, ws⟩) hw]
    refine CoversFrom.seededPush (w := ⟨version, v⟩) hk ?_
    rintro p ⟨a, ha, he, -⟩ -
    exact .inl (he ▸ (hv a ha).le)

end StupidKv
