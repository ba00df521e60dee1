import StupidKv.DiskShape
import StupidKv.Reopening

namespace StupidKv
open Std
set_option autoImplicit true

/-- The lines a snapshot writes: every key with a chain that is not empty. -/
def entriesOf (datastore : SkipMap Bytes Versions) : List Entry :=
  datastore.toList.filterMap fun e =>
    if e.2.allVersions.isEmpty then none else some (e.1, e.2.allVersions)

/-- What `load` makes of a snapshot of `datastore` and of an AOL with the records of `log`. -/
def restored (datastore : SkipMap Bytes Versions) (log : List Record) : SkipMap Bytes Versions :=
  log.foldl replayRecord ((entriesOf datastore).foldl loadEntry ∅)

/-- The value of the last record of a key. -/
def lastLogged (log : List Record) (key : Bytes) : Option Bytes :=
  (log.reverse.find? fun r => r.1 = key).bind fun r => r.2.2

/-- Every record of the key is older than the whole chain, or the chain shows it. -/
def Sheltered (ch : Versions) (log : List Record) (key : Bytes) : Prop :=
  ∀ v y, (key, v, y) ∈ log → (∀ e ∈ ch.inner, v < e.version) ∨ ch.fetchVersion v = y

section
variable {ch : Versions} {entry : Option Versions} {datastore : SkipMap Bytes Versions}

theorem foldl_loadEntry_of_ne {l : List Entry} (h : ∀ e ∈ l, e.1 ≠ key) :
    (l.foldl loadEntry datastore)[key]? = datastore[key]? := by
  induction l generalizing datastore with
  | nil => rfl
  | cons e l ih =>
    rw [List.foldl_cons, ih fun a ha => h a (List.mem_cons_of_mem e ha), loadEntry_getElem?,
      if_neg fun hc => h e (List.mem_cons_self ..) hc.1]

theorem foldl_loadEntry_of_mem {l : List Entry} (hl : l.Pairwise fun a b => a.1 ≠ b.1)
    (h : (key, versions) ∈ l) (hne : versions ≠ []) :
    (l.foldl loadEntry datastore)[key]? = some (Versions.new.pushAll versions) := by
  induction l generalizing datastore with
  | nil => cases h
  | cons e l ih =>
    obtain ⟨he, hl⟩ := List.pairwise_cons.1 hl
    rw [List.foldl_cons]
    rcases List.mem_cons.1 h with rfl | h
    · rw [foldl_loadEntry_of_ne fun a ha => (he a ha).symm, loadEntry_getElem?,
        if_pos ⟨rfl, hne⟩]
    · exact ih hl h

theorem mem_entriesOf {e : Entry} : e ∈ entriesOf datastore ↔
    ∃ ch, datastore[e.1]? = some ch ∧ e.2 = ch.allVersions ∧ e.2 ≠ [] := by
  unfold entriesOf
  rw [List.mem_filterMap]
  constructor
  · rintro ⟨⟨key, ch⟩, hm, he⟩
    split at he
    · cases he
    · rename_i hne
      cases he
      exact ⟨ch, ExtTreeMap.mem_toList_iff_getElem?_eq_some.1 hm, rfl, by simpa using hne⟩
  · rintro ⟨ch, hm, hv, hne⟩
    refine ⟨(e.1, ch), ExtTreeMap.mem_toList_iff_getElem?_eq_some.2 hm, ?_⟩
    rw [← hv, if_neg (by simpa using hne)]

theorem entriesOf_empty : entriesOf ∅ = [] := by
  refine List.eq_nil_iff_forall_not_mem.2 fun e he => ?_
  obtain ⟨ch, hch, -⟩ := mem_entriesOf.1 he
  simp at hch

theorem entriesOf_distinct (datastore : SkipMap Bytes Versions) :
    (entriesOf datastore).Pairwise fun a b => a.1 ≠ b.1 := by
  have hl : datastore.toList.Pairwise fun a b => a.1 ≠ b.1 := by
    refine List.Pairwise.imp ?_ ExtTreeMap.ordered_keys_toList
    intro a b hab he
    simp [he] at hab
  refine List.Pairwise.filterMap _ ?_ hl
  intro a b hab x hx y hy
  split at hx
  · cases hx
  · split at hy
    · cases hy
    · cases hx
      cases hy
      exact hab

/-- A snapshot brings every chain back as the pushes of its entries make it. -/
theorem loadedChain_entriesOf (datastore : SkipMap Bytes Versions) (key : Bytes) :
    loadedChain (entriesOf datastore) key =
      Versions.new.pushAll (chainAt datastore key).allVersions := by
  unfold loadedChain
  cases hentry : datastore[key]? with
  | none =>
    have hn : ∀ e ∈ entriesOf datastore, e.1 ≠ key := by
      rintro e he rfl
      obtain ⟨ch, hch, -⟩ := mem_entriesOf.1 he
      rw [hentry] at hch
      cases hch
    simp only [chainAt, foldl_loadEntry_of_ne hn, hentry]
    rfl
  | some ch =>
    by_cases hv : ch.allVersions = []
    · have hn : ∀ e ∈ entriesOf datastore, e.1 ≠ key := by
        rintro e he rfl
        obtain ⟨ch', hch, he, hne⟩ := mem_entriesOf.1 he
        rw [hentry] at hch
        cases hch
        exact hne (he.trans hv)
      simp only [chainAt, foldl_loadEntry_of_ne hn, hentry, Option.getD_some, hv]
      rfl
    · have hm : (key, ch.allVersions) ∈ entriesOf datastore :=
        mem_entriesOf.2 ⟨ch, hentry, rfl, hv⟩
      simp only [chainAt, foldl_loadEntry_of_mem (entriesOf_distinct datastore) hm hv, hentry,
        Option.getD_some]

theorem Newest.later (h : Newest ch t x) (ht : t ≤ t') : Newest ch t' x :=
  ⟨fun e he => (h.bound e he).trans ht, h.fetch ht⟩

theorem Newest.reload (h : Newest ch t x) : Newest (Versions.new.pushAll ch.allVersions) t x where
  bound := fun e he => h.bound e (ch.reload_covers.subset he)
  shown := by
    rw [ch.fetchVersion_reload]
    exact h.shown

theorem Newest.seededPush (h : Newest (entry.getD .new) t x) (hv : t < v) (y : Option Bytes) :
    Newest (seededPush entry ⟨v, y⟩) v y where
  bound := by
    intro e he
    rcases seededPush_writes_subset entry ⟨v, y⟩ he with rfl | he
    · exact le_rfl
    · exact (h.bound e he).trans hv.le
  shown := fetchVersion_seededPush_of_le (w := ⟨v, y⟩)
    (fun p hp => (h.bound p hp).trans hv.le) le_rfl

theorem fetchVersion_suffix {ch' : Versions} (h : ch'.inner <:+ ch.inner) (he : e ∈ ch'.inner)
    (hq : e.version ≤ q) : ch'.fetchVersion q = ch.fetchVersion q := by
  obtain ⟨dropped, hd⟩ := h
  obtain ⟨lo, hi, hl, hlo, hhi⟩ := ch'.ascending.split q
  have hne : lo ≠ [] := by
    rintro rfl
    rw [hl] at he
    exact absurd (hhi e he) (Nat.not_lt.2 hq)
  have hall := ch.ascending
  rw [← hd] at hall
  have hdropped : ∀ a ∈ dropped, a.version ≤ q := by
    intro a ha
    exact ((List.pairwise_append.1 hall).2.2 a ha e he).le.trans hq
  rw [ch'.fetchVersion_split lo hi hl hhi hlo,
    ch.fetchVersion_split (dropped ++ lo) hi (by rw [← hd, hl, List.append_assoc]) hhi ?_,
    lastValue_append _ hne]
  intro a ha
  rcases List.mem_append.1 ha with ha | ha
  · exact hdropped a ha
  · exact hlo a ha

theorem Sheltered.nil (ch : Versions) (key : Bytes) : Sheltered ch [] key := by
  intro v y h
  cases h

theorem Sheltered.gc (h : Sheltered ch log key) (w : Nat) :
    Sheltered (ch.gcOlderVersions w) log key := by
  intro v y hm
  have hs : (ch.gcOlderVersions w).inner <:+ ch.inner := gcOlderVersions_suffix ch.ascending w
  by_cases hall : ∀ e ∈ (ch.gcOlderVersions w).inner, v < e.version
  · exact .inl hall
  · simp only [not_forall, Nat.not_lt] at hall
    obtain ⟨e, he, hle⟩ := hall
    rcases h v y hm with hold | hshown
    · exact absurd (hold e (hs.subset he)) (Nat.not_lt.2 hle)
    · exact .inr ((fetchVersion_suffix hs he hle).trans hshown)

theorem Sheltered.reload (h : Sheltered ch log key) :
    Sheltered (Versions.new.pushAll ch.allVersions) log key := by
  intro v y hm
  rcases h v y hm with hold | hshown
  · refine .inl fun e he => hold e ?_
    exact ch.reload_covers.subset (a := (e.version, e.value)) he
  · exact .inr ((ch.fetchVersion_reload v).trans hshown)

theorem Sheltered.seededPush (h : Sheltered (entry.getD .new) log key)
    (hl : ∀ u z, (key, u, z) ∈ log → u < v) (y : Option Bytes) :
    Sheltered (seededPush entry ⟨v, y⟩) log key := by
  intro u z hm
  rcases h u z hm with hold | hshown
  · refine .inl fun e he => ?_
    rcases seededPush_writes_subset entry ⟨v, y⟩ (show (e.version, e.value) ∈ _ from he) with hw | hw
    · rw [Prod.mk.injEq] at hw
      rw [hw.1]
      exact hl u z hm
    · exact hold e hw
  · exact .inr ((fetchVersion_seededPush_of_lt entry ⟨v, y⟩ (hl u z hm)).trans hshown)

theorem Sheltered.append (h : Sheltered ch log key)
    (hn : ∀ v y, (key, v, y) ∈ new → ch.fetchVersion v = y) : Sheltered ch (log ++ new) key := by
  intro v y hm
  rcases List.mem_append.1 hm with hm | hm
  · exact h v y hm
  · exact .inr (hn v y hm)

theorem LogOrdered.replayable (h : LogOrdered log) : Replayable log := by
  intro a r b he
  rw [he] at h
  refine .inr fun r' hr' hk => ?_
  exact (List.pairwise_append.1 h).2.2 r' hr' r (List.mem_cons_self ..) hk

theorem Newest.exists (ch : Versions) : ∃ t x, Newest ch t x := by
  have hb : ∀ l : List Version, ∃ t, ∀ e ∈ l, e.version ≤ t := by
    intro l
    induction l with
    | nil => exact ⟨0, by simp⟩
    | cons a l ih =>
      obtain ⟨t, ht⟩ := ih
      refine ⟨max a.version t, fun e he => ?_⟩
      rcases List.mem_cons.1 he with rfl | he
      · exact Nat.le_max_left ..
      · exact (ht e he).trans (Nat.le_max_right ..)
  obtain ⟨t, ht⟩ := hb ch.inner
  exact ⟨t, ch.fetchVersion t, fun e he => ht ⟨e.1, e.2⟩ he, rfl⟩

theorem replay_shows (hl : LogOrdered log) (hm : (key, v, y) ∈ log) :
    (chainAt (log.foldl replayRecord datastore) key).fetchVersion v = y := by
  obtain ⟨t, x, h⟩ := Newest.exists (chainAt datastore key)
  have hr : Reflects Set.univ ∅ (chainAt datastore key) :=
    .written (Set.mem_univ (t, x)) (fun _ hv => absurd hv (Set.notMem_empty _)) h
  rcases replay_cases hl.replayable key (fun _ _ _ => Set.mem_univ _) hr with ⟨hn, -⟩ | hrep
  · exact absurd hm (hn v y)
  · exact hrep.shown v y hm

theorem lastLogged_eq (hl : LogOrdered log) (hm : (key, v, y) ∈ log)
    (hv : ∀ u z, (key, u, z) ∈ log → u ≤ v) : lastLogged log key = y := by
  cases hf : log.reverse.find? fun r => r.1 = key with
  | none =>
    have := List.find?_eq_none.1 hf (key, v, y) (List.mem_reverse.2 hm)
    simp at this
  | some r =>
    obtain ⟨hr, a, b, hab, hn⟩ := List.find?_eq_some_iff_append.1 hf
    have hlog : log = b.reverse ++ r :: a.reverse := by
      rw [← List.reverse_reverse log, hab]
      simp
    have hk : r.1 = key := by simpa using hr
    rw [lastLogged, hf, Option.bind_some]
    rw [hlog] at hl hm hv
    rcases List.mem_append.1 hm with hm | hm
    · have hlt := (List.pairwise_append.1 hl).2.2 _ hm r (List.mem_cons_self ..) hk.symm
      have hle := hv r.2.1 r.2.2 (by simp [← hk])
      exact absurd hlt (Nat.not_lt.2 hle)
    · rcases List.mem_cons.1 hm with rfl | hm
      · rfl
      · have := hn _ (List.mem_reverse.1 hm)
        simp at this

theorem chainAt_replayRecord_ne {r : Record} (h : r.1 ≠ key) :
    chainAt (replayRecord datastore r) key = chainAt datastore key := by
  unfold chainAt
  rw [replayRecord_getElem?, if_neg h]

theorem chainAt_replayRecord_self (hch : datastore[key]? = some ch) (v : Nat) (y : Option Bytes) :
    chainAt (replayRecord datastore (key, v, y)) key = ch.push ⟨v, y⟩ := by
  unfold chainAt
  rw [replayRecord_getElem?, if_pos rfl, hch]
  rfl

theorem getElem?_of_mem_chainAt (h : e ∈ (chainAt datastore key).inner) :
    datastore[key]? = some (chainAt datastore key) := by
  cases hd : datastore[key]? with
  | none => simp [chainAt, hd, Versions.new] at h
  | some ch => simp [chainAt, hd]

theorem replay_writes (log : List Record) (h : ∀ p ∈ (chainAt datastore key).writes, p.1 ≤ t)
    (hl : ∀ r ∈ log, r.2.1 ≤ t) :
    ∀ p ∈ (chainAt (log.foldl replayRecord datastore) key).writes, p.1 ≤ t := by
  induction log generalizing datastore with
  | nil => exact h
  | cons r log ih =>
    refine ih ?_ fun r' hr' => hl r' (List.mem_cons_of_mem r hr')
    by_cases hk : r.1 = key
    · subst hk
      have hr := hl r (List.mem_cons_self ..)
      unfold chainAt at h ⊢
      rw [replayRecord_getElem?, if_pos rfl]
      intro p hp
      cases hentry : datastore[r.1]? with
      | none =>
        rw [hentry] at hp
        have he : (⟨p.1, p.2⟩ : Version) = ⟨r.2.1, r.2.2⟩ := List.mem_singleton.1 hp
        rw [Version.mk.injEq] at he
        rw [he.1]
        exact hr
      | some ch =>
        rw [hentry] at hp h
        rcases ch.push_writes_subset ⟨r.2.1, r.2.2⟩ hp with rfl | hp
        · exact hr
        · exact h p hp
    · rw [chainAt_replayRecord_ne hk]
      exact h

/-- From an entry on, a chain that shows the records there is not changed by their replay. -/
theorem replay_keeps {log : List Record} (he : ∃ e ∈ (chainAt datastore key).inner, e.version = b)
    (hs : ∀ v y, (key, v, y) ∈ log → v < b ∨ (chainAt datastore key).fetchVersion v = y)
    (hq : b ≤ q) :
    (chainAt (log.foldl replayRecord datastore) key).fetchVersion q =
      (chainAt datastore key).fetchVersion q := by
  induction log generalizing datastore with
  | nil => rfl
  | cons r log ih =>
    obtain ⟨k, v, y⟩ := r
    have hrest : ∀ v' y', (key, v', y') ∈ log →
        v' < b ∨ (chainAt datastore key).fetchVersion v' = y' :=
      fun v' y' h => hs v' y' (List.mem_cons_of_mem _ h)
    rw [List.foldl_cons]
    by_cases hk : k = key
    · subst hk
      obtain ⟨e, hm, hb⟩ := he
      have hch := getElem?_of_mem_chainAt hm
      generalize chainAt datastore k = ch at hm hch hs hrest ⊢
      have hpush := chainAt_replayRecord_self hch v y
      have hsame : ∀ q, b ≤ q → (ch.push ⟨v, y⟩).fetchVersion q = ch.fetchVersion q := by
        intro q hq
        rcases hs v y (List.mem_cons_self ..) with hlt | hshown
        · rw [ch.fetchVersion_push, if_neg]
          intro hc
          have := hc.2 e hm (hb ▸ hq)
          simp only at this
          omega
        · exact Versions.fetchVersion_push_shown (w := ⟨v, y⟩) hshown q
      have hkept : ∃ e ∈ (ch.push ⟨v, y⟩).inner, e.version = b := by
        by_cases hv : b = v
        · subst hv
          rcases ch.mem_push_or_absorbed ⟨b, y⟩ with hw | ⟨-, hw⟩
          · exact ⟨_, hw, rfl⟩
          · rw [hw]
            exact ⟨e, hm, hb⟩
        · refine ⟨e, ch.mem_push_of_ne (p := (e.version, e.value)) hm ?_, hb⟩
          simpa [hb] using hv
      rw [ih (by rw [hpush]; exact hkept), hpush, hsame q hq]
      intro v' y' h
      rw [hpush]
      rcases hrest v' y' h with hlt | hshown
      · exact .inl hlt
      · by_cases hv' : v' < b
        · exact .inl hv'
        · exact .inr ((hsame v' (Nat.not_lt.1 hv')).trans hshown)
    · have hne : chainAt (replayRecord datastore (k, v, y)) key = chainAt datastore key :=
        chainAt_replayRecord_ne hk
      rw [ih (by rw [hne]; exact he) (by rw [hne]; exact hrest), hne]

theorem Newest.replay_cases (h : Newest (chainAt datastore key) t x) (hl : LogOrdered log) :
    Newest (chainAt (log.foldl replayRecord datastore) key) t x ∨
      ∃ v, (key, v, lastLogged log key) ∈ log ∧
        Newest (chainAt (log.foldl replayRecord datastore) key) v (lastLogged log key) := by
  have hr : Reflects ({(t, x)} ∪ {p | (key, p.1, p.2) ∈ log}) ∅ (chainAt datastore key) :=
    .written (.inl rfl) (fun _ hv => absurd hv (Set.notMem_empty _)) h
  rcases StupidKv.replay_cases hl.replayable key (fun v y hm => .inr hm) hr with ⟨-, he⟩ | hrep
  · rw [he]
    exact .inl h
  · obtain ⟨t', x', hp, hle, hn⟩ := hrep.newest
    rcases hp with hp | hp
    · cases hp
      exact .inl hn
    · rw [lastLogged_eq hl hp hle]
      exact .inr ⟨t', hp, hn⟩

theorem fetchVersion_of_deletions (h : ∀ e ∈ ch.inner, e.value = none) (q : Nat) :
    ch.fetchVersion q = none := by
  cases hx : ch.fetchVersion q with
  | none => rfl
  | some b =>
    have hv := ch.fetchVersion_visible q
    rw [hx] at hv
    cases hv with
    | written hm =>
      have := h _ hm
      simp at this

theorem Newest.replay_sheltered (h : Newest (chainAt datastore key) t x)
    (hs : Sheltered (chainAt datastore key) log key) (hne : (chainAt datastore key).inner ≠ [])
    (hp : ∀ r ∈ log, r.2.1 ≤ t) :
    Newest (chainAt (log.foldl replayRecord datastore) key) t x := by
  obtain ⟨first, rest, hfirst⟩ := List.exists_cons_of_ne_nil hne
  have hm : first ∈ (chainAt datastore key).inner := by
    rw [hfirst]
    exact List.mem_cons_self ..
  refine ⟨replay_writes log h.bound hp, ?_⟩
  rw [replay_keeps ⟨first, hm, rfl⟩ ?_ (h.bound (first.version, first.value) hm)]
  · exact h.shown
  · intro v y hr
    rcases hs v y hr with hold | hshown
    · exact .inl (hold first hm)
    · exact .inr hshown

/-- A snapshot and the records it does not truncate restore what the snapshot shows, if it has a
value for every key whose last record is one. -/
theorem Newest.restored (h : Newest (chainAt datastore key) t x)
    (hs : Sheltered (chainAt datastore key) log key) (hl : LogOrdered log)
    (hp : ∀ r ∈ log, r.2.1 ≤ t)
    (hg : (∃ e ∈ (chainAt datastore key).inner, e.value.isSome = true) ∨
      lastLogged log key = none) :
    Newest (chainAt (restored datastore log) key) t x := by
  have hload : chainAt ((entriesOf datastore).foldl loadEntry ∅) key =
      Versions.new.pushAll (chainAt datastore key).allVersions :=
    loadedChain_entriesOf datastore key
  have hbase : Newest (chainAt ((entriesOf datastore).foldl loadEntry ∅) key) t x := by
    rw [hload]
    exact h.reload
  by_cases hv : ∃ e ∈ (chainAt datastore key).inner, e.value.isSome = true
  · obtain ⟨e, he, hval⟩ := hv
    have hshelter : Sheltered (chainAt ((entriesOf datastore).foldl loadEntry ∅) key) log key := by
      rw [hload]
      exact hs.reload
    have hsome : (chainAt ((entriesOf datastore).foldl loadEntry ∅) key).inner ≠ [] := by
      intro hnil
      have hshown : (chainAt datastore key).fetchVersion e.version = e.value :=
        ((chainAt datastore key).fetchVersion_visible e.version).unique
          (chainAt datastore key).writes_functional
          (.written (t := e.version) he le_rfl fun _ _ _ hle => hle)
      rw [← Versions.fetchVersion_reload, ← hload,
        fetchVersion_of_deletions (by simp [hnil])] at hshown
      rw [← hshown] at hval
      cases hval
    exact hbase.replay_sheltered hshelter hsome hp
  · have hx : x = none := by
      rw [← h.shown]
      refine fetchVersion_of_deletions (fun e he => ?_) t
      by_contra hne
      exact hv ⟨e, he, Option.isSome_iff_ne_none.2 hne⟩
    have hlast : lastLogged log key = none := hg.resolve_left hv
    rcases hbase.replay_cases hl with hn | ⟨v, hm, hn⟩
    · exact hn
    · rw [hlast] at hm hn
      rw [hx]
      exact hn.later (hp _ hm)

theorem Newest.logged (h : Newest (chainAt datastore key) t x) (hv : t < v) (ws : Writeset) :
    Newest (chainAt ((recordsOf v ws).foldl replayRecord datastore) key) v ((ws[key]?).getD x) := by
  have hl : LogOrdered (recordsOf v ws) :=
    (recordsOf_pairwise v ws).imp fun hne he => absurd he hne
  cases hw : ws[key]? with
  | none =>
    rcases h.replay_cases hl with hn | ⟨u, hm, -⟩
    · exact hn.later hv.le
    · have := (mem_recordsOf.1 hm).2
      rw [hw] at this
      cases this
  | some y =>
    have hm : (key, v, y) ∈ recordsOf v ws := mem_recordsOf.2 ⟨rfl, hw⟩
    have hshown : (chainAt ((recordsOf v ws).foldl replayRecord datastore) key).fetchVersion v = y :=
      replay_shows hl hm
    rcases h.replay_cases hl with hn | ⟨u, hu, hn⟩
    · refine ⟨(hn.later hv.le).bound, hshown⟩
    · have huv : u = v := (mem_recordsOf.1 hu).1
      subst huv
      exact ⟨hn.bound, hshown⟩

end

end StupidKv
