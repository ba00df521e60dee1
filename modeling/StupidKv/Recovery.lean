import StupidKv.Persistence

namespace StupidKv
open Std Timeline
set_option autoImplicit true

/-- The chain holds nothing newer than `t`, and shows `x` there. -/
structure Newest (ch : Versions) (t : Nat) (x : Option Bytes) : Prop where
  bound : ∀ e ∈ ch.writes, e.1 ≤ t
  shown : ch.fetchVersion t = x

section
variable {ch : Versions}

theorem Versions.fetchVersion_push_self (ch : Versions) (w : Version) :
    (ch.push w).fetchVersion w.version = w.value := by
  rw [ch.fetchVersion_push, if_pos ⟨le_rfl, fun e _ he => he⟩]

theorem Versions.fetchVersion_push_shown (h : ch.fetchVersion w.version = w.value) (q : Nat) :
    (ch.push w).fetchVersion q = ch.fetchVersion q := by
  rw [ch.fetchVersion_push]
  split
  · rename_i hc
    rw [← h]
    exact (ch.fetchVersion_eq_of_none_between hc.1 fun p hp => hc.2 ⟨p.1, p.2⟩ hp).symm
  · rfl

theorem Newest.fetch (h : Newest ch t x) (hq : t ≤ q) : ch.fetchVersion q = x := by
  rw [ch.fetchVersion_eq_of_none_between hq fun p hp _ => h.bound p hp]
  exact h.shown

theorem Newest.ofVersion (v : Nat) (y : Option Bytes) : Newest (.ofVersion ⟨v, y⟩) v y where
  bound := by
    intro e he
    have he : (⟨e.1, e.2⟩ : Version) = ⟨v, y⟩ := List.mem_singleton.1 he
    exact Nat.le_of_eq (congrArg Version.version he)
  shown := Versions.fetchVersion_split _ [⟨v, y⟩] [] rfl (by simp) (by simp)

theorem Newest.push_of_le (h : ∀ e ∈ ch.writes, e.1 ≤ v) (y : Option Bytes) :
    Newest (ch.push ⟨v, y⟩) v y where
  bound := by
    intro e he
    rcases ch.push_writes_subset ⟨v, y⟩ he with rfl | he
    · exact le_rfl
    · exact h e he
  shown := ch.fetchVersion_push_self ⟨v, y⟩

/-- A pushed write either becomes the newest one shown, or is overtaken by the one that was. -/
theorem Newest.push (h : Newest ch t x) (v : Nat) (y : Option Bytes) :
    (v ≤ t ∧ Newest (ch.push ⟨v, y⟩) t x) ∨ Newest (ch.push ⟨v, y⟩) v y := by
  by_cases hle : ∀ e ∈ ch.writes, e.1 ≤ v
  · exact .inr (Newest.push_of_le hle y)
  · simp only [not_forall, Nat.not_le] at hle
    obtain ⟨e, he, hlt⟩ := hle
    have het := h.bound e he
    refine .inl ⟨hlt.le.trans het, ?_, ?_⟩
    · intro e' he'
      rcases ch.push_writes_subset ⟨v, y⟩ he' with rfl | he'
      · exact hlt.le.trans het
      · exact h.bound e' he'
    · rw [ch.fetchVersion_push, if_neg]
      · exact h.shown
      · intro hc
        have hev := hc.2 ⟨e.1, e.2⟩ he het
        exact absurd hlt (Nat.not_lt.2 hev)

theorem Newest.push_shown (h : Newest ch t x) (hs : ch.fetchVersion v = y) (hv : v ≤ t) :
    Newest (ch.push ⟨v, y⟩) t x where
  bound := by
    intro e he
    rcases ch.push_writes_subset ⟨v, y⟩ he with rfl | he
    · exact hv
    · exact h.bound e he
  shown := by
    rw [Versions.fetchVersion_push_shown (w := ⟨v, y⟩) hs]
    exact h.shown

theorem Versions.writes_gc (ch : Versions) (w : Nat) : (ch.gcOlderVersions w).writes ⊆ ch.writes :=
  fun _ he => (gcOlderVersions_suffix ch.ascending w).subset he

theorem Newest.gc (h : Newest ch t x) (w : Nat) : Newest (ch.gcOlderVersions w) t x where
  bound := fun e he => h.bound e (ch.writes_gc w he)
  shown := by
    have hmax : (ch.gcOlderVersions w).fetchVersion (max t w) = x := by
      rw [ch.fetchVersion_gcOlderVersions (Nat.le_max_right t w)]
      exact h.fetch (Nat.le_max_left t w)
    rw [← hmax]
    refine ((ch.gcOlderVersions w).fetchVersion_eq_of_none_between (Nat.le_max_left t w) ?_).symm
    exact fun e he _ => h.bound e (ch.writes_gc w he)

end

/-- The chain shows one of the writes `P` of its key, none of those stamped in `V` newer. -/
inductive Reflects (P : Set (Nat × Option Bytes)) (V : Set Nat) (ch : Versions) : Prop
  | written (h : (t, x) ∈ P) (hV : ∀ v ∈ V, v ≤ t) (hn : Newest ch t x)
  | unwritten (hV : ∀ v, v ∉ V) (hn : ch.writes = ∅)

theorem Reflects.mono (h : Reflects P V ch) (hP : P ⊆ P') (hV : V' ⊆ V) : Reflects P' V' ch := by
  cases h with
  | written hp hv hn => exact .written (hP hp) (fun v h => hv v (hV h)) hn
  | unwritten hv hn => exact .unwritten (fun v h => hv v (hV h)) hn

theorem CoversFrom.pushAll {l : List (Nat × Option Bytes)} (h : CoversFrom 0 ch P)
    (hP : ∀ p ∈ P, ∀ w ∈ l, p.1 < w.1) (hl : l.Pairwise fun a b => a.1 < b.1) :
    CoversFrom 0 (ch.pushAll l) (P ∪ {p | p ∈ l}) := by
  induction l generalizing ch P with
  | nil => simpa [Versions.pushAll] using h
  | cons w l ih =>
    obtain ⟨hw, hl⟩ := List.pairwise_cons.1 hl
    have hpush : CoversFrom 0 (ch.push ⟨w.1, w.2⟩) (insert w P) := by
      refine CoversFrom.push_new (w := ⟨w.1, w.2⟩) h ?_
      intro p hp _
      exact .inl (hP p hp w (List.mem_cons_self ..)).le
    have hrest := ih hpush (by
      rintro p (rfl | hp) v hv
      · exact hw v hv
      · exact hP p hp v (List.mem_cons_of_mem w hv)) hl
    have hset : P ∪ {p | p ∈ w :: l} = insert w P ∪ {p | p ∈ l} := by
      ext p
      simp only [Set.mem_union, Set.mem_ofPred_eq, List.mem_cons, Set.mem_insert_iff]
      tauto
    rw [hset]
    exact hrest

theorem Versions.mem_allVersions (ch : Versions) (p : Nat × Option Bytes) :
    p ∈ ch.allVersions ↔ p ∈ ch.writes := by
  unfold Versions.allVersions
  rw [List.mem_map]
  constructor
  · rintro ⟨w, hw, rfl⟩
    exact hw
  · intro hp
    exact ⟨⟨p.1, p.2⟩, hp, rfl⟩

/-- Writing a chain out and pushing it back one by one changes no reader. -/
theorem Versions.reload_covers (ch : Versions) :
    CoversFrom 0 (Versions.new.pushAll ch.allVersions) ch.writes := by
  have hl : ch.allVersions.Pairwise fun a b => a.1 < b.1 :=
    List.pairwise_map.2 (ch.ascending.imp fun h => h)
  have hset : (∅ ∪ {p | p ∈ ch.allVersions} : Set (Nat × Option Bytes)) = ch.writes := by
    ext p
    rw [Set.empty_union]
    exact ch.mem_allVersions p
  have h := CoversFrom.pushAll (CoversFrom.empty 0) (by simp) hl
  rwa [hset] at h

theorem Versions.fetchVersion_reload (ch : Versions) (q : Nat) :
    (Versions.new.pushAll ch.allVersions).fetchVersion q = ch.fetchVersion q :=
  (ch.reload_covers.visible q (Nat.zero_le q)).unique ch.writes_functional
    (ch.fetchVersion_visible q)

theorem Reflects.reload (h : Reflects P V ch) :
    Reflects P V (Versions.new.pushAll ch.allVersions) := by
  cases h with
  | written hp hv hn =>
    refine .written hp hv ⟨fun e he => hn.bound e (ch.reload_covers.subset he), ?_⟩
    rw [ch.fetchVersion_reload]
    exact hn.shown
  | unwritten hv hn =>
    refine .unwritten hv (Set.subset_eq_empty ch.reload_covers.subset hn)

/-- Every record is newer than all earlier ones of its key, or repeats one of them. -/
def Replayable (recs : List Record) : Prop :=
  ∀ a r b, recs = a ++ r :: b → r ∈ a ∨ ∀ r' ∈ a, r'.1 = r.1 → r'.2.1 < r.2.1

theorem Replayable.left (h : Replayable (l ++ l')) : Replayable l := by
  intro a r b he
  exact h a r (b ++ l') (by simp [he])

theorem Replayable.repeated (h : Replayable l) (hs : l' ⊆ l) : Replayable (l ++ l') := by
  intro a r b he
  rcases List.append_eq_append_iff.1 he with ⟨c, rfl, hb⟩ | ⟨c, rfl, hb⟩
  · refine .inl (List.mem_append_left c (hs ?_))
    rw [hb]
    exact List.mem_append_right c (List.mem_cons_self ..)
  · cases c with
    | nil =>
      refine .inl ?_
      have hr : r ∈ l' := by
        rw [← List.nil_append l', ← hb]
        exact List.mem_cons_self ..
      have hr := hs hr
      rwa [List.append_nil] at hr
    | cons r' c =>
      rw [List.cons_append, List.cons.injEq] at hb
      exact h a r c (by rw [hb.1])

theorem mem_recordsOf {r : Record} {writeset : Writeset} :
    r ∈ recordsOf version writeset ↔ r.2.1 = version ∧ writeset[r.1]? = some r.2.2 := by
  obtain ⟨key, v, x⟩ := r
  unfold recordsOf
  rw [List.mem_map]
  constructor
  · rintro ⟨e, he, h⟩
    cases h
    exact ⟨rfl, ExtTreeMap.mem_toList_iff_getElem?_eq_some.1 he⟩
  · rintro ⟨rfl, h⟩
    exact ⟨(key, x), ExtTreeMap.mem_toList_iff_getElem?_eq_some.2 h, rfl⟩

theorem recordsOf_pairwise (version : Nat) (writeset : Writeset) :
    (recordsOf version writeset).Pairwise fun a b => a.1 ≠ b.1 :=
  List.pairwise_map.2 (writeset.toList_distinct.imp fun h => h)

theorem loadEntry_getElem? (datastore : SkipMap Bytes Versions) (e : Entry) (key : Bytes) :
    (loadEntry datastore e)[key]? =
      if e.1 = key ∧ e.2 ≠ [] then some (Versions.new.pushAll e.2) else datastore[key]? := by
  unfold loadEntry
  by_cases he : e.2 = []
  · simp [he]
  · have hemp : e.2.isEmpty = false := by simpa using he
    rw [hemp, if_neg Bool.false_ne_true, ExtTreeMap.getElem?_insert]
    simp [he]

theorem replayRecord_getElem? (datastore : SkipMap Bytes Versions) (r : Record) (key : Bytes) :
    (replayRecord datastore r)[key]? =
      if r.1 = key then
        some (match datastore[key]? with
          | some ch => ch.push ⟨r.2.1, r.2.2⟩
          | none => .ofVersion ⟨r.2.1, r.2.2⟩)
      else datastore[key]? := by
  rw [replayRecord, ExtTreeMap.getElem?_alter]
  by_cases h : r.1 = key
  · subst h
    cases datastore[r.1]? <;> simp
  · simp [h]

/-- What a replay has made of the chain of one key: it shows every record replayed so far, and
the newest write it shows is at least as new as all of them. -/
structure AfterReplay (P : Set (Nat × Option Bytes)) (recs : List Record) (key : Bytes)
    (ch : Versions) : Prop where
  nonempty : ∃ v y, (key, v, y) ∈ recs
  shown : ∀ v y, (key, v, y) ∈ recs → ch.fetchVersion v = y
  newest : ∃ t x, (t, x) ∈ P ∧ (∀ v y, (key, v, y) ∈ recs → v ≤ t) ∧ Newest ch t x

theorem AfterReplay.first {entry : Option Versions} (h : Reflects P V (entry.getD .new))
    (hp : (v, y) ∈ P) (hm : (key, v, y) ∈ recs)
    (hr : ∀ v' y', (key, v', y') ∈ recs → v' = v ∧ y' = y) :
    AfterReplay P recs key (match entry with
      | some ch => ch.push ⟨v, y⟩
      | none => .ofVersion ⟨v, y⟩) := by
  have hle : ∀ {t}, v ≤ t → ∀ v' y', (key, v', y') ∈ recs → v' ≤ t := by
    intro t ht v' y' h'
    rw [(hr v' y' h').1]
    exact ht
  cases entry with
  | none =>
    have hn := Newest.ofVersion v y
    refine ⟨⟨v, y, hm⟩, ?_, v, y, hp, hle le_rfl, hn⟩
    intro v' y' h'
    rw [(hr v' y' h').1, (hr v' y' h').2]
    exact hn.shown
  | some ch =>
    refine ⟨⟨v, y, hm⟩, ?_, ?_⟩
    · intro v' y' h'
      rw [(hr v' y' h').1, (hr v' y' h').2]
      exact ch.fetchVersion_push_self ⟨v, y⟩
    · cases h with
      | written ht _ hn =>
        rcases hn.push v y with ⟨hvt, hn⟩ | hn
        · exact ⟨_, _, ht, hle hvt, hn⟩
        · exact ⟨v, y, hp, hle le_rfl, hn⟩
      | unwritten _ hn =>
        refine ⟨v, y, hp, hle le_rfl, Newest.push_of_le ?_ y⟩
        intro e he
        rw [Option.getD_some] at hn
        rw [hn] at he
        exact absurd he (Set.notMem_empty e)

theorem AfterReplay.push (h : AfterReplay P recs key ch) (hp : (v, y) ∈ P)
    (hr : (key, v, y) ∈ recs ∨ ∀ v' y', (key, v', y') ∈ recs → v' < v) :
    AfterReplay P (recs ++ [(key, v, y)]) key (ch.push ⟨v, y⟩) := by
  obtain ⟨t, x, htx, hle, hn⟩ := h.newest
  have hne : ∃ v' y', (key, v', y') ∈ recs ++ [(key, v, y)] := ⟨v, y, by simp⟩
  have hmem : ∀ {v' y'}, (key, v', y') ∈ recs ++ [(key, v, y)] →
      (key, v', y') ∈ recs ∨ v' = v ∧ y' = y := by
    intro v' y' h'
    simpa using h'
  rcases hr with hr | hr
  · -- A repeated record: the chain shows it, so nothing changes.
    have hs := h.shown v y hr
    have hback : ∀ {v' y'}, (key, v', y') ∈ recs ++ [(key, v, y)] → (key, v', y') ∈ recs := by
      intro v' y' h'
      rcases hmem h' with h' | ⟨rfl, rfl⟩
      · exact h'
      · exact hr
    refine ⟨hne, ?_, t, x, htx, fun v' y' h' => hle v' y' (hback h'),
      hn.push_shown hs (hle v y hr)⟩
    intro v' y' h'
    rw [Versions.fetchVersion_push_shown (w := ⟨v, y⟩) hs]
    exact h.shown v' y' (hback h')
  · refine ⟨hne, ?_, ?_⟩
    · intro v' y' h'
      rcases hmem h' with h' | ⟨rfl, rfl⟩
      · rw [ch.fetchVersion_push_of_lt ⟨v, y⟩ (hr v' y' h')]
        exact h.shown v' y' h'
      · exact ch.fetchVersion_push_self ⟨v', y'⟩
    · have hall : ∀ {s}, v ≤ s → ∀ v' y', (key, v', y') ∈ recs ++ [(key, v, y)] → v' ≤ s := by
        intro s hs v' y' h'
        rcases hmem h' with h' | ⟨rfl, -⟩
        · exact (hr v' y' h').le.trans hs
        · exact hs
      rcases hn.push v y with ⟨hvt, hn⟩ | hn
      · exact ⟨t, x, htx, hall hvt, hn⟩
      · exact ⟨v, y, hp, hall le_rfl, hn⟩

/-- Replaying the AOL keeps what no record touches and shows the records of every other key. -/
theorem replay_cases {recs : List Record} (h : Replayable recs) (key : Bytes)
    (hP : ∀ v y, (key, v, y) ∈ recs → (v, y) ∈ P)
    (hr : Reflects P V (chainAt datastore key)) :
    (∀ v y, (key, v, y) ∉ recs) ∧ chainAt (recs.foldl replayRecord datastore) key =
        chainAt datastore key ∨
      AfterReplay P recs key (chainAt (recs.foldl replayRecord datastore) key) := by
  suffices hs : (∀ v y, (key, v, y) ∉ recs) ∧
      (recs.foldl replayRecord datastore)[key]? = datastore[key]? ∨
      ∃ ch, (recs.foldl replayRecord datastore)[key]? = some ch ∧ AfterReplay P recs key ch by
    rcases hs with ⟨hn, he⟩ | ⟨ch, hch, hrep⟩
    · exact .inl ⟨hn, by rw [chainAt, he, chainAt]⟩
    · refine .inr ?_
      rw [chainAt, hch]
      exact hrep
  induction recs using List.reverseRecOn with
  | nil => exact .inl ⟨by simp, rfl⟩
  | append_singleton recs r ih =>
    obtain ⟨k, v, y⟩ := r
    have ih := ih h.left fun v y hm => hP v y (List.mem_append_left _ hm)
    rw [List.foldl_concat, replayRecord_getElem?]
    by_cases hk : k = key
    · subst hk
      rw [if_pos rfl]
      refine .inr ⟨_, rfl, ?_⟩
      have hp := hP v y (List.mem_append_right _ (List.mem_singleton.2 rfl))
      rcases ih with ⟨hn, he⟩ | ⟨ch, hch, hrep⟩
      · rw [he]
        refine AfterReplay.first hr hp (by simp) ?_
        intro v' y' hm
        rcases List.mem_append.1 hm with hm | hm
        · exact absurd hm (hn v' y')
        · simpa using hm
      · rw [hch]
        refine hrep.push hp ?_
        rcases h recs (k, v, y) [] rfl with hm | hlt
        · exact .inl hm
        · exact .inr fun v' y' hm => hlt _ hm rfl
    · rw [if_neg hk]
      have hmem : ∀ v' y', (key, v', y') ∈ recs ++ [(k, v, y)] ↔ (key, v', y') ∈ recs := by
        intro v' y'
        simp [Ne.symm hk]
      rcases ih with ⟨hn, he⟩ | ⟨ch, hch, ⟨v', y', hne⟩, hs, t, x, hx, hle, hnew⟩
      · exact .inl ⟨fun v' y' hm => hn v' y' ((hmem v' y').1 hm), he⟩
      · refine .inr ⟨ch, hch, ⟨v', y', (hmem v' y').2 hne⟩, ?_, t, x, hx, ?_, hnew⟩
        · exact fun v' y' hm => hs v' y' ((hmem v' y').1 hm)
        · exact fun v' y' hm => hle v' y' ((hmem v' y').1 hm)

/-- A snapshot chain and the records behind it give a chain that reflects both, when a key with
any record has one as new as everything the snapshot has to reflect. -/
theorem Reflects.replay {recs : List Record} (hr : Reflects P V (chainAt datastore key))
    (h : Replayable recs) (hP : ∀ v y, (key, v, y) ∈ recs → (v, y) ∈ P)
    (hlast : ∀ v y, (key, v, y) ∈ recs → ∃ v' y', (key, v', y') ∈ recs ∧ ∀ u ∈ V, u ≤ v') :
    Reflects P (V ∪ {v | ∃ y, (key, v, y) ∈ recs})
      (chainAt (recs.foldl replayRecord datastore) key) := by
  rcases replay_cases h key hP hr with ⟨hn, he⟩ | ⟨⟨v, y, hvy⟩, -, t, x, htx, hle, hnew⟩
  · rw [he]
    refine hr.mono Set.Subset.rfl ?_
    rintro v (hv | ⟨y, hy⟩)
    · exact hv
    · exact absurd hy (hn v y)
  · obtain ⟨v', y', hm, hV⟩ := hlast v y hvy
    refine .written htx ?_ hnew
    rintro u (hu | ⟨z, hz⟩)
    · exact (hV u hu).trans (hle v' y' hm)
    · exact hle u z hz

end StupidKv
