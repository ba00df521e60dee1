import StupidKv.VersionLaws

namespace StupidKv
open Timeline
set_option autoImplicit true

/-- The writes of a chain and of a list. -/
def allWrites (ch : Versions) (l : List (Nat × Option Bytes)) : Set (Nat × Option Bytes) :=
  ch.writes ∪ {p | p ∈ l}

/-- Any two orders of the pushes read alike, and as the greatest version at or below the reader. -/
def OrderFree (ch : Versions) (l : List (Nat × Option Bytes)) : Prop :=
  ∀ l₁ l₂, l₁.Perm l → l₂.Perm l → ∀ q,
    (ch.pushAll l₁).fetchVersion q = (ch.pushAll l₂).fetchVersion q ∧
      Visible (allWrites ch l) q ((ch.pushAll l₁).fetchVersion q)

/-- In no gap between two versions of the chain a value comes back: where two writes of the list
stand in a gap with different values, the later value is neither the chain's below them nor that of
an earlier write of the gap. -/
def NoReturn (ch : Versions) (l : List (Nat × Option Bytes)) : Prop :=
  ∀ m ∈ l, ∀ w ∈ l, m.1 < w.1 → ch.NoneBetween m.1 w.1 → m.2 ≠ w.2 →
    ch.fetchVersion m.1 ≠ w.2 ∧
      ∀ e ∈ l, e.1 < m.1 → ch.NoneBetween e.1 m.1 → e.2 ≠ w.2

instance (ch : Versions) (l : List (Nat × Option Bytes)) : Decidable (NoReturn ch l) :=
  inferInstanceAs (Decidable (∀ m ∈ l, ∀ w ∈ l, _))

/-- The versions of the list are distinct and new to the chain. -/
structure Fresh (ch : Versions) (l : List (Nat × Option Bytes)) : Prop where
  distinct : l.Pairwise fun a b => a.1 ≠ b.1
  new : ∀ p ∈ l, ∀ e ∈ ch.inner, e.version ≠ p.1

section
variable {ch c : Versions} {l pre : List (Nat × Option Bytes)}

theorem Fresh.perm (h : Fresh ch l) (hp : l'.Perm l) : Fresh ch l' where
  distinct := (hp.pairwise_iff fun hab => hab.symm).2 h.distinct
  new := fun p hm => h.new p (hp.mem_iff.1 hm)

theorem Fresh.prefix (h : Fresh ch (l ++ l')) : Fresh ch l where
  distinct := (List.pairwise_append.1 h.distinct).1
  new := fun p hm => h.new p (List.mem_append_left l' hm)

theorem Fresh.eq (h : Fresh ch l) (hp : p ∈ l) (hq : q ∈ l) (he : p.1 = q.1) : p = q := by
  by_contra hne
  have : Std.Symm fun a b : Nat × Option Bytes => a.1 ≠ b.1 := ⟨fun _ _ hab => hab.symm⟩
  exact h.distinct.forall hp hq hne he

theorem allWrites_perm (hp : l'.Perm l) : allWrites ch l' = allWrites ch l := by
  ext p
  simp [allWrites, hp.mem_iff]

theorem allWrites_concat (p : Nat × Option Bytes) :
    allWrites ch (l ++ [p]) = insert p (allWrites ch l) := by
  ext x
  simp only [allWrites, Set.mem_union, Set.mem_insert_iff, Set.mem_ofPred_eq, List.mem_append,
    List.mem_singleton]
  tauto

theorem pushAll_concat (p : Nat × Option Bytes) :
    ch.pushAll (l ++ [p]) = (ch.pushAll l).push ⟨p.1, p.2⟩ := by
  simp [Versions.pushAll]

theorem pushAll_writes (h : Fresh ch l) :
    ch.writes ⊆ (ch.pushAll l).writes ∧ (ch.pushAll l).writes ⊆ allWrites ch l := by
  induction l using List.reverseRecOn with
  | nil => exact ⟨Set.Subset.rfl, fun p hp => .inl hp⟩
  | append_singleton l p ih =>
    obtain ⟨hlo, hhi⟩ := ih h.prefix
    rw [pushAll_concat, allWrites_concat]
    refine ⟨fun e he => ?_, fun e he => ?_⟩
    · refine (ch.pushAll l).mem_push_of_ne (hlo he) ?_
      exact h.new p (by simp) ⟨e.1, e.2⟩ he
    · rcases (ch.pushAll l).push_writes_subset ⟨p.1, p.2⟩ he with he | he
      · exact .inl he
      · exact .inr (hhi he)

theorem Fresh.functional (h : Fresh ch l) : Functional (allWrites ch l) := by
  rintro t x y (hx | hx) (hy | hy)
  · exact ch.writes_functional t x y hx hy
  · exact absurd rfl (h.new _ hy ⟨t, x⟩ hx)
  · exact absurd rfl (h.new _ hx ⟨t, y⟩ hy)
  · exact congrArg Prod.snd (h.eq hx hy rfl)

/-- Under the condition a push never lands right below a skipped write of another value. -/
theorem NoReturn.gap (hn : NoReturn ch l) (hs : ∀ r ∈ pre ++ [p], r ∈ l) (hf : Fresh ch (pre ++ [p]))
    (hc : CoversFrom 0 (ch.pushAll pre) (allWrites ch pre)) (hr : r ∈ allWrites ch pre)
    (hlt : p.1 < r.1)
    (hnone : ∀ e ∈ (ch.pushAll pre).inner, e.version ≤ r.1 → e.version ≤ p.1) : r.2 = p.2 := by
  obtain ⟨hold, hsub⟩ := pushAll_writes hf.prefix
  have hchain : ∀ e ∈ ch.inner, e.version ≤ r.1 → e.version ≤ p.1 :=
    fun e he => hnone e (hold (a := (e.version, e.value)) he)
  rcases hr with hr | hr
  · exact absurd (hchain ⟨r.1, r.2⟩ hr le_rfl) (Nat.not_le.2 hlt)
  by_contra hne
  obtain ⟨hbelow, hbefore⟩ := hn p (hs p (by simp)) r (hs r (List.mem_append_left _ hr)) hlt
    ((ch.noneBetween_iff _ _).2 hchain) (Ne.symm hne)
  have hshow : (ch.pushAll pre).fetchVersion p.1 = r.2 := by
    rw [← (ch.pushAll pre).fetchVersion_eq_of_none_between hlt.le fun e he => hnone ⟨e.1, e.2⟩ he]
    exact (hc.visible r.1 (Nat.zero_le _)).unique hf.prefix.functional
      (.written (.inr hr) le_rfl fun _ _ _ hle => hle)
  have hvis := (ch.pushAll pre).fetchVersion_visible p.1
  rw [hshow] at hvis
  generalize hy : r.2 = y at hvis hbelow hbefore
  cases hvis with
  | @written u _ hu hup hlast =>
    have hfirst : ∀ e ∈ ch.inner, e.version ≤ p.1 → e.version ≤ u :=
      fun e he => hlast e.version e.value (hold he)
    rcases hsub hu with hu | hu
    · refine hbelow ((ch.fetchVersion_visible p.1).unique ch.writes_functional ?_)
      exact .written hu hup fun t x hx ht => hfirst ⟨t, x⟩ hx ht
    · have hne' : u ≠ p.1 :=
        (List.pairwise_append.1 hf.distinct).2.2 _ hu p (List.mem_singleton.2 rfl)
      exact hbefore (u, y) (hs _ (List.mem_append_left _ hu)) (Nat.lt_of_le_of_ne hup hne')
        ((ch.noneBetween_iff _ _).2 hfirst) rfl
  | unwritten hnot =>
    refine hbelow ((ch.fetchVersion_visible p.1).unique ch.writes_functional ?_)
    exact .unwritten fun t x hx => hnot t x (hold hx)

theorem NoReturn.covers (hn : NoReturn ch l) (hs : ∀ r ∈ pre, r ∈ l) (hf : Fresh ch pre) :
    CoversFrom 0 (ch.pushAll pre) (allWrites ch pre) := by
  induction pre using List.reverseRecOn with
  | nil =>
    refine ⟨fun p hp => .inl hp, fun q _ => ?_⟩
    refine (ch.fetchVersion_visible q).congr fun t y _ => ⟨.inl, ?_⟩
    rintro (hp | hp)
    · exact hp
    · cases hp
  | append_singleton pre p ih =>
    have ih := ih (fun r hr => hs r (List.mem_append_left _ hr)) hf.prefix
    rw [pushAll_concat, allWrites_concat]
    exact ih.push_gap (w := ⟨p.1, p.2⟩) fun r hr hlt hnone => hn.gap hs hf ih hr hlt hnone

theorem NoReturn.orderFree (hn : NoReturn ch l) (hf : Fresh ch l) : OrderFree ch l := by
  have hread : ∀ {l'}, l'.Perm l → ∀ q, Visible (allWrites ch l) q ((ch.pushAll l').fetchVersion q) := by
    intro l' hp q
    rw [← allWrites_perm hp]
    exact (hn.covers (fun r hr => hp.mem_iff.1 hr) (hf.perm hp)).visible q (Nat.zero_le q)
  intro l₁ l₂ h₁ h₂ q
  exact ⟨(hread h₁ q).unique hf.functional (hread h₂ q), hread h₁ q⟩

/-- A value that changes and comes back does so between two neighbours of the list. -/
theorem exists_neighbours {m w : Nat × Option Bytes} (hm : m ∈ l) (hw : w ∈ l) (hlt : m.1 < w.1)
    (hne : m.2 ≠ w.2) :
    ∃ m' ∈ l, ∃ w' ∈ l, m.1 ≤ m'.1 ∧ m'.1 < w'.1 ∧ w'.1 ≤ w.1 ∧ w'.2 = w.2 ∧ m'.2 ≠ w.2 ∧
      ∀ r ∈ l, ¬ (m'.1 < r.1 ∧ r.1 < w'.1) := by
  generalize hd : w.1 - m.1 = d
  induction d using Nat.strong_induction_on generalizing m w with
  | _ d ih =>
    by_cases hmid : ∃ r ∈ l, m.1 < r.1 ∧ r.1 < w.1
    · obtain ⟨r, hr, hmr, hrw⟩ := hmid
      by_cases hv : r.2 = w.2
      · obtain ⟨m', hm', w', hw', h₁, h₂, h₃, h₄, h₅, h₆⟩ :=
          ih (r.1 - m.1) (by omega) hm hr hmr (hv ▸ hne) rfl
        exact ⟨m', hm', w', hw', h₁, h₂, h₃.trans hrw.le, h₄.trans hv, hv ▸ h₅, h₆⟩
      · obtain ⟨m', hm', w', hw', h₁, h₂, h₃, h₄, h₅, h₆⟩ :=
          ih (w.1 - r.1) (by omega) hr hw hrw hv rfl
        exact ⟨m', hm', w', hw', hmr.le.trans h₁, h₂, h₃, h₄, h₅, h₆⟩
    · simp only [not_exists, not_and, not_lt] at hmid
      exact ⟨m, hm, w, hw, le_rfl, hlt, le_rfl, rfl, hne,
        fun r hr hc => Nat.not_le.2 hc.2 (hmid r hr hc.1)⟩

theorem Versions.push_skipped {w : Version} (hn : ∀ e ∈ ch.inner, e.version ≠ w.version)
    (hf : ch.fetchVersion w.version = w.value) : ch.push w = ch := by
  rcases ch.ascending.around w.version with ⟨lo, hi, hl, hlo, hhi⟩ | ⟨lo, e, hi, hl, he, -⟩
  · have hlast := ch.fetchVersion_split lo hi hl hhi fun a ha => (hlo a ha).le
    refine Versions.ext ?_
    change pushVersion ch.inner w = ch.inner
    rw [hl, pushVersion_append hhi hlo, if_pos (hlast.symm.trans hf)]
  · exact absurd he (hn e (by rw [hl]; simp))

/-- If some order starts so that the later of two unlike neighbours is skipped, it reads wrong. -/
theorem not_orderFree {first rest : List (Nat × Option Bytes)} {m w : Nat × Option Bytes}
    (hf : Fresh ch l) (hp : (first ++ w :: rest).Perm l)
    (hshow : (ch.pushAll first).fetchVersion w.1 = w.2) (hm : m ∈ l) (hw : w ∈ l) (hlt : m.1 < w.1)
    (hne : m.2 ≠ w.2) (hchain : ch.NoneBetween m.1 w.1)
    (hnone : ∀ r ∈ l, ¬ (m.1 < r.1 ∧ r.1 < w.1)) : ¬ OrderFree ch l := by
  intro h
  have hfresh := hf.perm hp
  have hsub : (first ++ rest).Sublist (first ++ w :: rest) :=
    (List.sublist_cons_self w rest).append_left first
  have hf' : Fresh ch (first ++ rest) :=
    ⟨hfresh.distinct.sublist hsub, fun r hr => hfresh.new r (hsub.subset hr)⟩
  have hout : ∀ r ∈ first ++ rest, r.1 ≠ w.1 := by
    intro r hr
    have hd := (List.perm_middle.pairwise_iff fun hab => hab.symm).1 hfresh.distinct
    exact ((List.pairwise_cons.1 hd).1 r hr).symm
  have hskip : (ch.pushAll first).push ⟨w.1, w.2⟩ = ch.pushAll first := by
    refine Versions.push_skipped ?_ hshow
    intro e he
    have hin : (e.version, e.value) ∈ allWrites ch first := (pushAll_writes hf'.prefix).2 he
    rcases hin with he | he
    · exact hf.new w hw e he
    · exact hout _ (List.mem_append_left rest he)
  have hsame : ch.pushAll (first ++ w :: rest) = ch.pushAll (first ++ rest) := by
    unfold Versions.pushAll at hskip ⊢
    rw [List.foldl_append, List.foldl_append, List.foldl_cons, hskip]
  have hread : ∀ {t x}, (t, x) ∈ allWrites ch l → (ch.pushAll (first ++ rest)).fetchVersion t = x := by
    intro t x hx
    rw [← hsame]
    exact (h _ _ hp hp t).2.unique hf.functional (.written hx le_rfl fun _ _ _ hle => hle)
  refine hne ?_
  rw [← hread (.inr hm), ← hread (.inr hw)]
  refine (Versions.fetchVersion_eq_of_none_between _ hlt.le fun e he hle => ?_).symm
  by_contra hgt
  rcases (pushAll_writes hf').2 he with he | he
  · exact hchain ⟨e.1, e.2⟩ he ⟨Nat.not_le.1 hgt, hle⟩
  · exact hnone e (hp.mem_iff.1 (hsub.subset he))
      ⟨Nat.not_le.1 hgt, Nat.lt_of_le_of_ne hle (hout e he)⟩

theorem OrderFree.noReturn (h : OrderFree ch l) (hf : Fresh ch l) : NoReturn ch l := by
  intro m hm w hw hlt hnb hne
  obtain ⟨m', hm', w', hw', hmm, hlt', hww, hval, hne', hnone⟩ := exists_neighbours hm hw hlt hne
  have hgap : ch.NoneBetween m.1 w'.1 := fun e he hc => hnb e he ⟨hc.1, hc.2.trans hww⟩
  have hgap' : ch.NoneBetween m'.1 w'.1 := fun e he hc => hgap e he ⟨hmm.trans_lt hc.1, hc.2⟩
  have hbad : ∀ first rest, (first ++ w' :: rest).Perm l →
      (ch.pushAll first).fetchVersion w'.1 = w'.2 → False := fun _ _ hp hshow =>
    not_orderFree hf hp hshow hm' hw' hlt' (hval ▸ hne') hgap' hnone h
  refine ⟨fun hbelow => ?_, fun e he hem hnb' hev => ?_⟩
  · -- The later neighbour comes first.
    refine hbad [] _ (List.perm_cons_erase hw').symm ?_
    rw [hval, ← hbelow]
    exact ch.fetchVersion_eq_of_none_between (hmm.trans hlt'.le) fun p hp =>
      (ch.noneBetween_iff _ _).1 hgap ⟨p.1, p.2⟩ hp
  · -- The earlier write of the value comes first, then the later neighbour.
    have hew : e.1 < w'.1 := hem.trans_le (hmm.trans hlt'.le)
    have hmem : e ∈ l.erase w' := (List.mem_erase_of_ne fun heq => hew.ne (by rw [heq])).2 he
    refine hbad [e] ((l.erase w').erase e) ?_ ?_
    · exact ((List.perm_cons_erase hw').trans
        (((List.perm_cons_erase hmem).cons w').trans (List.Perm.swap _ _ _))).symm
    · rw [hval, ← hev]
      refine ch.fetchVersion_push_shown_of (w := ⟨e.1, e.2⟩) hew.le fun c hc hbtw => ?_
      by_cases hcm : c.version ≤ m.1
      · exact hnb' c hc ⟨hbtw.1, hcm⟩
      · exact hgap c hc ⟨Nat.not_le.1 hcm, hbtw.2⟩

end

/-- The order of fresh pushes does not matter exactly when no value comes back within a gap of the
chain. -/
theorem orderFree_iff (ch : Versions) (l : List (Nat × Option Bytes)) (hf : Fresh ch l) :
    OrderFree ch l ↔ NoReturn ch l :=
  ⟨fun h => h.noReturn hf, fun h => h.orderFree hf⟩

theorem orderFree_distinctValues :
    Fresh (.ofVersion ⟨2, some [0]⟩) [(1, some [1]), (4, some [3]), (3, some [2])] ∧
      OrderFree (.ofVersion ⟨2, some [0]⟩) [(1, some [1]), (4, some [3]), (3, some [2])] := by
  have hf : Fresh (.ofVersion ⟨2, some [0]⟩) [(1, some [1]), (4, some [3]), (3, some [2])] :=
    ⟨by decide, by decide⟩
  refine ⟨hf, (orderFree_iff _ _ hf).2 ?_⟩
  decide +kernel

/-- The write of version three repeats what the chain shows and is skipped; the one of version two
then lands below it. -/
theorem not_orderFree_skipped :
    ¬ ∀ (ch : Versions) (l : List (Nat × Option Bytes)), Fresh ch l → OrderFree ch l := by
  intro h
  have hf : Fresh (.ofVersion ⟨1, some [1]⟩) [(3, some [1]), (2, some [2])] := ⟨by decide, by decide⟩
  have hread := (h _ _ hf [(3, some [1]), (2, some [2])] [(2, some [2]), (3, some [1])] (.refl _)
    (.swap _ _ _) 3).1
  exact absurd hread (by decide)

end StupidKv
