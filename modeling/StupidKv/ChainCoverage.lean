import StupidKv.VersionChain

namespace StupidKv
open Timeline
set_option autoImplicit true

/-- The timeline of the entries a chain still holds. -/
def Versions.writes (ch : Versions) : Set (Nat × Option Bytes) :=
  {p | (⟨p.1, p.2⟩ : Version) ∈ ch.inner}

theorem Versions.writes_functional (ch : Versions) : Functional ch.writes := by
  intro t x y hx hy
  have he := eq_of_increasing ch.ascending hx hy rfl
  cases he
  rfl

theorem Versions.fetchVersion_visible (ch : Versions) (q : Nat) :
    Visible ch.writes q (ch.fetchVersion q) := by
  obtain ⟨lo, hi, hl, hlo, hhi⟩ := ch.ascending.split q
  rw [ch.fetchVersion_split lo hi hl hhi hlo]
  cases lo using List.reverseRecOn with
  | nil =>
    refine .unwritten fun t x hx => ?_
    have hm : (⟨t, x⟩ : Version) ∈ [] ++ hi := hl ▸ hx
    exact hhi _ (by simpa using hm)
  | append_singleton lo w =>
    rw [lastValue_concat]
    have hm : (w.version, w.value) ∈ ch.writes := by
      change w ∈ ch.inner
      simp [hl]
    refine .written hm (hlo w (by simp)) fun t x hx htq => ?_
    have hx' : (⟨t, x⟩ : Version) ∈ lo ++ [w] ++ hi := hl ▸ hx
    have ha := ch.ascending
    rw [hl] at ha
    rcases List.mem_append.1 hx' with h | h
    · rcases List.mem_append.1 h with h | h
      · have hp := (List.pairwise_append.1 (List.pairwise_append.1 ha).1).2.2
        exact (hp _ h w (by simp)).le
      · rw [List.mem_singleton] at h
        exact Nat.le_of_eq (congrArg Version.version h)
    · have := hhi _ h
      simp only at this
      omega

theorem Versions.push_writes_subset (ch : Versions) (w : Version) :
    (ch.push w).writes ⊆ insert (w.version, w.value) ch.writes := by
  rintro ⟨t, x⟩ hx
  obtain ⟨lo, mid, hi, hl, _, _, _, ⟨_, _, hp⟩ | hp⟩ := ch.push_cases w
  all_goals
    simp only [Versions.writes, Set.mem_ofPred_eq, Set.mem_insert_iff, hp, hl, List.mem_append,
      List.mem_singleton] at hx ⊢
    grind

theorem Versions.mem_push_of_ne (ch : Versions) (h : p ∈ ch.writes) (hn : p.1 ≠ w.version) :
    p ∈ (ch.push w).writes := by
  obtain ⟨lo, mid, hi, hl, _, hmid, _, ⟨hm, _, hp⟩ | hp⟩ := ch.push_cases w
  all_goals
    simp only [Versions.writes, Set.mem_ofPred_eq, hp, hl, List.mem_append,
      List.mem_singleton] at h ⊢
    grind

/-- A pushed write is stored unless the chain already shows its value there. -/
theorem Versions.mem_push_or_absorbed (ch : Versions) (w : Version) :
    (w.version, w.value) ∈ (ch.push w).writes ∨
      ch.fetchVersion w.version = w.value ∧ (ch.push w).inner = ch.inner := by
  obtain ⟨lo, mid, hi, hl, hlo, _, hhi, ⟨rfl, hv, hp⟩ | hp⟩ := ch.push_cases w
  · refine .inr ⟨?_, by simp [hp, hl]⟩
    rw [ch.fetchVersion_split lo hi (by simpa using hl) hhi fun a ha => (hlo a ha).le, hv]
  · refine .inl ?_
    simp [Versions.writes, hp]

@[simp] theorem Versions.fetchVersion_new (q : Nat) : Versions.new.fetchVersion q = none := rfl

theorem Versions.fetchVersion_eq_of_none_between (ch : Versions) (hq : q ≤ r)
    (hn : ∀ p ∈ ch.writes, p.1 ≤ r → p.1 ≤ q) : ch.fetchVersion r = ch.fetchVersion q :=
  (ch.fetchVersion_visible r).unique ch.writes_functional
    ((ch.fetchVersion_visible q).later hq fun t y hy hr => hn (t, y) hy hr)

/-- From `W` on the chain answers every reader as the timeline `P` does, although it may store
only some of its writes. -/
structure CoversFrom (W : Nat) (ch : Versions) (P : Set (Nat × Option Bytes)) : Prop where
  subset : ch.writes ⊆ P
  visible : ∀ q, W ≤ q → Visible P q (ch.fetchVersion q)

theorem CoversFrom.weaken (h : CoversFrom W ch P) (hW : W ≤ W') : CoversFrom W' ch P :=
  ⟨h.subset, fun q hq => h.visible q (hW.trans hq)⟩

theorem CoversFrom.empty (W : Nat) : CoversFrom W Versions.new ∅ where
  subset := by
    rintro p hp
    simp [Versions.writes, Versions.new] at hp
  visible := fun _ _ => .unwritten (by simp)

theorem CoversFrom.self (ch : Versions) : CoversFrom 0 ch ch.writes :=
  ⟨Set.Subset.rfl, fun q _ => ch.fetchVersion_visible q⟩

/-- A write is covered once pushed, when a covered write right behind it that the chain does not
store has the same value. -/
theorem CoversFrom.push_gap (h : CoversFrom W ch P)
    (hm : ∀ p ∈ P, w.version < p.1 →
      (∀ e ∈ ch.inner, e.version ≤ p.1 → e.version ≤ w.version) → p.2 = w.value) :
    CoversFrom W (ch.push w) (insert (w.version, w.value) P) where
  subset := (ch.push_writes_subset w).trans (Set.insert_subset_insert h.subset)
  visible q hq := by
    rw [ch.fetchVersion_push w q]
    split
    · rename_i hc
      refine (h.visible q hq).insert_last_or hc.1 fun s y hs hsq => ?_
      by_cases hle : s ≤ w.version
      · exact .inl hle
      · exact .inr (hm (s, y) hs (Nat.not_le.1 hle) fun e he hes => hc.2 e he (hes.trans hsq))
    · rename_i hc
      by_cases hlt : q < w.version
      · exact (h.visible q hq).insert_future hlt
      · simp only [Nat.not_lt.1 hlt, true_and, not_forall, Nat.not_le] at hc
        obtain ⟨e, he, heq, hwe⟩ := hc
        exact (h.visible q hq).insert_overtaken (h.subset (a := (e.version, e.value)) he)
          hwe.le heq

/-- A write is covered once pushed, when no missing write of another value overtakes it. -/
theorem CoversFrom.push_new (h : CoversFrom W ch P)
    (hm : ∀ p ∈ P, p ∉ ch.writes → p.1 ≤ w.version ∨ p.2 = w.value) :
    CoversFrom W (ch.push w) (insert (w.version, w.value) P) := by
  refine h.push_gap fun p hp hlt hnone => ?_
  have hnot : p ∉ ch.writes := fun hw => Nat.not_le.2 hlt (hnone ⟨p.1, p.2⟩ hw le_rfl)
  rcases hm p hp hnot with hle | hv
  · exact absurd hlt (Nat.not_lt.2 hle)
  · exact hv

theorem CoversFrom.gc (h : CoversFrom W ch P) (v : Nat) :
    CoversFrom (max W v) (ch.gcOlderVersions v) P where
  subset := by
    rintro p hp
    exact h.subset ((gcOlderVersions_suffix ch.ascending v).subset hp)
  visible q hq := by
    rw [ch.fetchVersion_gcOlderVersions ((le_max_right W v).trans hq)]
    exact h.visible q ((le_max_left W v).trans hq)

end StupidKv
