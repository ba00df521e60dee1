import StupidKv.SnapshotSteps

namespace StupidKv
open Std Timeline Processes
set_option autoImplicit true

theorem Reflects.gc (h : Reflects P V ch) (w : Nat) : Reflects P V (ch.gcOlderVersions w) := by
  cases h with
  | written hp hv hn => exact .written hp hv (hn.gc w)
  | unwritten hv hn => exact .unwritten hv (Set.subset_eq_empty (ch.writes_gc w) hn)

theorem Reflects.seededPush {entry : Option Versions} (h : Reflects P V (entry.getD .new))
    (hv : ∀ t x, (t, x) ∈ P → t ≤ v) : Newest (seededPush entry ⟨v, y⟩) v y := by
  cases entry with
  | none =>
    unfold StupidKv.seededPush
    rw [Option.getD_none, Versions.push_ofVersion]
    exact Newest.ofVersion v y
  | some ch =>
    refine Newest.push_of_le ?_ y
    intro e he
    cases h with
    | written hp _ hn => exact (hn.bound e he).trans (hv _ _ hp)
    | unwritten _ hn =>
      rw [Option.getD_some] at hn he
      rw [hn] at he
      exact absurd he (Set.notMem_empty e)

namespace Store

/-- The writes of a key that have reached the datastore. -/
def pushed (s : Store) (key : Bytes) : Set (Nat × Option Bytes) :=
  {p | ∃ c ∈ s.commits, c.version = p.1 ∧ c.writeset[key]? = some p.2 ∧
    ∀ e ∈ c.pending, e.1 ≠ key}

/-- The writes of a key by commits whose append completed. -/
def loggedWrites (s : Store) (key : Bytes) : Set (Nat × Option Bytes) :=
  {p | ∃ c ∈ s.commits, c.isLogged = true ∧ c.version = p.1 ∧ c.writeset[key]? = some p.2}

/-- The writes of a key by commits still in flight. -/
def openWrites (s : Store) (key : Bytes) : Set (Nat × Option Bytes) :=
  {p | ∃ c ∈ s.commits, c.isLogged = false ∧ c.version = p.1 ∧ c.writeset[key]? = some p.2}

/-- What holds in memory as long as the writes of one key are pushed and logged in the order of
their versions. -/
structure Sound (s : Store) : Prop where
  stamped : ∀ c ∈ s.commits, c.version ≤ s.db.timestamp
  distinct : ∀ (i j : Nat) c c', s.commits[i]? = some c → s.commits[j]? = some c' →
    c.version = c'.version → i = j
  pending : ∀ c ∈ s.commits, c.pending.Pairwise (fun a b => a.1 ≠ b.1) ∧
    ∀ e ∈ c.pending, c.writeset[e.1]? = some e.2
  fits : ∀ c ∈ s.commits, ∀ r ∈ recordsOf c.version c.writeset, Record.fits r = true
  chains : ∀ key, Reflects (s.pushed key) {v | ∃ y, (v, y) ∈ s.pushed key}
    (chainAt s.db.datastore key)
  queued : ∀ c ∈ s.commits, ∀ e ∈ c.pending, ∀ p ∈ s.pushed e.1, p.1 < c.version
  unlogged : ∀ c ∈ s.commits, c.isLogged = false → ∀ c' ∈ s.commits, c'.isLogged = true →
    ∀ key, key ∈ c.writeset → key ∈ c'.writeset → c'.version < c.version
  log : ∀ r, r ∈ s.log ↔ ∃ c ∈ s.commits, c.isLogged = true ∧ r ∈ recordsOf c.version c.writeset
  ordered : LogOrdered s.log

theorem pending_of_isLogged {c : CommitRun} (h : c.isLogged = true) : c.pending = [] := by
  cases c with
  | writing version writeset pending => cases h
  | logged version writeset => rfl
  | returned version writeset => rfl

theorem loggedWrites_subset (s : Store) (key : Bytes) : s.loggedWrites key ⊆ s.pushed key := by
  rintro p ⟨c, hc, hl, hv, hw⟩
  refine ⟨c, hc, hv, hw, ?_⟩
  rw [pending_of_isLogged hl]
  simp

theorem Sound.mem_log (h : Sound s) : (key, v, y) ∈ s.log ↔ (v, y) ∈ s.loggedWrites key := by
  rw [h.log]
  constructor
  · rintro ⟨c, hc, hl, hr⟩
    obtain ⟨hv, hw⟩ := mem_recordsOf.1 hr
    exact ⟨c, hc, hl, hv.symm, hw⟩
  · rintro ⟨c, hc, hl, hv, hw⟩
    exact ⟨c, hc, hl, mem_recordsOf.2 ⟨hv.symm, hw⟩⟩

theorem Sound.reflects (h : Sound s) (key : Bytes) :
    Reflects (s.pushed key) (stamps s.log key) (chainAt s.db.datastore key) := by
  refine (h.chains key).mono Set.Subset.rfl ?_
  rintro v ⟨y, hy⟩
  exact ⟨y, s.loggedWrites_subset key (h.mem_log.1 hy)⟩

theorem Sound.new (referenceUnix resetThreshold : Nat) : Sound (.new referenceUnix resetThreshold) where
  stamped := by simp [Store.new]
  distinct := by simp [Store.new]
  pending := by simp [Store.new]
  fits := by simp [Store.new]
  chains := by
    intro key
    refine .unwritten ?_ ?_
    · rintro v ⟨y, c, hc, -⟩
      cases hc
    · simp [Store.new, Inner.new, chainAt]
  queued := by simp [Store.new]
  unlogged := by simp [Store.new]
  log := by simp [Store.new]
  ordered := List.Pairwise.nil

section
variable {s t : Store} {i : Nat} {c c' : CommitRun} {rest : List (Bytes × Option Bytes)}

theorem mem_commits_set (hi : s.commits[i]? = some c) (c' : CommitRun) (hc : t.commits = s.commits.set i c')
    {p : CommitRun → Prop} (hp : p c' ↔ p c) : (∃ x ∈ t.commits, p x) ↔ ∃ x ∈ s.commits, p x := by
  rw [hc]
  constructor
  · rintro ⟨x, hx, h⟩
    rcases (mem_set_iff hi c' x).1 hx with rfl | ⟨j, -, hj⟩
    · exact ⟨c, List.mem_of_getElem? hi, hp.1 h⟩
    · exact ⟨x, List.mem_of_getElem? hj, h⟩
  · rintro ⟨x, hx, h⟩
    rcases (mem_iff_at hi x).1 hx with rfl | ⟨j, hij, hj⟩
    · exact ⟨c', (mem_set_iff hi c' c').2 (.inl rfl), hp.2 h⟩
    · exact ⟨x, (mem_set_iff hi c' x).2 (.inr ⟨j, hij, hj⟩), h⟩

theorem forall_commits_set (hi : s.commits[i]? = some c) (c' : CommitRun)
    (hc : t.commits = s.commits.set i c')
    {p : CommitRun → Prop} (h : ∀ x ∈ s.commits, p x) (hp : p c → p c') :
    ∀ x ∈ t.commits, p x := by
  intro x hx
  rw [hc] at hx
  rcases (mem_set_iff hi c' x).1 hx with rfl | ⟨j, -, hj⟩
  · exact hp (h c (List.mem_of_getElem? hi))
  · exact h x (List.mem_of_getElem? hj)

theorem distinct_set (h : s.Sound) (hi : s.commits[i]? = some c)
    (hc : t.commits = s.commits.set i c') (hv : c'.version = c.version) (j k : Nat)
    (x y : CommitRun) (hj : t.commits[j]? = some x) (hk : t.commits[k]? = some y)
    (hxy : x.version = y.version) : j = k := by
  rw [hc] at hj hk
  rcases getElem?_set_cases hj with ⟨rfl, rfl⟩ | ⟨-, hj⟩
  · rcases getElem?_set_cases hk with ⟨rfl, -⟩ | ⟨-, hk⟩
    · rfl
    · exact h.distinct i k c y hi hk (hv ▸ hxy)
  · rcases getElem?_set_cases hk with ⟨rfl, rfl⟩ | ⟨-, hk⟩
    · exact h.distinct j i x c hj hi (hv ▸ hxy)
    · exact h.distinct j k x y hj hk hxy

theorem pushed_set (hi : s.commits[i]? = some c) (hc : t.commits = s.commits.set i c')
    (hv : c'.version = c.version) (hw : c'.writeset = c.writeset) (hp : c'.pending = c.pending) :
    t.pushed = s.pushed := by
  funext key
  ext p
  exact mem_commits_set hi c' hc (by rw [hv, hw, hp])

/-- No commit of an older version still has to push the key. -/
def pushesInOrder (s : Store) (version : Nat) (key : Bytes) : Bool :=
  s.commits.all fun c => !(decide (c.version < version) && c.pending.any fun e => e.1 == key)

/-- No commit of an older version still has to log a key of the writeset. -/
def logsInOrder (s : Store) (version : Nat) (writeset : Writeset) : Bool :=
  s.commits.all fun c => c.isLogged || !decide (c.version < version) ||
    writeset.toList.all fun e => !c.writeset.contains e.1

theorem Sound.remove (h : s.Sound) (hi : s.commits[i]? = some (.logged version writeset)) :
    Sound { s with
      db := s.db.removeMerge version
      commits := s.commits.set i (.returned version writeset) } := by
  have hpush : Store.pushed { s with
      db := s.db.removeMerge version
      commits := s.commits.set i (.returned version writeset) } = s.pushed :=
    pushed_set hi rfl rfl rfl rfl
  exact {
    stamped := forall_commits_set hi (.returned version writeset) rfl h.stamped fun hc => hc
    distinct := distinct_set h hi rfl rfl
    pending := forall_commits_set hi (.returned version writeset) rfl h.pending fun hc => hc
    fits := forall_commits_set hi (.returned version writeset) rfl h.fits fun hc => hc
    chains := by
      rw [hpush]
      exact h.chains
    queued := by
      rw [hpush]
      exact forall_commits_set hi (.returned version writeset) rfl h.queued fun hc => hc
    unlogged := by
      refine forall_commits_set hi (.returned version writeset) rfl ?_ (fun _ hc => by cases hc)
      intro x hx hl
      exact forall_commits_set hi (.returned version writeset) rfl (h.unlogged x hx hl) fun hc _ => hc rfl
    log := fun r => (h.log r).trans (mem_commits_set hi (.returned version writeset) rfl ⟨fun hr => hr, fun hr => hr⟩).symm
    ordered := h.ordered }

theorem Sound.disk (h : s.Sound) (disk : Disk) : Sound { s with disk := disk } :=
  ⟨h.stamped, h.distinct, h.pending, h.fits, h.chains, h.queued, h.unlogged, h.log, h.ordered⟩

theorem Sound.gc (h : s.Sound) (cleanupTs : Nat) (key : Bytes) :
    Sound { s with db := { s.db with datastore := Inner.gcKey cleanupTs s.db.datastore key } } where
  stamped := h.stamped
  distinct := h.distinct
  pending := h.pending
  fits := h.fits
  chains := by
    intro k
    have hchain := h.chains k
    unfold chainAt Inner.gcKey at *
    rw [ExtTreeMap.getElem?_alter]
    by_cases hk : key = k
    · subst hk
      rw [if_pos ReflCmp.compare_self, gcEntry_getD]
      exact hchain.gc cleanupTs
    · rw [if_neg fun he => hk (LawfulEqCmp.eq_of_compare he)]
      exact hchain
  queued := h.queued
  unlogged := h.unlogged
  log := h.log
  ordered := h.ordered

theorem pushed_push (h : s.Sound) (hi : s.commits[i]? = some (.writing version writeset (e :: rest)))
    (hc : t.commits = s.commits.set i (.writing version writeset rest)) (key : Bytes) :
    t.pushed key = if e.1 = key then insert (version, e.2) (s.pushed key) else s.pushed key := by
  obtain ⟨hdist, hsub⟩ := h.pending _ (List.mem_of_getElem? hi)
  have hfirst : ∀ e' ∈ rest, e'.1 ≠ e.1 :=
    fun e' he' => ((List.pairwise_cons.1 hdist).1 e' he').symm
  have hval : writeset[e.1]? = some e.2 := hsub e (List.mem_cons_self ..)
  have hother : ∀ p, p ∈ t.pushed key ↔
      (version = p.1 ∧ writeset[key]? = some p.2 ∧ ∀ e' ∈ rest, e'.1 ≠ key) ∨
        ∃ j x, i ≠ j ∧ s.commits[j]? = some x ∧ x.version = p.1 ∧ x.writeset[key]? = some p.2 ∧
          ∀ e' ∈ x.pending, e'.1 ≠ key := by
    intro p
    constructor
    · rintro ⟨x, hx, hp⟩
      rw [hc] at hx
      rcases (mem_set_iff hi _ x).1 hx with rfl | ⟨j, hij, hj⟩
      · exact .inl hp
      · exact .inr ⟨j, x, hij, hj, hp⟩
    · rintro (hp | ⟨j, x, hij, hj, hp⟩)
      · exact ⟨.writing version writeset rest, by rw [hc]; exact (mem_set_iff hi _ _).2 (.inl rfl), hp⟩
      · exact ⟨x, by rw [hc]; exact (mem_set_iff hi _ x).2 (.inr ⟨j, hij, hj⟩), hp⟩
  have hbefore : ∀ p, p ∈ s.pushed key ↔
      (version = p.1 ∧ writeset[key]? = some p.2 ∧ ∀ e' ∈ e :: rest, e'.1 ≠ key) ∨
        ∃ j x, i ≠ j ∧ s.commits[j]? = some x ∧ x.version = p.1 ∧ x.writeset[key]? = some p.2 ∧
          ∀ e' ∈ x.pending, e'.1 ≠ key := by
    intro p
    constructor
    · rintro ⟨x, hx, hp⟩
      rcases (mem_iff_at hi x).1 hx with rfl | ⟨j, hij, hj⟩
      · exact .inl hp
      · exact .inr ⟨j, x, hij, hj, hp⟩
    · rintro (hp | ⟨j, x, hij, hj, hp⟩)
      · exact ⟨_, List.mem_of_getElem? hi, hp⟩
      · exact ⟨x, List.mem_of_getElem? hj, hp⟩
  by_cases hk : e.1 = key
  · subst hk
    rw [if_pos rfl]
    ext p
    rw [Set.mem_insert_iff, hother, hbefore]
    have hno : ¬ (version = p.1 ∧ writeset[e.1]? = some p.2 ∧ ∀ e' ∈ e :: rest, e'.1 ≠ e.1) :=
      fun hn => hn.2.2 e (List.mem_cons_self ..) rfl
    have hyes : (version = p.1 ∧ writeset[e.1]? = some p.2 ∧ ∀ e' ∈ rest, e'.1 ≠ e.1) ↔
        p = (version, e.2) := by
      rw [hval, Prod.ext_iff]
      constructor
      · rintro ⟨hv, hx, -⟩
        exact ⟨hv.symm, (Option.some.inj hx).symm⟩
      · rintro ⟨hv, hx⟩
        exact ⟨hv.symm, by rw [hx], hfirst⟩
    rw [hyes]
    constructor
    · rintro (hp | hp)
      · exact .inl hp
      · exact .inr (.inr hp)
    · rintro (hp | hp | hp)
      · exact .inl hp
      · exact absurd hp hno
      · exact .inr hp
  · rw [if_neg hk]
    ext p
    rw [hother, hbefore]
    have hsame : (∀ e' ∈ e :: rest, e'.1 ≠ key) ↔ ∀ e' ∈ rest, e'.1 ≠ key := by
      rw [List.forall_mem_cons]
      exact ⟨fun hn => hn.2, fun hn => ⟨hk, hn⟩⟩
    rw [hsame]

theorem Sound.push (h : s.Sound) (hi : s.commits[i]? = some (.writing version writeset (e :: rest)))
    (hg : s.pushesInOrder version e.1 = true) :
    Sound { s with
      db := s.db.writeKey version e
      commits := s.commits.set i (.writing version writeset rest) } := by
  obtain ⟨hdist, hsub⟩ := h.pending _ (List.mem_of_getElem? hi)
  have hpush := pushed_push (t := { s with
      db := s.db.writeKey version e
      commits := s.commits.set i (.writing version writeset rest) }) h hi rfl
  have hold := h.queued _ (List.mem_of_getElem? hi) e (List.mem_cons_self ..)
  exact {
    stamped := forall_commits_set hi (.writing version writeset rest) rfl h.stamped fun hc => hc
    distinct := distinct_set h hi rfl rfl
    pending := forall_commits_set hi (.writing version writeset rest) rfl h.pending fun hc =>
      ⟨(List.pairwise_cons.1 hc.1).2, fun e' he' => hc.2 e' (List.mem_cons_of_mem e he')⟩
    fits := forall_commits_set hi (.writing version writeset rest) rfl h.fits fun hc => hc
    chains := by
      intro key
      have hchain := h.chains key
      rw [hpush key]
      unfold chainAt at hchain ⊢
      change Reflects _ _ ((Inner.pushKey s.db.datastore version e.1 e.2)[key]?.getD .new)
      rw [Inner.pushKey_getElem?]
      by_cases hk : e.1 = key
      · subst hk
        rw [if_pos rfl, if_pos rfl, Option.getD_some]
        refine .written (Set.mem_insert _ _) ?_ ?_
        · rintro v ⟨y, hy | hy⟩
          · cases hy
            exact le_rfl
          · exact (hold _ hy).le
        · exact hchain.seededPush fun t x hm => (hold _ hm).le
      · rw [if_neg hk, if_neg hk]
        exact hchain
    queued := by
      intro x hx e' he' p hp
      rw [hpush e'.1] at hp
      rcases (mem_set_iff hi _ x).1 hx with rfl | ⟨j, hij, hj⟩
      · rw [if_neg ((List.pairwise_cons.1 hdist).1 e' he')] at hp
        exact h.queued _ (List.mem_of_getElem? hi) e' (List.mem_cons_of_mem e he') p hp
      · have hxs := List.mem_of_getElem? hj
        split at hp
        · rename_i hk
          rcases hp with rfl | hp
          · have hnot := List.all_eq_true.1 hg x hxs
            have hany : (x.pending.any fun e'' => e''.1 == e.1) = true :=
              List.any_eq_true.2 ⟨e', he', by simp [hk]⟩
            rw [hany, Bool.and_true, Bool.not_eq_true', decide_eq_false_iff_not] at hnot
            have hne : version ≠ x.version := fun hv => hij (h.distinct i j _ x hi hj hv)
            exact Nat.lt_of_le_of_ne (Nat.not_lt.1 hnot) hne
          · exact h.queued x hxs e' he' p hp
        · exact h.queued x hxs e' he' p hp
    unlogged := by
      refine forall_commits_set hi (.writing version writeset rest) rfl ?_ fun hc => hc
      intro x hx hl
      exact forall_commits_set hi (.writing version writeset rest) rfl (h.unlogged x hx hl) fun _ hc => by cases hc
    log := fun r => (h.log r).trans (mem_commits_set hi (.writing version writeset rest) rfl ⟨fun hr => hr, fun hr => hr⟩).symm
    ordered := h.ordered }

theorem Sound.commit (h : s.Sound) (db : Inner) (ht : s.db.timestamp < version)
    (hv : db.timestamp = version) (hd : db.datastore = s.db.datastore)
    (hf : ∀ r ∈ recordsOf version writeset, Record.fits r = true) :
    Store.pushed { s with
        db := db
        commits := s.commits ++ [.writing version writeset writeset.toList] } = s.pushed ∧
      Sound { s with
        db := db
        commits := s.commits ++ [.writing version writeset writeset.toList] } := by
  have hmem : ∀ {x}, x ∈ s.commits ++ [.writing version writeset writeset.toList] →
      x ∈ s.commits ∨ x = .writing version writeset writeset.toList := by
    intro x hx
    rw [List.mem_append, List.mem_singleton] at hx
    exact hx
  have hpush : Store.pushed { s with
      db := db
      commits := s.commits ++ [.writing version writeset writeset.toList] } = s.pushed := by
    funext key
    ext p
    constructor
    · rintro ⟨x, hx, hp⟩
      rcases hmem hx with hx | rfl
      · exact ⟨x, hx, hp⟩
      · obtain ⟨-, hw, hn⟩ := hp
        exact absurd rfl (hn _ (ExtTreeMap.mem_toList_iff_getElem?_eq_some.2 hw))
    · rintro ⟨x, hx, hp⟩
      exact ⟨x, List.mem_append_left _ hx, hp⟩
  have hold : ∀ key, ∀ p ∈ s.pushed key, p.1 < version := by
    rintro key p ⟨x, hx, hv, -⟩
    rw [← hv]
    exact (h.stamped x hx).trans_lt ht
  refine ⟨hpush, {
    stamped := ?_
    distinct := ?_
    pending := ?_
    fits := ?_
    chains := by
      rw [hpush]
      exact hd ▸ h.chains
    queued := ?_
    unlogged := ?_
    log := ?_
    ordered := h.ordered }⟩
  · intro x hx
    rcases hmem hx with hx | rfl
    · exact ((h.stamped x hx).trans ht.le).trans_eq hv.symm
    · exact hv.ge
  · intro j k x y hj hk hxy
    have hlast : ∀ {n : Nat} {z}, (s.commits ++ [.writing version writeset writeset.toList])[n]? =
        some z → s.commits[n]? = some z ∧ z.version < version ∨
          n = s.commits.length ∧ z.version = version := by
      intro n z hn
      rcases getElem?_concat_cases hn with hn | ⟨rfl, rfl⟩
      · exact .inl ⟨hn, (h.stamped z (List.mem_of_getElem? hn)).trans_lt ht⟩
      · exact .inr ⟨rfl, rfl⟩
    rcases hlast hj with ⟨hj, hxv⟩ | ⟨hj, hxv⟩
    · rcases hlast hk with ⟨hk, -⟩ | ⟨-, hyv⟩
      · exact h.distinct j k x y hj hk hxy
      · omega
    · rcases hlast hk with ⟨-, hyv⟩ | ⟨hk, -⟩
      · omega
      · exact hj.trans hk.symm
  · intro x hx
    rcases hmem hx with hx | rfl
    · exact h.pending x hx
    · exact ⟨writeset.toList_distinct, fun e he => ExtTreeMap.mem_toList_iff_getElem?_eq_some.1 he⟩
  · intro x hx
    rcases hmem hx with hx | rfl
    · exact h.fits x hx
    · exact hf
  · intro x hx e he p hp
    rw [hpush] at hp
    rcases hmem hx with hx | rfl
    · exact h.queued x hx e he p hp
    · exact hold e.1 p hp
  · intro x hx hl y hy hyl key hkx hky
    rcases hmem hy with hy | rfl
    · rcases hmem hx with hx | rfl
      · exact h.unlogged x hx hl y hy hyl key hkx hky
      · exact (h.stamped y hy).trans_lt ht
    · cases hyl
  · intro r
    rw [h.log]
    constructor
    · rintro ⟨x, hx, hr⟩
      exact ⟨x, List.mem_append_left _ hx, hr⟩
    · rintro ⟨x, hx, hl, hr⟩
      rcases hmem hx with hx | rfl
      · exact ⟨x, hx, hl, hr⟩
      · cases hl

theorem Sound.append_ordered (h : s.Sound) (hi : s.commits[i]? = some (.writing version writeset [])) :
    LogOrdered (s.log ++ recordsOf version writeset) := by
  refine List.pairwise_append.2 ⟨h.ordered, ?_, ?_⟩
  · exact (recordsOf_pairwise version writeset).imp fun hne he => absurd he hne
  · intro a ha b hb hk
    obtain ⟨x, hx, hl, ha⟩ := (h.log a).1 ha
    obtain ⟨hav, hak⟩ := mem_recordsOf.1 ha
    obtain ⟨hbv, hbk⟩ := mem_recordsOf.1 hb
    rw [hav, hbv]
    have hkx : a.1 ∈ x.writeset := ExtTreeMap.mem_iff_isSome_getElem?.2 (by rw [hak]; rfl)
    have hkw : a.1 ∈ writeset := ExtTreeMap.mem_iff_isSome_getElem?.2 (by rw [hk, hbk]; rfl)
    exact h.unlogged _ (List.mem_of_getElem? hi) rfl x hx hl a.1 hkw hkx

theorem Sound.append {disk : Disk} (h : s.Sound) (hi : s.commits[i]? = some (.writing version writeset []))
    (hg : s.logsInOrder version writeset = true) :
    Store.pushed { s with
        commits := s.commits.set i (.logged version writeset)
        log := s.log ++ recordsOf version writeset
        disk := disk } = s.pushed ∧
      Sound { s with
        commits := s.commits.set i (.logged version writeset)
        log := s.log ++ recordsOf version writeset
        disk := disk } := by
  have hpush : Store.pushed { s with
      commits := s.commits.set i (.logged version writeset)
      log := s.log ++ recordsOf version writeset
      disk := disk } = s.pushed := pushed_set hi rfl rfl rfl rfl
  refine ⟨hpush, {
    stamped := forall_commits_set hi (.logged version writeset) rfl h.stamped fun hc => hc
    distinct := distinct_set h hi rfl rfl
    pending := forall_commits_set hi (.logged version writeset) rfl h.pending fun hc => hc
    fits := forall_commits_set hi (.logged version writeset) rfl h.fits fun hc => hc
    chains := by
      rw [hpush]
      exact h.chains
    queued := by
      rw [hpush]
      exact forall_commits_set hi (.logged version writeset) rfl h.queued fun hc => hc
    unlogged := ?_
    log := ?_
    ordered := h.append_ordered hi }⟩
  · intro x hx hl y hy hyl key hkx hky
    rcases (mem_set_iff hi _ x).1 hx with rfl | ⟨j, hij, hj⟩
    · cases hl
    · have hxs := List.mem_of_getElem? hj
      rcases (mem_set_iff hi _ y).1 hy with rfl | ⟨k, -, hk⟩
      · -- The guard: a commit that shares a key and has not logged is not older.
        have hor := List.all_eq_true.1 hg x hxs
        obtain ⟨v, hv⟩ := Option.isSome_iff_exists.1 (ExtTreeMap.mem_iff_isSome_getElem?.1 hky)
        have hshare : (writeset.toList.all fun e => !x.writeset.contains e.1) = false := by
          refine Bool.eq_false_iff.2 fun hall => ?_
          have hn := List.all_eq_true.1 hall _ (ExtTreeMap.mem_toList_iff_getElem?_eq_some.2 hv)
          rw [ExtTreeMap.mem_iff_contains.1 hkx] at hn
          cases hn
        rw [hl, hshare, Bool.false_or, Bool.or_false, Bool.not_eq_true',
          decide_eq_false_iff_not] at hor
        have hne : version ≠ x.version := fun he => hij (h.distinct i j _ x hi hj he)
        exact Nat.lt_of_le_of_ne (Nat.not_lt.1 hor) hne
      · exact h.unlogged x hxs hl y (List.mem_of_getElem? hk) hyl key hkx hky
  · intro r
    rw [List.mem_append, h.log]
    constructor
    · rintro (⟨x, hx, hl, hr⟩ | hr)
      · rcases (mem_iff_at hi x).1 hx with rfl | ⟨j, hij, hj⟩
        · cases hl
        · exact ⟨x, (mem_set_iff hi _ x).2 (.inr ⟨j, hij, hj⟩), hl, hr⟩
      · exact ⟨.logged version writeset, (mem_set_iff hi _ _).2 (.inl rfl), rfl, hr⟩
    · rintro ⟨x, hx, hl, hr⟩
      rcases (mem_set_iff hi _ x).1 hx with rfl | ⟨j, -, hj⟩
      · exact .inr hr
      · exact .inl ⟨x, List.mem_of_getElem? hj, hl, hr⟩

end

end Store

end StupidKv
