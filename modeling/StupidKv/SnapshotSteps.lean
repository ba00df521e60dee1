import StupidKv.DiskShape

namespace StupidKv
open Std Processes
set_option autoImplicit true

variable {fmt : Format} {keys : FirstKeys} {cutoff : Cutoff} {P P' : Bytes → Set (Nat × Option Bytes)} {log recs : List Record}
  {mark c : Nat} {d d' : Disk} {run run' : SnapshotRun}

theorem not_passed {cursor : Option Bytes} {key : Bytes} :
    ¬ passed cursor key ↔ (cursor.all fun c => compare c key == .lt) = true := by
  cases cursor with
  | none => simp [passed]
  | some c => simp [passed]

theorem compare_lt_irrefl (key : Bytes) : compare key key ≠ .lt := by simp

theorem nextEntry_some {datastore : SkipMap Bytes Versions}
    (h : Disk.nextEntry datastore cursor = some (key, ch)) :
    datastore[key]? = some ch ∧ ¬ passed cursor key ∧
      ∀ k, ¬ passed cursor k → compare k key = .lt → datastore[k]? = none := by
  obtain ⟨hcur, l₁, l₂, hl, hskip⟩ := List.find?_eq_some_iff_append.1 h
  have hmem : ∀ {k v}, (k, v) ∈ datastore.toList ↔ datastore[k]? = some v :=
    ExtTreeMap.mem_toList_iff_getElem?_eq_some
  refine ⟨hmem.1 (by simp [hl]), not_passed.2 hcur, ?_⟩
  intro k hk hlt
  cases hv : datastore[k]? with
  | none => rfl
  | some v =>
    have hm := hmem.2 hv
    rw [hl] at hm
    rcases List.mem_append.1 hm with hm | hm
    · have hn := hskip _ hm
      rw [not_passed.1 hk] at hn
      cases hn
    · have hsorted : (l₁ ++ (key, ch) :: l₂).Pairwise fun a b => compare a.1 b.1 = .lt := by
        rw [← hl]
        exact ExtTreeMap.ordered_keys_toList
      rcases List.mem_cons.1 hm with hm | hm
      · cases hm
        exact absurd hlt (compare_lt_irrefl key)
      · have hgt := (List.pairwise_cons.1 (List.pairwise_append.1 hsorted).2.1).1 _ hm
        exact absurd (TransCmp.lt_trans hlt hgt) (compare_lt_irrefl k)

theorem nextEntry_none {datastore : SkipMap Bytes Versions}
    (h : Disk.nextEntry datastore cursor = none) (hk : ¬ passed cursor key) :
    datastore[key]? = none := by
  cases hv : datastore[key]? with
  | none => rfl
  | some v =>
    have hm := ExtTreeMap.mem_toList_iff_getElem?_eq_some.2 hv
    exact absurd (not_passed.1 hk) (List.find?_eq_none.1 h _ hm)

theorem CutoffHolds.mono {log' recs' : List Record} {cutoff : Cutoff}
    (h : CutoffHolds fmt log recs n cutoff) (hlog : log' = log ++ new)
    (hrecs : recs' = recs ++ more) (hnew : ∀ r ∈ new, r ∈ more) :
    CutoffHolds fmt log' recs' n cutoff where
  logged := by
    rw [hlog, List.length_append]
    exact h.logged.trans (Nat.le_add_right _ _)
  past := h.past
  split := by
    intro hn
    obtain ⟨r₀, r₁, rfl, hpos, hdrop⟩ := h.split hn
    refine ⟨r₀, r₁ ++ more, by rw [hrecs, List.append_assoc], hpos, ?_⟩
    intro r hr
    rw [hlog, List.drop_append_of_le_length h.logged] at hr
    rcases List.mem_append.1 hr with hr | hr
    · exact List.mem_append_left _ (hdrop r hr)
    · exact List.mem_append_right _ (hnew r hr)

/-- A cutoff that outlives the emptying of the AOL keeps only its mark. -/
theorem CutoffHolds.clear (h : CutoffHolds fmt log recs n cutoff) :
    CutoffHolds fmt log [] (n + 1) cutoff where
  logged := h.logged
  past := h.past.trans (Nat.le_succ n)
  split := by
    intro hn
    have hle := h.past
    omega

theorem RunHolds.congr {recs' : List Record} (h : RunHolds fmt keys P log mark recs d run)
    (ht : d'.temp = d.temp) (hi : d'.inodes = d.inodes)
    (hc : ∀ cutoff, CutoffHolds fmt log recs d.cleared cutoff →
      CutoffHolds fmt log recs' d'.cleared cutoff) : RunHolds fmt keys P log mark recs' d' run := by
  cases run with
  | created inode => simpa only [RunHolds, ht, hi] using h
  | encoding inode cutoff cursor stream =>
    obtain ⟨h₁, h₂, hcut, hm, he⟩ := h
    exact ⟨ht.trans h₁, by rw [hi, h₂], hc cutoff hcut, hm, he⟩
  | flushed cutoff =>
    obtain ⟨hcut, hm, inode, entries, h₁, h₂, he⟩ := h
    exact ⟨hc cutoff hcut, hm, inode, entries, ht.trans h₁, by rw [hi, h₂], he⟩
  | renamed cutoff => exact ⟨hc cutoff h.1, h.2⟩
  | copying rest => trivial
  | failed => exact h
  | done => trivial

theorem RunHolds.settled {recs' log' : List Record} {mark' : Nat}
    (h : RunHolds fmt keys P log mark recs d run) (hb : run.building = false) (hm : mark ≤ mark')
    (hc : ∀ cutoff, CutoffHolds fmt log recs d.cleared cutoff →
      CutoffHolds fmt log' recs' d'.cleared cutoff) :
    RunHolds fmt keys P' log' mark' recs' d' run := by
  cases run with
  | created inode => cases hb
  | encoding inode cutoff cursor stream => cases hb
  | flushed cutoff => cases hb
  | renamed cutoff => exact ⟨hc cutoff h.1, h.2.trans hm⟩
  | copying rest => trivial
  | failed => exact h
  | done => trivial

theorem RunHolds.mono {recs' log' : List Record} (h : RunHolds fmt keys P log mark recs d run)
    (hP : ∀ key, P key ⊆ P' key) (hlog : log' = log ++ new) (hrecs : recs' = recs ++ more)
    (hnew : ∀ r ∈ new, r ∈ more) : RunHolds fmt keys P' log' mark recs' d run := by
  have htake : ∀ {n}, n ≤ log.length → log'.take n = log.take n := by
    intro n hn
    rw [hlog, List.take_append_of_le_length hn]
  cases run with
  | created inode => exact h
  | encoding inode cutoff cursor stream =>
    obtain ⟨ht, hi, hcut, hm, entries, hs, he⟩ := h
    exact ⟨ht, hi, hcut.mono hlog hrecs hnew, hm, entries, hs, he.mono hP (htake hcut.logged)⟩
  | flushed cutoff =>
    obtain ⟨hcut, hm, inode, entries, ht, hi, he⟩ := h
    exact ⟨hcut.mono hlog hrecs hnew, hm, inode, entries, ht, hi, he.mono hP (htake hcut.logged)⟩
  | renamed cutoff => exact ⟨h.1.mono hlog hrecs hnew, h.2⟩
  | copying rest => trivial
  | failed => exact h
  | done => trivial

theorem Disk.locked_put {i : Nat} (hi : d.runs[i]? = some run) (h : run.copies = false)
    (h' : run'.copies = false) (hr : d'.runs = d.runs.set i run') : d'.locked = d.locked := by
  unfold Disk.locked
  rw [hr, Bool.eq_iff_iff, List.any_eq_true, List.any_eq_true]
  constructor
  · rintro ⟨x, hx, hc⟩
    rcases List.mem_or_eq_of_mem_set hx with hx | rfl
    · exact ⟨x, hx, hc⟩
    · rw [h'] at hc
      cases hc
  · rintro ⟨x, hx, hc⟩
    obtain ⟨j, hj⟩ := List.mem_iff_getElem?.1 hx
    have hij : i ≠ j := by
      rintro rfl
      rw [hi] at hj
      cases hj
      rw [h] at hc
      cases hc
    refine ⟨x, List.mem_of_getElem? (i := j) ?_, hc⟩
    rw [List.getElem?_set, if_neg hij, hj]

theorem AolFile.put {i : Nat} (h : AolFile fmt recs d) (hi : d.runs[i]? = some run)
    (hc : run.copies = false) (hc' : run'.copies = false) (hr : d'.runs = d.runs.set i run')
    (ha : d'.aol = d.aol) : AolFile fmt recs d' := by
  cases h with
  | whole hl haol => exact .whole ((Disk.locked_put hi hc hc' hr).trans hl) (ha.trans haol)
  | copying k rest part extra hk hs haol hp he =>
    have hik : i ≠ k := by
      rintro rfl
      rw [hi] at hk
      cases hk
      cases hc
    refine .copying k rest part extra ?_ ?_ (ha.trans haol) hp he
    · rw [hr]
      exact getElem?_set_ne hk hik run'
    · intro j rest' hj
      rw [hr] at hj
      rcases getElem?_set_cases hj with ⟨-, rfl⟩ | ⟨-, hj⟩
      · cases hc'
      · exact hs j rest' hj

theorem Versions.eq_new {ch : Versions} (h : ch.allVersions = []) : ch = .new := by
  refine Versions.ext ?_
  simpa [Versions.allVersions, Versions.new] using h

theorem EntriesReflect.encode {datastore : SkipMap Bytes Versions}
    (h : EntriesReflect fmt keys P log mark (passed cursor) entries)
    (hmem : ∀ key, Reflects (P key) (stamps (log.take mark) key) (chainAt datastore key))
    (hn : Disk.nextEntry datastore cursor = some (key, ch))
    (hv : ch.allVersions ≠ [] → fmt.entry.valid (key, ch.allVersions))
    (hk : ch.allVersions ≠ [] → entries = [] → keys.snapshot key = true) :
    EntriesReflect fmt keys P log mark (passed (some key))
      (if ch.allVersions = [] then entries else entries ++ [(key, ch.allVersions)]) := by
  obtain ⟨hkey, hnot, hbetween⟩ := nextEntry_some hn
  have hchain : loadedChain
      (if ch.allVersions = [] then entries else entries ++ [(key, ch.allVersions)]) key =
      if ch.allVersions = [] then .new else Versions.new.pushAll ch.allVersions := by
    split
    · exact h.fresh key hnot
    · rename_i hne
      rw [loadedChain_concat, if_pos ⟨rfl, hne⟩]
  have hother : ∀ k, key ≠ k → loadedChain
      (if ch.allVersions = [] then entries else entries ++ [(key, ch.allVersions)]) k =
      loadedChain entries k := by
    intro k hk
    split
    · rfl
    · rw [loadedChain_concat, if_neg fun hc => hk hc.1]
  refine ⟨?_, ?_, ?_, ?_⟩
  · intro e he
    split at he
    · exact h.valid e he
    · rename_i hne
      rcases List.mem_append.1 he with he | he
      · exact h.valid e he
      · rw [List.mem_singleton.1 he]
        exact hv hne
  · split
    · exact h.first
    · rename_i hne
      exact head?_all_append h.first fun he => by simpa using hk hne he
  · rintro k ⟨_, hc, hle⟩
    cases hc
    by_cases hk : key = k
    · subst hk
      have hrefl := hmem key
      rw [chainAt, hkey, Option.getD_some] at hrefl
      rw [hchain]
      split
      · rename_i he
        rwa [Versions.eq_new he] at hrefl
      · exact hrefl.reload
    · rw [hother k hk]
      by_cases hp : passed cursor k
      · exact h.reflect k hp
      · -- No entry lies between the cursor and the next one.
        have hlt : compare k key = .lt := by
          rcases hcmp : compare key k with _ | _ | _
          · exact absurd hcmp hle
          · exact absurd (LawfulEqCmp.eq_of_compare hcmp) hk
          · exact OrientedCmp.lt_of_gt hcmp
        have hrefl := hmem k
        rw [chainAt, hbetween k hp hlt] at hrefl
        rw [h.fresh k hp]
        exact hrefl
  · intro k hk
    have hlt : compare key k = .lt := by
      by_contra hn
      exact hk ⟨key, rfl, hn⟩
    have hne : key ≠ k := by
      rintro rfl
      exact compare_lt_irrefl key hlt
    rw [hother k hne]
    refine h.fresh k ?_
    rintro ⟨c, rfl, hc⟩
    refine hnot ⟨c, rfl, fun hck => hc ?_⟩
    exact TransCmp.lt_trans hck hlt

theorem EntriesReflect.finish {datastore : SkipMap Bytes Versions}
    (h : EntriesReflect fmt keys P log mark (passed cursor) entries)
    (hmem : ∀ key, Reflects (P key) (stamps (log.take mark) key) (chainAt datastore key))
    (hn : Disk.nextEntry datastore cursor = none) :
    EntriesReflect fmt keys P log mark (fun _ => True) entries where
  valid := h.valid
  first := h.first
  reflect := by
    intro key _
    by_cases hp : passed cursor key
    · exact h.reflect key hp
    · have hrefl := hmem key
      rw [chainAt, nextEntry_none hn hp] at hrefl
      rw [h.fresh key hp]
      exact hrefl
  fresh := fun key hk => absurd trivial hk

namespace Shape

section
variable {i : Nat}

theorem sole_put (h : Shape fmt keys P log mark c recs d) (hi : d.runs[i]? = some run)
    (hb : run'.building = run.building) (j k : Nat) (r r' : SnapshotRun)
    (hj : (d.runs.set i run')[j]? = some r) (hk : (d.runs.set i run')[k]? = some r')
    (hbj : r.building = true) (hbk : r'.building = true) : j = k := by
  rcases getElem?_set_cases hj with ⟨rfl, rfl⟩ | ⟨-, hj⟩
  · rcases getElem?_set_cases hk with ⟨rfl, -⟩ | ⟨-, hk⟩
    · rfl
    · exact h.sole i k run r' hi hk (hb ▸ hbj) hbk
  · rcases getElem?_set_cases hk with ⟨rfl, rfl⟩ | ⟨-, hk⟩
    · exact h.sole j i r run hj hi hbj (hb ▸ hbk)
    · exact h.sole j k r r' hj hk hbj hbk

theorem idle_put (h : Shape fmt keys P log mark c recs d) (hi : d.runs[i]? = some run)
    (hb : run'.building = run.building)
    (hn : ∀ r ∈ d.runs.set i run', r.building = false) : d.temp = none := by
  refine h.idle fun x hx => ?_
  obtain ⟨j, hj⟩ := List.mem_iff_getElem?.1 hx
  by_cases hij : i = j
  · subst hij
    rw [hi] at hj
    cases hj
    rw [← hb]
    exact hn run' (List.mem_of_getElem? (getElem?_set_at hi run'))
  · exact hn x (List.mem_of_getElem? (getElem?_set_ne hj hij run'))

theorem put (h : Shape fmt keys P log mark c recs d) (hi : d.runs[i]? = some run)
    (hc : run.copies = false) (hc' : run'.copies = false) (hb : run'.building = run.building)
    (hr : RunHolds fmt keys P log mark recs d run') :
    Shape fmt keys P log mark c recs (d.put i run') where
  held := h.held
  replayable := h.replayable
  first := h.first
  covered := h.covered
  marked := h.marked
  aol := h.aol.put hi hc hc' rfl rfl
  snapshot := h.snapshot
  runs := by
    intro j r hj
    rcases getElem?_set_cases hj with ⟨-, rfl⟩ | ⟨-, hj⟩
    · exact hr.congr rfl rfl fun _ hc => hc
    · exact (h.runs j r hj).congr rfl rfl fun _ hc => hc
  sole := h.sole_put hi hb
  idle := h.idle_put hi hb
  apart := h.apart
  named := h.named

end

theorem others {i j : Nat} (h : Shape fmt keys P log mark c recs d) (hi : d.runs[i]? = some run)
    (hb : run.building = true) (hj : d.runs[j]? = some run') (hij : i ≠ j) :
    run'.building = false := by
  by_contra hn
  exact hij (h.sole i j run run' hi hj hb (Bool.not_eq_false _ ▸ hn))

theorem unlocked (h : Shape fmt keys P log mark c recs d) (hl : d.locked = false) :
    d.aol = fmt.record.encodeAll recs := by
  cases h.aol with
  | whole _ ha => exact ha
  | copying i rest part extra hi =>
    have hlock : d.locked = true := List.any_eq_true.2 ⟨_, List.mem_of_getElem? hi, rfl⟩
    rw [hl] at hlock
    cases hlock

theorem recordCutoff {i : Nat} (h : Shape fmt keys P log mark c recs d)
    (hi : d.runs[i]? = some (.created inode)) (hl : d.locked = false) :
    Shape fmt keys P log mark c recs
      (d.put i (.encoding inode ⟨d.aol.length, log.length, d.cleared⟩ none [])) := by
  refine h.put hi rfl rfl rfl ?_
  obtain ⟨ht, hn⟩ := h.runs i _ hi
  refine ⟨ht, hn, ⟨le_rfl, le_rfl, ?_⟩, h.marked, [], rfl, ⟨by simp, rfl, ?_, fun _ _ => rfl⟩⟩
  · intro _
    refine ⟨recs, [], by simp, ?_, by simp⟩
    rw [h.unlocked hl]
  · rintro key ⟨c, hc, -⟩
    cases hc

theorem encode {i : Nat} {datastore : SkipMap Bytes Versions}
    (h : Shape fmt keys P log mark c recs d)
    (hi : d.runs[i]? = some (.encoding inode cutoff cursor stream))
    (hmem : ∀ key, Reflects (P key) (stamps log key) (chainAt datastore key))
    (hn : Disk.nextEntry datastore cursor = some (key, ch))
    (hv : ch.allVersions ≠ [] → fmt.entry.valid (key, ch.allVersions))
    (hk : ch.allVersions ≠ [] → stream = [] → keys.snapshot key = true) :
    Shape fmt keys P log mark c recs (d.put i (.encoding inode cutoff (some key)
      (if ch.allVersions = [] then stream else stream ++ fmt.entry.encode (key, ch.allVersions)))) := by
  refine h.put hi rfl rfl rfl ?_
  obtain ⟨ht, hino, hcut, hm, entries, rfl, he⟩ := h.runs i _ hi
  have hmem : ∀ k, Reflects (P k) (stamps (log.take cutoff.logged) k) (chainAt datastore k) := by
    intro k
    refine (hmem k).mono Set.Subset.rfl ?_
    rintro v ⟨y, hy⟩
    exact ⟨y, List.mem_of_mem_take hy⟩
  have hk : ch.allVersions ≠ [] → entries = [] → keys.snapshot key = true := by
    rintro hne rfl
    exact hk hne rfl
  refine ⟨ht, hino, hcut, hm, _, ?_, he.encode hmem hn hv hk⟩
  split
  · rfl
  · simp

theorem flush {i : Nat} {datastore : SkipMap Bytes Versions} (h : Shape fmt keys P log mark c recs d)
    (hi : d.runs[i]? = some (.encoding inode cutoff cursor stream))
    (hmem : ∀ key, Reflects (P key) (stamps log key) (chainAt datastore key))
    (hn : Disk.nextEntry datastore cursor = none) :
    Shape fmt keys P log mark c recs { d.put i (.flushed cutoff) with
      inodes := d.inodes.modify inode fun old =>
        fmt.writer stream ++ old.drop (fmt.writer stream).length } := by
  obtain ⟨ht, hino, hcut, hm, entries, rfl, he⟩ := h.runs i _ hi
  have hmem : ∀ k, Reflects (P k) (stamps (log.take cutoff.logged) k) (chainAt datastore k) := by
    intro k
    refine (hmem k).mono Set.Subset.rfl ?_
    rintro v ⟨y, hy⟩
    exact ⟨y, List.mem_of_mem_take hy⟩
  have hfile : ∀ path, d.snapshot = some path → path ≠ inode := by
    rintro path hp rfl
    exact h.apart path ht hp
  exact {
    held := h.held
    replayable := h.replayable
    first := h.first
    covered := h.covered
    marked := h.marked
    aol := h.aol.put hi rfl rfl rfl rfl
    snapshot := by
      obtain ⟨es, hes, hr⟩ := h.snapshot
      refine ⟨es, ?_, hr⟩
      have hsame : Disk.file { d.put i (.flushed cutoff) with
          inodes := d.inodes.modify inode fun old =>
            fmt.writer (fmt.entry.encodeAll entries) ++
              old.drop (fmt.writer (fmt.entry.encodeAll entries)).length } d.snapshot =
          d.file d.snapshot := by
        unfold Disk.file
        cases hs : d.snapshot with
        | none => rfl
        | some path =>
          simp only [Option.bind_some]
          simp [(hfile path hs).symm]
      rw [← hsame] at hes
      exact hes
    runs := by
      intro j r hj
      rcases getElem?_set_cases hj with ⟨-, rfl⟩ | ⟨hij, hj⟩
      · refine ⟨hcut, hm, inode, entries, ht, ?_, he.finish hmem hn⟩
        simp [hino]
      · exact (h.runs j r hj).settled (h.others hi rfl hj hij) le_rfl fun _ hc => hc
    sole := by
      intro j k r r' hj hk hbj hbk
      rcases getElem?_set_cases hj with ⟨rfl, -⟩ | ⟨hij, hj⟩
      · rcases getElem?_set_cases hk with ⟨rfl, -⟩ | ⟨hik, hk⟩
        · rfl
        · rw [h.others hi rfl hk hik] at hbk
          cases hbk
      · rw [h.others hi rfl hj hij] at hbj
        cases hbj
    idle := by
      intro hnone
      have hrun := hnone (.flushed cutoff) (List.mem_of_getElem? (getElem?_set_at hi _))
      cases hrun
    apart := h.apart
    named := by
      intro path hp
      change path < (d.inodes.modify inode _).length
      rw [List.length_modify]
      exact h.named path hp }

theorem rename {i : Nat} (h : Shape fmt keys P log mark c recs d)
    (hi : d.runs[i]? = some (.flushed cutoff)) (ht : d.temp = some inode) :
    Shape fmt keys P log cutoff.logged c recs
      { d.put i (.renamed cutoff) with temp := none, snapshot := some inode } := by
  obtain ⟨hcut, hm, inode', entries, ht', hino, he⟩ := h.runs i _ hi
  rw [ht] at ht'
  cases ht'
  exact {
    held := h.held
    replayable := h.replayable
    first := h.first
    covered := h.covered.trans hm
    marked := hcut.logged
    aol := h.aol.put hi rfl rfl rfl rfl
    snapshot := ⟨entries, .inr hino, he⟩
    runs := by
      intro j r hj
      rcases getElem?_set_cases hj with ⟨-, rfl⟩ | ⟨hij, hj⟩
      · exact ⟨hcut, le_rfl⟩
      · exact (h.runs j r hj).settled (h.others hi rfl hj hij) hm fun _ hc => hc
    sole := by
      intro j k r r' hj hk hbj hbk
      rcases getElem?_set_cases hj with ⟨-, rfl⟩ | ⟨hij, hj⟩
      · cases hbj
      · rw [h.others hi rfl hj hij] at hbj
        cases hbj
    idle := fun _ => rfl
    apart := by
      intro path hp
      cases hp
    named := by
      intro path hp
      cases hp
      obtain ⟨hlt, -⟩ := List.getElem?_eq_some_iff.1 hino
      exact hlt }

theorem createTemp (h : Shape fmt keys P log mark c recs d)
    (hb : ∀ run ∈ d.runs, run.building = false) :
    Shape fmt keys P log mark c recs d.createTemp := by
  have ht := h.idle hb
  have hd : d.createTemp = { d with
      inodes := d.inodes ++ [[]]
      temp := some d.inodes.length
      runs := d.runs ++ [.created d.inodes.length] } := by
    unfold Disk.createTemp
    rw [ht]
  have hmem : ∀ {j : Nat} {r}, (d.runs ++ [.created d.inodes.length])[j]? = some r →
      r = .created d.inodes.length ∧ j = d.runs.length ∨ d.runs[j]? = some r := by
    intro j r hj
    rcases getElem?_concat_cases hj with hj | ⟨hlast, rfl⟩
    · exact .inr hj
    · exact .inl ⟨rfl, hlast⟩
  have hold : ∀ {j : Nat} {r}, d.runs[j]? = some r → r.building = false :=
    fun hj => hb _ (List.mem_of_getElem? hj)
  rw [hd]
  exact {
    held := h.held
    replayable := h.replayable
    first := h.first
    covered := h.covered
    marked := h.marked
    aol := by
      cases h.aol with
      | whole hl ha =>
        refine .whole ?_ ha
        unfold Disk.locked at hl ⊢
        rw [List.any_append, hl]
        rfl
      | copying k rest part extra hk hs ha hp he =>
        refine .copying k rest part extra ?_ ?_ ha hp he
        · exact getElem?_concat_of hk _
        · intro j rest' hj
          rcases hmem hj with ⟨hr, -⟩ | hj
          · cases hr
          · exact hs j rest' hj
    snapshot := by
      obtain ⟨es, hes, hr⟩ := h.snapshot
      refine ⟨es, ?_, hr⟩
      have hsame : Disk.file { d with
          inodes := d.inodes ++ [[]]
          temp := some d.inodes.length
          runs := d.runs ++ [.created d.inodes.length] } d.snapshot = d.file d.snapshot := by
        unfold Disk.file
        cases hs : d.snapshot with
        | none => rfl
        | some path =>
          simp only [Option.bind_some]
          rw [List.getElem?_append_left (h.named path hs)]
      rw [← hsame] at hes
      exact hes
    runs := by
      intro j r hj
      rcases hmem hj with ⟨rfl, -⟩ | hj
      · exact ⟨rfl, by simp⟩
      · exact (h.runs j r hj).settled (hold hj) le_rfl fun _ hc => hc
    sole := by
      intro j k r r' hj hk hbj hbk
      rcases hmem hj with ⟨-, hj'⟩ | hj
      · rcases hmem hk with ⟨-, hk'⟩ | hk
        · exact hj'.trans hk'.symm
        · rw [hold hk] at hbk
          cases hbk
      · rw [hold hj] at hbj
        cases hbj
    idle := by
      intro hnone
      have hrun := hnone (.created d.inodes.length) (by simp)
      cases hrun
    apart := by
      intro path hp hs
      cases hp
      exact Nat.lt_irrefl _ (h.named _ hs)
    named := by
      intro path hs
      rw [List.length_append]
      exact Nat.lt_add_right _ (h.named path hs) }

/-- The AOL has not grown since the cutoff and is emptied. -/
theorem clear {i : Nat} (h : Shape fmt keys P log mark c recs d)
    (hi : d.runs[i]? = some (.renamed cutoff)) (hl : d.locked = false)
    (hv : ∀ r ∈ recs, fmt.record.valid r) (hp : ¬ d.aol.length > cutoff.position)
    (hg : cutoff.cleared = d.cleared ∨ d.aol = []) :
    ∃ c', Shape fmt keys P log mark c' []
      { d.put i .done with aol := [], cleared := d.cleared + 1 } := by
  have haol := h.unlocked hl
  obtain ⟨hcut, hle⟩ := h.runs i _ hi
  -- Everything logged so far was logged before the cutoff, or the AOL was empty anyway.
  have hempty : ∃ c', c' ≤ mark ∧ log.drop c' = [] := by
    rcases hg with hg | hg
    · obtain ⟨r₀, r₁, rfl, hpos, hdrop⟩ := hcut.split hg
      have hr₁ : r₁ = [] := by
        refine fmt.record.eq_nil_of_encodeAll (fun r hr => hv r (List.mem_append_right r₀ hr)) ?_
        rw [haol, Framing.Codec.encodeAll_append, List.length_append, ← hpos] at hp
        exact List.length_eq_zero_iff.1 (by omega)
      refine ⟨cutoff.logged, hle, List.eq_nil_iff_forall_not_mem.2 fun r hr => ?_⟩
      have hm := hdrop r hr
      rw [hr₁] at hm
      cases hm
    · refine ⟨c, h.covered, List.eq_nil_iff_forall_not_mem.2 fun r hr => ?_⟩
      have hm := (h.held r).2 hr
      rw [fmt.record.eq_nil_of_encodeAll hv (haol.symm.trans hg)] at hm
      cases hm
  obtain ⟨c', hc', hdrop⟩ := hempty
  refine ⟨c', {
    held := by simp [hdrop]
    replayable := by
      intro a r b he
      simp at he
    first := rfl
    covered := hc'
    marked := h.marked
    aol := .whole ((Disk.locked_put hi rfl rfl rfl).trans hl) rfl
    snapshot := h.snapshot
    runs := ?_
    sole := h.sole_put hi rfl
    idle := h.idle_put hi rfl
    apart := h.apart
    named := h.named }⟩
  intro j r hj
  rcases getElem?_set_cases hj with ⟨-, rfl⟩ | ⟨-, hj⟩
  · trivial
  · exact (h.runs j r hj).congr rfl rfl fun _ hc => hc.clear

theorem startCopy {i : Nat} (h : Shape fmt keys P log mark c recs d)
    (hi : d.runs[i]? = some (.renamed cutoff)) (hl : d.locked = false)
    (hg : cutoff.cleared = d.cleared) :
    Shape fmt keys P log mark c recs (d.put i (.copying (d.aol.drop cutoff.position))) := by
  have haol := h.unlocked hl
  obtain ⟨hcut, -⟩ := h.runs i _ hi
  obtain ⟨r₀, r₁, hrecs, hpos, -⟩ := hcut.split hg
  exact {
    held := h.held
    replayable := h.replayable
    first := h.first
    covered := h.covered
    marked := h.marked
    aol := by
      refine .copying i (d.aol.drop cutoff.position) [] r₁ ?_ ?_
        (haol.trans (List.append_nil _).symm) ?_ ?_
      · exact getElem?_set_at hi _
      · intro j rest' hj
        rcases getElem?_set_cases hj with ⟨hij, -⟩ | ⟨-, hj⟩
        · exact hij.symm
        · have hlock : d.locked = true := List.any_eq_true.2 ⟨_, List.mem_of_getElem? hj, rfl⟩
          rw [hl] at hlock
          cases hlock
      · rw [haol, hrecs, hpos, Framing.Codec.encodeAll_append, List.drop_left, List.nil_append]
      · rw [hrecs]
        exact List.subset_append_right r₀ r₁
    snapshot := h.snapshot
    runs := by
      intro j r hj
      rcases getElem?_set_cases hj with ⟨-, rfl⟩ | ⟨-, hj⟩
      · trivial
      · exact (h.runs j r hj).congr rfl rfl fun _ hc => hc
    sole := h.sole_put hi rfl
    idle := h.idle_put hi rfl
    apart := h.apart
    named := h.named }

theorem copied {i : Nat} (h : Shape fmt keys P log mark c recs d)
    (hi : d.runs[i]? = some (.copying rest)) :
    ∃ part extra, d.aol = fmt.record.encodeAll recs ++ part ∧
      part ++ rest = fmt.record.encodeAll extra ∧ extra ⊆ recs ∧
      ∀ (j : Nat) rest', d.runs[j]? = some (.copying rest') → j = i := by
  cases h.aol with
  | whole hl _ =>
    have hlock : d.locked = true := List.any_eq_true.2 ⟨_, List.mem_of_getElem? hi, rfl⟩
    rw [hl] at hlock
    cases hlock
  | copying k rest' part extra hk hs ha hp he =>
    obtain rfl := hs i rest hi
    rw [hi] at hk
    cases hk
    exact ⟨part, extra, ha, hp, he, hs⟩

theorem copy {i : Nat} (h : Shape fmt keys P log mark c recs d)
    (hi : d.runs[i]? = some (.copying rest)) (n : Nat) :
    Shape fmt keys P log mark c recs
      { d.put i (.copying (rest.drop n)) with aol := d.aol ++ rest.take n } := by
  obtain ⟨part, extra, ha, hp, he, hs⟩ := h.copied hi
  exact {
    held := h.held
    replayable := h.replayable
    first := h.first
    covered := h.covered
    marked := h.marked
    aol := by
      refine .copying i (rest.drop n) (part ++ rest.take n) extra ?_ ?_ ?_ ?_ he
      · exact getElem?_set_at hi _
      · intro j rest' hj
        rcases getElem?_set_cases hj with ⟨hij, -⟩ | ⟨-, hj⟩
        · exact hij.symm
        · exact hs j rest' hj
      · rw [ha, List.append_assoc]
      · rw [List.append_assoc, List.take_append_drop, hp]
    snapshot := h.snapshot
    runs := by
      intro j r hj
      rcases getElem?_set_cases hj with ⟨-, rfl⟩ | ⟨-, hj⟩
      · trivial
      · exact (h.runs j r hj).congr rfl rfl fun _ hc => hc
    sole := h.sole_put hi rfl
    idle := h.idle_put hi rfl
    apart := h.apart
    named := h.named }

/-- The copy is complete: the records behind the cutoff stand in the AOL twice. -/
theorem endCopy {i : Nat} (h : Shape fmt keys P log mark c recs d)
    (hi : d.runs[i]? = some (.copying [])) :
    ∃ recs', Shape fmt keys P log mark c recs' (d.put i .done) := by
  obtain ⟨part, extra, ha, hp, he, hs⟩ := h.copied hi
  rw [List.append_nil] at hp
  refine ⟨recs ++ extra, {
    held := ?_
    replayable := h.replayable.repeated he
    first := head?_all_append h.first fun hr => ?_
    covered := h.covered
    marked := h.marked
    aol := ?_
    snapshot := h.snapshot
    runs := ?_
    sole := h.sole_put hi rfl
    idle := h.idle_put hi rfl
    apart := h.apart
    named := h.named }⟩
  · intro r
    rw [← h.held r, List.mem_append]
    exact ⟨fun hr => hr.elim id fun hr => he hr, .inl⟩
  · rw [hr] at he
    rw [List.eq_nil_of_subset_nil he]
    rfl
  · refine .whole ?_ (by rw [Framing.Codec.encodeAll_append, ← hp]; exact ha)
    refine Bool.eq_false_iff.2 fun hl => ?_
    obtain ⟨x, hx, hc⟩ := List.any_eq_true.1 hl
    obtain ⟨j, hj⟩ := List.mem_iff_getElem?.1 hx
    rcases getElem?_set_cases hj with ⟨-, rfl⟩ | ⟨hij, hj⟩
    · cases hc
    · cases x with
      | copying rest' => exact hij (hs j rest' hj).symm
      | _ => cases hc
  · intro j r hj
    rcases getElem?_set_cases hj with ⟨-, rfl⟩ | ⟨-, hj⟩
    · trivial
    · refine (h.runs j r hj).congr rfl rfl fun _ hc => ?_
      exact hc.mono (List.append_nil log).symm rfl (by simp)

theorem mono (h : Shape fmt keys P log mark c recs d) (hP : ∀ key, P key ⊆ P' key) :
    Shape fmt keys P' log mark c recs d where
  held := h.held
  replayable := h.replayable
  first := h.first
  covered := h.covered
  marked := h.marked
  aol := h.aol
  snapshot := by
    obtain ⟨entries, hf, he⟩ := h.snapshot
    exact ⟨entries, hf, he.mono hP rfl⟩
  runs := fun i run hi => (h.runs i run hi).mono hP (List.append_nil log).symm
    (List.append_nil recs).symm (by simp)
  sole := h.sole
  idle := h.idle
  apart := h.apart
  named := h.named

theorem append {new : List Record} (h : Shape fmt keys P log mark c recs d) (hl : d.locked = false)
    (ho : LogOrdered (log ++ new))
    (hk : d.aol = [] → (new.head?.all fun r => keys.aol r.1) = true) :
    Shape fmt keys P (log ++ new) mark c (recs ++ new)
      { d with aol := d.aol ++ fmt.record.encodeAll new } where
  held := by
    intro r
    rw [List.mem_append, List.drop_append_of_le_length (h.covered.trans h.marked),
      List.mem_append, h.held r]
  replayable := by
    intro a r b he
    rcases List.append_eq_append_iff.1 he with ⟨x, rfl, hb⟩ | ⟨x, rfl, hb⟩
    · -- A new record is newer than all of its key before it.
      refine .inr fun r' hr' hk => ?_
      obtain ⟨-, hnew, hcross⟩ := List.pairwise_append.1 ho
      have hrn : r ∈ new := by
        rw [hb]
        exact List.mem_append_right x (List.mem_cons_self ..)
      rcases List.mem_append.1 hr' with hr' | hr'
      · exact hcross r' (List.mem_of_mem_drop ((h.held r').1 hr')) r hrn hk
      · rw [hb] at hnew
        exact (List.pairwise_append.1 hnew).2.2 r' hr' r (List.mem_cons_self ..) hk
    · cases x with
      | nil =>
        refine .inr fun r' hr' hk => ?_
        have hrn : r ∈ new := by
          rw [List.nil_append] at hb
          rw [← hb]
          exact List.mem_cons_self ..
        rw [List.append_nil] at h
        exact (List.pairwise_append.1 ho).2.2 r'
          (List.mem_of_mem_drop ((h.held r').1 hr')) r hrn hk
      | cons r' x =>
        rw [List.cons_append, List.cons.injEq] at hb
        exact h.replayable a r x (by rw [hb.1])
  first := head?_all_append h.first fun hr => hk (by rw [h.unlocked hl, hr]; rfl)
  covered := h.covered
  marked := by
    rw [List.length_append]
    exact h.marked.trans (Nat.le_add_right _ _)
  aol := .whole hl (by rw [Framing.Codec.encodeAll_append, h.unlocked hl])
  snapshot := by
    obtain ⟨entries, hf, he⟩ := h.snapshot
    exact ⟨entries, hf, he.mono (fun _ => Set.Subset.rfl) (List.take_append_of_le_length h.marked)⟩
  runs := fun i run hi => ((h.runs i run hi).mono (fun _ => Set.Subset.rfl) rfl rfl
    fun r hr => hr).congr rfl rfl fun _ hc => hc
  sole := h.sole
  idle := h.idle
  apart := h.apart
  named := h.named

end Shape

end StupidKv
