import StupidKv.ChainCoverage
import StupidKv.MergeSlots

namespace StupidKv
open Std Processes
set_option autoImplicit true

/-- An entry of the skip map. A removed entry lives on with those who hold it. -/
structure Node where
  key : Bytes
  versions : Versions
  removed : Bool

/-- The writes a commit has left, and the entry it holds for the first of them. -/
structure EntryWriter where
  pending : List (Bytes × Option Bytes)
  entry : Option Nat

/-- What has been done to the entry that was found. -/
inductive HandshakeEvent where
  | push (found : Node) (w : Version)
  | compact (found : Node) (cleanupTs : Nat)

/-- The datastore in the order of the insertions, and the commits that write to it with where they
stand in `atomic_merge`. The events are history. -/
structure Handshake where
  nodes : List Node
  merge : MergeSlots
  committers : List EntryWriter
  events : List HandshakeEvent

inductive HandshakeAction where
  | commit (writeset : Writeset)
  /-- One step of `atomic_merge`; the clock reads `now`. -/
  | merge (i now : Nat)
  | getOrInsertWith (i : Nat)
  | push (i : Nat)
  /-- The entry of a commit that has written everything leaves the merge queue. -/
  | remove (i : Nat)
  /-- A GC pass locks the entry it holds. -/
  | gc (j : Nat) (cleanupTs : Nat)

namespace Handshake

def opened (datastore : SkipMap Bytes Versions) (timestamp : Nat) : Handshake :=
  ⟨datastore.toList.map fun e => ⟨e.1, e.2, false⟩, .new timestamp timestamp, [], []⟩

/-- The entry a lookup finds. -/
def lookup (s : Handshake) (key : Bytes) : Option Nat :=
  s.nodes.findIdx? fun n => n.key = key && !n.removed

/-- The version `atomic_merge` has returned to a commit. -/
def version (s : Handshake) (i : Nat) : Option Nat :=
  match s.merge.stages[i]? with
  | some (.returned version) => some version
  | _ => none

/-- One atomic step of a committer or of a GC pass. -/
def step (s : Handshake) : HandshakeAction → Option Handshake
  | .commit writeset =>
    if writeset.isEmpty then none
    else do
      let merge ← s.merge.step .commit
      return { s with merge, committers := s.committers ++ [⟨writeset.toList, none⟩] }
  | .merge i now => do
    let merge ← s.merge.step (.merge i now)
    return { s with merge }
  | .getOrInsertWith i =>
    match s.version i, s.committers[i]? with
    | some version, some ⟨(key, value) :: pending, none⟩ =>
      match s.lookup key with
      | some j =>
        some { s with committers := s.committers.set i ⟨(key, value) :: pending, some j⟩ }
      | none =>
        some { s with
          nodes := s.nodes ++ [⟨key, .ofVersion ⟨version, value⟩, false⟩]
          committers := s.committers.set i ⟨(key, value) :: pending, some s.nodes.length⟩ }
    | _, _ => none
  | .push i =>
    match s.version i, s.committers[i]? with
    | some version, some ⟨(key, value) :: pending, some j⟩ =>
      match s.nodes[j]? with
      | some n =>
        if n.removed then
          some { s with committers := s.committers.set i ⟨(key, value) :: pending, none⟩ }
        else
          some { s with
            nodes := s.nodes.set j { n with versions := n.versions.push ⟨version, value⟩ }
            committers := s.committers.set i ⟨pending, none⟩
            events := s.events ++ [.push n ⟨version, value⟩] }
      | none => none
    | _, _ => none
  | .remove i =>
    match s.committers[i]? with
    | some ⟨[], _⟩ => do
      let merge ← s.merge.step (.remove i)
      return { s with merge }
    | _ => none
  | .gc j cleanupTs =>
    match s.nodes[j]? with
    | some n =>
      let versions := n.versions.gcOlderVersions cleanupTs
      some { s with
        nodes := s.nodes.set j
          { n with versions := versions, removed := n.removed || versions.inner.isEmpty }
        events := s.events ++ [.compact n cleanupTs] }
    | none => none

/-- A live entry of the key stores the write. -/
def Stores (s : Handshake) (key : Bytes) (w : Version) : Prop :=
  ∃ n ∈ s.nodes, n.removed = false ∧ n.key = key ∧ w ∈ n.versions.inner

/-- The chain showed the value already, so that the push left the write out. -/
def Absorbed (found : Node) (w : Version) : Prop :=
  found.versions.fetchVersion w.version = w.value ∧ w ∉ (found.versions.push w).inner

/-- Compaction of a live entry of the key has dropped the write. -/
def Collected (events : List HandshakeEvent) (key : Bytes) (w : Version) : Prop :=
  ∃ n cleanupTs, .compact n cleanupTs ∈ events ∧ n.removed = false ∧ n.key = key ∧
    w ∈ n.versions.inner ∧ w ∉ (n.versions.gcOlderVersions cleanupTs).inner

/-- The write path and version GC lose nothing between them, neither of what was loaded nor of what
has been pushed. The events behind a push are the later ones. -/
structure NothingLost (datastore : SkipMap Bytes Versions) (s : Handshake) : Prop where
  unique : ∀ (i j : Nat) m n, s.nodes[i]? = some m → s.nodes[j]? = some n →
    m.removed = false → n.removed = false → m.key = n.key → i = j
  live : ∀ n w, .push n w ∈ s.events → n.removed = false
  emptied : ∀ n ∈ s.nodes, n.removed = true → n.versions.inner = [] ∧
    ∃ m cleanupTs, .compact m cleanupTs ∈ s.events ∧ m.removed = false ∧ m.key = n.key ∧
      (m.versions.gcOlderVersions cleanupTs).inner = []
  loaded : ∀ key ch, datastore[key]? = some ch → ∀ w ∈ ch.inner,
    s.Stores key w ∨ Collected s.events key w
  kept : ∀ before n w after, s.events = before ++ .push n w :: after →
    s.Stores n.key w ∨ Absorbed n w ∨ Collected after n.key w

/-- A push finds no entry of its version with another value, which it would overwrite in place. -/
def apart (s : Handshake) : HandshakeAction → Bool
  | .push i =>
    match s.version i, s.committers[i]? with
    | some version, some ⟨(_, value) :: _, some j⟩ =>
      s.nodes[j]?.all fun n => n.removed ||
        n.versions.inner.all fun e => decide (e.version = version → e.value = value)
    | _, _ => true
  | _ => true

/-- Committers hold entries of the key they write. -/
def Holds (s : Handshake) : Prop :=
  ∀ (i : Nat) c j, s.committers[i]? = some c → c.entry = some j →
    ∃ n value pending, s.nodes[j]? = some n ∧ c.pending = (n.key, value) :: pending

/-- What a step can do. -/
inductive Stepped (s : Handshake) : Handshake → Prop
  | commits (merge : MergeSlots) (writeset : Writeset) :
      Stepped s { s with merge, committers := s.committers ++ [⟨writeset.toList, none⟩] }
  | merges (merge : MergeSlots) : Stepped s { s with merge }
  | finds (hi : s.committers[i]? = some ⟨(n.key, value) :: pending, none⟩)
      (hj : s.nodes[j]? = some n) :
      Stepped s { s with committers := s.committers.set i ⟨(n.key, value) :: pending, some j⟩ }
  | inserts {i : Nat} {versions : Versions} {key : Bytes} {value : Option Bytes}
      {pending : List (Bytes × Option Bytes)}
      (hi : s.committers[i]? = some ⟨(key, value) :: pending, none⟩)
      (hn : ∀ n ∈ s.nodes, n.removed = false → n.key ≠ key) :
      Stepped s { s with
        nodes := s.nodes ++ [⟨key, versions, false⟩]
        committers := s.committers.set i ⟨(key, value) :: pending, some s.nodes.length⟩ }
  | retries (hi : s.committers[i]? = some ⟨pending, some j⟩) :
      Stepped s { s with committers := s.committers.set i ⟨pending, none⟩ }
  | pushes {i version j : Nat} {key : Bytes} {value : Option Bytes}
      {pending : List (Bytes × Option Bytes)} {n : Node}
      (hi : s.committers[i]? = some ⟨(key, value) :: pending, some j⟩)
      (hj : s.nodes[j]? = some n) (hl : n.removed = false)
      (hf : ∀ e ∈ n.versions.inner, e.version = version → e.value = value) :
      Stepped s { s with
        nodes := s.nodes.set j { n with versions := n.versions.push ⟨version, value⟩ }
        committers := s.committers.set i ⟨pending, none⟩
        events := s.events ++ [.push n ⟨version, value⟩] }
  | compacts {j cleanupTs : Nat} {n : Node} (hj : s.nodes[j]? = some n) :
      Stepped s { s with
        nodes := s.nodes.set j
          { n with
            versions := n.versions.gcOlderVersions cleanupTs
            removed := n.removed || (n.versions.gcOlderVersions cleanupTs).inner.isEmpty }
        events := s.events ++ [.compact n cleanupTs] }

section
variable {s t : Handshake} {i j : Nat} {c c' : EntryWriter} {n : Node} {key : Bytes}

theorem lookup_some (h : s.lookup key = some j) : ∃ n, s.nodes[j]? = some n ∧ n.key = key := by
  obtain ⟨hlt, hn, -⟩ := List.findIdx?_eq_some_iff_getElem.1 h
  rw [Bool.and_eq_true, decide_eq_true_eq] at hn
  exact ⟨s.nodes[j], List.getElem?_eq_getElem hlt, hn.1⟩

theorem lookup_none (h : s.lookup key = none) :
    ∀ n ∈ s.nodes, n.removed = false → n.key ≠ key := by
  intro n hn hl hk
  have hf := List.findIdx?_eq_none_iff.1 h n hn
  simp [hl, hk] at hf

theorem Stepped.of_step (hg : s.apart a = true) (h : s.step a = some t) : Stepped s t := by
  cases a with
  | commit writeset =>
    obtain ⟨-, h⟩ := Option.ite_none_left_eq_some.1 h
    obtain ⟨merge, -, h⟩ := Option.bind_eq_some_iff.1 h
    cases h
    exact .commits merge writeset
  | merge i now =>
    obtain ⟨merge, -, h⟩ := Option.bind_eq_some_iff.1 h
    cases h
    exact .merges merge
  | getOrInsertWith i =>
    simp only [Handshake.step] at h
    split at h
    · rename_i version key value pending hv hi
      split at h
      · rename_i j hj
        obtain ⟨n, hn, rfl⟩ := lookup_some hj
        cases h
        exact .finds hi hn
      · rename_i hj
        cases h
        exact .inserts hi (lookup_none hj)
    · cases h
  | push i =>
    simp only [Handshake.step] at h
    split at h
    · rename_i version key value pending j hv hi
      split at h
      · rename_i n hj
        simp only [apart, hv, hi, hj, Option.all_some, Bool.or_eq_true, List.all_eq_true,
          decide_eq_true_eq] at hg
        split at h
        · cases h
          exact .retries hi
        · rename_i hl
          cases h
          exact .pushes hi hj (Bool.not_eq_true _ ▸ hl) (hg.resolve_left hl)
      · cases h
    · cases h
  | remove i =>
    simp only [Handshake.step] at h
    split at h
    · obtain ⟨merge, -, h⟩ := Option.bind_eq_some_iff.1 h
      cases h
      exact .merges merge
    · cases h
  | gc j cleanupTs =>
    simp only [Handshake.step] at h
    split at h
    · rename_i n hj
      cases h
      exact .compacts hj
    · cases h

theorem Holds.advance (h : Holds s) (c : EntryWriter)
    (hh : ∀ j, c.entry = some j → ∃ n value pending, s.nodes[j]? = some n ∧
      c.pending = (n.key, value) :: pending) :
    Holds { s with committers := s.committers.set i c } := by
  intro k d j hk hj
  rcases getElem?_set_cases hk with ⟨-, rfl⟩ | ⟨-, hk⟩
  · exact hh j hj
  · exact h k d j hk hj

theorem Holds.renode {nodes : List Node} (h : Holds s)
    (hn : ∀ (j : Nat) n, s.nodes[j]? = some n → ∃ m, nodes[j]? = some m ∧ m.key = n.key) :
    Holds { s with nodes := nodes } := by
  intro k d j hk hj
  obtain ⟨n, value, pending, hnode, hp⟩ := h k d j hk hj
  obtain ⟨m, hm, hkey⟩ := hn j n hnode
  exact ⟨m, value, pending, hm, by rw [hkey, hp]⟩

theorem set_key (hj : s.nodes[j]? = some n) {m : Node} (hm : m.key = n.key) :
    ∀ (k : Nat) x, s.nodes[k]? = some x → ∃ y, (s.nodes.set j m)[k]? = some y ∧ y.key = x.key := by
  intro k x hk
  by_cases hjk : j = k
  · subst hjk
    rw [hj, Option.some.injEq] at hk
    subst hk
    exact ⟨m, getElem?_set_at hj m, hm⟩
  · exact ⟨x, getElem?_set_ne hk hjk m, rfl⟩

theorem Holds.step (h : Holds s) (hs : Stepped s t) : Holds t := by
  cases hs with
  | commits merge writeset =>
    intro k c j hk hj
    rcases getElem?_concat_cases hk with hk | ⟨-, rfl⟩
    · exact h k c j hk hj
    · cases hj
  | merges merge => exact h
  | finds hi hj =>
    apply h.advance
    intro j' he
    cases he
    exact ⟨_, _, _, hj, rfl⟩
  | @inserts i versions key value pending hi hn =>
    have hr : Holds { s with nodes := s.nodes ++ [⟨key, versions, false⟩] } := by
      apply h.renode
      intro k n hk
      exact ⟨n, getElem?_concat_of hk _, rfl⟩
    apply hr.advance
    intro j' he
    cases he
    exact ⟨_, value, pending, List.getElem?_concat_length, rfl⟩
  | retries hi =>
    apply h.advance
    intro j he
    cases he
  | @pushes i version j key value pending n hi hj hl hf =>
    have hr : Holds { s with committers := s.committers.set i ⟨pending, none⟩ } := by
      apply h.advance
      intro j he
      cases he
    have hkey := set_key hj (m := { n with versions := n.versions.push ⟨version, value⟩ }) rfl
    exact hr.renode hkey
  | @compacts j cleanupTs n hj =>
    have hkey := set_key hj (m := { n with
      versions := n.versions.gcOlderVersions cleanupTs
      removed := n.removed || (n.versions.gcOlderVersions cleanupTs).inner.isEmpty }) rfl
    exact h.renode hkey

theorem Collected.mono {events events' : List HandshakeEvent} (h : Collected events key w)
    (hs : events ⊆ events') : Collected events' key w := by
  obtain ⟨n, cleanupTs, hm, hn⟩ := h
  exact ⟨n, cleanupTs, hs hm, hn⟩

theorem mem_push {ch : Versions} {e w : Version} (h : e ∈ ch.inner)
    (hf : e.version = w.version → e.value = w.value) : e ∈ (ch.push w).inner := by
  by_cases hv : e.version = w.version
  · obtain rfl : e = w := by
      obtain ⟨v, x⟩ := e
      obtain ⟨v', x'⟩ := w
      cases hv
      cases hf rfl
      rfl
    rcases ch.mem_push_or_absorbed e with hm | ⟨-, hsame⟩
    · exact hm
    · rw [hsame]
      exact h
  · exact ch.mem_push_of_ne (p := (e.version, e.value)) h hv

theorem Stores.push {w : Version} {events : List HandshakeEvent} (h : s.Stores key e)
    (hj : s.nodes[j]? = some n) (hf : ∀ x ∈ n.versions.inner, x.version = w.version → x.value = w.value) :
    Stores { s with nodes := s.nodes.set j { n with versions := n.versions.push w }, events } key e := by
  obtain ⟨x, hx, hlive, hkey, hst⟩ := h
  rcases (mem_iff_at hj x).1 hx with rfl | ⟨k, hjk, hk⟩
  · exact ⟨_, (mem_set_iff hj _ _).2 (.inl rfl), hlive, hkey, mem_push hst (hf e hst)⟩
  · exact ⟨x, (mem_set_iff hj _ _).2 (.inr ⟨k, hjk, hk⟩), hlive, hkey, hst⟩

theorem Stores.compact {cleanupTs : Nat} {events : List HandshakeEvent} (h : s.Stores key e)
    (hj : s.nodes[j]? = some n) (he : .compact n cleanupTs ∈ events) :
    Stores { s with
      nodes := s.nodes.set j
        { n with
          versions := n.versions.gcOlderVersions cleanupTs
          removed := n.removed || (n.versions.gcOlderVersions cleanupTs).inner.isEmpty }
      events := s.events ++ [.compact n cleanupTs] } key e ∨ Collected events key e := by
  obtain ⟨x, hx, hlive, hkey, hst⟩ := h
  rcases (mem_iff_at hj x).1 hx with rfl | ⟨k, hjk, hk⟩
  · by_cases hgc : e ∈ (x.versions.gcOlderVersions cleanupTs).inner
    · refine .inl ⟨_, (mem_set_iff hj _ _).2 (.inl rfl), ?_, hkey, hgc⟩
      have hne : (x.versions.gcOlderVersions cleanupTs).inner ≠ [] := List.ne_nil_of_mem hgc
      simpa [hlive] using hne
    · exact .inr ⟨x, cleanupTs, he, hlive, hkey, hst, hgc⟩
  · exact .inl ⟨x, (mem_set_iff hj _ _).2 (.inr ⟨k, hjk, hk⟩), hlive, hkey, hst⟩

section
variable {datastore : SkipMap Bytes Versions}

theorem NothingLost.congr (h : NothingLost datastore s) (hn : t.nodes = s.nodes)
    (he : t.events = s.events) : NothingLost datastore t := by
  have hst : ∀ key w, s.Stores key w → t.Stores key w := by
    intro key w hs
    unfold Handshake.Stores
    rwa [hn]
  constructor
  · rw [hn]
    exact h.unique
  · rw [he]
    exact h.live
  · rw [hn, he]
    exact h.emptied
  · intro key ch hk w hw
    rw [he]
    exact (h.loaded key ch hk w hw).imp_left (hst key w)
  · intro before n w after hsplit
    rw [he] at hsplit
    exact (h.kept before n w after hsplit).imp_left (hst _ _)

theorem NothingLost.insert {versions : Versions} (h : NothingLost datastore s)
    (hn : ∀ n ∈ s.nodes, n.removed = false → n.key ≠ key) :
    NothingLost datastore { s with nodes := s.nodes ++ [⟨key, versions, false⟩] } := by
  have hst : ∀ k w, s.Stores k w →
      Stores { s with nodes := s.nodes ++ [⟨key, versions, false⟩] } k w :=
    fun k w ⟨m, hm, hs⟩ => ⟨m, List.mem_append_left _ hm, hs⟩
  exact {
    unique := by
      intro i j m n hi hj hm hl hk
      rcases getElem?_concat_cases hi with hi | ⟨rfl, rfl⟩
      · rcases getElem?_concat_cases hj with hj | ⟨-, rfl⟩
        · exact h.unique i j m n hi hj hm hl hk
        · exact absurd hk (hn m (List.mem_of_getElem? hi) hm)
      · rcases getElem?_concat_cases hj with hj | ⟨rfl, -⟩
        · exact absurd hk.symm (hn n (List.mem_of_getElem? hj) hl)
        · rfl
    live := h.live
    emptied := by
      intro n hm hr
      rcases List.mem_append.1 hm with hm | hm
      · exact h.emptied n hm hr
      · cases List.mem_singleton.1 hm
        cases hr
    loaded := fun k ch hk w hw => (h.loaded k ch hk w hw).imp_left (hst k w)
    kept := fun before n w after he => (h.kept before n w after he).imp_left (hst _ _) }

theorem NothingLost.unique_set {x : Node} (h : NothingLost datastore s)
    (hj : s.nodes[j]? = some n) (hkey : x.key = n.key)
    (hlive : x.removed = false → n.removed = false) :
    ∀ (i k : Nat) a b, (s.nodes.set j x)[i]? = some a → (s.nodes.set j x)[k]? = some b →
      a.removed = false → b.removed = false → a.key = b.key → i = k := by
  have hold : ∀ (k : Nat) a, (s.nodes.set j x)[k]? = some a → a.removed = false →
      ∃ a₀, s.nodes[k]? = some a₀ ∧ a₀.removed = false ∧ a.key = a₀.key := by
    intro k a hk ha
    rcases getElem?_set_cases hk with ⟨rfl, rfl⟩ | ⟨-, hk⟩
    · exact ⟨n, hj, hlive ha, hkey⟩
    · exact ⟨a, hk, ha, rfl⟩
  intro i k a b hi hk ha hb he
  obtain ⟨a₀, hi, ha, hka⟩ := hold i a hi ha
  obtain ⟨b₀, hk, hb, hkb⟩ := hold k b hk hb
  exact h.unique i k a₀ b₀ hi hk ha hb (by rw [← hka, ← hkb, he])

theorem NothingLost.push {w : Version} (h : NothingLost datastore s) (hj : s.nodes[j]? = some n)
    (hl : n.removed = false)
    (hf : ∀ e ∈ n.versions.inner, e.version = w.version → e.value = w.value) :
    NothingLost datastore { s with
      nodes := s.nodes.set j { n with versions := n.versions.push w }
      events := s.events ++ [.push n w] } where
  unique := h.unique_set hj rfl id
  live := by
    intro m e hm
    rcases List.mem_append.1 hm with hm | hm
    · exact h.live m e hm
    · cases List.mem_singleton.1 hm
      exact hl
  emptied := by
    intro m hm hr
    rcases (mem_set_iff hj _ m).1 hm with rfl | ⟨k, -, hk⟩
    · exact absurd (hl.symm.trans hr) (by simp)
    · obtain ⟨hnil, x, ts, hx, hrest⟩ := h.emptied m (List.mem_of_getElem? hk) hr
      exact ⟨hnil, x, ts, List.mem_append_left _ hx, hrest⟩
  loaded := by
    intro key ch hk e he
    rcases h.loaded key ch hk e he with hs | hc
    · exact .inl (hs.push hj hf)
    · exact .inr (hc.mono (List.subset_append_left _ _))
  kept := by
    intro before m e after hsplit
    rcases concat_split_cases hsplit with ⟨-, he, rfl⟩ | ⟨later, hlater, rfl⟩
    · cases he
      by_cases hst : w ∈ (n.versions.push w).inner
      · exact .inl ⟨_, (mem_set_iff hj _ _).2 (.inl rfl), hl, rfl, hst⟩
      · rcases n.versions.mem_push_or_absorbed w with hw | ⟨hw, -⟩
        · exact absurd hw hst
        · exact .inr (.inl ⟨hw, hst⟩)
    · rcases h.kept before m e later hlater with hs | ha | hc
      · exact .inl (hs.push hj hf)
      · exact .inr (.inl ha)
      · exact .inr (.inr (hc.mono (List.subset_append_left _ _)))

theorem NothingLost.compact {cleanupTs : Nat} (h : NothingLost datastore s)
    (hj : s.nodes[j]? = some n) :
    NothingLost datastore { s with
      nodes := s.nodes.set j
        { n with
          versions := n.versions.gcOlderVersions cleanupTs
          removed := n.removed || (n.versions.gcOlderVersions cleanupTs).inner.isEmpty }
      events := s.events ++ [.compact n cleanupTs] } where
  unique := h.unique_set hj rfl fun hm => (Bool.or_eq_false_iff.1 hm).1
  live := by
    intro m e hm
    rcases List.mem_append.1 hm with hm | hm
    · exact h.live m e hm
    · cases List.mem_singleton.1 hm
  emptied := by
    intro m hm hr
    rcases (mem_set_iff hj _ m).1 hm with rfl | ⟨k, -, hk⟩
    · cases hl : n.removed with
      | true =>
        obtain ⟨hnil, x, ts, hx, hrest⟩ := h.emptied n (List.mem_of_getElem? hj) hl
        refine ⟨?_, x, ts, List.mem_append_left _ hx, hrest⟩
        exact List.subset_nil.1
          (hnil ▸ (gcOlderVersions_suffix n.versions.ascending cleanupTs).subset)
      | false =>
        have hnil : (n.versions.gcOlderVersions cleanupTs).inner = [] := by
          simpa [hl] using hr
        exact ⟨hnil, n, cleanupTs, List.mem_append_right _ List.mem_cons_self, hl, rfl, hnil⟩
    · obtain ⟨hnil, x, ts, hx, hrest⟩ := h.emptied m (List.mem_of_getElem? hk) hr
      exact ⟨hnil, x, ts, List.mem_append_left _ hx, hrest⟩
  loaded := by
    intro key ch hk e he
    rcases h.loaded key ch hk e he with hs | hc
    · exact hs.compact hj (List.mem_append_right _ List.mem_cons_self)
    · exact .inr (hc.mono (List.subset_append_left _ _))
  kept := by
    intro before m e after hsplit
    rcases concat_split_cases hsplit with ⟨-, he, -⟩ | ⟨later, hlater, rfl⟩
    · cases he
    · rcases h.kept before m e later hlater with hs | ha | hc
      · exact (hs.compact hj (List.mem_append_right _ List.mem_cons_self)).imp_right .inr
      · exact .inr (.inl ha)
      · exact .inr (.inr (hc.mono (List.subset_append_left _ _)))

theorem NothingLost.step (h : NothingLost datastore s) (hh : Holds s) (hs : Stepped s t) :
    NothingLost datastore t := by
  cases hs with
  | commits merge writeset => exact h.congr rfl rfl
  | merges merge => exact h.congr rfl rfl
  | finds hi hj => exact h.congr rfl rfl
  | inserts hi hn => exact (h.insert hn).congr rfl rfl
  | retries hi => exact h.congr rfl rfl
  | @pushes i version j key value pending n hi hj hl hf =>
    obtain ⟨n', value', pending', hn', he⟩ := hh i _ j hi rfl
    rw [hj, Option.some.injEq] at hn'
    subst hn'
    cases he
    exact (h.push (w := ⟨version, value⟩) hj hl hf).congr rfl rfl
  | compacts hj => exact (h.compact hj).congr rfl rfl

theorem NothingLost.opened (datastore : SkipMap Bytes Versions) (clock : Nat) :
    NothingLost datastore (.opened datastore clock) where
  unique := by
    intro i j m n hi hj _ _ hk
    simp only [Handshake.opened, List.getElem?_map, Option.map_eq_some_iff] at hi hj
    obtain ⟨e, he, rfl⟩ := hi
    obtain ⟨d, hd, rfl⟩ := hj
    have hkeys : ∀ (k : Nat) e, datastore.toList[k]? = some e →
        datastore.keys[k]? = some e.1 := by
      intro k e he
      rw [← ExtTreeMap.map_fst_toList_eq_keys, List.getElem?_map, he]
      rfl
    obtain ⟨hlt, -⟩ := List.getElem?_eq_some_iff.1 (hkeys i e he)
    apply (List.getElem?_inj hlt ExtTreeMap.nodup_keys).1
    rw [hkeys i e he, hkeys j d hd]
    exact congrArg some hk
  live := by simp [Handshake.opened]
  emptied := by
    intro n hn hr
    obtain ⟨e, -, rfl⟩ := List.mem_map.1 hn
    cases hr
  loaded := by
    intro key ch hk w hw
    have hm : (key, ch) ∈ datastore.toList := ExtTreeMap.mem_toList_iff_getElem?_eq_some.2 hk
    exact .inl ⟨⟨key, ch, false⟩, List.mem_map_of_mem hm, rfl, rfl, hw⟩
  kept := by simp [Handshake.opened]

end

/-- Whatever the interleaving, as long as no push overwrites another value in place, a completed
write leaves the live chain of its key only by the same-value rule of its own push or by a
compaction of that chain. -/
theorem nothingLost_of_run {datastore : SkipMap Bytes Versions} {clock : Nat}
    (h : Execution.Run step (fun s a => s.apart a = true) (.opened datastore clock) s) :
    NothingLost datastore s := by
  have hinv : Holds s ∧ NothingLost datastore s := by
    change (fun s => Holds s ∧ NothingLost datastore s) s
    apply h.invariant
    · intro s a t hs hg ht
      have hst := Stepped.of_step hg ht
      exact ⟨hs.1.step hst, hs.2.step hs.1 hst⟩
    · exact ⟨by simp [Holds, Handshake.opened], .opened datastore clock⟩
  exact hinv.2

end

def merges (i now n : Nat) : List HandshakeAction := List.replicate n (.merge i now)

/-- A deletion inserts its entry and loses it to GC before it has the lock; a second commit has
inserted the key anew when it tries again. -/
def retried : List HandshakeAction :=
  .commit ((∅ : Writeset).insert [1] none) :: merges 0 1 4 ++ [.getOrInsertWith 0, .gc 0 1,
    .commit ((∅ : Writeset).insert [1] (some [7]))] ++ merges 1 2 4 ++ [.getOrInsertWith 1, .push 0,
    .getOrInsertWith 0, .push 0, .push 1, .remove 0, .remove 1]

theorem nothingLost_retried :
    ∃ s, Execution.Run step (fun s a => s.apart a = true) (.opened ∅ 0) s ∧
      s.nodes.map (·.removed) = [true, false] ∧
      s.nodes.map (·.versions.inner) = [[], [⟨2, some [7]⟩]] ∧ s.NothingLost ∅ := by
  have hrun : (Execution.exec (fun s a => if s.apart a then step s a else none) (.opened ∅ 0)
      retried).map (fun s => decide (s.nodes.map (·.removed) = [true, false] ∧
        s.nodes.map (·.versions.inner) = [[], [⟨2, some [7]⟩]])) = some true := by
    decide +kernel
  obtain ⟨s, hs, hb⟩ := Execution.exec_check hrun
  obtain ⟨hr, hv⟩ := of_decide_eq_true hb
  exact ⟨s, .of_guarded hs, hr, hv, nothingLost_of_run (.of_guarded hs)⟩

/-- Two commits compute version 6. The first inserts its entry in the merge queue, writes and is
done with it before the second takes the same slot and overwrites what the first one wrote. -/
def sameVersion : List HandshakeAction :=
  [.commit ((∅ : Writeset).insert [1] (some [5])), .commit ((∅ : Writeset).insert [1] (some [7]))] ++
    merges 1 6 2 ++ merges 0 6 4 ++ [.getOrInsertWith 0, .push 0, .remove 0] ++ merges 1 6 2 ++
    [.getOrInsertWith 1, .push 1]

/-- The first push was stored, and is nowhere although nothing was compacted. -/
def overwrites (s : Handshake) : Bool :=
  match s.events with
  | .push n w :: .push _ _ :: [] => decide (w ∈ (n.versions.push w).inner) &&
    s.nodes.all fun m => decide (w ∉ m.versions.inner)
  | _ => false

theorem overwrites_spec (h : overwrites s = true) : ¬ NothingLost datastore s := by
  intro hlost
  unfold overwrites at h
  split at h
  · rename_i n w m x he
    simp only [Bool.and_eq_true, decide_eq_true_eq, List.all_eq_true] at h
    obtain ⟨hstored, hnowhere⟩ := h
    rcases hlost.kept [] n w [.push m x] he with ⟨n', hn', -, -, hm⟩ | ha | ⟨n', ts, hc, -⟩
    · exact hnowhere n' hn' hm
    · exact ha.2 hstored
    · simp at hc
  · cases h

theorem not_nothingLost :
    ¬ ∀ s, Execution.Run step (fun _ _ => True) (.opened ∅ 5) s → NothingLost ∅ s := by
  intro hall
  have hrun : (Execution.exec step (.opened ∅ 5) sameVersion).map overwrites = some true := by
    decide +kernel
  obtain ⟨s, hs, hb⟩ := Execution.exec_check hrun
  exact overwrites_spec hb (hall s (.of_exec hs))

end Handshake

end StupidKv
