import StupidKv.FileWrites
import StupidKv.Serving

namespace StupidKv
open Std
set_option autoImplicit true

/-- `Inner::new` starts the oracle at the wall clock, whatever `load` then finds on disk. -/
def Database.newWithPersistence (fmt : Format) (snapshot aol : Option Bytes)
    (referenceUnix resetThreshold : Nat) : Except PersistenceError Database := do
  let datastore ← load fmt snapshot aol
  return ⟨{ Inner.new referenceUnix resetThreshold with datastore := datastore }, [], []⟩

/-- The value of a key: what the last of the commits to write it wrote, else the one recovered. -/
def valueAfter (recovered : Bytes → Option Bytes) (committed : List Writeset) (key : Bytes) :
    Option Bytes :=
  (committed.reverse.findSome? fun ws => ws[key]?).getD (recovered key)

/-- A reopened database. The commits since, and how many of them every handle began behind, are
history. -/
structure Reopened where
  db : Database
  committed : List Writeset
  begun : List Nat

namespace Reopened

def step (s : Reopened) (c : Call × Nat) : Option Reopened := do
  let (db, r) ← s.db.step c
  return {
    db := db
    committed := s.committed ++ published s.db c.1 r
    begun := match c.1 with
      | .transaction _ => s.begun ++ [s.committed.length]
      | _ => s.begun }

/-- New transactions begin, and every open one reads what was committed before it began. -/
structure ReadsCommitted (recovered : Bytes → Option Bytes) (s : Reopened) : Prop where
  begins : ∀ write, (s.db.transaction write).isSome
  reads : ∀ (i : Nat) tx n key, s.db.transactions[i]?.join = some tx → s.begun[i]? = some n →
    tx.done = false → tx.writeset[key]? = none →
    (tx.get s.db.inner key).2 = .ok (valueAfter recovered (s.committed.take n) key)

end Reopened

/-- No entry of the chain is ahead of the clock, except by one tick and with the value the chain
shows at the clock anyway. -/
def Versions.behind (ch : Versions) (clock : Nat) : Prop :=
  ∀ e ∈ ch.inner, e.version ≤ clock ∨ e.version = clock + 1 ∧ e.value = ch.fetchVersion clock

instance (ch : Versions) (clock : Nat) : Decidable (ch.behind clock) :=
  inferInstanceAs (Decidable (∀ e ∈ ch.inner, _))

/-- The newest write the replay of a key keeps has the value of the greatest version in the files,
and is not ahead of the clock, except by one tick and with the value that is kept up to the clock
anyway. -/
def ReadableAt (clock : Nat) (entries : List Entry) (records : List Record) (key : Bytes) : Prop :=
  (keptNewest (fun _ => true) entries records key).bind Prod.snd = greatestIn entries records key ∧
    ∀ n ∈ keptNewest (fun _ => true) entries records key, n.1 ≤ clock ∨ n.1 = clock + 1 ∧
      n.2 = (keptNewest (fun v => decide (v ≤ clock)) entries records key).bind Prod.snd

instance (clock : Nat) (entries : List Entry) (records : List Record) (key : Bytes) :
    Decidable (ReadableAt clock entries records key) :=
  inferInstanceAs (Decidable (_ ∧ _))

theorem valueAfter_concat (recovered : Bytes → Option Bytes) (committed : List Writeset)
    (ws : Writeset) (key : Bytes) :
    valueAfter recovered (committed ++ [ws]) key =
      (ws[key]?).getD (valueAfter recovered committed key) := by
  unfold valueAfter
  rw [List.reverse_concat, List.findSome?_cons]
  cases ws[key]? <;> rfl

theorem lookup_eq_valueAfter (committed : List Writeset) (key : Bytes) :
    lookup committed key = valueAfter (fun _ => none) committed key := by
  unfold lookup valueAfter
  cases committed.reverse.findSome? fun ws => ws[key]? <;> rfl

theorem valueAfter_empties {l : List Writeset} (h : ∀ ws ∈ l, ws = ∅)
    (recovered : Bytes → Option Bytes) (committed : List Writeset) (key : Bytes) :
    valueAfter recovered (committed ++ l) key = valueAfter recovered committed key := by
  induction l using List.reverseRecOn with
  | nil => rw [List.append_nil]
  | append_singleton l ws ih =>
    rw [← List.append_assoc, valueAfter_concat, h ws (by simp), ih fun ws hws => h ws (by simp [hws])]
    simp

section
variable {ch : Versions} {entry : Option Versions}

theorem Versions.fetchVersion_of_le (h : ∀ e ∈ ch.inner, e.version ≤ q) :
    ch.fetchVersion q = lastValue ch.inner :=
  ch.fetchVersion_split ch.inner [] (by simp) (by simp) h

theorem seededPush_writes_subset (entry : Option Versions) (w : Version) :
    (seededPush entry w).writes ⊆ insert (w.version, w.value) (entry.getD .new).writes := by
  cases entry with
  | some ch => exact ch.push_writes_subset w
  | none =>
    unfold seededPush
    rw [Option.getD_none, Versions.push_ofVersion]
    rintro ⟨t, x⟩ hx
    have he : (⟨t, x⟩ : Version) = w := List.mem_singleton.1 hx
    exact .inl (by rw [← he])

theorem fetchVersion_seededPush_of_lt (entry : Option Versions) (w : Version)
    (hq : q < w.version) :
    (seededPush entry w).fetchVersion q = (entry.getD .new).fetchVersion q := by
  cases entry with
  | some ch => exact ch.fetchVersion_push_of_lt w hq
  | none =>
    unfold seededPush
    rw [Option.getD_none, Versions.push_ofVersion]
    exact Versions.fetchVersion_split _ [] [w] rfl (by simpa using hq) (by simp)

theorem fetchVersion_seededPush_of_le {w : Version}
    (h : ∀ p ∈ (entry.getD .new).writes, p.1 ≤ w.version) (hq : w.version ≤ q) :
    (seededPush entry w).fetchVersion q = w.value := by
  cases entry with
  | some ch =>
    have hpush := ch.fetchVersion_push w q
    rw [if_pos ⟨hq, fun e he _ => h (e.version, e.value) he⟩] at hpush
    exact hpush
  | none =>
    unfold seededPush
    rw [Option.getD_none, Versions.push_ofVersion]
    exact Versions.fetchVersion_split _ [w] [] rfl (by simp) (by simpa using hq)

/-- A write below a stored version stays hidden behind it. -/
theorem fetchVersion_seededPush_hidden {w : Version} {p : Nat × Option Bytes}
    (hp : p ∈ (entry.getD .new).writes) (hlt : w.version < p.1) (hq : p.1 ≤ q) :
    (seededPush entry w).fetchVersion q = (entry.getD .new).fetchVersion q := by
  cases entry with
  | none => exact absurd hp (by simp [Versions.writes, Versions.new])
  | some ch =>
    have hpush := ch.fetchVersion_push w q
    rw [if_neg] at hpush
    · exact hpush
    · rintro ⟨-, hall⟩
      have hle := hall ⟨p.1, p.2⟩ hp hq
      exact absurd hlt (Nat.not_lt.2 hle)

theorem CoversFrom.fetch_eq {ch ch' : Versions} (h : CoversFrom W ch' ch.writes) (hq : W ≤ q) :
    ch'.fetchVersion q = ch.fetchVersion q :=
  (h.visible q hq).unique ch.writes_functional (ch.fetchVersion_visible q)

theorem Versions.lastValue_of_greatest {e : Version} (he : e ∈ ch.inner)
    (h : ∀ a ∈ ch.inner, a.version ≤ e.version) : lastValue ch.inner = e.value := by
  rw [← Versions.fetchVersion_of_le h]
  refine (ch.fetchVersion_visible e.version).unique ch.writes_functional ?_
  exact .written (t := e.version) he le_rfl fun _ _ _ ht => ht

theorem CoversFrom.compact (h : CoversFrom W ch P) : CoversFrom W (ch.gcOlderVersions W) P := by
  simpa only [Nat.max_self] using h.gc W

theorem Versions.behind.fetch (h : ch.behind clock) (hq : clock ≤ q) :
    ch.fetchVersion q = lastValue ch.inner := by
  rcases Nat.eq_or_lt_of_le hq with rfl | hq
  · by_cases hle : ∀ e ∈ ch.inner, e.version ≤ clock
    · exact Versions.fetchVersion_of_le hle
    · simp only [not_forall, Nat.not_le] at hle
      obtain ⟨e, he, hlt⟩ := hle
      rcases h e he with hc | ⟨hv, hx⟩
      · omega
      · rw [← hx]
        refine (Versions.lastValue_of_greatest he fun a ha => ?_).symm
        rcases h a ha with hc | ⟨hc, -⟩ <;> omega
  · refine Versions.fetchVersion_of_le fun e he => ?_
    rcases h e he with hc | ⟨hc, -⟩ <;> omega

end

theorem fetchInDatastore_idle {db : Inner} (h : db.transactionMergeQueue = ∅) (key : Bytes)
    (q : Nat) : db.fetchInDatastore key q = (chainAt db.datastore key).fetchVersion q := by
  rw [Inner.fetchInDatastore, Inner.pendingWrite_idle h]
  unfold chainAt
  cases db.datastore[key]? <;> simp

theorem get_idle {db : Inner} {tx : TransactionInner} (h : db.transactionMergeQueue = ∅)
    (hd : tx.done = false) (hw : tx.writeset[key]? = none) :
    (tx.get db key).2 = .ok ((chainAt db.datastore key).fetchVersion tx.version) := by
  unfold TransactionInner.get
  rw [if_neg (by simp [hd]), ← fetchInDatastore_idle h]
  split
  · rw [hw]
  · rfl

theorem fetchVersion_seededPush_self (entry : Option Versions) (w : Version) :
    (seededPush entry w).fetchVersion w.version = w.value := by
  cases entry with
  | some ch => exact ch.fetchVersion_push_self w
  | none => exact Versions.fetchVersion_push_self _ w

theorem Written.fetch_new {before after : SkipMap Bytes Versions}
    (h : Written version ws before after) (key : Bytes) :
    (chainAt after key).fetchVersion version =
      (ws[key]?).getD ((chainAt before key).fetchVersion version) := by
  unfold chainAt
  rw [h key]
  cases ws[key]? with
  | none => rfl
  | some value => exact fetchVersion_seededPush_self _ ⟨version, value⟩

theorem Written.fetch_old {before after : SkipMap Bytes Versions}
    (h : Written version ws before after) (key : Bytes) (hq : q < version) :
    (chainAt after key).fetchVersion q = (chainAt before key).fetchVersion q := by
  unfold chainAt
  rw [h key]
  cases ws[key]? with
  | none => rfl
  | some value => exact fetchVersion_seededPush_of_lt _ ⟨version, value⟩ hq

/-- From the timestamp on every key shows its value in `f`, and the next commit lands above
everything stored, but for what it replaces. -/
structure Inner.Shows (db : Inner) (f : Bytes → Option Bytes) : Prop where
  bound : ∀ key, ∀ p ∈ (chainAt db.datastore key).writes, p.1 ≤ db.timestamp + 1
  latest : ∀ key q, db.timestamp ≤ q → (chainAt db.datastore key).fetchVersion q = f key

namespace Inner.Shows

section
variable {db inner : Inner} {f : Bytes → Option Bytes}

theorem of_behind (h : ∀ key, (chainAt db.datastore key).behind db.timestamp) :
    db.Shows fun key => lastValue (chainAt db.datastore key).inner where
  bound := by
    intro key p hp
    rcases h key ⟨p.1, p.2⟩ hp with hle | ⟨he, -⟩
    · exact hle.trans (Nat.le_succ _)
    · exact he.le
  latest := fun key _ hq => (h key).fetch hq

theorem congr (h : db.Shows f) (hd : inner.datastore = db.datastore)
    (ht : inner.timestamp = db.timestamp) : inner.Shows f where
  bound := by
    rw [hd, ht]
    exact h.bound
  latest := by
    rw [hd, ht]
    exact h.latest

theorem publish (h : db.Shows f) (hv : db.timestamp < inner.timestamp)
    (hi : Written inner.timestamp ws db.datastore inner.datastore) :
    inner.Shows fun key => (ws[key]?).getD (f key) := by
  have hold : ∀ key, ∀ p ∈ (chainAt db.datastore key).writes, p.1 ≤ inner.timestamp := by
    intro key p hp
    exact (h.bound key p hp).trans hv
  constructor
  · intro key p hp
    refine Nat.le_succ_of_le ?_
    unfold chainAt at hp
    rw [hi key] at hp
    cases hw : ws[key]? with
    | none =>
      rw [hw] at hp
      exact hold key p hp
    | some value =>
      rw [hw] at hp
      rcases seededPush_writes_subset _ _ hp with rfl | hp
      · exact le_rfl
      · exact hold key p hp
  · intro key q hq
    unfold chainAt
    rw [hi key]
    cases hw : ws[key]? with
    | none => exact h.latest key q (hv.le.trans hq)
    | some value =>
      exact fetchVersion_seededPush_of_le (w := ⟨inner.timestamp, value⟩) (hold key) hq

theorem collect (h : db.Shows f) (hw : watermark ≤ db.timestamp)
    (hi : ∀ key, CoversFrom watermark (chainAt inner.datastore key)
      (chainAt db.datastore key).writes)
    (ht : inner.timestamp = db.timestamp) : inner.Shows f where
  bound := by
    intro key p hp
    rw [ht]
    exact h.bound key p ((hi key).subset hp)
  latest := by
    intro key q hq
    rw [ht] at hq
    rw [(hi key).fetch_eq (hw.trans hq)]
    exact h.latest key q hq

end

end Inner.Shows

/-- A value different from a given one. -/
def otherValue : Option Bytes → Bytes
  | some b => 0 :: b
  | none => []

theorem otherValue_ne (x : Option Bytes) : x ≠ some (otherValue x) := by
  cases x with
  | none => simp
  | some b => simp [otherValue]

/-- A transaction of its own writes one key: it begins, sets it, and its commit goes through. -/
theorem Serving.writer {db : Database} (h : Serving db) (key val : Bytes) (now : Nat) :
    ∃ db₁ db₂ db₃, db.step (.transaction true, now) = some (db₁, .handle db.transactions.length) ∧
      db₁.step (.on db.transactions.length (.set key val), now) = some (db₂, .done (.ok ())) ∧
      db₂.step (.on db.transactions.length .commit, now) = some (db₃, .done (.ok ())) ∧
      db₂.transactions[db.transactions.length]?.join.map (·.writeset) =
        some ((∅ : Writeset).insert key (some val)) ∧
      Serving db₃ ∧ db₃.transactions.length = db.transactions.length + 1 ∧
      db₃.inner.timestamp = db.inner.nextVersion now ∧
      Written (db.inner.nextVersion now) ((∅ : Writeset).insert key (some val))
        db.inner.datastore db₃.inner.datastore := by
  obtain ⟨db₁, tx, ht, hs₁, hb⟩ := h.transaction true
  let n := db.transactions.length
  have hi₁ : db₁.transactions[n]?.join = some tx := by
    rw [hb.handles, List.getElem?_concat_length]
    rfl
  have hn : n < db₁.transactions.length := by simp [hb.handles, n]
  let tx' : TransactionInner := { tx with writeset := (∅ : Writeset).insert key (some val) }
  let db₂ : Database := { db₁ with transactions := db₁.transactions.set n (some tx') }
  have hset : db₁.step (.on n (.set key val), now) = some (db₂, .done (.ok ())) := by
    simp [Database.step, hi₁, Database.call, Database.update, TransactionInner.set,
      TransactionInner.store, hb.done, hb.write, hb.writeset, db₂, tx']
  have hs₂ : Serving db₂ := hs₁.replace hi₁ rfl rfl
  have hi₂ : db₂.transactions[n]?.join = some tx' := by
    simp [db₂, hn]
  have hcommit : tx'.commit = db₂.inner.transactionCommitId := hb.commit.trans hb.commitId.symm
  obtain ⟨inner, tx'', hrun, hs₃, hts, hw, -⟩ := hs₂.publish hi₂ hb.done (by simp [tx'])
    (validate_fresh (by rw [← hcommit])) now
  have hcall : db₂.step (.on n .commit, now) =
      some (⟨inner, db₂.pool, db₂.transactions.set n (some tx'')⟩, .done (.ok ())) := by
    simp only [Database.step, hi₂, Database.call, hrun]
    rfl
  have hnext : db₂.inner.nextVersion now = db.inner.nextVersion now := by
    have htime : db₂.inner.timestamp = db.inner.timestamp := hb.timestamp
    simp only [Inner.nextVersion, htime]
  have hdata : db₂.inner.datastore = db.inner.datastore := hb.datastore
  rw [hnext] at hts
  rw [hnext, hdata] at hw
  refine ⟨db₁, db₂, _, ht, hset, hcall, ?_, hs₃, by simp [db₂, hb.handles], hts, hw⟩
  simp [hi₂, tx', n]

namespace Reopened

/-- The chains show the last committed values, to later readers and to the open transactions. -/
structure Tracks (recovered : Bytes → Option Bytes) (s : Reopened) : Prop where
  serving : Serving s.db
  length : s.begun.length = s.db.transactions.length
  counted : ∀ n ∈ s.begun, n ≤ s.committed.length
  shows : s.db.inner.Shows (valueAfter recovered s.committed)
  reads : ∀ (i : Nat) tx n key, s.db.transactions[i]?.join = some tx → s.begun[i]? = some n →
    (chainAt s.db.inner.datastore key).fetchVersion tx.version =
      valueAfter recovered (s.committed.take n) key

section
variable {s : Reopened} {db : Database}

theorem Tracks.readsCommitted (h : Tracks recovered s) : s.ReadsCommitted recovered where
  begins := by
    intro write
    obtain ⟨db', tx, ht, -⟩ := h.serving.transaction write
    rw [ht]
    rfl
  reads := by
    intro i tx n key hi hn hd hw
    rw [get_idle h.serving.idle hd hw, h.reads i tx n key hi hn]

theorem Tracks.begin (h : Tracks recovered s) (hs : Serving db) (hb : Begun s.db write db tx) :
    Tracks recovered ⟨db, s.committed, s.begun ++ [s.committed.length]⟩ where
  serving := hs
  length := by simp [hb.handles, h.length]
  counted := by
    intro n hn
    rcases List.mem_append.1 hn with hn | hn
    · exact h.counted n hn
    · exact (List.mem_singleton.1 hn).le
  shows := h.shows.congr hb.datastore hb.timestamp
  reads := by
    intro j tx' n key hj hn
    rw [hb.handles] at hj
    rw [hb.datastore]
    rcases Processes.getElem?_concat_cases hn with hn | ⟨hlen, rfl⟩
    · obtain ⟨hlt, -⟩ := List.getElem?_eq_some_iff.1 hn
      rw [List.getElem?_append_left (h.length ▸ hlt)] at hj
      exact h.reads j tx' n key hj hn
    · rw [hlen, h.length, List.getElem?_concat_length] at hj
      cases hj
      rw [List.take_length, hb.version]
      exact h.shows.latest key _ le_rfl

theorem Tracks.quiet {inner : Inner} (h : Tracks recovered s) (hs : Serving ⟨inner, pool, txs⟩)
    (hi : inner.datastore = s.db.inner.datastore) (ht : inner.timestamp = s.db.inner.timestamp)
    (hk : KeepsSnapshots s.db.transactions txs) (hl : ∀ ws ∈ l, ws = ∅) :
    Tracks recovered ⟨⟨inner, pool, txs⟩, s.committed ++ l, s.begun⟩ where
  serving := hs
  length := h.length.trans hk.1.symm
  counted := by
    intro n hn
    rw [List.length_append]
    exact (h.counted n hn).trans (Nat.le_add_right ..)
  shows := by
    rw [funext (valueAfter_empties hl recovered s.committed)]
    exact h.shows.congr hi ht
  reads := by
    intro j tx' n key hj hn
    obtain ⟨tx, hx, hv⟩ := hk.2 j tx' hj
    rw [hi, hv, List.take_append_of_le_length (h.counted n (List.mem_of_getElem? hn))]
    exact h.reads j tx n key hx hn

theorem Tracks.publish {inner : Inner} (h : Tracks recovered s) (hs : Serving ⟨inner, pool, txs⟩)
    (hv : s.db.inner.timestamp < inner.timestamp)
    (hi : Written inner.timestamp ws s.db.inner.datastore inner.datastore)
    (hk : KeepsSnapshots s.db.transactions txs) :
    Tracks recovered ⟨⟨inner, pool, txs⟩, s.committed ++ [ws], s.begun⟩ where
  serving := hs
  length := h.length.trans hk.1.symm
  counted := by
    intro n hn
    rw [List.length_append]
    exact (h.counted n hn).trans (Nat.le_add_right ..)
  shows := by
    rw [funext (valueAfter_concat recovered s.committed ws)]
    exact h.shows.publish hv hi
  reads := by
    intro j tx' n key hj hn
    obtain ⟨tx, hx, he⟩ := hk.2 j tx' hj
    have hlt : tx.version < inner.timestamp := (h.serving.live j tx hx).2.trans_lt hv
    rw [he, List.take_append_of_le_length (h.counted n (List.mem_of_getElem? hn)),
      hi.fetch_old key hlt]
    exact h.reads j tx n key hx hn

theorem Tracks.collect {inner : Inner} (h : Tracks recovered s)
    (hs : Serving { s.db with inner := inner }) (hw : watermark ≤ s.db.inner.timestamp)
    (hl : ∀ (i : Nat) tx, s.db.transactions[i]?.join = some tx → watermark ≤ tx.version)
    (hi : ∀ key, CoversFrom watermark (chainAt inner.datastore key)
      (chainAt s.db.inner.datastore key).writes)
    (ht : inner.timestamp = s.db.inner.timestamp) :
    Tracks recovered ⟨{ s.db with inner := inner }, s.committed, s.begun⟩ where
  serving := hs
  length := h.length
  counted := h.counted
  shows := h.shows.collect hw hi ht
  reads := by
    intro j tx n key hj hn
    rw [(hi key).fetch_eq (hl j tx hj)]
    exact h.reads j tx n key hj hn

theorem Tracks.step (h : Tracks recovered s) (hstep : s.step c = some t) : Tracks recovered t := by
  obtain ⟨db', r, hdb, hs, hd⟩ := h.serving.step c.1 c.2
  simp only [Reopened.step, hdb, Option.bind_eq_bind, Option.bind_some, Option.pure_def,
    Option.some.injEq] at hstep
  subst hstep
  cases hd with
  | begins hcall hb =>
    simp only [hcall, published, List.append_nil]
    exact h.begin hs hb
  | quiet hi ht hk hp hcall =>
    have hb : (match c.1 with
        | .transaction _ => s.begun ++ [s.committed.length]
        | _ => s.begun) = s.begun := by
      split
      · rename_i write he
        exact absurd he (hcall write)
      · rfl
    rw [hb]
    exact h.quiet hs hi ht hk hp
  | publishes hcall hp _ hv ht hi hk =>
    rw [hp]
    simp only [hcall]
    exact h.publish hs (ht ▸ hv) (ht ▸ hi) hk
  | collects hcall hw hl hi ht =>
    simp only [hcall, published, List.append_nil]
    refine h.collect hs hw hl ?_ ht
    refine hi (fun key ch => CoversFrom _ ch (chainAt s.db.inner.datastore key).writes) ?_ ?_
    · exact fun key ch hch => hch.compact
    · exact fun key => (CoversFrom.self _).weaken (Nat.zero_le _)

theorem Tracks.new (hb : ∀ key, (chainAt datastore key).behind clock)
    (hr : ∀ key, lastValue (chainAt datastore key).inner = recovered key) (threshold : Nat) :
    Tracks recovered
      ⟨⟨{ Inner.new clock threshold with datastore := datastore }, [], []⟩, [], []⟩ where
  serving := .new datastore clock threshold
  length := rfl
  counted := by simp
  shows := by
    have hf : valueAfter recovered [] = fun key => lastValue (chainAt datastore key).inner :=
      funext fun key => (hr key).symm
    rw [hf]
    exact .of_behind hb
  reads := by simp

/-- Where all reads are right, the chains show the last committed values at the timestamp: a
transaction could begin there. -/
theorem latest_of_reads (h : Serving s.db) (hl : s.begun.length = s.db.transactions.length)
    (hall : ∀ t, Execution.Run step (fun _ _ => True) s t → t.ReadsCommitted recovered)
    (key : Bytes) :
    (chainAt s.db.inner.datastore key).fetchVersion s.db.inner.timestamp =
      valueAfter recovered s.committed key := by
  obtain ⟨db', tx, ht, hs, hb⟩ := h.transaction false
  have hstep : s.step (.transaction false, 0) =
      some ⟨db', s.committed ++ [], s.begun ++ [s.committed.length]⟩ := by
    simp [Reopened.step, Database.step, ht, published]
  have hi : db'.transactions[s.db.transactions.length]?.join = some tx := by
    rw [hb.handles, List.getElem?_concat_length]
    rfl
  have hn : (s.begun ++ [s.committed.length])[s.db.transactions.length]? =
      some s.committed.length := by
    rw [← hl, List.getElem?_concat_length]
  have hread := (hall _ (.step .refl trivial hstep)).reads _ tx _ key hi hn hb.done
    (by simp [hb.writeset])
  rw [get_idle hs.idle hb.done (by simp [hb.writeset]), hb.datastore, hb.version] at hread
  simpa using hread

theorem writes (h : Serving s.db) (hl : s.begun.length = s.db.transactions.length)
    (key val : Bytes) (now : Nat) :
    ∃ t, Execution.Run step (fun _ _ => True) s t ∧ Serving t.db ∧
      t.begun.length = t.db.transactions.length ∧
      t.committed = s.committed ++ [(∅ : Writeset).insert key (some val)] ∧
      t.db.inner.timestamp = s.db.inner.nextVersion now ∧
      Written (s.db.inner.nextVersion now) ((∅ : Writeset).insert key (some val))
        s.db.inner.datastore t.db.inner.datastore := by
  obtain ⟨db₁, db₂, db₃, hbegin, hset, hcommit, hws, hs, hlen, ht, hw⟩ := h.writer key val now
  let s₁ : Reopened := ⟨db₁, s.committed, s.begun ++ [s.committed.length]⟩
  have hstep₁ : s.step (.transaction true, now) = some s₁ := by
    simp [Reopened.step, hbegin, published, s₁]
  have hstep₂ : s₁.step (.on s.db.transactions.length (.set key val), now) =
      some { s₁ with db := db₂ } := by
    simp [Reopened.step, hset, published, s₁]
  have hstep₃ : { s₁ with db := db₂ }.step (.on s.db.transactions.length .commit, now) =
      some ⟨db₃, s.committed ++ [(∅ : Writeset).insert key (some val)], s₁.begun⟩ := by
    simp [Reopened.step, hcommit, published, hws, s₁]
  refine ⟨_, .step (.step (.step .refl trivial hstep₁) trivial hstep₂) trivial hstep₃, hs, ?_,
    rfl, ht, hw⟩
  simp [s₁, hlen, hl]

/-- A commit below a recovered version is lost once the timestamp has passed that version. -/
theorem overtaken (h : Serving s.db) (hl : s.begun.length = s.db.transactions.length)
    (he : (v, x) ∈ (chainAt s.db.inner.datastore key).writes)
    (hv : s.db.inner.timestamp + 1 < v) :
    ¬ ∀ t, Execution.Run step (fun _ _ => True) s t → t.ReadsCommitted recovered := by
  intro hall
  let y := (chainAt s.db.inner.datastore key).fetchVersion v
  obtain ⟨s₁, hr₁, hs₁, hl₁, hc₁, ht₁, hw₁⟩ := writes h hl key (otherValue y) 0
  obtain ⟨s₂, hr₂, hs₂, hl₂, hc₂, ht₂, hw₂⟩ := writes hs₁ hl₁ (0 :: key) [] v
  have hfirst : s.db.inner.nextVersion 0 = s.db.inner.timestamp + 1 := by
    simp [Inner.nextVersion]
  have hsecond : s₁.db.inner.nextVersion v = v := by
    rw [Inner.nextVersion, if_neg]
    rw [ht₁, hfirst]
    omega
  have hlatest := latest_of_reads hs₂ hl₂ (fun t ht => hall t ((hr₁.trans hr₂).trans ht)) key
  have hexpected : valueAfter recovered s₂.committed key = some (otherValue y) := by
    rw [hc₂, hc₁, valueAfter_concat, valueAfter_concat]
    simp
  have hchain : chainAt s₂.db.inner.datastore key =
      seededPush s.db.inner.datastore[key]? ⟨s.db.inner.timestamp + 1, some (otherValue y)⟩ := by
    unfold chainAt
    rw [hw₂ key, hw₁ key, hfirst]
    simp
  have hkept : (chainAt s₂.db.inner.datastore key).fetchVersion v = y := by
    rw [hchain]
    exact fetchVersion_seededPush_hidden he hv le_rfl
  rw [ht₂, hsecond, hkept, hexpected] at hlatest
  exact otherValue_ne y hlatest

end

end Reopened

/-- An entry one tick ahead comes to light with the next commit of another key. -/
theorem Reopened.shown (h : Serving s.db) (hl : s.begun.length = s.db.transactions.length)
    (he : (s.db.inner.timestamp + 1, x) ∈ (chainAt s.db.inner.datastore key).writes)
    (hall : ∀ t, Execution.Run step (fun _ _ => True) s t → t.ReadsCommitted recovered) :
    x = valueAfter recovered s.committed key := by
  obtain ⟨t, hr, hs, hl', hc, ht, hw⟩ := writes h hl (0 :: key) [] 0
  have hnext : s.db.inner.nextVersion 0 = s.db.inner.timestamp + 1 := by simp [Inner.nextVersion]
  have hlatest := latest_of_reads hs hl' (fun u hu => hall u (hr.trans hu)) key
  have hchain : chainAt t.db.inner.datastore key = chainAt s.db.inner.datastore key := by
    unfold chainAt
    rw [hw key]
    simp
  have hshown : (chainAt s.db.inner.datastore key).fetchVersion (s.db.inner.timestamp + 1) = x :=
    ((chainAt s.db.inner.datastore key).fetchVersion_visible _).unique
      (chainAt s.db.inner.datastore key).writes_functional
      (.written he le_rfl fun _ _ _ ht => ht)
  rw [hchain, ht, hnext, hshown, hc, valueAfter_concat] at hlatest
  simpa using hlatest

/-- Reads are right in every run of a reopened database if and only if its chains show the expected
values and are not ahead of the clock. -/
theorem readsCommitted_iff_behind (datastore : SkipMap Bytes Versions) (clock threshold : Nat)
    (recovered : Bytes → Option Bytes) :
    (∀ s, Execution.Run Reopened.step (fun _ _ => True)
        ⟨⟨{ Inner.new clock threshold with datastore := datastore }, [], []⟩, [], []⟩ s →
      s.ReadsCommitted recovered) ↔
    ∀ key, (chainAt datastore key).behind clock ∧
      lastValue (chainAt datastore key).inner = recovered key := by
  constructor
  · intro hall key
    let s : Reopened :=
      ⟨⟨{ Inner.new clock threshold with datastore := datastore }, [], []⟩, [], []⟩
    have hserving : Serving s.db := Serving.new datastore clock threshold
    have hle : ∀ a ∈ (chainAt datastore key).inner, a.version ≤ clock + 1 := by
      intro a ha
      by_contra hlt
      exact Reopened.overtaken hserving rfl (x := a.value) ha (Nat.not_le.1 hlt) hall
    have hlatest : (chainAt datastore key).fetchVersion clock = recovered key :=
      Reopened.latest_of_reads hserving rfl hall key
    have hbehind : (chainAt datastore key).behind clock := by
      intro e he
      rcases Nat.lt_or_ge clock e.version with hlt | hge
      · have hev : e.version = clock + 1 := by
          have := hle e he
          omega
        refine .inr ⟨hev, ?_⟩
        have hw : (clock + 1, e.value) ∈ (chainAt datastore key).writes := by
          rw [← hev]
          exact he
        rw [hlatest]
        exact Reopened.shown hserving rfl hw hall
      · exact .inl hge
    exact ⟨hbehind, (hbehind.fetch le_rfl).symm.trans hlatest⟩
  · intro hb s hs
    have ht : Reopened.Tracks recovered s := by
      refine hs.invariant (fun s c t ht _ hstep => ht.step hstep) ?_
      exact Reopened.Tracks.new (fun key => (hb key).1) (fun key => (hb key).2) threshold
    exact ht.readsCommitted

theorem Versions.behind_iff (ch : Versions) (clock : Nat) :
    ch.behind clock ↔ ∀ n ∈ ch.newest fun _ => true,
      n.1 ≤ clock ∨ n.1 = clock + 1 ∧ n.2 = ch.fetchVersion clock := by
  unfold Versions.newest Versions.behind
  simp only [List.filter_true]
  constructor
  · intro h n hn
    obtain ⟨e, he, rfl⟩ := Option.map_eq_some_iff.1 hn
    exact h e (List.mem_of_getLast? he)
  · intro h e he
    have ha := ch.ascending
    cases hl : ch.inner using List.reverseRecOn with
    | nil =>
      rw [hl] at he
      cases he
    | append_singleton l m =>
      have hm := h (m.version, m.value) (by simp [hl])
      rw [hl] at he ha
      rcases List.mem_append.1 he with he | he
      · have hlt := (List.pairwise_append.1 ha).2.2 e he m (by simp)
        omega
      · rw [List.mem_singleton.1 he]
        exact hm

/-- Reads are right in every run of the reopened database if and only if the files are readable at
the wall clock. -/
theorem readsCommitted_iff
    (hentries : decodeFile fmt.entry fmt.snapshotReader snapshot = .ok entries)
    (hrecords : decodeFile fmt.record fmt.aolReader aol = .ok records)
    (h : Database.newWithPersistence fmt snapshot aol clock threshold = .ok db) :
    (∀ s, Execution.Run Reopened.step (fun _ _ => True) ⟨db, [], []⟩ s →
      s.ReadsCommitted (greatestIn entries records)) ↔
    ∀ key, ReadableAt clock entries records key := by
  have hdb : db = ⟨{ Inner.new clock threshold with
      datastore := records.foldl replayRecord (entries.foldl loadEntry ∅) }, [], []⟩ := by
    simp only [Database.newWithPersistence, load, hentries, hrecords, bind, Except.bind] at h
    exact (Except.ok.inj h).symm
  subst hdb
  refine (readsCommitted_iff_behind _ clock threshold _).trans (forall_congr' fun key => ?_)
  rw [Versions.behind_iff, ← Versions.newest_all, ← Versions.newest_upto,
    newest_load (fun _ _ _ _ => rfl), newest_load fun a b hab hb => by
      rw [decide_eq_true_eq] at hb ⊢
      exact hab.trans hb]
  exact and_comm

-- A late record between two of one value hides the greatest version.
example : ¬ ReadableAt 9 [] [([1], 1, some [1]), ([1], 3, some [1]), ([1], 2, some [2])] [1] := by
  decide

/-- A directory whose AOL has one record: key `[1]` was set to `[7]` at version 9. -/
def oneRecord : Bytes := Bincode.record.encodeAll [([1], 9, some [7])]

theorem decodeFile_oneRecord :
    decodeFile Format.plain.record Format.plain.aolReader (some oneRecord) =
      .ok [([1], 9, some [7])] := by
  refine decodeFile_encodeAll ?_ rfl (fun he => absurd he (by decide))
  intro r hr
  rw [List.mem_singleton.1 hr]
  exact Bincode.record_valid (by decide)

theorem newWithPersistence_oneRecord (clock : Nat) :
    Database.newWithPersistence .plain none (some oneRecord) clock 0 =
      .ok ⟨{ Inner.new clock 0 with datastore := replayRecord ∅ ([1], 9, some [7]) }, [], []⟩ := by
  have hsnapshot : decodeFile Format.plain.entry Format.plain.snapshotReader none = .ok [] := rfl
  simp only [Database.newWithPersistence, load, hsnapshot, decodeFile_oneRecord, bind, Except.bind]
  rfl

theorem readable_oneRecord (clock : Nat) (key : Bytes) :
    ReadableAt clock [] [([1], 9, some [7])] key ↔ [1] = key → 9 ≤ clock := by
  by_cases hk : [1] = key
  · subst hk
    by_cases hc : 9 ≤ clock <;> simp [ReadableAt, keptNewest, greatestIn, fileWrites, hc]
  · simp [ReadableAt, keptNewest, greatestIn, fileWrites, hk]

theorem readsCommitted_oneRecord :
    ∃ db, Database.newWithPersistence .plain none (some oneRecord) 9 0 = .ok db ∧
      greatestIn [] [([1], 9, some [7])] [1] = some [7] ∧
      ∀ s, Execution.Run Reopened.step (fun _ _ => True) ⟨db, [], []⟩ s →
        s.ReadsCommitted (greatestIn [] [([1], 9, some [7])]) := by
  refine ⟨_, newWithPersistence_oneRecord 9, by decide, ?_⟩
  have hsnapshot : decodeFile Format.plain.entry Format.plain.snapshotReader none = .ok [] := rfl
  exact (readsCommitted_iff hsnapshot decodeFile_oneRecord (newWithPersistence_oneRecord 9)).2
    fun key => (readable_oneRecord 9 key).2 fun _ => le_rfl

/-- The wall clock has gone back to 5 before the restart. -/
theorem not_readsCommitted : ¬ ∀ fmt snapshot aol entries records clock threshold db,
    decodeFile fmt.entry fmt.snapshotReader snapshot = .ok entries →
    decodeFile fmt.record fmt.aolReader aol = .ok records →
    Database.newWithPersistence fmt snapshot aol clock threshold = .ok db →
    ∀ s, Execution.Run Reopened.step (fun _ _ => True) ⟨db, [], []⟩ s →
      s.ReadsCommitted (greatestIn entries records) := by
  intro hall
  have he : (9, some [7]) ∈ (chainAt (replayRecord ∅ ([1], 9, some [7])) [1]).writes := by
    unfold chainAt
    rw [replayRecord_getElem?]
    simp [Versions.writes, Versions.ofVersion]
  exact Reopened.overtaken (.new _ 5 0) rfl he (by decide)
    (hall .plain none (some oneRecord) [] _ 5 0 _ rfl decodeFile_oneRecord
      (newWithPersistence_oneRecord 5))

end StupidKv
