import StupidKv.Store
import StupidKv.Recovery

namespace StupidKv
open Std Processes
set_option autoImplicit true

/-- The versions logged for a key. -/
def stamps (log : List Record) (key : Bytes) : Set Nat := {v | ∃ y, (key, v, y) ∈ log}

/-- The records of a key were logged in the order of their versions. -/
def LogOrdered (log : List Record) : Prop :=
  log.Pairwise fun a b => a.1 = b.1 → a.2.1 < b.2.1

/-- The chain `load` builds for a key from the snapshot alone. -/
def loadedChain (entries : List Entry) (key : Bytes) : Versions :=
  chainAt (entries.foldl loadEntry ∅) key

/-- The snapshot shows, for every covered key, a write at least as new as the first `mark` records
of the log; of the other keys it knows nothing. -/
structure EntriesReflect (fmt : Format) (keys : FirstKeys) (P : Bytes → Set (Nat × Option Bytes))
    (log : List Record) (mark : Nat) (covered : Bytes → Prop) (entries : List Entry) : Prop where
  valid : ∀ e ∈ entries, fmt.entry.valid e
  first : (entries.head?.all fun e => keys.snapshot e.1) = true
  reflect : ∀ key, covered key →
    Reflects (P key) (stamps (log.take mark) key) (loadedChain entries key)
  fresh : ∀ key, ¬ covered key → loadedChain entries key = .new

/-- What lies in the AOL: the records of `recs`, behind them the part of a copy that has already
been written back. -/
inductive AolFile (fmt : Format) (recs : List Record) (d : Disk) : Prop
  | whole (h : d.locked = false) (ha : d.aol = fmt.record.encodeAll recs)
  | copying (i : Nat) (rest part : Bytes) (extra : List Record)
      (hi : d.runs[i]? = some (.copying rest))
      (hs : ∀ (j : Nat) rest', d.runs[j]? = some (.copying rest') → j = i)
      (ha : d.aol = fmt.record.encodeAll recs ++ part)
      (hp : part ++ rest = fmt.record.encodeAll extra) (he : extra ⊆ recs)

/-- As long as the AOL is not emptied, the position of a cutoff stays the end of a record, and
everything logged since lies behind it. -/
structure CutoffHolds (fmt : Format) (log recs : List Record) (cleared : Nat) (cutoff : Cutoff) :
    Prop where
  logged : cutoff.logged ≤ log.length
  past : cutoff.cleared ≤ cleared
  split : cutoff.cleared = cleared → ∃ r₀ r₁, recs = r₀ ++ r₁ ∧
    cutoff.position = (fmt.record.encodeAll r₀).length ∧ ∀ r ∈ log.drop cutoff.logged, r ∈ r₁

/-- The keys an iterator has passed. -/
def passed (cursor : Option Bytes) (key : Bytes) : Prop :=
  ∃ c, cursor = some c ∧ compare c key ≠ .lt

def RunHolds (fmt : Format) (keys : FirstKeys) (P : Bytes → Set (Nat × Option Bytes))
    (log : List Record) (mark : Nat) (recs : List Record) (d : Disk) : SnapshotRun → Prop
  | .created inode => d.temp = some inode ∧ d.inodes[inode]? = some []
  | .encoding inode cutoff cursor stream =>
    d.temp = some inode ∧ d.inodes[inode]? = some [] ∧
      CutoffHolds fmt log recs d.cleared cutoff ∧ mark ≤ cutoff.logged ∧
      ∃ entries, stream = fmt.entry.encodeAll entries ∧
        EntriesReflect fmt keys P log cutoff.logged (passed cursor) entries
  | .flushed cutoff =>
    CutoffHolds fmt log recs d.cleared cutoff ∧ mark ≤ cutoff.logged ∧
      ∃ inode entries, d.temp = some inode ∧
        d.inodes[inode]? = some (fmt.writer (fmt.entry.encodeAll entries)) ∧
        EntriesReflect fmt keys P log cutoff.logged (fun _ => True) entries
  | .renamed cutoff => CutoffHolds fmt log recs d.cleared cutoff ∧ cutoff.logged ≤ mark
  | .copying _ | .done => True
  | .failed => False

/-- The files of a running store. The AOL holds the log from `c` on, and the snapshot the rest. -/
structure Shape (fmt : Format) (keys : FirstKeys) (P : Bytes → Set (Nat × Option Bytes))
    (log : List Record) (mark c : Nat) (recs : List Record) (d : Disk) : Prop where
  held : ∀ r, r ∈ recs ↔ r ∈ log.drop c
  replayable : Replayable recs
  first : (recs.head?.all fun r => keys.aol r.1) = true
  covered : c ≤ mark
  marked : mark ≤ log.length
  aol : AolFile fmt recs d
  snapshot : ∃ entries, (d.file d.snapshot = none ∧ entries = [] ∨
    d.file d.snapshot = some (fmt.writer (fmt.entry.encodeAll entries))) ∧
    EntriesReflect fmt keys P log mark (fun _ => True) entries
  runs : ∀ (i : Nat) run, d.runs[i]? = some run → RunHolds fmt keys P log mark recs d run
  sole : ∀ (i j : Nat) run run', d.runs[i]? = some run → d.runs[j]? = some run' →
    run.building = true → run'.building = true → i = j
  idle : (∀ run ∈ d.runs, run.building = false) → d.temp = none
  apart : ∀ i, d.temp = some i → d.snapshot ≠ some i
  named : ∀ i, d.snapshot = some i → i < d.inodes.length

theorem head?_all_append {l l' : List α} {p : α → Bool} (h : l.head?.all p = true)
    (h' : l = [] → l'.head?.all p = true) : (l ++ l').head?.all p = true := by
  cases l with
  | nil => exact h' rfl
  | cons a l => exact h

theorem loadedChain_concat (entries : List Entry) (e : Entry) (key : Bytes) :
    loadedChain (entries ++ [e]) key =
      if e.1 = key ∧ e.2 ≠ [] then Versions.new.pushAll e.2 else loadedChain entries key := by
  unfold loadedChain chainAt
  rw [List.foldl_concat, loadEntry_getElem?]
  split <;> rfl

theorem stamps_append (log new : List Record) (key : Bytes) :
    stamps (log ++ new) key = stamps log key ∪ stamps new key := by
  ext v
  simp only [stamps, Set.mem_ofPred_eq, List.mem_append, Set.mem_union]
  constructor
  · rintro ⟨y, h | h⟩
    · exact .inl ⟨y, h⟩
    · exact .inr ⟨y, h⟩
  · rintro (⟨y, h⟩ | ⟨y, h⟩)
    · exact ⟨y, .inl h⟩
    · exact ⟨y, .inr h⟩

theorem EntriesReflect.mono (h : EntriesReflect fmt keys P log mark covered entries)
    (hP : ∀ key, P key ⊆ P' key) (hl : log'.take mark = log.take mark) :
    EntriesReflect fmt keys P' log' mark covered entries where
  valid := h.valid
  first := h.first
  reflect := fun key hk => (h.reflect key hk).mono (hP key) (by rw [hl])
  fresh := h.fresh

/-- Among the records of a key behind `c`, one is as new as everything logged for the key. -/
theorem LogOrdered.exists_newest (h : LogOrdered log) (hr : (key, v, y) ∈ log.drop c) :
    ∃ v' y', (key, v', y') ∈ log.drop c ∧ ∀ u ∈ stamps log key, u ≤ v' := by
  have hsplit := List.take_append_drop c log
  generalize log.take c = lo at hsplit
  generalize log.drop c = hi at hsplit hr
  subst hsplit
  obtain ⟨-, hhi, hcross⟩ := List.pairwise_append.1 h
  have hmax : ∃ v' y', (key, v', y') ∈ hi ∧ ∀ u z, (key, u, z) ∈ hi → u ≤ v' := by
    clear h hcross
    induction hi using List.reverseRecOn generalizing v y with
    | nil => simp at hr
    | append_singleton hi r ih =>
      obtain ⟨hhi, -, hlast⟩ := List.pairwise_append.1 hhi
      by_cases hk : r.1 = key
      · obtain ⟨k, w, z⟩ := r
        simp only at hk
        subst hk
        refine ⟨w, z, by simp, ?_⟩
        intro u z' hu
        rcases List.mem_append.1 hu with hu | hu
        · exact (hlast _ hu _ (List.mem_singleton.2 rfl) rfl).le
        · simp only [List.mem_singleton, Prod.mk.injEq, true_and] at hu
          exact hu.1.le
      · have hne : ∀ u z', (key, u, z') ∈ hi ++ [r] → (key, u, z') ∈ hi := by
          intro u z' hu
          rcases List.mem_append.1 hu with hu | hu
          · exact hu
          · rw [List.mem_singleton] at hu
            exact absurd (by rw [← hu]) hk
        obtain ⟨v', y', hm, hle⟩ := ih (hne v y hr) hhi
        exact ⟨v', y', List.mem_append_left _ hm, fun u z' hu => hle u z' (hne u z' hu)⟩
  obtain ⟨v', y', hm, hle⟩ := hmax
  refine ⟨v', y', hm, ?_⟩
  rintro u ⟨z, hz⟩
  rcases List.mem_append.1 hz with hz | hz
  · exact (hcross _ hz _ hm rfl).le
  · exact hle u z hz

theorem EntriesReflect.replay (h : EntriesReflect fmt keys P log mark (fun _ => True) entries)
    (held : ∀ r, r ∈ recs ↔ r ∈ log.drop c) (hr : Replayable recs) (hc : c ≤ mark)
    (ho : LogOrdered log) (hP : ∀ key v y, (key, v, y) ∈ log → (v, y) ∈ P key) (key : Bytes) :
    Reflects (P key) (stamps log key)
      (chainAt (recs.foldl replayRecord (entries.foldl loadEntry ∅)) key) := by
  have hrefl := (h.reflect key trivial).replay hr ?_ ?_
  · refine hrefl.mono Set.Subset.rfl ?_
    rintro v ⟨y, hy⟩
    rw [← List.take_append_drop mark log] at hy
    rcases List.mem_append.1 hy with hy | hy
    · exact .inl ⟨y, hy⟩
    · exact .inr ⟨y, (held _).2 ((List.drop_sublist_drop_left log hc).subset hy)⟩
  · intro v y hm
    exact hP key v y (List.mem_of_mem_drop ((held _).1 hm))
  · intro v y hm
    obtain ⟨v', y', hm', hle⟩ := ho.exists_newest ((held _).1 hm)
    refine ⟨v', y', (held _).2 hm', ?_⟩
    rintro u ⟨z, hz⟩
    exact hle u ⟨z, List.mem_of_mem_take hz⟩

end StupidKv
