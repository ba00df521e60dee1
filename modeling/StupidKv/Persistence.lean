import StupidKv.Bincode
import StupidKv.Transaction
import StupidKv.History

namespace StupidKv
open Std Framing
set_option autoImplicit true

/-- One line of the AOL: key, version, value. -/
abbrev Record := Bytes × Nat × Option Bytes

/-- One line of a snapshot: a key and its whole chain. -/
abbrev Entry := Bytes × List (Nat × Option Bytes)

def u64Max : Nat := 2 ^ 64 - 1

/-- Sizes and numbers of the source are machine words. -/
def fitsValue (value : Option Bytes) : Bool := value.all fun b => b.length ≤ u64Max

def Record.fits (r : Record) : Bool :=
  decide (r.1.length ≤ u64Max) && decide (r.2.1 ≤ u64Max) && fitsValue r.2.2

def Entry.fits (e : Entry) : Bool :=
  decide (e.1.length ≤ u64Max) && decide (e.2.length ≤ u64Max) &&
    e.2.all fun p => decide (p.1 ≤ u64Max) && fitsValue p.2

theorem Record.key_fits {r : Record} (h : Record.fits r = true) : r.1.length ≤ u64Max := by
  simp only [Record.fits, Bool.and_eq_true, decide_eq_true_eq] at h
  exact h.1.1

theorem Entry.key_fits {e : Entry} (h : Entry.fits e = true) : e.1.length ≤ u64Max := by
  simp only [Entry.fits, Bool.and_eq_true, decide_eq_true_eq] at h
  exact h.1.1

/-- How the two files are encoded: `bincode` for their lines, `CompressedWriter` for the snapshot
stream and `CompressedReader` for either file. -/
structure Format where
  record : Codec Record UInt8
  entry : Codec Entry UInt8
  writer : Bytes → Bytes
  snapshotReader : Bytes → Except PersistenceError Bytes
  aolReader : Bytes → Except PersistenceError Bytes

/-- The codecs take every machine-sized line, and compression is detected and undone. -/
structure Format.RoundTrips (fmt : Format) : Prop where
  record : ∀ r, Record.fits r = true → fmt.record.valid r
  entry : ∀ e, Entry.fits e = true → fmt.entry.valid e
  snapshot : ∀ b, fmt.snapshotReader (fmt.writer b) = .ok b
  empty : ∀ b, fmt.writer b = [] → b = []
  aol : ∀ b, fmt.aolReader b = .ok b

/-- Which keys may stand in front of the AOL, and of a snapshot. -/
structure FirstKeys where
  aol : Bytes → Bool
  snapshot : Bytes → Bool

def FirstKeys.any : FirstKeys := ⟨fun _ => true, fun _ => true⟩

/-- A file is read back as it was written if its first key allows it; of the AOL also a part. -/
structure Format.Reads (fmt : Format) (keys : FirstKeys) : Prop where
  record : ∀ r, Record.fits r = true → fmt.record.valid r
  entry : ∀ e, Entry.fits e = true → fmt.entry.valid e
  snapshot : ∀ l, (∀ e ∈ l, fmt.entry.valid e) → (l.head?.all fun e => keys.snapshot e.1) = true →
    fmt.snapshotReader (fmt.writer (fmt.entry.encodeAll l)) = .ok (fmt.entry.encodeAll l)
  empty : ∀ b, fmt.writer b = [] → b = []
  aol : ∀ l b, (∀ r ∈ l, fmt.record.valid r) → (l.head?.all fun r => keys.aol r.1) = true →
    b <+: fmt.record.encodeAll l → fmt.aolReader b = .ok b

theorem Format.RoundTrips.reads {fmt : Format} (h : fmt.RoundTrips) : fmt.Reads .any where
  record := h.record
  entry := h.entry
  snapshot := fun _ _ _ => h.snapshot _
  empty := h.empty
  aol := fun _ b _ _ _ => h.aol b

/-- Bincode lines and no compression. -/
def Format.plain : Format := ⟨Bincode.record, Bincode.entry, fun b => b, .ok, .ok⟩

namespace Bincode

theorem bytes_valid {b : Bytes} (h : b.length ≤ u64Max) : bytes.valid b :=
  ⟨Nat.lt_of_le_of_lt h (by decide), fun _ _ => trivial⟩

theorem value_valid {x : Option Bytes} (h : fitsValue x = true) : (optional bytes).valid x := by
  intro b hb
  subst hb
  simp only [fitsValue, Option.all_some, decide_eq_true_eq] at h
  exact bytes_valid h

theorem record_valid {r : Record} (h : Record.fits r = true) : record.valid r := by
  simp only [Record.fits, Bool.and_eq_true, decide_eq_true_eq] at h
  exact ⟨bytes_valid h.1.1, Nat.lt_of_le_of_lt h.1.2 (by decide), value_valid h.2⟩

theorem entry_valid {e : Entry} (h : Entry.fits e = true) : entry.valid e := by
  simp only [Entry.fits, Bool.and_eq_true, decide_eq_true_eq, List.all_eq_true] at h
  obtain ⟨⟨hk, hl⟩, hv⟩ := h
  refine ⟨bytes_valid hk, Nat.lt_of_le_of_lt hl (by decide), fun p hp => ?_⟩
  exact ⟨Nat.lt_of_le_of_lt (hv p hp).1 (by decide), value_valid (hv p hp).2⟩
end Bincode

theorem Format.plain_roundTrips : Format.plain.RoundTrips where
  record := fun _ hr => Bincode.record_valid hr
  entry := fun _ he => Bincode.entry_valid he
  snapshot := fun _ => rfl
  empty := fun _ h => h
  aol := fun _ => rfl

namespace Versions

def pushAll (ch : Versions) (l : List (Nat × Option Bytes)) : Versions :=
  l.foldl (fun ch p => ch.push ⟨p.1, p.2⟩) ch

end Versions

/-- The lines of a writeset, in key order. -/
def recordsOf (version : Nat) (writeset : Writeset) : List Record :=
  writeset.toList.map fun e => (e.1, version, e.2)

/-- Rebuild one chain from a snapshot line. -/
def loadEntry (datastore : SkipMap Bytes Versions) (e : Entry) : SkipMap Bytes Versions :=
  if e.2.isEmpty then datastore else datastore.insert e.1 (Versions.new.pushAll e.2)

/-- Replay one line of the AOL: push onto the chain, or start one with the write itself. -/
def replayRecord (datastore : SkipMap Bytes Versions) (r : Record) : SkipMap Bytes Versions :=
  datastore.alter r.1 fun entry =>
    some (match entry with
      | some ch => ch.push ⟨r.2.1, r.2.2⟩
      | none => .ofVersion ⟨r.2.1, r.2.2⟩)

def decodeFile (c : Codec α UInt8) (reader : Bytes → Except PersistenceError Bytes)
    (file : Option Bytes) : Except PersistenceError (List α) :=
  match file with
  | none | some [] => .ok []
  | some file => do
    let stream ← reader file
    match c.decodeAll stream with
    | some l => .ok l
    | none => .error .deserialization

/-- Snapshot entries first, then the AOL; a missing or empty file counts as empty. -/
def load (fmt : Format) (snapshot aol : Option Bytes) :
    Except PersistenceError (SkipMap Bytes Versions) := do
  let entries ← decodeFile fmt.entry fmt.snapshotReader snapshot
  let records ← decodeFile fmt.record fmt.aolReader aol
  return records.foldl replayRecord (entries.foldl loadEntry ∅)

/-- `truncate` on the append-mode file: what lies behind `position` is copied out and written
back, and every write goes to the end. -/
def truncate (aol : Bytes) (position : Nat) : Bytes :=
  if aol.length > position then aol ++ aol.drop position else []

section
variable {fmt : Format}

theorem decodeFile_encodeAll {c : Codec α UInt8} {l : List α} (hv : ∀ a ∈ l, c.valid a)
    (hr : reader file = .ok (c.encodeAll l)) (hf : file = [] → l = []) :
    decodeFile c reader (some file) = .ok l := by
  cases file with
  | nil =>
    rw [hf rfl]
    rfl
  | cons b file =>
    simp only [decodeFile, hr, bind, Except.bind, c.decodeAll_encodeAll hv]

theorem decodeFile_of_decodeAll {c : Codec α UInt8} {l : List α} (hr : reader file = .ok file)
    (h : c.decodeAll file = some l) : decodeFile c reader (some file) = .ok l := by
  cases file with
  | nil =>
    rw [c.decodeAll_nil, Option.some.injEq] at h
    rw [← h]
    rfl
  | cons b file => simp only [decodeFile, hr, bind, Except.bind, h]

/-- A file of complete lines that may end inside another one. -/
theorem decodeFile_cut {c : Codec α UInt8} {l l' : List α} (hv : ∀ a ∈ l ++ l', c.valid a)
    (hr : reader (c.encodeAll l ++ p) = .ok (c.encodeAll l ++ p)) (hp : p <+: c.encodeAll l') :
    ∃ n, decodeFile c reader (some (c.encodeAll l ++ p)) = .ok (l ++ l'.take n) := by
  obtain ⟨n, hn⟩ := c.decodeAll_cut (fun a ha => hv a (List.mem_append_right l ha)) hp
  have hl : ∀ a ∈ l, c.valid a := fun a ha => hv a (List.mem_append_left l' ha)
  refine ⟨n, decodeFile_of_decodeAll hr ?_⟩
  rw [c.decodeAll_append hl p, hn, Option.map_some]

theorem Format.Reads.decodeFile_snapshot {entries : List Entry} (hf : fmt.Reads keys)
    (he : file = none ∧ entries = [] ∨
      file = some (fmt.writer (fmt.entry.encodeAll entries)))
    (hv : ∀ e ∈ entries, fmt.entry.valid e)
    (hk : (entries.head?.all fun e => keys.snapshot e.1) = true) :
    decodeFile fmt.entry fmt.snapshotReader file = .ok entries := by
  rcases he with ⟨rfl, rfl⟩ | rfl
  · rfl
  · refine decodeFile_encodeAll hv (hf.snapshot _ hv hk) fun hw => ?_
    exact fmt.entry.eq_nil_of_encodeAll hv (hf.empty _ hw)

end

end StupidKv
