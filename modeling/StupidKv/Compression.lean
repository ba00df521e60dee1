import StupidKv.Recovery

namespace StupidKv
open Std Framing
set_option autoImplicit true

inductive CompressionMode where
  | none
  | lz4
deriving DecidableEq, Repr

/-- What the source uses of the LZ4 library: whole frames. -/
structure Lz4 where
  compress : Bytes → Bytes
  decompress : Bytes → Except PersistenceError Bytes

def lz4Magic : Bytes := [0x04, 0x22, 0x4D, 0x18]

/-- Frames start with the magic number and decompress to their input. -/
structure Lz4.Lawful (lz : Lz4) : Prop where
  magic : ∀ b, lz4Magic <+: lz.compress b
  roundTrip : ∀ b, lz.decompress (lz.compress b) = .ok b

/-- `CompressedWriter`. -/
def CompressionMode.writer (lz : Lz4) : CompressionMode → Bytes → Bytes
  | none, stream => stream
  | lz4, stream => lz.compress stream

/-- The mode `CompressedReader::new` reads off the first four bytes. -/
def detectMode (file : Bytes) : CompressionMode :=
  if file.take 4 = lz4Magic then .lz4 else .none

/-- `CompressedReader`. -/
def compressedReader (lz : Lz4) (file : Bytes) : Except PersistenceError Bytes :=
  match detectMode file with
  | .none => .ok file
  | .lz4 => lz.decompress file

/-- The lines `snapshot` writes, in key order. -/
def snapshotEntries (datastore : SkipMap Bytes Versions) : List Entry :=
  (datastore.toList.map fun e => (e.1, e.2.allVersions)).filter fun e => !e.2.isEmpty

/-- Both files are read back as they were written. -/
def ReadsBack (lz : Lz4) (mode : CompressionMode) (datastore : SkipMap Bytes Versions)
    (records : List Record) : Prop :=
  decodeFile Bincode.entry (compressedReader lz)
      (some (mode.writer lz (Bincode.entry.encodeAll (snapshotEntries datastore)))) =
    .ok (snapshotEntries datastore) ∧
  decodeFile Bincode.record (compressedReader lz) (some (Bincode.record.encodeAll records)) =
    .ok records

/-- Behind its length, a key of four bytes can complete the magic number. -/
def completesMagic (key : Bytes) : Bool :=
  decide (key.length = 4) && decide (key.take 3 = [0x22, 0x4D, 0x18])

section
variable {lz : Lz4}

theorem detectMode_lz4 {file : Bytes} : detectMode file = .lz4 ↔ lz4Magic <+: file := by
  unfold detectMode
  rw [List.prefix_iff_eq_take]
  have hlen : lz4Magic.length = 4 := rfl
  rw [hlen]
  constructor
  · intro h
    split at h
    · rename_i he
      exact he.symm
    · cases h
  · intro h
    rw [if_pos h.symm]

theorem detectMode_none {file : Bytes} (h : ¬ lz4Magic <+: file) : detectMode file = .none := by
  cases hm : detectMode file with
  | none => rfl
  | lz4 => exact absurd (detectMode_lz4.1 hm) h

theorem compressedReader_plain {file : Bytes} (h : ¬ lz4Magic <+: file) :
    compressedReader lz file = .ok file := by
  simp only [compressedReader, detectMode_none h]

theorem compressedReader_lz4 {file : Bytes} (h : lz4Magic <+: file) :
    compressedReader lz file = lz.decompress file := by
  simp only [compressedReader, detectMode_lz4.2 h]

theorem encodeAll_byte (l : Bytes) : Bincode.byte.encodeAll l = l := by
  induction l with
  | nil => rfl
  | cons b l ih =>
    rw [Codec.encodeAll_cons, ih]
    rfl

theorem encode_bytes (key : Bytes) :
    Bincode.bytes.encode key = Bincode.encodeVarint key.length ++ key := by
  change Bincode.encodeVarint key.length ++ Bincode.byte.encodeAll key = _
  rw [encodeAll_byte]

/-- A line starts like an LZ4 frame exactly when its key completes the magic number. -/
theorem magic_prefix_iff {key : Bytes} (hk : key.length ≤ u64Max) (rest : Bytes) :
    lz4Magic <+: Bincode.bytes.encode key ++ rest ↔ completesMagic key = true := by
  rw [encode_bytes, completesMagic, Bool.and_eq_true, decide_eq_true_eq, decide_eq_true_eq]
  have hlt : key.length < 2 ^ 64 := Nat.lt_of_le_of_lt hk (by decide)
  rcases Bincode.encodeVarint_cases key.length hlt with ⟨hu, he⟩ | ⟨b, k, hb, -, he⟩
  · rw [he, lz4Magic, List.append_assoc, List.singleton_append, List.cons_prefix_cons]
    have hone : (0x04 : UInt8) = UInt8.ofNat key.length ↔ key.length = 4 := by
      rw [← UInt8.toNat_inj, UInt8.toNat_ofNat']
      change 4 = _ ↔ _
      omega
    rw [hone]
    refine and_congr_right fun hlen => ?_
    rw [List.prefix_iff_eq_take]
    change [0x22, 0x4D, 0x18] = (key ++ rest).take 3 ↔ _
    rw [List.take_append_of_le_length (by omega)]
    exact eq_comm
  · have hmarker : b ≠ 0x04 := by
      simp only [List.mem_cons, Prod.mk.injEq, List.not_mem_nil, or_false] at hb
      rcases hb with ⟨rfl, -⟩ | ⟨rfl, -⟩ | ⟨rfl, -⟩ <;> decide
    constructor
    · intro hp
      rw [he, lz4Magic, List.append_assoc, List.cons_append, List.cons_prefix_cons] at hp
      exact absurd hp.1.symm hmarker
    · rintro ⟨hlen, -⟩
      have hfour : Bincode.encodeVarint 4 = [0x04] := by decide
      rw [hlen, hfour, List.cons.injEq] at he
      exact absurd he.1.symm hmarker

theorem encodeAll_magic_iff {d : Codec β UInt8} {l : List (Bytes × β)}
    (h : ∀ p ∈ l, p.1.length ≤ u64Max) :
    lz4Magic <+: (Codec.pair Bincode.bytes d).encodeAll l ↔
      (l.head?.any fun p => completesMagic p.1) = true := by
  cases l with
  | nil => simp [lz4Magic]
  | cons p l =>
    rw [Codec.encodeAll_cons, List.head?_cons, Option.any_some]
    change lz4Magic <+: (Bincode.bytes.encode p.1 ++ d.encode p.2) ++ _ ↔ _
    rw [List.append_assoc]
    exact magic_prefix_iff (h p (List.mem_cons_self ..)) _

theorem magic_of_append {d : Codec β UInt8} {l : List (Bytes × β)} (hne : l ≠ [])
    (h : ∀ p ∈ l, p.1.length ≤ u64Max)
    (hm : lz4Magic <+: (Codec.pair Bincode.bytes d).encodeAll l ++ tail) :
    lz4Magic <+: (Codec.pair Bincode.bytes d).encodeAll l := by
  cases l with
  | nil => exact absurd rfl hne
  | cons p l =>
    have hkey := h p (List.mem_cons_self ..)
    rw [Codec.encodeAll_cons] at hm ⊢
    change lz4Magic <+: ((Bincode.bytes.encode p.1 ++ d.encode p.2) ++ _) ++ tail at hm
    change lz4Magic <+: (Bincode.bytes.encode p.1 ++ d.encode p.2) ++ _
    rw [List.append_assoc, List.append_assoc, magic_prefix_iff hkey] at hm
    rw [List.append_assoc, magic_prefix_iff hkey]
    exact hm

theorem decodeFile_plain {c : Codec α UInt8} {l : List α} (hv : ∀ a ∈ l, c.valid a)
    (h : ¬ lz4Magic <+: c.encodeAll l) :
    decodeFile c (compressedReader lz) (some (c.encodeAll l)) = .ok l :=
  decodeFile_encodeAll hv (compressedReader_plain h) fun he => c.eq_nil_of_encodeAll hv he

theorem decodeFile_compressed {c : Codec α UInt8} {l : List α} (hl : lz.Lawful)
    (hv : ∀ a ∈ l, c.valid a) :
    decodeFile c (compressedReader lz) (some (lz.compress (c.encodeAll l))) = .ok l := by
  have hm := hl.magic (c.encodeAll l)
  refine decodeFile_encodeAll hv ((compressedReader_lz4 hm).trans (hl.roundTrip _)) ?_
  intro he
  rw [he] at hm
  cases List.prefix_nil.1 hm

end

/-- A library whose frames all carry `flags` behind the magic number. -/
def flaggedLz4 (flags : UInt8) : Lz4 where
  compress b := lz4Magic ++ flags :: b
  decompress file :=
    if file.take 5 = lz4Magic ++ [flags] then .ok (file.drop 5) else .error .deserialization

theorem flaggedLz4_lawful (flags : UInt8) : (flaggedLz4 flags).Lawful where
  magic := fun b => List.prefix_append _ _
  roundTrip := by
    intro b
    change (if (lz4Magic ++ flags :: b).take 5 = lz4Magic ++ [flags] then _ else _) = _
    rw [if_pos (by simp [lz4Magic])]
    rfl

/-- Some library takes a plain file that looks compressed for a damaged frame. -/
theorem exists_misread {c : Codec α UInt8} {file : Bytes} (h : lz4Magic <+: file) (l : List α) :
    ∃ lz : Lz4, lz.Lawful ∧ decodeFile c (compressedReader lz) (some file) ≠ .ok l := by
  obtain ⟨rest, rfl⟩ := h
  obtain ⟨flags, hflags⟩ : ∃ flags : UInt8, rest.take 1 ≠ [flags] := by
    cases rest with
    | nil => exact ⟨0, by simp⟩
    | cons b rest =>
      refine ⟨b + 1, fun he => ?_⟩
      simp at he
  refine ⟨flaggedLz4 flags, flaggedLz4_lawful flags, ?_⟩
  have hread : compressedReader (flaggedLz4 flags) (lz4Magic ++ rest) = .error .deserialization := by
    rw [compressedReader_lz4 (List.prefix_append _ _)]
    refine if_neg fun he => hflags ?_
    rw [List.take_append] at he
    exact List.append_cancel_left he
  have hfile : decodeFile c (compressedReader (flaggedLz4 flags)) (some (lz4Magic ++ rest)) =
      .error .deserialization := by
    change (compressedReader (flaggedLz4 flags) (lz4Magic ++ rest) >>= _) = _
    rw [hread]
    rfl
  rw [hfile]
  intro he
  cases he

/-- Reading undoes writing, whatever lawful library is used, exactly when no plain file starts
with a key that completes the magic number. -/
theorem readsBack_iff (mode : CompressionMode) (datastore : SkipMap Bytes Versions)
    (records : List Record) (hd : ∀ e ∈ snapshotEntries datastore, Entry.fits e = true)
    (hr : ∀ r ∈ records, Record.fits r = true) :
    (∀ lz : Lz4, lz.Lawful → ReadsBack lz mode datastore records) ↔
      (mode = .lz4 ∨
        ((snapshotEntries datastore).head?.any fun e => completesMagic e.1) = false) ∧
      (records.head?.any fun r => completesMagic r.1) = false := by
  have hent : lz4Magic <+: Bincode.entry.encodeAll (snapshotEntries datastore) ↔ _ :=
    encodeAll_magic_iff fun e he => Entry.key_fits (hd e he)
  have hrec : lz4Magic <+: Bincode.record.encodeAll records ↔ _ :=
    encodeAll_magic_iff fun r hm => Record.key_fits (hr r hm)
  have hvd : ∀ e ∈ snapshotEntries datastore, Bincode.entry.valid e :=
    fun e he => Bincode.entry_valid (hd e he)
  have hvr : ∀ r ∈ records, Bincode.record.valid r := fun r hm => Bincode.record_valid (hr r hm)
  constructor
  · intro h
    refine ⟨?_, ?_⟩
    · cases mode with
      | lz4 => exact .inl rfl
      | none =>
        refine .inr (Bool.eq_false_iff.2 fun hm => ?_)
        obtain ⟨lz, hl, hne⟩ := exists_misread (c := Bincode.entry) (hent.2 hm)
          (snapshotEntries datastore)
        exact hne (h lz hl).1
    · refine Bool.eq_false_iff.2 fun hm => ?_
      obtain ⟨lz, hl, hne⟩ := exists_misread (c := Bincode.record) (hrec.2 hm) records
      exact hne (h lz hl).2
  · rintro ⟨hsnap, haol⟩ lz hl
    refine ⟨?_, decodeFile_plain hvr fun hm => ?_⟩
    · cases mode with
      | lz4 => exact decodeFile_compressed hl hvd
      | none =>
        refine decodeFile_plain hvd fun hm => ?_
        rcases hsnap with hsnap | hsnap
        · cases hsnap
        · rw [hent.1 hm] at hsnap
          cases hsnap
    · rw [hrec.1 hm] at haol
      cases haol

/-- A datastore with one key. -/
def oneKey (key value : Bytes) : SkipMap Bytes Versions :=
  (∅ : SkipMap Bytes Versions).insert key (.ofVersion ⟨1, some value⟩)

theorem readsBack_plain :
    ReadsBack (flaggedLz4 0x64) .none (oneKey [0x22, 0x4D, 0x18] [1])
      [([0x22, 0x4D, 0x18], 1, some [1]), ([0x22, 0x4D, 0x18, 0x64], 2, none)] := by
  have hplain := (readsBack_iff .none (oneKey [0x22, 0x4D, 0x18] [1])
    [([0x22, 0x4D, 0x18], 1, some [1]), ([0x22, 0x4D, 0x18, 0x64], 2, none)]
    (by decide +kernel) (by decide +kernel)).2 (by decide +kernel)
  exact hplain (flaggedLz4 0x64) (flaggedLz4_lawful 0x64)

/-- The first record of the AOL has a four-byte key behind whose length the magic number is
complete; the byte after it is no frame descriptor. -/
theorem not_readsBack :
    ¬ ∀ (lz : Lz4) (mode : CompressionMode) (datastore : SkipMap Bytes Versions)
      (records : List Record), lz.Lawful →
      (∀ e ∈ snapshotEntries datastore, Entry.fits e = true) →
      (∀ r ∈ records, Record.fits r = true) → ReadsBack lz mode datastore records := by
  intro h
  have hread := (h (flaggedLz4 0x64) .none ∅ [([0x22, 0x4D, 0x18, 0], 1, some [1])]
    (flaggedLz4_lawful 0x64) (by decide +kernel) (by decide +kernel)).2
  have herr : decodeFile Bincode.record (compressedReader (flaggedLz4 0x64))
      (some (Bincode.record.encodeAll [([0x22, 0x4D, 0x18, 0], 1, some [1])])) =
      .error .deserialization := by
    rfl
  rw [herr] at hread
  cases hread

end StupidKv
