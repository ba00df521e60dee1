import StupidKv.Lib.Execution
import StupidKv.Compression

namespace StupidKv
open Std Framing
set_option autoImplicit true

/-- The AOL over a sequence of sessions. The records of the appends that returned, and those of
all appends, are history. -/
structure TornLog where
  aol : Bytes
  running : Bool
  acknowledged : List Record
  attempted : List Record

inductive LogAction where
  /-- A session ends and the next one loads the file. -/
  | load
  | append (version : Nat) (writeset : Writeset)
  /-- Only `n` bytes of an append reach the file; it fails, or the process dies with it. -/
  | cut (version : Nat) (writeset : Writeset) (n : Nat) (crash : Bool)

namespace TornLog

def new : TornLog := ⟨[], false, [], []⟩

/-- The records `load` replays. -/
def replay (lz : Lz4) (s : TornLog) : Except PersistenceError (List Record) :=
  decodeFile Bincode.record (compressedReader lz) (some s.aol)

def step (lz : Lz4) (s : TornLog) : LogAction → Option TornLog
  | .load =>
    match s.replay lz with
    | .ok _ => some { s with running := true }
    | .error _ => none
  | .append version writeset =>
    let records := recordsOf version writeset
    if s.running && records.all Record.fits then
      some { s with
        aol := s.aol ++ Bincode.record.encodeAll records
        acknowledged := s.acknowledged ++ records
        attempted := s.attempted ++ records }
    else none
  | .cut version writeset n crash =>
    let records := recordsOf version writeset
    if s.running && records.all Record.fits then
      some { s with
        aol := s.aol ++ (Bincode.record.encodeAll records).take n
        running := !crash
        attempted := s.attempted ++ records }
    else none

/-- Every acknowledged record is replayed in its place, and nothing that was not appended. -/
def Replays (lz : Lz4) (s : TornLog) : Prop :=
  ∃ l, s.replay lz = .ok l ∧ s.acknowledged.Sublist l ∧ l.Sublist s.attempted

/-- The file ends with a complete record. -/
def endsWhole (aol : Bytes) : Bool :=
  decide ((Bincode.record.decodeAll aol).map Bincode.record.encodeAll = some aol)

/-- Nothing is appended behind a torn record, and the first record does not make the file look
compressed. -/
def untorn (s : TornLog) : LogAction → Bool
  | .load => true
  | .append version writeset | .cut version writeset _ _ =>
    endsWhole s.aol && (!s.aol.isEmpty ||
      !(recordsOf version writeset).head?.any fun r => completesMagic r.1)

/-- The file holds complete records and at most the beginning of another one. -/
structure Framed (s : TornLog) : Prop where
  split : ∃ l q, (∀ r ∈ l, Record.fits r = true) ∧ s.aol = Bincode.record.encodeAll l ++ q ∧
    Bincode.record.decode q = .eof ∧ s.acknowledged.Sublist l ∧ l.Sublist s.attempted
  plain : ¬ lz4Magic <+: s.aol

section
variable {lz : Lz4} {s t : TornLog} {a : LogAction}

theorem decodeAll_split {l : List Record} (hl : ∀ r ∈ l, Record.fits r = true)
    (hq : Bincode.record.decode q = .eof) :
    Bincode.record.decodeAll (Bincode.record.encodeAll l ++ q) = some l := by
  rw [Codec.decodeAll_append _ fun r hr => Bincode.record_valid (hl r hr), Codec.decodeAll_eof _ hq]
  simp

theorem Framed.replays (h : s.Framed) : s.Replays lz := by
  obtain ⟨l, q, hl, ha, hq, hack, hatt⟩ := h.split
  refine ⟨l, ?_, hack, hatt⟩
  have hd := decodeAll_split hl hq
  rw [← ha] at hd
  have hread : compressedReader lz s.aol = .ok s.aol := compressedReader_plain h.plain
  unfold replay
  cases haol : s.aol with
  | nil =>
    rw [haol, Codec.decodeAll_nil, Option.some.injEq] at hd
    rw [← hd]
    rfl
  | cons b aol =>
    rw [haol] at hd hread
    simp only [decodeFile, bind, Except.bind, hread, hd]

theorem Framed.whole (h : s.Framed) (hw : endsWhole s.aol = true) :
    ∃ l, (∀ r ∈ l, Record.fits r = true) ∧ s.aol = Bincode.record.encodeAll l ∧
      s.acknowledged.Sublist l ∧ l.Sublist s.attempted := by
  obtain ⟨l, q, hl, ha, hq, hack, hatt⟩ := h.split
  refine ⟨l, hl, ?_, hack, hatt⟩
  have hd := decodeAll_split hl hq
  rw [← ha] at hd
  have he := of_decide_eq_true hw
  rw [hd, Option.map_some, Option.some.injEq] at he
  exact he.symm

theorem Framed.plain_append {records : List Record} (h : s.Framed)
    (hr : ∀ r ∈ records, Record.fits r = true) (hw : endsWhole s.aol = true)
    (hm : (!s.aol.isEmpty || !records.head?.any fun r => completesMagic r.1) = true)
    (hp : p <+: Bincode.record.encodeAll records) : ¬ lz4Magic <+: s.aol ++ p := by
  obtain ⟨l, hl, hwhole, -⟩ := h.whole hw
  intro hmagic
  by_cases he : s.aol = []
  · rw [he, List.nil_append] at hmagic
    have hfirst : (records.head?.any fun r => completesMagic r.1) = true :=
      (encodeAll_magic_iff fun r hm => Record.key_fits (hr r hm)).1 (hmagic.trans hp)
    rw [he, hfirst] at hm
    cases hm
  · refine h.plain ?_
    rw [hwhole] at hmagic he ⊢
    refine magic_of_append ?_ (fun r hm => Record.key_fits (hl r hm)) hmagic
    rintro rfl
    exact he rfl

theorem Framed.new : Framed .new where
  split := ⟨[], [], by simp, rfl, Codec.decode_nil _, List.Sublist.slnil, List.Sublist.slnil⟩
  plain := by decide

theorem Framed.step (h : s.Framed) (hg : s.untorn a = true) (hs : s.step lz a = some t) :
    t.Framed := by
  cases a with
  | load =>
    simp only [TornLog.step] at hs
    split at hs
    · cases hs
      exact ⟨h.split, h.plain⟩
    · cases hs
  | append version writeset =>
    obtain ⟨hr, hs⟩ := Option.ite_none_right_eq_some.1 hs
    cases hs
    obtain ⟨-, hr⟩ := Bool.and_eq_true_iff.1 hr
    obtain ⟨hw, hm⟩ := Bool.and_eq_true_iff.1 hg
    have hfits := List.all_eq_true.1 hr
    obtain ⟨l, hl, ha, hack, hatt⟩ := h.whole hw
    refine ⟨⟨l ++ recordsOf version writeset, [], ?_, ?_, Codec.decode_nil _,
      hack.append (List.Sublist.refl _), hatt.append (List.Sublist.refl _)⟩,
      h.plain_append hfits hw hm (List.prefix_refl _)⟩
    · intro r hr
      rcases List.mem_append.1 hr with hr | hr
      · exact hl r hr
      · exact hfits r hr
    · rw [List.append_nil, Codec.encodeAll_append, ha]
  | cut version writeset n crash =>
    obtain ⟨hr, hs⟩ := Option.ite_none_right_eq_some.1 hs
    cases hs
    obtain ⟨-, hr⟩ := Bool.and_eq_true_iff.1 hr
    obtain ⟨hw, hm⟩ := Bool.and_eq_true_iff.1 hg
    have hfits := List.all_eq_true.1 hr
    have hp := List.take_prefix n (Bincode.record.encodeAll (recordsOf version writeset))
    obtain ⟨l, hl, ha, hack, hatt⟩ := h.whole hw
    obtain ⟨k, q, hq, heof⟩ :=
      Bincode.record.cut_cases (fun r hm => Bincode.record_valid (hfits r hm)) hp
    refine ⟨⟨l ++ (recordsOf version writeset).take k, q, ?_, ?_, heof, ?_, ?_⟩,
      h.plain_append hfits hw hm hp⟩
    · intro r hr
      rcases List.mem_append.1 hr with hr | hr
      · exact hl r hr
      · exact hfits r (List.mem_of_mem_take hr)
    · rw [Codec.encodeAll_append, List.append_assoc, ← hq, ha]
    · exact hack.trans (List.sublist_append_left _ _)
    · exact hatt.append (List.take_sublist k _)

end

/-- As long as nothing is appended behind a torn record, `load` replays every acknowledged
record. -/
theorem replays_of_untorn (lz : Lz4) {s : TornLog}
    (h : Execution.Run (step lz) (fun s a => s.untorn a = true) .new s) : s.Replays lz := by
  have hs : s.Framed := by
    refine h.invariant ?_ Framed.new
    intro s a t hs hg ht
    exact hs.step hg ht
  exact hs.replays

def one (key : Bytes) (value : Option Bytes) : Writeset := (∅ : Writeset).insert key value

/-- A session whose last append is cut off, and one that only loads. -/
def lastTorn : List LogAction :=
  [.load, .append 1 (one [7] (some [9])), .cut 2 (one [8] none) 3 true, .load]

theorem replays_lastTorn :
    ∃ s, Execution.Run (step (flaggedLz4 0x64)) (fun s a => s.untorn a = true) .new s ∧
      s.acknowledged.length = 1 ∧ s.aol.length = 9 ∧ s.Replays (flaggedLz4 0x64) := by
  have hrun : (Execution.exec (fun s a => if s.untorn a then step (flaggedLz4 0x64) s a else none)
      .new lastTorn).map (fun s => decide (s.acknowledged.length = 1) && decide (s.aol.length = 9)) =
      some true := by
    decide +kernel
  obtain ⟨s, hs, hb⟩ := Execution.exec_check hrun
  simp only [Bool.and_eq_true, decide_eq_true_eq] at hb
  exact ⟨s, .of_guarded hs, hb.1, hb.2, replays_of_untorn (flaggedLz4 0x64) (.of_guarded hs)⟩

/-- One byte of a first append is left behind, and the next record is decoded from inside it. -/
def appendedBehind : List LogAction :=
  [.load, .cut 1 (one [5] none) 1 true, .load, .append 2 (one [7] (some []))]

/-- An acknowledged record is not among those replayed. -/
def losesRecord (lz : Lz4) (r : Record) (s : TornLog) : Bool :=
  match s.replay lz with
  | .ok l => s.acknowledged.contains r && !l.contains r
  | .error _ => true

theorem losesRecord_spec {s : TornLog} (h : losesRecord lz r s = true) : ¬ s.Replays lz := by
  rintro ⟨l, hl, hack, -⟩
  simp only [losesRecord, hl, Bool.and_eq_true, Bool.not_eq_true', List.contains_eq_mem,
    decide_eq_true_eq, decide_eq_false_iff_not] at h
  exact h.2 (hack.subset h.1)

theorem not_replays :
    ¬ ∀ s, Execution.Run (step (flaggedLz4 0x64)) (fun _ _ => True) .new s →
      s.Replays (flaggedLz4 0x64) := by
  intro hall
  have hrun : (Execution.exec (step (flaggedLz4 0x64)) .new appendedBehind).map
      (losesRecord (flaggedLz4 0x64) ([7], 2, some [])) = some true := by
    decide +kernel
  obtain ⟨s, hs, hb⟩ := Execution.exec_check hrun
  exact losesRecord_spec hb (hall s (.of_exec hs))

end TornLog

end StupidKv
