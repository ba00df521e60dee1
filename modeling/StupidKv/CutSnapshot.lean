import StupidKv.StaleLog

namespace StupidKv
open Std Framing
set_option autoImplicit true

/-- What `load` promises for a snapshot with these entries that breaks off after `p`: inside an
entry it is refused, and what is accepted is complete and loaded. -/
structure Reported (fmt : Format) (entries : List Entry) (p : Bytes) : Prop where
  refused : fmt.entry.EndsInside entries p → load fmt (some p) none = .error .deserialization
  complete : ∀ datastore, load fmt (some p) none = .ok datastore →
    ∃ found : List Entry, (∀ e ∈ found, fmt.entry.valid e) ∧ p = fmt.entry.encodeAll found ∧
      ∀ e ∈ found, datastore[e.1]? = some (Versions.new.pushAll e.2)

section
variable {fmt : Format} {datastore : SkipMap Bytes Versions} {entries : List Entry} {p : Bytes}

theorem load_snapshot (hr : fmt.snapshotReader p = .ok p)
    (h : fmt.entry.decodeAll p = some entries) :
    load fmt (some p) none = .ok (entries.foldl loadEntry ∅) := by
  unfold load
  rw [decodeFile_of_decodeAll hr h]
  rfl

/-- A snapshot that ends inside an entry is accepted: the loop takes the missing bytes for the end
of the file. -/
theorem load_endsInside (hr : fmt.snapshotReader p = .ok p)
    (hv : ∀ e ∈ entries, fmt.entry.valid e) (h : fmt.entry.EndsInside entries p) :
    ∃ n, load fmt (some p) none = .ok ((entries.take n).foldl loadEntry ∅) := by
  obtain ⟨n, e, q, he, rfl, hq, -, hne⟩ := h
  have heof := fmt.entry.decode_cut e q (hv e (List.mem_of_getElem? he)) hq hne
  refine ⟨n, load_snapshot hr ?_⟩
  rw [fmt.entry.decodeAll_append fun e he => hv e (List.mem_of_mem_take he),
    fmt.entry.decodeAll_eof heof, Option.map_some, List.append_nil]

theorem not_reported_of_endsInside (hr : fmt.snapshotReader p = .ok p)
    (hv : ∀ e ∈ entries, fmt.entry.valid e) (h : fmt.entry.EndsInside entries p) :
    ¬ Reported fmt entries p := by
  intro hrep
  obtain ⟨n, hload⟩ := load_endsInside hr hv h
  have hrefused := hrep.refused h
  rw [hload] at hrefused
  cases hrefused

theorem getElem?_loadEntries {e : Entry} (he : e ∈ (entriesOf datastore).take n) :
    (((entriesOf datastore).take n).foldl loadEntry ∅)[e.1]? =
      some (Versions.new.pushAll e.2) := by
  obtain ⟨ch, -, -, hne⟩ := mem_entriesOf.1 (List.mem_of_mem_take he)
  exact foldl_loadEntry_of_mem ((entriesOf_distinct datastore).sublist (List.take_sublist n _))
    he hne

/-- A cut-off snapshot is reported only if the cut falls between two entries, where there is
nothing to report. -/
theorem reported_iff (hr : fmt.snapshotReader p = .ok p)
    (hv : ∀ e ∈ entriesOf datastore, fmt.entry.valid e)
    (hp : p <+: fmt.entry.encodeAll (entriesOf datastore)) :
    Reported fmt (entriesOf datastore) p ↔
      ∃ n, p = fmt.entry.encodeAll ((entriesOf datastore).take n) := by
  constructor
  · intro hrep
    rcases fmt.entry.ends_cases hp with hn | hin
    · exact hn
    · exact absurd hrep (not_reported_of_endsInside hr hv hin)
  · rintro ⟨n, rfl⟩
    have hvn : ∀ e ∈ (entriesOf datastore).take n, fmt.entry.valid e :=
      fun e he => hv e (List.mem_of_mem_take he)
    constructor
    · intro hin
      exact absurd rfl (hin.ne_encodeAll _ hv hvn)
    · intro loaded hl
      rw [load_snapshot hr (fmt.entry.decodeAll_encodeAll hvn), Except.ok.injEq] at hl
      subst hl
      exact ⟨_, hvn, rfl, fun e he => getElem?_loadEntries he⟩

end

/-- Two keys with one version each. -/
def twoChains : SkipMap Bytes Versions :=
  ((∅ : SkipMap Bytes Versions).insert [1] (.ofVersion ⟨3, some [7]⟩)).insert [2]
    (.ofVersion ⟨4, none⟩)

theorem entriesOf_twoChains :
    entriesOf twoChains = [([1], [(3, some [7])]), ([2], [(4, none)])] := by
  decide +kernel

theorem twoChains_valid : ∀ e ∈ entriesOf twoChains, Format.plain.entry.valid e := by
  intro e he
  apply Bincode.entry_valid
  rw [entriesOf_twoChains] at he
  revert e
  decide

/-- The snapshot breaks off behind its first entry. -/
theorem reported_firstEntry :
    Reported .plain (entriesOf twoChains) [1, 1, 1, 3, 1, 1, 7] := by
  have hp : ([1, 1, 1, 3, 1, 1, 7] : Bytes) =
      Format.plain.entry.encodeAll ((entriesOf twoChains).take 1) := by
    rw [entriesOf_twoChains]
    decide +kernel
  refine (reported_iff rfl twoChains_valid ?_).2 ⟨1, hp⟩
  rw [hp, entriesOf_twoChains]
  decide +kernel

/-- The snapshot breaks off inside its second entry, and is loaded without it. -/
theorem not_reported_secondEntry :
    ¬ ∀ (fmt : Format) (datastore : SkipMap Bytes Versions) (p : Bytes),
      fmt.snapshotReader p = .ok p →
      (∀ e ∈ entriesOf datastore, fmt.entry.valid e) →
      p <+: fmt.entry.encodeAll (entriesOf datastore) →
      Reported fmt (entriesOf datastore) p := by
  intro hall
  have hin : Format.plain.entry.EndsInside (entriesOf twoChains) [1, 1, 1, 3, 1, 1, 7, 1, 2] := by
    rw [entriesOf_twoChains]
    refine ⟨1, ([2], [(4, none)]), [1, 2], rfl, ?_⟩
    decide +kernel
  have hp : ([1, 1, 1, 3, 1, 1, 7, 1, 2] : Bytes) <+:
      Format.plain.entry.encodeAll (entriesOf twoChains) := by
    rw [entriesOf_twoChains]
    decide +kernel
  exact not_reported_of_endsInside rfl twoChains_valid hin
    (hall .plain twoChains _ rfl twoChains_valid hp)

end StupidKv
