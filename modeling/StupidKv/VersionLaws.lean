import StupidKv.Recovery

namespace StupidKv
open Timeline
set_option autoImplicit true

/-- The index `idx` cuts the chain in two: the entries before it satisfy `p` and no other does. The
three ways a search may take all lead there. -/
structure PartitionedAt (p : Version → Bool) (inner : List Version) (idx : Nat) : Prop where
  count : idx = inner.countP p
  before : ∀ i e, inner[i]? = some e → i < idx → p e = true
  behind : ∀ i e, inner[i]? = some e → idx ≤ i → p e = false
  tail : inner.getLast?.any p = true → inner.length = idx
  linear : (rposition p inner).elim 0 (· + 1) = idx
  binary : partitionPoint p inner = idx

theorem PartitionedAt.of_split {lo hi : List Version} {p : Version → Bool}
    (h : ∀ a ∈ hi, p a = false) (h' : ∀ a ∈ lo, p a = true) :
    PartitionedAt p (lo ++ hi) lo.length := by
  constructor
  case count =>
    have hlo : lo.countP p = lo.length := List.countP_eq_length.2 h'
    have hhi : hi.countP p = 0 := List.countP_eq_zero.2 fun a ha => by simp [h a ha]
    rw [List.countP_append, hlo, hhi, Nat.add_zero]
  case before =>
    intro i e he hi'
    rw [List.getElem?_append_left hi'] at he
    exact h' e (List.mem_of_getElem? he)
  case behind =>
    intro i e he hi'
    rw [List.getElem?_append_right hi'] at he
    exact h e (List.mem_of_getElem? he)
  case tail =>
    intro hl
    cases hi using List.reverseRecOn with
    | nil => rw [List.append_nil]
    | append_singleton hi a =>
      rw [← List.append_assoc, List.getLast?_concat, Option.any_some, h a (by simp)] at hl
      cases hl
  case linear => exact rposition_of_split p h h'
  case binary => exact partitionPoint_of_split p h h'

/-- Both searches cut every chain where their comparison stops to hold. -/
theorem Versions.findIndex_partitions (ch : Versions) (v : Nat) :
    PartitionedAt (fun e => e.version < v) ch.inner (findIndexLtVersion ch.inner v) ∧
      PartitionedAt (fun e => e.version ≤ v) ch.inner (findIndexLteVersion ch.inner v) := by
  constructor
  · obtain ⟨lo, hi, hl, hlo, hhi⟩ := ch.ascending.splitBefore v
    rw [hl, findIndexLtVersion_of_split hhi hlo]
    apply PartitionedAt.of_split
    · intro a ha
      exact decide_eq_false (Nat.not_lt.2 (hhi a ha))
    · intro a ha
      exact decide_eq_true (hlo a ha)
  · obtain ⟨lo, hi, hl, hlo, hhi⟩ := ch.ascending.split v
    rw [hl, findIndexLteVersion_of_split hhi hlo]
    apply PartitionedAt.of_split
    · intro a ha
      exact decide_eq_false (Nat.not_le.2 (hhi a ha))
    · intro a ha
      exact decide_eq_true (hlo a ha)

namespace Versions

/-- `ch'` is `ch` with the write `w` stored in its place, redundant or not. -/
def Stores (ch ch' : Versions) (w : Version) : Prop :=
  ∀ e, e ∈ ch'.inner ↔ e = w ∨ e ∈ ch.inner ∧ e.version ≠ w.version

/-- No entry of the chain lies behind `v` and at or before `q`. -/
def NoneBetween (ch : Versions) (v q : Nat) : Prop :=
  ∀ e ∈ ch.inner, ¬ (v < e.version ∧ e.version ≤ q)

instance (ch : Versions) (v q : Nat) : Decidable (ch.NoneBetween v q) :=
  inferInstanceAs (Decidable (∀ e ∈ ch.inner, _))

theorem noneBetween_iff (ch : Versions) (v q : Nat) :
    ch.NoneBetween v q ↔ ∀ e ∈ ch.inner, e.version ≤ q → e.version ≤ v := by
  unfold NoneBetween
  constructor
  · intro h e he hq
    by_contra hv
    exact h e he ⟨Nat.not_le.1 hv, hq⟩
  · intro h e he hc
    exact absurd (h e he hc.2) (Nat.not_le.2 hc.1)

theorem fetchVersion_push_shown_of (ch : Versions) {w : Version} (hq : w.version ≤ q)
    (hn : ch.NoneBetween w.version q) : (ch.push w).fetchVersion q = w.value := by
  rw [ch.fetchVersion_push, if_pos ⟨hq, (ch.noneBetween_iff _ _).1 hn⟩]

theorem fetchVersion_push_kept_of (ch : Versions) {w : Version}
    (hn : ¬ (w.version ≤ q ∧ ch.NoneBetween w.version q)) :
    (ch.push w).fetchVersion q = ch.fetchVersion q := by
  rw [ch.fetchVersion_push, if_neg]
  rw [noneBetween_iff] at hn
  exact hn

/-- Storing the write would have shown every reader the same. -/
theorem fetchVersion_stores {ch ch' : Versions} (h : ch.Stores ch' w) (q : Nat) :
    ch'.fetchVersion q = (ch.push w).fetchVersion q := by
  have hw : (w.version, w.value) ∈ ch'.writes := (h w).2 (.inl rfl)
  by_cases hc : w.version ≤ q ∧ ch.NoneBetween w.version q
  · rw [ch.fetchVersion_push_shown_of hc.1 hc.2]
    refine (ch'.fetchVersion_visible q).unique ch'.writes_functional (.written hw hc.1 ?_)
    intro t x hx htq
    rcases (h ⟨t, x⟩).1 hx with he | ⟨he, -⟩
    · exact (congrArg Version.version he).le
    · exact (ch.noneBetween_iff _ _).1 hc.2 ⟨t, x⟩ he htq
  · rw [ch.fetchVersion_push_kept_of hc]
    refine (ch'.fetchVersion_visible q).unique ch'.writes_functional ?_
    -- What the old chain shows at `q` was written after `w`, or `w` lies in the future of `q`.
    have hold := ch.fetchVersion_visible q
    rw [noneBetween_iff] at hc
    by_cases hq : w.version ≤ q
    · simp only [hq, true_and, not_forall, Nat.not_le] at hc
      obtain ⟨e, he, heq, hwe⟩ := hc
      generalize ch.fetchVersion q = y at hold
      cases hold with
      | @written t _ hx htq hl =>
        have het : e.version ≤ t := hl e.version e.value he heq
        refine .written ((h ⟨t, y⟩).2 (.inr ⟨hx, (hwe.trans_le het).ne'⟩)) htq ?_
        intro t' x' hx' htq'
        rcases (h ⟨t', x'⟩).1 hx' with he' | ⟨he', -⟩
        · exact (congrArg Version.version he').le.trans (hwe.le.trans het)
        · exact hl t' x' he' htq'
      | unwritten hn => exact absurd heq (Nat.not_le.2 (hn e.version e.value he))
    · refine hold.congr fun t y ht => ?_
      constructor
      · intro hx
        exact (h ⟨t, y⟩).2 (.inr ⟨hx, fun he => hq (he ▸ ht)⟩)
      · intro hx
        rcases (h ⟨t, y⟩).1 hx with he | ⟨he, -⟩
        · exact absurd ((congrArg Version.version he).symm.le.trans ht) hq
        · exact he

/-- One push, as every reader sees it; a redundant write that is skipped reads like one that is
stored. -/
theorem push_exact (ch : Versions) (w : Version) :
    Ascending (ch.push w).inner ∧
      (∀ q, w.version ≤ q → ch.NoneBetween w.version q → (ch.push w).fetchVersion q = w.value) ∧
      (∀ q, ¬ (w.version ≤ q ∧ ch.NoneBetween w.version q) →
        (ch.push w).fetchVersion q = ch.fetchVersion q) ∧
      (∀ q, (ch.push w).existsVersion q = ((ch.push w).fetchVersion q).isSome) ∧
      ∀ ch' : Versions, ch.Stores ch' w → ∀ q, ch'.fetchVersion q = (ch.push w).fetchVersion q :=
  ⟨(ch.push w).ascending, fun _ hq hn => ch.fetchVersion_push_shown_of hq hn,
    fun _ hn => ch.fetchVersion_push_kept_of hn, fun q => (ch.push w).existsVersion_eq q,
    fun _ h q => fetchVersion_stores h q⟩

end Versions

/-- `gc_older_versions` with the count it returns. -/
def gcOlderVersionsCounted (inner : List Version) (version : Nat) : List Version × Nat :=
  let lte := findIndexLteVersion inner version
  if lte = 0 then (inner, inner.length)
  else
    let visible := lte - 1
    let left :=
      match inner[visible]? with
      | some v => if v.value.isNone then inner.drop lte else inner.drop visible
      | none => inner
    (left, left.length)

theorem gcOlderVersionsCounted_eq (inner : List Version) (version : Nat) :
    gcOlderVersionsCounted inner version =
      (gcOlderVersions inner version, (gcOlderVersions inner version).length) := by
  simp only [gcOlderVersionsCounted, gcOlderVersions]
  split
  · rfl
  · rfl

/-- What compaction keeps of the entries at or below its watermark. -/
def survivor (lo : List Version) : List Version :=
  match lo.getLast? with
  | some x => if x.value.isNone then [] else [x]
  | none => []

@[simp] theorem survivor_nil : survivor [] = [] := rfl

@[simp] theorem survivor_concat (lo : List Version) (x : Version) :
    survivor (lo ++ [x]) = if x.value.isNone then [] else [x] := by
  simp only [survivor, List.getLast?_concat]

theorem survivor_subset (lo : List Version) : survivor lo ⊆ lo := by
  cases lo using List.reverseRecOn with
  | nil => simp
  | append_singleton lo x =>
    rw [survivor_concat]
    split
    · simp
    · simp

theorem gcOlderVersions_survivor (h : ∀ a ∈ hi, v < a.version) (h' : ∀ a ∈ lo, a.version ≤ v) :
    gcOlderVersions (lo ++ hi) v = survivor lo ++ hi := by
  rw [gcOlderVersions_split h h', survivor]
  cases lo.getLast? with
  | none => rfl
  | some x =>
    simp only
    split
    · rfl
    · rfl

theorem survivor_length (lo : List Version) : (survivor lo).length ≤ 1 := by
  cases lo using List.reverseRecOn with
  | nil => simp
  | append_singleton lo x =>
    rw [survivor_concat]
    split <;> simp

theorem survivor_value (lo : List Version) : ∀ e ∈ survivor lo, e.value.isSome = true := by
  cases lo using List.reverseRecOn with
  | nil => simp
  | append_singleton lo x =>
    rw [survivor_concat]
    split
    · simp
    · rename_i hx
      simpa [Option.isSome_iff_ne_none] using hx

theorem survivor_eq_nil_iff (lo : List Version) : survivor lo = [] ↔ lastValue lo = none := by
  cases lo using List.reverseRecOn with
  | nil => simp
  | append_singleton lo x => simp

/-- What one compaction keeps, drops and returns. -/
theorem Versions.gcOlderVersions_exact (ch : Versions) (w : Nat) :
    Ascending (ch.gcOlderVersions w).inner ∧
      (ch.gcOlderVersions w).inner <:+ ch.inner ∧
      (∀ q, w ≤ q → (ch.gcOlderVersions w).fetchVersion q = ch.fetchVersion q ∧
        (ch.gcOlderVersions w).existsVersion q = ch.existsVersion q) ∧
      ((ch.gcOlderVersions w).inner.filter fun e => decide (e.version ≤ w)).length ≤ 1 ∧
      (∀ e ∈ (ch.gcOlderVersions w).inner, e.version ≤ w → e.value.isSome = true) ∧
      (∀ e ∈ ch.inner, w < e.version → e ∈ (ch.gcOlderVersions w).inner) ∧
      gcOlderVersionsCounted ch.inner w =
        ((ch.gcOlderVersions w).inner, (ch.gcOlderVersions w).inner.length) ∧
      ((gcOlderVersionsCounted ch.inner w).2 = 0 ↔
        (∀ e ∈ ch.inner, e.version ≤ w) ∧ ch.fetchVersion w = none) := by
  obtain ⟨lo, hi, hl, hlo, hhi⟩ := ch.ascending.split w
  have hinner : (ch.gcOlderVersions w).inner = survivor lo ++ hi := by
    rw [← gcOlderVersions_survivor hhi hlo, ← hl]
    rfl
  have hcount := gcOlderVersionsCounted_eq ch.inner w
  have hfetch : ∀ q, w ≤ q → (ch.gcOlderVersions w).fetchVersion q = ch.fetchVersion q :=
    fun q hq => ch.fetchVersion_gcOlderVersions hq
  have hhi' : (hi.filter fun e => decide (e.version ≤ w)) = [] :=
    List.filter_eq_nil_iff.2 fun e he => by simp [hhi e he]
  refine ⟨(ch.gcOlderVersions w).ascending, gcOlderVersions_suffix ch.ascending w, ?_, ?_, ?_, ?_,
    hcount, ?_⟩
  · intro q hq
    refine ⟨hfetch q hq, ?_⟩
    rw [existsVersion_eq, existsVersion_eq, hfetch q hq]
  · rw [hinner, List.filter_append, hhi', List.append_nil]
    exact (List.length_filter_le _ _).trans (survivor_length lo)
  · intro e he hw
    rw [hinner] at he
    rcases List.mem_append.1 he with he | he
    · exact survivor_value lo e he
    · exact absurd hw (Nat.not_le.2 (hhi e he))
  · intro e he hw
    rw [hl] at he
    rw [hinner]
    rcases List.mem_append.1 he with he | he
    · exact absurd (hlo e he) (Nat.not_le.2 hw)
    · exact List.mem_append_right (survivor lo) he
  · rw [hcount, List.length_eq_zero_iff]
    change (ch.gcOlderVersions w).inner = [] ↔ _
    rw [hinner, List.append_eq_nil_iff, survivor_eq_nil_iff, ch.fetchVersion_split lo hi hl hhi hlo, and_comm]
    refine and_congr_left fun _ => ?_
    constructor
    · rintro rfl e he
      rw [hl, List.append_nil] at he
      exact hlo e he
    · intro hall
      refine List.eq_nil_iff_forall_not_mem.2 fun e he => ?_
      exact absurd (hall e (by rw [hl]; exact List.mem_append_right lo he)) (Nat.not_le.2 (hhi e he))

end StupidKv
