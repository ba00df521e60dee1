import StupidKv.Versions

namespace StupidKv
open Timeline
set_option autoImplicit true

/-- A version chain carries the order its searches rely on. -/
structure Versions where
  inner : List Version
  ascending : Ascending inner

/-- The value of the newest entry, when it has one. -/
def lastValue (l : List Version) : Option Bytes := l.getLast?.bind Version.value

@[simp] theorem lastValue_nil : lastValue [] = none := rfl

@[simp] theorem lastValue_concat (l : List Version) (w : Version) :
    lastValue (l ++ [w]) = w.value := by simp [lastValue]

theorem lastValue_append (l : List Version) (h : l' ≠ []) :
    lastValue (l ++ l') = lastValue l' := by
  cases l' using List.reverseRecOn with
  | nil => exact absurd rfl h
  | append_singleton l' w => rw [← List.append_assoc, lastValue_concat, lastValue_concat]

theorem Ascending.split (h : Ascending l) (v : Nat) :
    ∃ lo hi, l = lo ++ hi ∧ (∀ a ∈ lo, a.version ≤ v) ∧ ∀ a ∈ hi, v < a.version := by
  induction l with
  | nil => exact ⟨[], [], rfl, by simp, by simp⟩
  | cons a l ih =>
    obtain ⟨ha, hl⟩ := List.pairwise_cons.1 h
    by_cases hv : a.version ≤ v
    · obtain ⟨lo, hi, rfl, hlo, hhi⟩ := ih hl
      refine ⟨a :: lo, hi, rfl, ?_, hhi⟩
      rintro b (_ | ⟨_, hb⟩)
      · exact hv
      · exact hlo b hb
    · refine ⟨[], a :: l, rfl, by simp, ?_⟩
      rintro b (_ | ⟨_, hb⟩)
      · exact Nat.lt_of_not_le hv
      · exact (Nat.lt_of_not_le hv).trans (ha b hb)

theorem Ascending.splitBefore (h : Ascending l) (v : Nat) :
    ∃ lo hi, l = lo ++ hi ∧ (∀ a ∈ lo, a.version < v) ∧ ∀ a ∈ hi, v ≤ a.version := by
  cases v with
  | zero => exact ⟨[], l, rfl, by simp, by simp⟩
  | succ v =>
    obtain ⟨lo, hi, hl, hlo, hhi⟩ := h.split v
    exact ⟨lo, hi, hl, fun a ha => Nat.lt_succ_of_le (hlo a ha), hhi⟩

theorem Ascending.around (h : Ascending l) (v : Nat) :
    (∃ lo hi, l = lo ++ hi ∧ (∀ a ∈ lo, a.version < v) ∧ ∀ a ∈ hi, v < a.version) ∨
      ∃ lo e hi, l = lo ++ e :: hi ∧ e.version = v ∧ (∀ a ∈ lo, a.version < v) ∧
        ∀ a ∈ hi, v < a.version := by
  obtain ⟨lo, hi, rfl, hlo, hhi⟩ := h.split v
  cases lo using List.reverseRecOn with
  | nil => exact .inl ⟨[], hi, rfl, by simp, hhi⟩
  | append_singleton lo e =>
    have hlt : ∀ a ∈ lo, a.version < e.version := by
      have hp := (List.pairwise_append.1 (List.pairwise_append.1 h).1).2.2
      exact fun a ha => hp a ha e (by simp)
    rcases Nat.lt_or_eq_of_le (hlo e (by simp)) with he | he
    · refine .inl ⟨lo ++ [e], hi, rfl, ?_, hhi⟩
      intro a ha
      rcases List.mem_append.1 ha with ha | ha
      · exact (hlt a ha).trans he
      · rw [List.mem_singleton.1 ha]
        exact he
    · exact .inr ⟨lo, e, hi, by simp, he, fun a ha => he ▸ hlt a ha, hhi⟩

theorem insertIdx_append_length (l l' : List α) (a : α) :
    (l ++ l').insertIdx l.length a = l ++ a :: l' :=
  List.modifyTailIdx_add (List.cons a) 0 l l'

theorem modify_append_length (f : α → α) (l l' : List α) (a : α) :
    (l ++ a :: l').modify l.length f = l ++ f a :: l' :=
  List.modifyTailIdx_add (List.modifyHead f) 0 l (a :: l')

theorem pushVersion_append (h : ∀ a ∈ hi, w.version < a.version)
    (h' : ∀ a ∈ lo, a.version < w.version) :
    pushVersion (lo ++ hi) w =
      if lastValue lo = w.value then lo ++ hi else lo ++ w :: hi := by
  have hidx := findIndexLteVersion_of_split h fun a ha => Nat.le_of_lt (h' a ha)
  cases hi using List.reverseRecOn with
  | nil =>
    cases lo using List.reverseRecOn with
    | nil => cases hv : w.value <;> simp [pushVersion, hv]
    | append_singleton lo last =>
      have hlast := h' last (by simp)
      simp only [List.append_nil, pushVersion, List.getLast?_concat, hlast, ↓reduceIte,
        lastValue_concat, ne_eq, ite_not, eq_comm]
  | append_singleton hi last =>
    have hlast := h last (by simp)
    have hgt : ¬ w.version > last.version := by omega
    have hne : ¬ w.version = last.version := by omega
    rw [← List.append_assoc, pushVersion, List.getLast?_concat]
    simp only [hgt, hne, ↓reduceIte, fetchIndexOrUpdate]
    rw [List.append_assoc, hidx]
    cases lo using List.reverseRecOn with
    | nil => cases hv : w.value <;> simp
    | append_singleton lo e =>
      have he : e.version ≠ w.version := Nat.ne_of_lt (h' e (by simp))
      have hg : (lo ++ [e] ++ (hi ++ [last]))[(lo ++ [e]).length - 1]? = some e := by simp
      simp only [List.length_append, List.length_singleton, Nat.add_eq_zero_iff,
        Nat.one_ne_zero, and_false, ↓reduceIte] at hg ⊢
      simp only [hg, he, ↓reduceIte, lastValue_concat]
      by_cases hv : e.value = w.value
      · simp only [hv, ↓reduceIte]
      · simp only [hv, ↓reduceIte]
        rw [show lo.length + 1 = (lo ++ [e]).length by simp, insertIdx_append_length]

theorem pushVersion_present (he : e.version = w.version)
    (h : ∀ a ∈ hi, w.version < a.version) (h' : ∀ a ∈ lo, a.version < w.version) :
    pushVersion (lo ++ e :: hi) w = lo ++ w :: hi := by
  have hw : ({ e with value := w.value } : Version) = w := by
    cases e
    cases w
    simp_all
  have hew (hv : w.value = e.value) : e = w := by rw [← hw, hv]
  have hidx : findIndexLteVersion (lo ++ e :: hi) w.version = (lo ++ [e]).length := by
    rw [show lo ++ e :: hi = (lo ++ [e]) ++ hi by simp]
    refine findIndexLteVersion_of_split h ?_
    intro a ha
    rcases List.mem_append.1 ha with ha | ha
    · exact Nat.le_of_lt (h' a ha)
    · rw [List.mem_singleton.1 ha]
      exact Nat.le_of_eq he
  cases hi using List.reverseRecOn with
  | nil =>
    simp only [pushVersion, List.getLast?_concat, he, gt_iff_lt, Nat.lt_irrefl, ↓reduceIte,
      ne_eq, ite_not, List.dropLast_concat]
    split
    · rename_i hv
      rw [hew hv]
    · rw [← he, hw]
  | append_singleton hi last =>
    have hlast := h last (by simp)
    have hgt : ¬ w.version > last.version := by omega
    have hne : ¬ w.version = last.version := by omega
    rw [show lo ++ e :: (hi ++ [last]) = (lo ++ e :: hi) ++ [last] by simp, pushVersion,
      List.getLast?_concat]
    simp only [hgt, hne, ↓reduceIte, fetchIndexOrUpdate]
    rw [show (lo ++ e :: hi) ++ [last] = lo ++ e :: (hi ++ [last]) by simp, hidx]
    simp only [List.length_append, List.length_singleton, Nat.add_eq_zero_iff,
      Nat.one_ne_zero, and_false, ↓reduceIte, Nat.add_sub_cancel]
    rw [List.getElem?_append_right (Nat.le_refl _)]
    simp only [Nat.sub_self, List.getElem?_cons_zero, he, ↓reduceIte]
    by_cases hv : e.value = w.value
    · simp only [hv, ↓reduceIte]
      rw [hew hv.symm]
    · simp only [hv, ↓reduceIte]
      rw [modify_append_length, hw]

theorem Ascending.insert (h : Ascending (lo ++ hi)) (hh : ∀ a ∈ hi, w.version < a.version)
    (hl : ∀ a ∈ lo, a.version < w.version) : Ascending (lo ++ w :: hi) := by
  obtain ⟨h₁, h₂, h₃⟩ := List.pairwise_append.1 h
  refine List.pairwise_append.2 ⟨h₁, List.pairwise_cons.2 ⟨hh, h₂⟩, ?_⟩
  rintro a ha b (_ | ⟨_, hb⟩)
  · exact hl a ha
  · exact h₃ a ha b hb

theorem Ascending.pushVersion (h : Ascending l) (w : Version) :
    Ascending (pushVersion l w) := by
  rcases h.around w.version with ⟨lo, hi, rfl, hlo, hhi⟩ | ⟨lo, e, hi, rfl, he, hlo, hhi⟩
  · rw [pushVersion_append hhi hlo]
    split
    · exact h
    · exact h.insert hhi hlo
  · rw [pushVersion_present he hhi hlo]
    refine Ascending.insert ?_ hhi hlo
    exact h.sublist (List.Sublist.append_left (List.sublist_cons_self e hi) lo)

theorem gcOlderVersions_split (h : ∀ a ∈ hi, v < a.version) (h' : ∀ a ∈ lo, a.version ≤ v) :
    gcOlderVersions (lo ++ hi) v =
      match lo.getLast? with
      | none => hi
      | some x => if x.value.isNone then hi else x :: hi := by
  unfold gcOlderVersions
  rw [findIndexLteVersion_of_split h h']
  cases lo using List.reverseRecOn with
  | nil => rfl
  | append_singleton lo x =>
    simp only [List.length_append, List.length_singleton, Nat.add_eq_zero_iff,
      Nat.one_ne_zero, and_false, ↓reduceIte, Nat.add_sub_cancel, List.getLast?_concat]
    rw [List.append_assoc, List.getElem?_append_right (Nat.le_refl _)]
    simp only [Nat.sub_self, List.singleton_append, List.getElem?_cons_zero]
    split
    · rw [show lo ++ x :: hi = (lo ++ [x]) ++ hi by simp]
      exact List.drop_left' (by simp)
    · exact List.drop_left

theorem gcOlderVersions_suffix (h : Ascending l) (v : Nat) : gcOlderVersions l v <:+ l := by
  obtain ⟨lo, hi, rfl, hlo, hhi⟩ := h.split v
  rw [gcOlderVersions_split hhi hlo]
  cases lo using List.reverseRecOn with
  | nil => exact List.suffix_rfl
  | append_singleton lo x =>
    simp only [List.getLast?_concat]
    split
    · exact List.suffix_append _ _
    · exact ⟨lo, by simp⟩

def Versions.new : Versions := ⟨[], List.Pairwise.nil⟩

def Versions.ofVersion (version : Version) : Versions := ⟨[version], List.pairwise_singleton _ _⟩

def Versions.push (ch : Versions) (w : Version) : Versions :=
  ⟨pushVersion ch.inner w, ch.ascending.pushVersion w⟩

def Versions.fetchVersion (ch : Versions) (version : Nat) : Option Bytes :=
  let idx := findIndexLteVersion ch.inner version
  if idx > 0 then ch.inner[idx - 1]?.bind Version.value else none

def Versions.existsVersion (ch : Versions) (version : Nat) : Bool :=
  let idx := findIndexLteVersion ch.inner version
  if idx > 0 then ch.inner[idx - 1]?.any fun v => v.value.isSome else false

def Versions.allVersions (ch : Versions) : List (Nat × Option Bytes) :=
  ch.inner.map fun v => (v.version, v.value)

/-- Compaction in place; the source returns the number of entries left, here `inner.length`. -/
def Versions.gcOlderVersions (ch : Versions) (version : Nat) : Versions :=
  ⟨StupidKv.gcOlderVersions ch.inner version,
    ch.ascending.sublist (gcOlderVersions_suffix ch.ascending version).sublist⟩

theorem Versions.fetchVersion_split (ch : Versions) (lo hi : List Version)
    (hl : ch.inner = lo ++ hi) (h : ∀ a ∈ hi, q < a.version) (h' : ∀ a ∈ lo, a.version ≤ q) :
    ch.fetchVersion q = lastValue lo := by
  unfold Versions.fetchVersion
  rw [hl, findIndexLteVersion_of_split h h']
  cases lo using List.reverseRecOn with
  | nil => rfl
  | append_singleton lo x => simp

theorem Versions.existsVersion_eq (ch : Versions) (q : Nat) :
    ch.existsVersion q = (ch.fetchVersion q).isSome := by
  unfold Versions.existsVersion Versions.fetchVersion
  by_cases h : findIndexLteVersion ch.inner q > 0
  · simp only [h, ↓reduceIte]
    cases ch.inner[findIndexLteVersion ch.inner q - 1]? <;> rfl
  · simp only [h, ↓reduceIte, Option.isSome_none]

/-- The three shapes of a push: absorbed by the entry below, inserted, or overwriting. -/
theorem Versions.push_cases (ch : Versions) (w : Version) :
    ∃ lo mid hi, ch.inner = lo ++ mid ++ hi ∧ (∀ a ∈ lo, a.version < w.version) ∧
      (∀ a ∈ mid, a.version = w.version) ∧ (∀ a ∈ hi, w.version < a.version) ∧
      (mid = [] ∧ lastValue lo = w.value ∧ (ch.push w).inner = lo ++ hi ∨
        (ch.push w).inner = lo ++ [w] ++ hi) := by
  rcases ch.ascending.around w.version with
    ⟨lo, hi, hl, hlo, hhi⟩ | ⟨lo, e, hi, hl, he, hlo, hhi⟩
  · refine ⟨lo, [], hi, by simpa using hl, hlo, by simp, hhi, ?_⟩
    have hp : (ch.push w).inner = pushVersion (lo ++ hi) w := congrArg (pushVersion · w) hl
    rw [hp, pushVersion_append hhi hlo]
    split
    · exact .inl ⟨rfl, ‹_›, rfl⟩
    · exact .inr (by simp)
  · refine ⟨lo, [e], hi, by simpa using hl, hlo, by simpa using he, hhi, .inr ?_⟩
    have hp : (ch.push w).inner = pushVersion (lo ++ e :: hi) w := congrArg (pushVersion · w) hl
    rw [hp, pushVersion_present he hhi hlo]
    simp

theorem Versions.fetchVersion_push_of_lt (ch : Versions) (w : Version) (hq : q < w.version) :
    (ch.push w).fetchVersion q = ch.fetchVersion q := by
  obtain ⟨lo, mid, hi, hl, hlo, hmid, hhi, hp⟩ := ch.push_cases w
  have ha : Ascending lo := by
    refine ch.ascending.sublist ?_
    rw [hl, List.append_assoc]
    exact List.sublist_append_left _ _
  obtain ⟨l₁, l₂, rfl, hl₁, hl₂⟩ := ha.split q
  have hmq : ∀ a ∈ mid, q < a.version := fun a ha => hmid a ha ▸ hq
  have hhq : ∀ a ∈ hi, q < a.version := fun a ha => hq.trans (hhi a ha)
  rw [ch.fetchVersion_split l₁ (l₂ ++ mid ++ hi) (by simp [hl])
    (by simp only [List.mem_append]; grind) hl₁]
  rcases hp with ⟨_, _, hp⟩ | hp
  · exact (ch.push w).fetchVersion_split l₁ (l₂ ++ hi) (by simp [hp])
      (by simp only [List.mem_append]; grind) hl₁
  · exact (ch.push w).fetchVersion_split l₁ (l₂ ++ [w] ++ hi) (by simp [hp])
      (by simp only [List.mem_append, List.mem_singleton]; grind) hl₁

/-- The exact effect of one push on every reader. -/
theorem Versions.fetchVersion_push (ch : Versions) (w : Version) (q : Nat) :
    (ch.push w).fetchVersion q =
      if w.version ≤ q ∧ ∀ e ∈ ch.inner, e.version ≤ q → e.version ≤ w.version then w.value
      else ch.fetchVersion q := by
  by_cases hq : w.version ≤ q
  · obtain ⟨lo, mid, hi, hl, hlo, hmid, hhi, hp⟩ := ch.push_cases w
    have ha : Ascending hi := by
      refine ch.ascending.sublist ?_
      rw [hl]
      exact List.sublist_append_right _ _
    obtain ⟨h₁, h₂, rfl, hh₁, hh₂⟩ := ha.split q
    have hold := ch.fetchVersion_split (q := q) (lo ++ mid ++ h₁) h₂
      (by simp [hl]) hh₂ (by simp only [List.mem_append]; grind)
    -- Readers at or above the pushed version see it unless an entry of `h₁` overtook it.
    have hcond : (∀ e ∈ ch.inner, e.version ≤ q → e.version ≤ w.version) ↔ h₁ = [] := by
      rw [List.eq_nil_iff_forall_not_mem, hl]
      simp only [List.mem_append]
      grind
    simp only [hq, true_and, hcond]
    rcases hp with ⟨rfl, hv, hp⟩ | hp
    · rw [(ch.push w).fetchVersion_split (q := q) (lo ++ h₁) h₂ (by simp [hp]) hh₂
        (by simp only [List.mem_append]; grind), hold]
      split
      · simp_all
      · simp
    · rw [(ch.push w).fetchVersion_split (q := q) (lo ++ [w] ++ h₁) h₂
        (by simp [hp]) hh₂ (by simp only [List.mem_append, List.mem_singleton]; grind), hold]
      split
      · simp_all
      · rw [lastValue_append _ ‹_›, lastValue_append _ ‹_›]
  · rw [if_neg fun h => hq h.1, ch.fetchVersion_push_of_lt w (Nat.lt_of_not_le hq)]

/-- Compaction is invisible to every reader at or above the watermark. -/
theorem Versions.fetchVersion_gcOlderVersions (ch : Versions) (hq : v ≤ q) :
    (ch.gcOlderVersions v).fetchVersion q = ch.fetchVersion q := by
  obtain ⟨lo, hi, hl, hlo, hhi⟩ := ch.ascending.split v
  have ha : Ascending hi := by
    refine ch.ascending.sublist ?_
    rw [hl]
    exact List.sublist_append_right _ _
  obtain ⟨h₁, h₂, rfl, hh₁, hh₂⟩ := ha.split q
  have hg : (ch.gcOlderVersions v).inner = StupidKv.gcOlderVersions (lo ++ (h₁ ++ h₂)) v :=
    congrArg (StupidKv.gcOlderVersions · v) hl
  rw [gcOlderVersions_split hhi hlo] at hg
  have hold := ch.fetchVersion_split (q := q) (lo ++ h₁) h₂
    (by simp [hl]) hh₂ (by simp only [List.mem_append]; grind)
  rw [hold]
  cases lo using List.reverseRecOn with
  | nil => exact (ch.gcOlderVersions v).fetchVersion_split _ _ hg hh₂ hh₁
  | append_singleton lo x =>
    have hx := (hlo x (by simp)).trans hq
    simp only [List.getLast?_concat] at hg
    split at hg
    · rw [(ch.gcOlderVersions v).fetchVersion_split _ _ hg hh₂ hh₁]
      rename_i hx
      by_cases hn : h₁ = []
      · simp_all
      · rw [lastValue_append _ hn]
    · rw [(ch.gcOlderVersions v).fetchVersion_split (x :: h₁) h₂ (by simp [hg]) hh₂
        (by simp only [List.mem_cons]; grind)]
      rw [show lo ++ [x] ++ h₁ = lo ++ x :: h₁ by simp, lastValue_append _ (List.cons_ne_nil x h₁)]

end StupidKv
