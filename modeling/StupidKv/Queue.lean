import Mathlib
import StupidKv.Bloom

namespace StupidKv
open Std
set_option autoImplicit true

/-- The ordered maps of the source, concurrent or not, as finite maps in key order. -/
abbrev SkipMap (K V : Type) [Ord K] := ExtTreeMap K V compare

abbrev Writeset := SkipMap Bytes (Option Bytes)

abbrev Readset := ExtTreeSet Bytes compare

theorem SkipMap.sorted_toList (m : SkipMap Nat V) : m.toList.Pairwise fun a b => a.1 < b.1 := by
  refine List.Pairwise.imp ?_ ExtTreeMap.ordered_keys_toList
  intro a b hab
  exact Nat.compare_eq_lt.1 hab

theorem SkipMap.getElem?_insertIfNew_self {m : SkipMap Nat V} (h : k ∉ m) (v : V) :
    (m.insertIfNew k v)[k]? = some v := by
  rw [ExtTreeMap.getElem?_insertIfNew, if_pos ⟨by simp, h⟩]

/-- One record of the commit queue. -/
structure Commit where
  id : Nat
  writeset : Writeset
  writesetBloom : BloomFilter
  maxKey : Bytes
  minKey : Bytes

/-- One record of the merge queue. -/
structure Merge where
  id : Nat
  writeset : Writeset

def Commit.ofWriteset (id : Nat) (writeset : Writeset) : Commit where
  id := id
  writeset := writeset
  writesetBloom := .ofKeys writeset.keys
  maxKey := writeset.maxKey?.getD []
  minKey := writeset.minKey?.getD []

/-- Advance through `b` until `ka` is found, passed or exhausted. -/
def disjointFrom (ka : Bytes) (next : List Bytes → Bool) : List Bytes → Bool
  | [] => true
  | kb :: b =>
    match compare ka kb with
    | .lt => next (kb :: b)
    | .gt => disjointFrom ka next b
    | .eq => false

/-- The lockstep walk over two key iterators. -/
def disjointKeys : List Bytes → List Bytes → Bool
  | [], _ => true
  | ka :: a, b => disjointFrom ka (disjointKeys a) b

def Commit.isDisjointWriteset (self other : Commit) : Bool :=
  disjointKeys self.writeset.keys other.writeset.keys

def Commit.isDisjointWritesetBloom (self other : Commit) : Bool :=
  if compare self.maxKey other.minKey = .lt ∨ compare self.minKey other.maxKey = .gt then true
  else if self.writeset.keys.any other.writesetBloom.mayContain then
    self.isDisjointWriteset other
  else true

def Commit.isDisjointReadset (self : Commit) (other : Readset) : Bool :=
  if other.isEmpty then true
  else if other.size < self.writeset.size then
    other.toList.all fun key => !self.writeset.contains key
  else self.writeset.keys.all fun key => !other.contains key

def Commit.isDisjointReadsetBloom (self : Commit) (other : Readset) (bloom : BloomFilter) : Bool :=
  if bloom.isEmpty then true
  else if self.writeset.keys.any bloom.mayContain then self.isDisjointReadset other
  else true

abbrev KeySorted (l : List Bytes) : Prop := l.Pairwise fun a b => compare a b = .lt

theorem disjointFrom_iff {a b : List Bytes} (hb : KeySorted b)
    (hn : ∀ b', b' <:+ b → (next b' = true ↔ ∀ k ∈ a, k ∉ b'))
    (ha : ∀ k ∈ a, compare ka k = .lt) :
    disjointFrom ka next b = true ↔ ka ∉ b ∧ ∀ k ∈ a, k ∉ b := by
  induction b with
  | nil => simp [disjointFrom]
  | cons kb b ih =>
    obtain ⟨hkb, hb⟩ := List.pairwise_cons.1 hb
    have ih := ih hb fun b' hs => hn b' (hs.trans (List.suffix_cons kb b))
    have hgt : ∀ k ∈ a, k ≠ ka := by
      rintro k hk rfl
      simpa using ha k hk
    simp only [disjointFrom]
    cases hc : compare ka kb with
    | lt =>
      have hka : ka ∉ kb :: b := by
        intro hm
        rcases List.mem_cons.1 hm with rfl | hm
        · simp at hc
        · have hlt := TransCmp.lt_trans hc (hkb ka hm)
          simp at hlt
      simp only [hn _ List.suffix_rfl, hka, not_false_eq_true, true_and]
    | gt =>
      -- `kb` lies below `ka`, hence below every key still to come from the other side.
      have hlt : compare kb ka = .lt := OrientedCmp.gt_iff_lt.1 hc
      have hne : ka ≠ kb := by
        rintro rfl
        simp at hc
      have hk : ∀ k ∈ a, k ≠ kb := by
        rintro k hk rfl
        have h := TransCmp.lt_trans hlt (ha k hk)
        simp at h
      simp only [ih, List.mem_cons, hne, false_or]
      grind
    | eq =>
      have he : ka = kb := by simpa using hc
      simp [he]

theorem disjointKeys_iff (ha : KeySorted a) (hb : KeySorted b) :
    disjointKeys a b = true ↔ ∀ k ∈ a, k ∉ b := by
  induction a generalizing b with
  | nil => simp [disjointKeys]
  | cons ka a ih =>
    obtain ⟨hka, ha⟩ := List.pairwise_cons.1 ha
    rw [disjointKeys, disjointFrom_iff hb (fun b' hs => ih ha (hb.sublist hs.sublist)) hka]
    simp

theorem Commit.isDisjointWriteset_iff (self other : Commit) :
    self.isDisjointWriteset other = true ↔ ∀ k ∈ self.writeset, k ∉ other.writeset := by
  rw [isDisjointWriteset, disjointKeys_iff ExtTreeMap.ordered_keys ExtTreeMap.ordered_keys]
  simp only [ExtTreeMap.mem_keys]

theorem Writeset.minKey_le {ws : Writeset} (h : k ∈ ws) :
    (compare (ws.minKey?.getD []) k).isLE = true := by
  obtain ⟨km, hm⟩ := Option.isSome_iff_exists.1 (ExtTreeMap.isSome_minKey?_of_mem h)
  rw [hm]
  exact (ExtTreeMap.minKey?_eq_some_iff_mem_and_forall.1 hm).2 k h

theorem Writeset.le_maxKey {ws : Writeset} (h : k ∈ ws) :
    (compare k (ws.maxKey?.getD [])).isLE = true := by
  obtain ⟨km, hm⟩ := Option.isSome_iff_exists.1 (ExtTreeMap.isSome_maxKey?_of_mem h)
  rw [hm]
  exact (ExtTreeMap.maxKey?_eq_some_iff_mem_and_forall.1 hm).2 k h

theorem Writeset.disjoint_of_range {a b : Writeset}
    (h : compare (a.maxKey?.getD []) (b.minKey?.getD []) = .lt) (ha : k ∈ a) : k ∉ b := by
  intro hb
  have h₁ := TransCmp.lt_of_isLE_of_lt (Writeset.le_maxKey ha) h
  have h₂ := TransCmp.lt_of_lt_of_isLE h₁ (Writeset.minKey_le hb)
  simp at h₂

/-- The range and Bloom shortcuts never change the answer of the exact walk. -/
theorem Commit.isDisjointWritesetBloom_ofWriteset (i j : Nat) (a b : Writeset) :
    (Commit.ofWriteset i a).isDisjointWritesetBloom (.ofWriteset j b) = true ↔
      ∀ k ∈ a, k ∉ b := by
  unfold isDisjointWritesetBloom
  split
  · rename_i hr
    refine iff_of_true rfl fun k hk => ?_
    rcases hr with hr | hr
    · exact Writeset.disjoint_of_range hr hk
    · exact fun hb => Writeset.disjoint_of_range (OrientedCmp.gt_iff_lt.1 hr) hb hk
  · split
    · exact isDisjointWriteset_iff _ _
    · rename_i hm
      refine iff_of_true rfl fun k hk hb => hm ?_
      refine List.any_eq_true.2 ⟨k, ExtTreeMap.mem_keys.2 hk, ?_⟩
      exact BloomFilter.mayContain_ofKeys (ExtTreeMap.mem_keys.2 hb)

theorem Commit.isDisjointReadset_iff (self : Commit) (other : Readset) :
    self.isDisjointReadset other = true ↔ ∀ k ∈ self.writeset, k ∉ other := by
  unfold isDisjointReadset
  split
  · rename_i he
    refine iff_of_true rfl fun k _ hk => ?_
    rw [ExtTreeSet.isEmpty_iff] at he
    exact ExtTreeSet.not_mem_empty (he ▸ hk)
  · split
    · simp only [List.all_eq_true, ExtTreeSet.mem_toList, Bool.not_eq_true',
        ← Bool.not_eq_true, ExtTreeMap.contains_iff_mem]
      exact ⟨fun h k hk hr => h k hr hk, fun h k hr hk => h k hk hr⟩
    · simp only [List.all_eq_true, ExtTreeMap.mem_keys, Bool.not_eq_true',
        ← Bool.not_eq_true, ExtTreeSet.contains_iff_mem]

/-- What the read tracking of a transaction keeps true of its filter. -/
structure ReadsetBloom (readset : Readset) (bloom : BloomFilter) : Prop where
  contains : ∀ k ∈ readset, bloom.mayContain k = true
  empty : bloom.count = 0 → ∀ k, k ∉ readset

theorem Commit.isDisjointReadsetBloom_iff (h : ReadsetBloom readset bloom) (self : Commit) :
    self.isDisjointReadsetBloom readset bloom = true ↔ ∀ k ∈ self.writeset, k ∉ readset := by
  unfold isDisjointReadsetBloom
  split
  · rename_i he
    refine iff_of_true rfl fun k _ => ?_
    exact h.empty (by simpa [BloomFilter.isEmpty] using he) k
  · split
    · exact self.isDisjointReadset_iff readset
    · rename_i hm
      refine iff_of_true rfl fun k hk hr => hm ?_
      exact List.any_eq_true.2 ⟨k, ExtTreeMap.mem_keys.2 hk, h.contains k hr⟩

theorem ReadsetBloom.new : ReadsetBloom ∅ .new := ⟨by simp, by simp⟩

theorem ReadsetBloom.insert (h : ReadsetBloom readset bloom) (key : Bytes) :
    ReadsetBloom (readset.insert key) (bloom.insert key) where
  contains k hk := by
    rw [ExtTreeSet.mem_insert] at hk
    rcases hk with hk | hk
    · have he : key = k := by simpa using hk
      exact he ▸ bloom.mayContain_insert_self key
    · exact BloomFilter.mayContain_insert (h.contains k hk) key
  empty := by simp [BloomFilter.insert]

end StupidKv
