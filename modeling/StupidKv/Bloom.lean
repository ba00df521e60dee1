import Mathlib.Tactic.Common
import StupidKv.Versions

namespace StupidKv
set_option autoImplicit true

/-- A bitmap of 4096 bits in 512 bytes, with the number of insertions. -/
structure BloomFilter where
  bits : Vector UInt8 512
  count : Nat

namespace BloomFilter

def new : BloomFilter := ⟨Vector.replicate 512 0, 0⟩

def rotateLeft (x : UInt64) (n : UInt64) : UInt64 := (x <<< n) ||| (x >>> (64 - n))

/-- FNV-1a, and a second hash mixed out of it. -/
def hash (key : Bytes) : UInt64 × UInt64 :=
  let h1 := key.foldl (fun h1 byte => (h1 ^^^ byte.toUInt64) * 0x100000001b3) 0xcbf29ce484222325
  let h2 := rotateLeft (h1 * 0x9e3779b97f4a7c15) 31
  (h1, h2)

def nthHash (hashes : UInt64 × UInt64) (n : UInt64) : UInt64 := hashes.1 + n * hashes.2

/-- The bit a key occupies under its `i`-th hash, below `BLOOM_BITS`. -/
def position (key : Bytes) (i : UInt64) : Nat := (nthHash (hash key) i % 4096).toNat

theorem position_lt (key : Bytes) (i : UInt64) : position key i / 8 < 512 := by
  have h : position key i < 4096 := by
    simp only [position, UInt64.toNat_mod]
    exact Nat.mod_lt _ (by decide)
  omega

def bucket (key : Bytes) (i : UInt64) : Fin 512 := ⟨position key i / 8, position_lt key i⟩

def mask (key : Bytes) (i : UInt64) : UInt8 := 1 <<< UInt8.ofNat (position key i % 8)

/-- The hash indices `0 .. BLOOM_HASHE_NUMS`. -/
def hashNums : List UInt64 := [0, 1, 2]

def setBit (key : Bytes) (bits : Vector UInt8 512) (i : UInt64) : Vector UInt8 512 :=
  bits.set (bucket key i) (bits[bucket key i] ||| mask key i)

def testBit (key : Bytes) (bits : Vector UInt8 512) (i : UInt64) : Bool :=
  bits[bucket key i] &&& mask key i != 0

def insert (bf : BloomFilter) (key : Bytes) : BloomFilter :=
  ⟨hashNums.foldl (setBit key) bf.bits, bf.count + 1⟩

def mayContain (bf : BloomFilter) (key : Bytes) : Bool := hashNums.all (testBit key bf.bits)

def isEmpty (bf : BloomFilter) : Bool := bf.count == 0

def clear (_ : BloomFilter) : BloomFilter := new

theorem mask_ne_zero (key : Bytes) (i : UInt64) : mask key i ≠ 0 := by
  have h : ∀ b : Fin 8, (1 : UInt8) <<< UInt8.ofNat b.val ≠ 0 := by decide
  exact h ⟨position key i % 8, Nat.mod_lt _ (by decide)⟩

theorem or_and_distrib (a b c : UInt8) : (a ||| b) &&& c = a &&& c ||| b &&& c := by
  apply UInt8.toBitVec_inj.1
  ext i hi
  simp [Bool.and_or_distrib_right]

theorem testBit_setBit_self (key : Bytes) (bits : Vector UInt8 512) (i : UInt64) :
    testBit key (setBit key bits i) i = true := by
  simp only [testBit, setBit, Fin.getElem_fin, Vector.getElem_set_self, or_and_distrib,
    UInt8.and_self, bne_iff_ne, ne_eq, UInt8.or_eq_zero_iff]
  exact fun h => mask_ne_zero key i h.2

theorem testBit_setBit {bits : Vector UInt8 512} (h : testBit key bits i = true)
    (key' : Bytes) (j : UInt64) :
    testBit key (setBit key' bits j) i = true := by
  simp only [testBit, setBit, Fin.getElem_fin, bne_iff_ne, ne_eq] at h ⊢
  by_cases he : (bucket key' j).val = (bucket key i).val
  · rw [Vector.getElem_set, if_pos he, or_and_distrib, UInt8.or_eq_zero_iff]
    simp only [he]
    exact fun hz => h hz.1
  · rw [Vector.getElem_set, if_neg he]
    exact h

theorem testBit_insert {bf : BloomFilter} (h : testBit key bf.bits i = true) (key' : Bytes) :
    testBit key (bf.insert key').bits i = true := by
  simp only [insert, hashNums, List.foldl_cons, List.foldl_nil]
  exact testBit_setBit (testBit_setBit (testBit_setBit h key' 0) key' 1) key' 2

theorem mayContain_insert_self (bf : BloomFilter) (key : Bytes) :
    (bf.insert key).mayContain key = true := by
  have h₀ := testBit_setBit_self key bf.bits 0
  have h₁ := testBit_setBit_self key (setBit key bf.bits 0) 1
  have h₂ := testBit_setBit_self key (setBit key (setBit key bf.bits 0) 1) 2
  simp only [mayContain, insert, hashNums, List.foldl_cons, List.foldl_nil, List.all_cons,
    List.all_nil, Bool.and_true, Bool.and_eq_true]
  exact ⟨testBit_setBit (testBit_setBit h₀ key 1) key 2, testBit_setBit h₁ key 2, h₂⟩

theorem mayContain_insert {bf : BloomFilter} (h : bf.mayContain key = true) (key' : Bytes) :
    (bf.insert key').mayContain key = true := by
  simp only [mayContain, List.all_eq_true] at h ⊢
  exact fun i hi => testBit_insert (h i hi) key'

/-- The filter a loop of insertions builds. -/
def ofKeys (keys : List Bytes) : BloomFilter := keys.foldl insert new

theorem mayContain_foldl {bf : BloomFilter} (h : bf.mayContain key = true) (keys : List Bytes) :
    (keys.foldl insert bf).mayContain key = true := by
  induction keys generalizing bf with
  | nil => exact h
  | cons k keys ih => exact ih (mayContain_insert h k)

theorem mayContain_ofKeys (h : key ∈ keys) : (ofKeys keys).mayContain key = true := by
  unfold ofKeys
  generalize new = bf
  induction keys generalizing bf with
  | nil => cases h
  | cons k keys ih =>
    rcases List.mem_cons.1 h with rfl | h
    · exact mayContain_foldl (mayContain_insert_self bf key) keys
    · exact ih h (bf.insert k)

/-- The operations that change a filter. -/
inductive Update where
  | insert (key : Bytes)
  | clear
deriving DecidableEq, Repr

def update (bf : BloomFilter) : Update → BloomFilter
  | .insert key => bf.insert key
  | .clear => bf.clear

/-- The filter after a sequence of operations. -/
def run (ops : List Update) : BloomFilter := ops.foldl update new

/-- What one operation makes of the keys inserted since the last `clear`. -/
def tally (keys : List Bytes) : Update → List Bytes
  | .insert key => keys ++ [key]
  | .clear => []

def sinceClear (ops : List Update) : List Bytes := ops.foldl tally []

theorem update_ofKeys (keys : List Bytes) (op : Update) :
    update (ofKeys keys) op = ofKeys (tally keys op) := by
  cases op with
  | insert key =>
    simp only [update, tally, ofKeys, List.foldl_append, List.foldl_cons, List.foldl_nil]
  | clear => rfl

/-- Only what was inserted since the last `clear` is left in the filter. -/
theorem run_eq_ofKeys (ops : List Update) : run ops = ofKeys (sinceClear ops) := by
  suffices h : ∀ keys, ops.foldl update (ofKeys keys) = ofKeys (ops.foldl tally keys) from h []
  induction ops with
  | nil => intro keys; rfl
  | cons op ops ih =>
    intro keys
    rw [List.foldl_cons, List.foldl_cons, update_ofKeys]
    exact ih (tally keys op)

theorem count_ofKeys (keys : List Bytes) : (ofKeys keys).count = keys.length := by
  suffices h : ∀ bf : BloomFilter, (keys.foldl insert bf).count = bf.count + keys.length by
    simpa [ofKeys, new] using h new
  induction keys with
  | nil => intro bf; rfl
  | cons key keys ih =>
    intro bf
    rw [List.foldl_cons, ih, List.length_cons]
    simp only [insert]
    omega

theorem mayContain_new (key : Bytes) : new.mayContain key = false := by
  simp [mayContain, hashNums, testBit, new]

/-- No false negatives, an exact emptiness test, and no index out of bounds. -/
theorem run_exact (ops : List Update) :
    (∀ key ∈ sinceClear ops, (run ops).mayContain key = true) ∧
      ((run ops).isEmpty = true ↔ sinceClear ops = []) ∧
      (sinceClear ops = [] → ∀ key, (run ops).mayContain key = false) ∧
      ∀ (key : Bytes) (i : UInt64), (nthHash (hash key) i % 4096).toNat / 8 < 512 := by
  rw [run_eq_ofKeys]
  refine ⟨fun key hk => mayContain_ofKeys hk, ?_, ?_, position_lt⟩
  · rw [isEmpty, beq_iff_eq, count_ofKeys, List.length_eq_zero_iff]
  · intro hn key
    rw [hn]
    exact mayContain_new key

end BloomFilter

end StupidKv
