import Mathlib.Algebra.Order.Ring.Nat
import StupidKv.Lib.Framing
import StupidKv.Versions

namespace StupidKv
open Framing
set_option autoImplicit true

namespace Bincode

def littleEndian : Nat → Nat → Bytes
  | 0, _ => []
  | k + 1, u => UInt8.ofNat (u % 256) :: littleEndian k (u / 256)

def readLittleEndian : Nat → Bytes → Decoded Nat UInt8
  | 0, l => .ok 0 l
  | _ + 1, [] => .eof
  | k + 1, b :: l =>
    match readLittleEndian k l with
    | .ok u rest => .ok (b.toNat + 256 * u) rest
    | .eof => .eof
    | .error => .error

theorem readLittleEndian_littleEndian (k u : Nat) (h : u < 256 ^ k) (rest : Bytes) :
    readLittleEndian k (littleEndian k u ++ rest) = .ok u rest := by
  induction k generalizing u with
  | zero =>
    have hu : u = 0 := by simpa using h
    simp [littleEndian, readLittleEndian, hu]
  | succ k ih =>
    have hlt : u / 256 < 256 ^ k := by
      rw [Nat.pow_succ] at h
      omega
    simp only [littleEndian, List.cons_append, readLittleEndian, ih _ hlt, UInt8.toNat_ofNat']
    congr 1
    omega

theorem readLittleEndian_cut (k u : Nat) {p : Bytes} (hp : p <+: littleEndian k u)
    (hne : p ≠ littleEndian k u) : readLittleEndian k p = .eof := by
  induction k generalizing u p with
  | zero => exact absurd (List.prefix_nil.1 hp) hne
  | succ k ih =>
    cases p with
    | nil => rfl
    | cons b p =>
      simp only [littleEndian, List.cons_prefix_cons] at hp
      obtain ⟨rfl, hp⟩ := hp
      have hne : p ≠ littleEndian k (u / 256) := fun he => hne (by rw [he]; rfl)
      simp only [readLittleEndian, ih _ hp hne]

theorem readLittleEndian_shrinks {k : Nat} {l : Bytes} (h : readLittleEndian k l = .ok u rest) :
    rest.length ≤ l.length := by
  induction k generalizing l u with
  | zero =>
    cases h
    exact le_rfl
  | succ k ih =>
    cases l with
    | nil => cases h
    | cons b l =>
      simp only [readLittleEndian] at h
      split at h
      · rename_i hk
        cases h
        exact (ih hk).trans (Nat.le_succ _)
      · cases h
      · cases h

/-- A `u64` in the variable-length encoding of the standard configuration. -/
def encodeVarint (u : Nat) : Bytes :=
  if u < 251 then [UInt8.ofNat u]
  else if u < 2 ^ 16 then 251 :: littleEndian 2 u
  else if u < 2 ^ 32 then 252 :: littleEndian 4 u
  else 253 :: littleEndian 8 u

def decodeVarint : Bytes → Decoded Nat UInt8
  | [] => .eof
  | b :: l =>
    if b < 251 then .ok b.toNat l
    else if b = 251 then readLittleEndian 2 l
    else if b = 252 then readLittleEndian 4 l
    else if b = 253 then readLittleEndian 8 l
    else .error

/-- A marker byte and a little-endian number of the width it announces. -/
theorem decodeVarint_marker (hb : (b, k) ∈ [((251 : UInt8), 2), (252, 4), (253, 8)]) (l : Bytes) :
    decodeVarint (b :: l) = readLittleEndian k l := by
  simp only [List.mem_cons, Prod.mk.injEq, List.not_mem_nil, or_false] at hb
  rcases hb with ⟨rfl, rfl⟩ | ⟨rfl, rfl⟩ | ⟨rfl, rfl⟩ <;> rfl

theorem encodeVarint_cases (u : Nat) (h : u < 2 ^ 64) :
    u < 251 ∧ encodeVarint u = [UInt8.ofNat u] ∨
      ∃ b k, (b, k) ∈ [((251 : UInt8), 2), (252, 4), (253, 8)] ∧ u < 256 ^ k ∧
        encodeVarint u = b :: littleEndian k u := by
  unfold encodeVarint
  split
  · rename_i hu
    exact .inl ⟨hu, rfl⟩
  · right
    split
    · exact ⟨251, 2, by simp, by omega, rfl⟩
    · split
      · exact ⟨252, 4, by simp, by omega, rfl⟩
      · exact ⟨253, 8, by simp, by omega, rfl⟩

def varint : Codec Nat UInt8 where
  valid u := u < 2 ^ 64
  encode := encodeVarint
  decode := decodeVarint
  decode_nil := rfl
  decode_encode u rest h := by
    rcases encodeVarint_cases u h with ⟨hu, he⟩ | ⟨b, k, hb, hu, he⟩
    · have hn : (UInt8.ofNat u).toNat = u := by
        rw [UInt8.toNat_ofNat']
        omega
      have hlt : UInt8.ofNat u < 251 := by
        rw [UInt8.lt_iff_toNat_lt, hn]
        exact hu
      simp only [he, List.singleton_append, decodeVarint, hlt, ↓reduceIte, hn]
    · rw [he, List.cons_append, decodeVarint_marker hb]
      exact readLittleEndian_littleEndian k u hu rest
  decode_cut u p h hp hne := by
    rcases encodeVarint_cases u h with ⟨hu, he⟩ | ⟨b, k, hb, hu, he⟩
    · rw [he] at hp hne
      cases p with
      | nil => rfl
      | cons c p =>
        simp only [List.cons_prefix_cons, List.prefix_nil] at hp
        exact absurd (by rw [hp.1, hp.2]) hne
    · rw [he] at hp hne
      cases p with
      | nil => rfl
      | cons c p =>
        obtain ⟨rfl, hp'⟩ := List.cons_prefix_cons.1 hp
        rw [decodeVarint_marker hb]
        exact readLittleEndian_cut k u hp' fun hn => hne (by rw [hn])
  shrinks l u rest h := by
    cases l with
    | nil => cases h
    | cons b l =>
      simp only [decodeVarint] at h
      split at h
      · cases h
        exact Nat.lt_succ_self _
      · split at h
        · exact Nat.lt_succ_of_le (readLittleEndian_shrinks h)
        · split at h
          · exact Nat.lt_succ_of_le (readLittleEndian_shrinks h)
          · split at h
            · exact Nat.lt_succ_of_le (readLittleEndian_shrinks h)
            · cases h

def byte : Codec UInt8 UInt8 where
  valid _ := True
  encode b := [b]
  decode
    | [] => .eof
    | b :: l => .ok b l
  decode_nil := rfl
  decode_encode _ _ _ := rfl
  decode_cut b p _ hp hne := by
    cases p with
    | nil => rfl
    | cons c p =>
      simp only [List.cons_prefix_cons, List.prefix_nil] at hp
      exact absurd (by rw [hp.1, hp.2]) hne
  shrinks l b rest h := by
    cases l with
    | nil => cases h
    | cons c l =>
      cases h
      exact Nat.lt_succ_self _

/-- A tag byte, and the value behind it when there is one. -/
def optional (c : Codec α UInt8) : Codec (Option α) UInt8 where
  valid o := ∀ a, o = some a → c.valid a
  encode
    | none => [0]
    | some a => 1 :: c.encode a
  decode
    | [] => .eof
    | b :: l =>
      if b = 0 then .ok none l
      else if b = 1 then
        match c.decode l with
        | .ok a rest => .ok (some a) rest
        | .eof => .eof
        | .error => .error
      else .error
  decode_nil := rfl
  decode_encode o rest h := by
    cases o with
    | none => rfl
    | some a =>
      have hd := c.decode_encode a rest (h a rfl)
      simp only [List.cons_append, hd]
      rfl
  decode_cut o p h hp hne := by
    cases p with
    | nil => rfl
    | cons b p =>
      cases o with
      | none =>
        simp only [List.cons_prefix_cons, List.prefix_nil] at hp
        exact absurd (by rw [hp.1, hp.2]) hne
      | some a =>
        obtain ⟨rfl, hp'⟩ := List.cons_prefix_cons.1 hp
        have hd := c.decode_cut a p (h a rfl) hp' fun he => hne (by rw [he])
        simp only [hd]
        rfl
  shrinks l o rest h := by
    cases l with
    | nil => cases h
    | cons b l =>
      simp only at h
      split at h
      · cases h
        exact Nat.lt_succ_self _
      · split at h
        · split at h
          · rename_i hc
            cases h
            exact (c.shrinks _ _ _ hc).trans (Nat.lt_succ_self _)
          · cases h
          · cases h
        · cases h

def bytes : Codec Bytes UInt8 := .counted varint byte

/-- An AOL record: key, version, value. -/
def record : Codec (Bytes × Nat × Option Bytes) UInt8 := .pair bytes (.pair varint (optional bytes))

/-- A snapshot entry: a key and its whole chain. -/
def entry : Codec (Bytes × List (Nat × Option Bytes)) UInt8 :=
  .pair bytes (.counted varint (.pair varint (optional bytes)))

example : record.encode ([7], 300, some [1]) = [1, 7, 251, 44, 1, 1, 1, 1] := by decide

end Bincode

end StupidKv
