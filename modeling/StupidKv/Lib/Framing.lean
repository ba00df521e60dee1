import Mathlib.Data.List.Basic

namespace Framing
set_option autoImplicit true

variable {α β B : Type*}

/-- What decoding the head of an input gives. -/
inductive Decoded (α B : Type*) where
  | ok (a : α) (rest : List B)
  | eof
  | error
deriving DecidableEq, Repr

/-- A self-delimiting encoding: a valid value is decoded whatever follows it, and one that is cut
off is reported as the end of the input. -/
structure Codec (α B : Type*) where
  valid : α → Prop
  encode : α → List B
  decode : List B → Decoded α B
  decode_nil : decode [] = .eof
  decode_encode : ∀ a rest, valid a → decode (encode a ++ rest) = .ok a rest
  decode_cut : ∀ a p, valid a → p <+: encode a → p ≠ encode a → decode p = .eof
  shrinks : ∀ l a rest, decode l = .ok a rest → rest.length < l.length

theorem prefix_append_cases {p a b : List B} (h : p <+: a ++ b) :
    p <+: a ∨ ∃ q, p = a ++ q ∧ q <+: b := by
  obtain ⟨t, ht⟩ := h
  rcases List.append_eq_append_iff.1 ht with ⟨q, rfl, -⟩ | ⟨q, rfl, hb⟩
  · exact .inl (List.prefix_append p q)
  · exact .inr ⟨q, rfl, t, hb.symm⟩

namespace Codec
variable (c : Codec α B)

/-- The frames of a list of values, one after the other. -/
def encodeAll (l : List α) : List B := l.flatMap c.encode

/-- Decode frame after frame until the input ends; `none` on an error. The fuel is never used up,
because every frame takes something of the input. -/
def decodeLoop : Nat → List B → Option (List α)
  | 0, _ => some []
  | fuel + 1, l =>
    match c.decode l with
    | .ok a rest => (decodeLoop fuel rest).map (a :: ·)
    | .eof => some []
    | .error => none

def decodeAll (l : List B) : Option (List α) := c.decodeLoop (l.length + 1) l

@[simp] theorem encodeAll_nil : c.encodeAll [] = [] := rfl

@[simp] theorem encodeAll_cons (a : α) (l : List α) :
    c.encodeAll (a :: l) = c.encode a ++ c.encodeAll l := rfl

@[simp] theorem encodeAll_append (l l' : List α) :
    c.encodeAll (l ++ l') = c.encodeAll l ++ c.encodeAll l' := List.flatMap_append

theorem encode_ne_nil (h : c.valid a) : c.encode a ≠ [] := by
  intro he
  have hd := c.decode_encode a [] h
  rw [he, List.nil_append, c.decode_nil] at hd
  cases hd

theorem eq_nil_of_encodeAll {l : List α} (hv : ∀ a ∈ l, c.valid a) (h : c.encodeAll l = []) :
    l = [] := by
  cases l with
  | nil => rfl
  | cons a l =>
    rw [encodeAll_cons, List.append_eq_nil_iff] at h
    exact absurd h.1 (c.encode_ne_nil (hv a (List.mem_cons_self ..)))

theorem decodeLoop_fuel {l : List B} (h : l.length < n) (h' : l.length < m) :
    c.decodeLoop n l = c.decodeLoop m l := by
  induction n generalizing l m with
  | zero => exact absurd h (Nat.not_lt_zero _)
  | succ n ih =>
    cases m with
    | zero => exact absurd h' (Nat.not_lt_zero _)
    | succ m =>
      simp only [decodeLoop]
      cases hd : c.decode l with
      | ok a rest =>
        have hlt := c.shrinks l a rest hd
        have hrest : c.decodeLoop n rest = c.decodeLoop m rest := ih (by omega) (by omega)
        simp only [hrest]
      | eof => rfl
      | error => rfl

theorem decodeAll_ok {l : List B} (h : c.decode l = .ok a rest) :
    c.decodeAll l = (c.decodeAll rest).map (a :: ·) := by
  have hlt := c.shrinks l a rest h
  have hf := c.decodeLoop_fuel (l := rest) hlt (Nat.lt_succ_self _)
  unfold decodeAll
  rw [← hf]
  simp only [decodeLoop, h]

theorem decodeAll_eof {l : List B} (h : c.decode l = .eof) : c.decodeAll l = some [] := by
  simp only [decodeAll, decodeLoop, h]

@[simp] theorem decodeAll_nil : c.decodeAll [] = some [] := c.decodeAll_eof c.decode_nil

theorem decodeAll_append {l : List α} (hv : ∀ a ∈ l, c.valid a) (tail : List B) :
    c.decodeAll (c.encodeAll l ++ tail) = (c.decodeAll tail).map (l ++ ·) := by
  induction l with
  | nil => simp
  | cons a l ih =>
    have ha := c.decode_encode a (c.encodeAll l ++ tail) (hv a (List.mem_cons_self ..))
    rw [encodeAll_cons, List.append_assoc, c.decodeAll_ok ha,
      ih fun b hb => hv b (List.mem_cons_of_mem a hb), Option.map_map]
    rfl

theorem decodeAll_encodeAll {l : List α} (hv : ∀ a ∈ l, c.valid a) :
    c.decodeAll (c.encodeAll l) = some l := by
  have h := c.decodeAll_append hv []
  simpa using h

/-- The input ends inside the frame of one of the values. -/
def EndsInside (l : List α) (p : List B) : Prop :=
  ∃ n a q, l[n]? = some a ∧ p = c.encodeAll (l.take n) ++ q ∧ q <+: c.encode a ∧ q ≠ [] ∧
    q ≠ c.encode a

/-- Frames that are cut off somewhere end between two frames or inside one. -/
theorem ends_cases {l : List α} (hp : p <+: c.encodeAll l) :
    (∃ n, p = c.encodeAll (l.take n)) ∨ c.EndsInside l p := by
  induction l generalizing p with
  | nil =>
    rw [encodeAll_nil, List.prefix_nil] at hp
    exact .inl ⟨0, by simp [hp]⟩
  | cons a l ih =>
    rw [encodeAll_cons] at hp
    rcases prefix_append_cases hp with hp | ⟨q, rfl, hq⟩
    · by_cases he : p = c.encode a
      · exact .inl ⟨1, by simp [he]⟩
      · by_cases hn : p = []
        · exact .inl ⟨0, by simp [hn]⟩
        · exact .inr ⟨0, a, p, rfl, by simp, hp, hn, he⟩
    · rcases ih hq with ⟨n, rfl⟩ | ⟨n, b, q', hb, rfl, hq', hn, he⟩
      · exact .inl ⟨n + 1, by simp⟩
      · exact .inr ⟨n + 1, b, q', hb, by simp, hq', hn, he⟩

/-- Frames that are cut off somewhere: the complete ones, and the beginning of the next. -/
theorem cut_cases {l : List α} (hv : ∀ a ∈ l, c.valid a) (hp : p <+: c.encodeAll l) :
    ∃ n q, p = c.encodeAll (l.take n) ++ q ∧ c.decode q = .eof := by
  rcases c.ends_cases hp with ⟨n, rfl⟩ | ⟨n, a, q, ha, rfl, hq, -, he⟩
  · exact ⟨n, [], by simp, c.decode_nil⟩
  · exact ⟨n, q, rfl, c.decode_cut a q (hv a (List.mem_of_getElem? ha)) hq he⟩

theorem decodeAll_cut {l : List α} (hv : ∀ a ∈ l, c.valid a) (hp : p <+: c.encodeAll l) :
    ∃ n, c.decodeAll p = some (l.take n) := by
  obtain ⟨n, q, rfl, hq⟩ := c.cut_cases hv hp
  refine ⟨n, ?_⟩
  rw [c.decodeAll_append (fun a ha => hv a (List.mem_of_mem_take ha)), c.decodeAll_eof hq]
  simp

theorem EndsInside.ne_encodeAll {l l' : List α} (h : c.EndsInside l p) (hv : ∀ a ∈ l, c.valid a)
    (hv' : ∀ a ∈ l', c.valid a) : p ≠ c.encodeAll l' := by
  obtain ⟨n, a, q, ha, rfl, hq, hn, he⟩ := h
  intro heq
  have heof := c.decode_cut a q (hv a (List.mem_of_getElem? ha)) hq he
  have hd := c.decodeAll_append (l := l.take n) (fun b hb => hv b (List.mem_of_mem_take hb)) q
  rw [heq, c.decodeAll_encodeAll hv', c.decodeAll_eof heof, Option.map_some, List.append_nil,
    Option.some.injEq] at hd
  rw [hd] at heq
  exact hn (List.append_right_eq_self.1 heq)

/-- Two frames make one. -/
def pair (c : Codec α B) (d : Codec β B) : Codec (α × β) B where
  valid p := c.valid p.1 ∧ d.valid p.2
  encode p := c.encode p.1 ++ d.encode p.2
  decode l :=
    match c.decode l with
    | .ok a rest =>
      match d.decode rest with
      | .ok b rest => .ok (a, b) rest
      | .eof => .eof
      | .error => .error
    | .eof => .eof
    | .error => .error
  decode_nil := by simp only [c.decode_nil]
  decode_encode p rest h := by
    simp only [List.append_assoc, c.decode_encode _ _ h.1, d.decode_encode _ _ h.2]
  decode_cut p l h hl hne := by
    rcases prefix_append_cases hl with hl | ⟨q, rfl, hq⟩
    · by_cases he : l = c.encode p.1
      · have hd : d.decode [] = .eof := d.decode_nil
        have hc := c.decode_encode p.1 [] h.1
        rw [List.append_nil] at hc
        simp only [he, hc, hd]
      · simp only [c.decode_cut _ l h.1 hl he]
    · have hne : q ≠ d.encode p.2 := fun he => hne (by rw [he])
      simp only [c.decode_encode _ _ h.1, d.decode_cut _ q h.2 hq hne]
  shrinks l p rest h := by
    split at h
    · rename_i a rest₁ ha
      split at h
      · rename_i b rest₂ hb
        cases h
        exact Nat.lt_trans (d.shrinks _ _ _ hb) (c.shrinks _ _ _ ha)
      · cases h
      · cases h
    · cases h
    · cases h

/-- Decode a given number of frames. -/
def decodeN : Nat → List B → Decoded (List α) B
  | 0, l => .ok [] l
  | n + 1, l =>
    match c.decode l with
    | .ok a rest =>
      match decodeN n rest with
      | .ok as rest => .ok (a :: as) rest
      | .eof => .eof
      | .error => .error
    | .eof => .eof
    | .error => .error

theorem decodeN_encodeAll {l : List α} (hv : ∀ a ∈ l, c.valid a) (rest : List B) :
    c.decodeN l.length (c.encodeAll l ++ rest) = .ok l rest := by
  induction l with
  | nil => rfl
  | cons a l ih =>
    have ha := c.decode_encode a (c.encodeAll l ++ rest) (hv a (List.mem_cons_self ..))
    have ih := ih fun b hb => hv b (List.mem_cons_of_mem a hb)
    simp only [List.length_cons, decodeN, encodeAll_cons, List.append_assoc, ha, ih]

theorem decodeN_cut {l : List α} (hv : ∀ a ∈ l, c.valid a) (hp : p <+: c.encodeAll l)
    (hne : p ≠ c.encodeAll l) : c.decodeN l.length p = .eof := by
  induction l generalizing p with
  | nil => exact absurd (List.prefix_nil.1 hp) hne
  | cons a l ih =>
    have ha := hv a (List.mem_cons_self ..)
    have hv := fun b hb => hv b (List.mem_cons_of_mem a hb)
    rw [encodeAll_cons] at hp hne
    simp only [List.length_cons, decodeN]
    rcases prefix_append_cases hp with hp | ⟨q, rfl, hq⟩
    · by_cases he : p = c.encode a
      · have hd := c.decode_encode a [] ha
        rw [List.append_nil] at hd
        have hnil : ([] : List B) ≠ c.encodeAll l := by
          intro hn
          exact hne (by rw [he, ← hn, List.append_nil])
        simp only [he, hd, ih hv List.nil_prefix hnil]
      · simp only [c.decode_cut a p ha hp he]
    · have hq' : q ≠ c.encodeAll l := fun he => hne (by rw [he])
      simp only [c.decode_encode a q ha, ih hv hq hq']

theorem decodeN_shrinks {n : Nat} {l : List B} {as : List α} {rest : List B}
    (h : c.decodeN n l = .ok as rest) : rest.length ≤ l.length := by
  induction n generalizing l as with
  | zero =>
    cases h
    exact Nat.le_refl _
  | succ n ih =>
    simp only [decodeN] at h
    split at h
    · rename_i a rest₁ ha
      have hlt := c.shrinks _ _ _ ha
      split at h
      · rename_i hn
        cases h
        exact Nat.le_trans (ih hn) (Nat.le_of_lt hlt)
      · cases h
      · cases h
    · cases h
    · cases h

/-- A sequence behind its length. -/
def counted (len : Codec Nat B) (c : Codec α B) : Codec (List α) B where
  valid l := len.valid l.length ∧ ∀ a ∈ l, c.valid a
  encode l := len.encode l.length ++ c.encodeAll l
  decode l :=
    match len.decode l with
    | .ok n rest => c.decodeN n rest
    | .eof => .eof
    | .error => .error
  decode_nil := by simp only [len.decode_nil]
  decode_encode l rest h := by
    simp only [List.append_assoc, len.decode_encode _ _ h.1, c.decodeN_encodeAll h.2]
  decode_cut l p h hp hne := by
    rcases prefix_append_cases hp with hp | ⟨q, rfl, hq⟩
    · by_cases he : p = len.encode l.length
      · have hd := len.decode_encode l.length [] h.1
        rw [List.append_nil] at hd
        have hnil : ([] : List B) ≠ c.encodeAll l := by
          intro hn
          exact hne (by rw [he, ← hn, List.append_nil])
        simp only [he, hd, c.decodeN_cut h.2 List.nil_prefix hnil]
      · simp only [len.decode_cut _ p h.1 hp he]
    · have hq' : q ≠ c.encodeAll l := fun he => hne (by rw [he])
      simp only [len.decode_encode _ _ h.1, c.decodeN_cut h.2 hq hq']
  shrinks l as rest h := by
    split at h
    · rename_i n rest₁ hn
      exact Nat.lt_of_le_of_lt (c.decodeN_shrinks h) (len.shrinks _ _ _ hn)
    · cases h
    · cases h

end Codec

end Framing
