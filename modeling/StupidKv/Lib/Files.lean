import Mathlib.Data.List.TakeDrop

namespace Files
set_option autoImplicit true

variable {α : Type*}

/-- One byte of a file, and whether it has reached the disk since it was written. -/
structure Cell (α : Type*) where
  value : α
  synced : Bool

/-- An open file. In append mode every write goes to the end, wherever the cursor is. -/
structure File (α : Type*) where
  cells : List (Cell α)
  cursor : Nat
  append : Bool

namespace File

def content (f : File α) : List α := f.cells.map Cell.value

def create : File α := ⟨[], 0, false⟩

/-- The file opened anew for reading. -/
def reopen (f : File α) : File α := { f with cursor := 0, append := false }

def seek (f : File α) (position : Nat) : File α := { f with cursor := position }

/-- What reads have not consumed. -/
def rest (f : File α) : List α := f.content.drop f.cursor

def read (f : File α) (n : Nat) : File α × List α :=
  ({ f with cursor := f.cursor + (f.rest.take n).length }, f.rest.take n)

/-- Where the next write goes. -/
def target (f : File α) : Nat := if f.append then f.cells.length else f.cursor

/-- Overwrite or extend; a gap behind the end reads as the default byte. -/
def write [Inhabited α] (f : File α) (buf : List α) : File α where
  cells := f.cells.takeD f.target ⟨default, false⟩ ++ buf.map (⟨·, false⟩) ++
    f.cells.drop (f.target + buf.length)
  cursor := f.target + buf.length
  append := f.append

def setLen [Inhabited α] (f : File α) (n : Nat) : File α :=
  { f with cells := f.cells.takeD n ⟨default, false⟩ }

def syncAll (f : File α) : File α :=
  { f with cells := f.cells.map fun c => { c with synced := true } }

/-- Every byte has reached the disk. -/
def Clean (f : File α) : Prop := ∀ c ∈ f.cells, c.synced = true

instance (f : File α) : Decidable f.Clean := inferInstanceAs (Decidable (∀ c ∈ f.cells, _))

/-- Writes extend the file. -/
def AtEnd (f : File α) : Prop := f.target = f.cells.length

@[simp] theorem content_seek (f : File α) (p : Nat) : (f.seek p).content = f.content := rfl

@[simp] theorem content_reopen (f : File α) : f.reopen.content = f.content := rfl

@[simp] theorem content_read (f : File α) (n : Nat) : (f.read n).1.content = f.content := rfl

@[simp] theorem content_syncAll (f : File α) : f.syncAll.content = f.content := by
  simp [content, syncAll, Function.comp_def]

@[simp] theorem rest_reopen (f : File α) : f.reopen.rest = f.content := rfl

@[simp] theorem rest_seek (f : File α) (p : Nat) : (f.seek p).rest = f.content.drop p := rfl

theorem clean_syncAll (f : File α) : f.syncAll.Clean := by
  intro c hc
  obtain ⟨c', -, rfl⟩ := List.mem_map.1 hc
  rfl

theorem atEnd_create : (create : File α).AtEnd := rfl

theorem atEnd_of_append {f : File α} (h : f.append = true) : f.AtEnd := by
  unfold AtEnd target
  rw [if_pos h]

theorem rest_read (f : File α) (n : Nat) : (f.read n).1.rest = f.rest.drop n := by
  change f.content.drop (f.cursor + (f.rest.take n).length) = (f.content.drop f.cursor).drop n
  rw [List.drop_drop, List.length_take]
  by_cases h : n ≤ f.rest.length
  · rw [Nat.min_eq_left h]
  · have hlen : f.rest.length = f.content.length - f.cursor := List.length_drop
    rw [List.drop_eq_nil_of_le (by omega), List.drop_eq_nil_of_le (by omega)]

section
variable [Inhabited α] {f : File α}

@[simp] theorem append_write (f : File α) (buf : List α) : (f.write buf).append = f.append := rfl

theorem cells_write (h : f.AtEnd) (buf : List α) :
    (f.write buf).cells = f.cells ++ buf.map (⟨·, false⟩) := by
  have ht : f.target = f.cells.length := h
  simp only [write, ht, List.takeD_eq_take _ (Nat.le_refl _), List.take_length]
  rw [List.drop_eq_nil_of_le (Nat.le_add_right _ _), List.append_nil]

theorem atEnd_write (h : f.AtEnd) (buf : List α) : (f.write buf).AtEnd := by
  have hlen : (f.write buf).cells.length = f.cells.length + buf.length := by
    rw [cells_write h]
    simp
  unfold AtEnd target
  rw [hlen]
  split
  · rfl
  · change f.target + buf.length = _
    rw [show f.target = f.cells.length from h]

@[simp] theorem content_setLen_zero (f : File α) : (f.setLen 0).content = [] := rfl

end

end File

/-- A copy from one file to another, chunk by chunk, to the end of the source. `chunk` gives the
bytes moved beyond the first at each position, or that a read or a write fails there. -/
def copyLoop [Inhabited α] (chunk : Nat → Option Nat) :
    Nat → File α → File α → File α × File α × Bool
  | 0, src, dst => (src, dst, true)
  | fuel + 1, src, dst =>
    if src.rest.isEmpty then (src, dst, true)
    else
      match chunk src.cursor with
      | none => (src, dst, false)
      | some n => copyLoop chunk fuel (src.read (n + 1)).1 (dst.write (src.read (n + 1)).2)

/-- `std::io::copy`: the loop ends by itself, since every chunk moves a byte. -/
def copy [Inhabited α] (chunk : Nat → Option Nat) (src dst : File α) : File α × File α × Bool :=
  copyLoop chunk src.rest.length src dst

section
variable [Inhabited α] {chunk : Nat → Option Nat} {src dst src' dst' : File α}

theorem copyLoop_frame (chunk : Nat → Option Nat) (fuel : Nat) (src dst : File α) :
    (copyLoop chunk fuel src dst).1.cells = src.cells ∧
      (copyLoop chunk fuel src dst).1.append = src.append ∧
      (copyLoop chunk fuel src dst).2.1.append = dst.append := by
  induction fuel generalizing src dst with
  | zero => exact ⟨rfl, rfl, rfl⟩
  | succ fuel ih =>
    unfold copyLoop
    split
    · exact ⟨rfl, rfl, rfl⟩
    · split
      · exact ⟨rfl, rfl, rfl⟩
      · rename_i n _
        exact ih (src.read (n + 1)).1 (dst.write (src.read (n + 1)).2)

theorem copy_frame (h : copy chunk src dst = (src', dst', ok)) :
    src'.cells = src.cells ∧ src'.append = src.append ∧ dst'.append = dst.append := by
  have hf := copyLoop_frame chunk src.rest.length src dst
  change (copy chunk src dst).1.cells = _ ∧ (copy chunk src dst).1.append = _ ∧
    (copy chunk src dst).2.1.append = _ at hf
  rwa [h] at hf

/-- Whatever the chunks, a copy that succeeds has written all the source had left. -/
theorem copyLoop_cells (hd : dst.AtEnd) (hf : src.rest.length ≤ fuel)
    (h : copyLoop chunk fuel src dst = (src', dst', true)) :
    dst'.cells = dst.cells ++ src.rest.map (⟨·, false⟩) ∧ dst'.AtEnd := by
  induction fuel generalizing src dst with
  | zero =>
    cases h
    rw [List.length_eq_zero_iff.1 (Nat.le_zero.1 hf)]
    simpa using hd
  | succ fuel ih =>
    unfold copyLoop at h
    split at h
    · rename_i he
      cases h
      rw [List.isEmpty_iff.1 he]
      simpa using hd
    · rename_i he
      split at h
      · cases h
      · rename_i n _
        have hpos : src.rest.length ≠ 0 := by simpa using he
        have hle : (src.read (n + 1)).1.rest.length ≤ fuel := by
          rw [File.rest_read, List.length_drop]
          omega
        obtain ⟨hc, ha⟩ := ih (File.atEnd_write hd _) hle h
        refine ⟨?_, ha⟩
        rw [hc, File.cells_write hd, File.rest_read, List.append_assoc, ← List.map_append]
        congr 2
        exact List.take_append_drop (n + 1) src.rest

theorem copy_cells (hd : dst.AtEnd) (h : copy chunk src dst = (src', dst', true)) :
    dst'.cells = dst.cells ++ src.rest.map (⟨·, false⟩) :=
  (copyLoop_cells hd (Nat.le_refl _) h).1

theorem copy_content (hd : dst.AtEnd) (h : copy chunk src dst = (src', dst', true)) :
    dst'.content = dst.content ++ src.rest := by
  unfold File.content
  rw [copy_cells hd h]
  simp [Function.comp_def]

theorem copyLoop_ok (h : ∀ n, (chunk n).isSome = true) (fuel : Nat) (src dst : File α) :
    (copyLoop chunk fuel src dst).2.2 = true := by
  induction fuel generalizing src dst with
  | zero => rfl
  | succ fuel ih =>
    unfold copyLoop
    split
    · rfl
    · split
      · rename_i hn
        exact absurd (h src.cursor) (by simp [hn])
      · exact ih _ _

end

end Files
