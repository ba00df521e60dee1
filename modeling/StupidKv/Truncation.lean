import StupidKv.Lib.Files
import StupidKv.Persistence

namespace StupidKv
open Files
set_option autoImplicit true

/-- The AOL as `new_with_options` opens it, and the appends that wait for a sync. -/
structure Aol where
  file : File UInt8
  pendingSyncs : Nat
  appends : file.append = true

/-- What the operating system answers in a truncation. A copy moves `copyOut n` bytes beyond the
first at position `n`, or fails there. -/
structure TruncateIo where
  lock : Bool
  metadata : Bool
  seek : Bool
  create : Bool
  copyOut : Nat → Option Nat
  syncTemp : Bool
  openTemp : Bool
  copyBack : Nat → Option Nat
  setLen : Bool
  flush : Bool

/-- Nothing fails, and every copy moves one byte at a time. -/
def TruncateIo.flawless : TruncateIo :=
  ⟨true, true, true, true, fun _ => some 0, true, true, fun _ => some 0, true, true⟩

/-- The copy out to the temporary file and back. -/
def copyAside (file : File UInt8) (position : Nat) (io : TruncateIo) :
    File UInt8 × Except PersistenceError Unit :=
  if !io.seek then (file, .error .io)
  else if !io.create then (file.seek position, .error .io)
  else
    match copy io.copyOut (file.seek position) .create with
    | (file, _, false) => (file, .error .io)
    | (file, temp, true) =>
      if !io.syncTemp || !io.openTemp then (file, .error .io)
      else
        match copy io.copyBack temp.syncAll.reopen file with
        | (_, file, copied) => (file, if copied && io.flush then .ok () else .error .io)

theorem copyAside_append (file : File UInt8) (position : Nat) (io : TruncateIo) :
    (copyAside file position io).1.append = file.append := by
  unfold copyAside
  split
  · rfl
  · split
    · rfl
    · split
      · rename_i he
        exact (copy_frame he).2.1
      · rename_i he
        split
        · exact (copy_frame he).2.1
        · split
          rename_i he'
          exact (copy_frame he').2.2.trans (copy_frame he).2.1

/-- `truncate` with an AOL to truncate; without one it has nothing to do. -/
def Aol.truncate (aol : Aol) (position : Nat) (io : TruncateIo) :
    Aol × Except PersistenceError Unit :=
  if !io.lock then (aol, .error .lockFailed)
  else if !io.metadata then (aol, .error .io)
  else
    let pendingSyncs := if position = 0 then 0 else aol.pendingSyncs
    if aol.file.cells.length > position then
      let r := copyAside aol.file position io
      have h : r.1.append = true := (copyAside_append aol.file position io).trans aol.appends
      match r.2 with
      | .ok () => (⟨r.1, pendingSyncs, h⟩, .ok ())
      | .error e => (⟨r.1, aol.pendingSyncs, h⟩, .error e)
    else if !io.setLen then (aol, .error .io)
    else if !io.flush then (⟨aol.file.setLen 0, aol.pendingSyncs, aol.appends⟩, .error .io)
    else (⟨aol.file.setLen 0, pendingSyncs, aol.appends⟩, .ok ())

theorem copyAside_cells {file file' : File UInt8} (ha : file.append = true)
    (h : copyAside file position io = (file', .ok ())) :
    file'.cells = file.cells ++ (file.content.drop position).map (⟨·, false⟩) := by
  unfold copyAside at h
  split at h
  · cases h
  · split at h
    · cases h
    · split at h
      · cases h
      · rename_i file₁ temp hout
        split at h
        · cases h
        · split at h
          rename_i temp' file₂ copied hback
          cases copied with
          | false => cases h
          | true =>
            obtain ⟨rfl, -⟩ := Prod.mk.inj h
            obtain ⟨hcells, happ, -⟩ := copy_frame hout
            have htemp := copy_content File.atEnd_create hout
            rw [copy_cells (File.atEnd_of_append (happ.trans ha)) hback, hcells,
              File.rest_reopen, File.content_syncAll, htemp]
            rfl

section
variable {aol aol' : Aol} {position : Nat} {io : TruncateIo}

theorem Aol.truncate_cases (h : aol.truncate position io = (aol', .ok ())) :
    aol'.pendingSyncs = (if position = 0 then 0 else aol.pendingSyncs) ∧
      aol'.file.cells = if aol.file.cells.length > position then
        aol.file.cells ++ (aol.file.content.drop position).map (⟨·, false⟩) else [] := by
  unfold Aol.truncate at h
  split at h
  · cases h
  · split at h
    · cases h
    · dsimp only at h
      split at h
      · rename_i hlt
        split at h
        · rename_i hok
          cases h
          rw [if_pos hlt]
          exact ⟨rfl, copyAside_cells aol.appends (Prod.ext rfl hok)⟩
        · cases h
      · rename_i hle
        split at h
        · cases h
        · split at h
          · cases h
          · cases h
            rw [if_neg hle]
            exact ⟨rfl, rfl⟩

theorem Aol.truncate_flawless (aol : Aol) (position : Nat) :
    (aol.truncate position .flawless).2 = .ok () := by
  have hcopied : ∀ src dst : File UInt8, (copy (fun _ => some 0) src dst).2.2 = true :=
    fun src dst => copyLoop_ok (fun _ => rfl) _ src dst
  have hok : (copyAside aol.file position .flawless).2 = .ok () := by
    simp only [copyAside, TruncateIo.flawless, Bool.not_true, Bool.false_eq_true, if_false,
      Bool.or_false, Bool.and_true]
    split
    · rename_i hout
      have := hcopied (aol.file.seek position) .create
      rw [hout] at this
      cases this
    · rename_i file temp hout
      rw [hcopied temp.syncAll.reopen file, if_pos rfl]
  simp only [Aol.truncate, TruncateIo.flawless, Bool.not_true, Bool.false_eq_true, if_false]
  split
  · split
    · rfl
    · rename_i he
      exact absurd (hok.symm.trans he) (by simp)
  · rfl

/-- The bytes of the file are the ones the log model keeps. -/
theorem Aol.truncate_content (h : aol.truncate position io = (aol', .ok ())) :
    aol'.file.content = StupidKv.truncate aol.file.content position := by
  have hlen : aol.file.content.length = aol.file.cells.length := List.length_map _
  unfold File.content StupidKv.truncate
  rw [(Aol.truncate_cases h).2]
  change _ = if aol.file.content.length > position then
    aol.file.content ++ aol.file.content.drop position else []
  rw [hlen]
  split
  · simp [File.content, Function.comp_def]
  · rfl

/-- A truncation leaves the unsnapshotted suffix only where there is none: otherwise it appends the
suffix to the file that still holds it. -/
theorem Aol.truncate_exact_iff (h : aol.truncate position io = (aol', .ok ())) :
    aol'.file.content = (if aol.file.content.length > position then
      aol.file.content.drop position else []) ↔ aol.file.content.length ≤ position := by
  rw [Aol.truncate_content h]
  unfold StupidKv.truncate
  split
  · rename_i hlt
    constructor
    · intro he
      have hnil := List.append_left_eq_self.1 he
      rw [hnil] at hlt
      exact absurd hlt (Nat.not_lt_zero _)
    · intro hle
      exact absurd hlt (Nat.not_lt.2 hle)
  · rename_i hle
    exact iff_of_true rfl (Nat.not_lt.1 hle)

end

/-- An AOL that holds synced bytes. -/
def Aol.opened (content : Bytes) : Aol := ⟨⟨content.map (⟨·, true⟩), 0, true⟩, 0, rfl⟩

/-- Nothing was appended since the cutoff, so nothing stays. -/
theorem Aol.truncate_whole :
    ∃ aol', (Aol.opened [1, 2, 3]).truncate 3 .flawless = (aol', .ok ()) ∧
      aol'.file.content = [] := by
  have h : (Aol.opened [1, 2, 3]).truncate 3 .flawless =
      (((Aol.opened [1, 2, 3]).truncate 3 .flawless).1, .ok ()) :=
    Prod.ext rfl (Aol.truncate_flawless _ 3)
  exact ⟨_, h, (Aol.truncate_exact_iff h).2 (by decide)⟩

/-- Of the bytes 1, 2 the second lies behind the cutoff: the file ends up as 1, 2, 2. -/
theorem Aol.not_truncate_exact :
    ¬ ∀ (aol aol' : Aol) position io, aol.truncate position io = (aol', .ok ()) →
      aol'.file.content = (if aol.file.content.length > position then
        aol.file.content.drop position else []) := by
  intro hall
  have h : (Aol.opened [1, 2]).truncate 1 .flawless =
      (((Aol.opened [1, 2]).truncate 1 .flawless).1, .ok ()) :=
    Prod.ext rfl (Aol.truncate_flawless _ 1)
  have hc := hall _ _ _ _ h
  rw [Aol.truncate_content h] at hc
  revert hc
  decide

end StupidKv
