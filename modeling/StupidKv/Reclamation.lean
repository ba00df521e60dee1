import StupidKv.Sweeps

namespace StupidKv
open Std
set_option autoImplicit true

namespace Maintained
variable {m : Maintained}

/-- The keys the full pass still has before it. -/
def keysLeft (datastore : SkipMap Bytes Versions) (cursor : Option Bytes) : Nat :=
  datastore.keys.countP fun key => cursor.all fun c => compare c key == .lt

/-- The turns up to the next full pass, the one under way included. -/
def turnsLeft (m : Maintained) : Nat := m.fullScanFrequency - m.cycle % m.fullScanFrequency

/-- What it costs that the pass under way began too early to be the last one needed. -/
def stale (m : Maintained) (cleanupTs : Nat) : Nat :=
  if cleanupTs = m.db.inner.timestamp then 0
  else m.db.inner.gcDirtyKeys.length + 2 * m.fullScanFrequency + m.db.inner.datastore.size + 1

/-- The steps that are left to the worker at most, if nobody calls. -/
def rank (m : Maintained) : Nat :=
  match m.stage with
  | .parked =>
    m.db.inner.gcDirtyKeys.length + 2 * m.turnsLeft + m.db.inner.datastore.size + 1
  | .dirty cleanupTs _ =>
    m.db.inner.gcDirtyKeys.length + 2 * m.turnsLeft + m.db.inner.datastore.size +
      m.stale cleanupTs
  | .full cleanupTs cursor => keysLeft m.db.inner.datastore cursor + 1 + m.stale cleanupTs

theorem Collects.frame (hc : Collects m now m') :
    m'.db.transactions = m.db.transactions ∧ m'.db.inner.timestamp = m.db.inner.timestamp := by
  cases hc <;> exact ⟨rfl, rfl⟩

end Maintained

/-- No entry of the datastore is left empty. -/
def Stocked (datastore : SkipMap Bytes Versions) : Prop :=
  ∀ (key : Bytes) ch, datastore[key]? = some ch → ch.inner ≠ []

theorem gcEntry_nonempty (h : gcEntry w ch = some ch') : ch'.inner ≠ [] := by
  simp only [gcEntry] at h
  split at h
  · cases h
  · cases h
    exact mt List.length_eq_zero_iff.2 ‹_›

section
variable {datastore : SkipMap Bytes Versions}

theorem Stocked.gcKey (h : Stocked datastore) (w : Nat) (key : Bytes) :
    Stocked (Inner.gcKey w datastore key) := by
  intro k ch hk
  rw [Inner.getElem?_gcKey] at hk
  split at hk
  · obtain ⟨ch', -, hgc⟩ := Option.bind_eq_some_iff.1 hk
    exact gcEntry_nonempty hgc
  · exact h k ch hk

theorem Stocked.runGc (db : Inner) (now : Nat) : Stocked (db.runGc now).datastore := by
  intro key ch hk
  simp only [Inner.runGc, Inner.gcPass, Inner.getElem?_runGcFull] at hk
  obtain ⟨ch', -, hgc⟩ := Option.bind_eq_some_iff.1 hk
  exact gcEntry_nonempty hgc

end

namespace Maintained
variable {m : Maintained}

end Maintained

end StupidKv
