import StupidKv.Simulation

namespace StupidKv
open Std
set_option autoImplicit true

/-- A writeset as the sequence of writes that made it; `none` deletes. -/
abbrev Writes := List (Bytes × Option Bytes)

/-- The last write of `key`, if there is one. -/
def Writes.last (ws : Writes) (key : Bytes) : Option (Option Bytes) :=
  ws.reverse.findSome? fun e => if e.1 = key then some e.2 else none

def Writes.shareKey (a b : Writes) : Bool := a.any fun e => b.any fun f => e.1 = f.1

/-- The calls of the snapshot-isolation interface. -/
inductive SnapshotCall where
  | transaction (write : Bool)
  | get (i : Nat) (key : Bytes)
  | set (i : Nat) (key val : Bytes)
  | del (i : Nat) (key : Bytes)
  | commit (i : Nat)
  | cancel (i : Nat)
  | drop (i : Nat)
  | runGc
  | runCleanup

def SnapshotCall.toCall : SnapshotCall → Call
  | transaction write => .transaction write
  | get i key => .on i (.get key)
  | set i key val => .on i (.set key val)
  | del i key => .on i (.del key)
  | commit i => .on i .commit
  | cancel i => .on i .cancel
  | drop i => .on i .drop
  | runGc => .runGc
  | runCleanup => .runCleanup

structure SnapshotTx where
  snapshot : Nat
  write : Bool
  closed : Bool
  writes : Writes

/-- The abstract machine of snapshot isolation: the committed writesets in commit order, and
transactions whose snapshot is a prefix of that list. -/
structure SnapshotMachine where
  committed : List Writes
  transactions : List (Option SnapshotTx)

namespace SnapshotMachine

def new : SnapshotMachine := ⟨[], []⟩

/-- The last write of `key` within the first `n` writesets. -/
def valueAt (m : SnapshotMachine) (n : Nat) (key : Bytes) : Option Bytes :=
  (Writes.last (m.committed.take n).flatten key).join

def conflicts (m : SnapshotMachine) (tx : SnapshotTx) : Bool :=
  (m.committed.drop tx.snapshot).any fun ws => ws.shareKey tx.writes

/-- Replace the transaction `i`. -/
def put (m : SnapshotMachine) (i : Nat) (tx : SnapshotTx) : SnapshotMachine :=
  { m with transactions := m.transactions.set i (some tx) }

def get (m : SnapshotMachine) (tx : SnapshotTx) (key : Bytes) : Except Error (Option Bytes) :=
  if tx.closed then .error .txClosed
  else .ok ((tx.writes.last key).getD (m.valueAt tx.snapshot key))

def write (m : SnapshotMachine) (i : Nat) (tx : SnapshotTx) (key : Bytes)
    (value : Option Bytes) : SnapshotMachine × Except Error Unit :=
  if tx.closed then (m, .error .txClosed)
  else if !tx.write then (m, .error .txNotWritable)
  else (m.put i { tx with writes := tx.writes ++ [(key, value)] }, .ok ())

def commit (m : SnapshotMachine) (i : Nat) (tx : SnapshotTx) :
    SnapshotMachine × Except Error Unit :=
  if tx.closed then (m, .error .txClosed)
  else if tx.writes.isEmpty then (m.put i { tx with closed := true }, .ok ())
  else if m.conflicts tx then (m.put i { tx with closed := true }, .error .keyWriteConflict)
  else ({ m.put i { tx with closed := true } with committed := m.committed ++ [tx.writes] }, .ok ())

def cancel (m : SnapshotMachine) (i : Nat) (tx : SnapshotTx) :
    SnapshotMachine × Except Error Unit :=
  if tx.closed then (m, .error .txClosed)
  else (m.put i { tx with closed := true }, .ok ())

/-- Run a method of the live transaction `i`. -/
def on (m : SnapshotMachine) (i : Nat) (f : SnapshotTx → SnapshotMachine × Response) :
    SnapshotMachine × Response :=
  match m.transactions[i]?.join with
  | some tx => f tx
  | none => (m, .gone)

def step (m : SnapshotMachine) : SnapshotCall → SnapshotMachine × Response
  | .transaction write =>
    ({ m with transactions := m.transactions ++ [some ⟨m.committed.length, write, false, []⟩] },
      .handle m.transactions.length)
  | .get i key => m.on i fun tx => (m, .value (m.get tx key))
  | .set i key val => m.on i fun tx => (m.write i tx key (some val)).map id .done
  | .del i key => m.on i fun tx => (m.write i tx key none).map id .done
  | .commit i => m.on i fun tx => (m.commit i tx).map id .done
  | .cancel i => m.on i fun tx => (m.cancel i tx).map id .done
  | .drop i => m.on i fun _ => ({ m with transactions := m.transactions.set i none }, .unit)
  | .runGc => (m, .unit)
  | .runCleanup => (m, .unit)

/-- The answers to a sequence of calls, from the empty machine. -/
def answers (calls : List SnapshotCall) : List Response :=
  (Execution.respond step new calls).2

end SnapshotMachine

/-- A finite map and a sequence of writes with the same last writes. -/
def SameWrites (ws : Writeset) (w : Writes) : Prop := ∀ key, ws[key]? = w.last key

theorem Writes.last_append (a b : Writes) (key : Bytes) :
    (a ++ b).last key = (b.last key).or (a.last key) := by
  simp [Writes.last, List.findSome?_append]

theorem Writes.last_isSome (w : Writes) (key : Bytes) :
    (w.last key).isSome = w.any fun e => e.1 = key := by
  unfold Writes.last
  rw [Bool.eq_iff_iff, List.findSome?_isSome_iff, List.any_eq_true]
  simp only [List.mem_reverse]
  refine exists_congr fun e => and_congr_right fun _ => ?_
  split <;> simp_all

theorem SameWrites.empty : SameWrites ∅ [] := fun _ => by simp [Writes.last]

theorem SameWrites.insert (h : SameWrites ws w) (key : Bytes) (value : Option Bytes) :
    SameWrites (ws.insert key value) (w ++ [(key, value)]) := by
  intro key'
  rw [ExtTreeMap.getElem?_insert, Writes.last_append, h key']
  by_cases he : key = key'
  · simp [he, Writes.last]
  · simp [he, Writes.last]

theorem SameWrites.mem_iff (h : SameWrites ws w) (key : Bytes) :
    key ∈ ws ↔ ∃ e ∈ w, e.1 = key := by
  rw [ExtTreeMap.mem_iff_isSome_getElem?, h key, Writes.last_isSome]
  simp [List.any_eq_true]

theorem SameWrites.isEmpty (h : SameWrites ws w) : ws.isEmpty = w.isEmpty := by
  rw [Bool.eq_iff_iff, ExtTreeMap.isEmpty_iff, ExtTreeMap.eq_empty_iff_forall_not_mem,
    List.isEmpty_iff]
  simp only [h.mem_iff, not_exists, not_and]
  constructor
  · intro hn
    refine List.eq_nil_iff_forall_not_mem.2 fun e he => ?_
    exact hn e.1 e he rfl
  · rintro rfl
    simp

theorem SameWrites.overlap (h : SameWrites ws w) (h' : SameWrites ws' w') :
    (ws.keys.any fun key => ws'.contains key) = w.shareKey w' := by
  rw [Bool.eq_iff_iff, List.any_eq_true]
  simp only [ExtTreeMap.mem_keys, ExtTreeMap.contains_iff_mem, h.mem_iff, h'.mem_iff,
    Writes.shareKey, List.any_eq_true, decide_eq_true_eq]
  constructor
  · rintro ⟨key, ⟨e, he, rfl⟩, f, hf, hfe⟩
    exact ⟨e, he, f, hf, hfe.symm⟩
  · rintro ⟨e, he, f, hf, hef⟩
    exact ⟨e.1, ⟨e, he, rfl⟩, f, hf, hef.symm⟩

theorem lookup_eq_last {l : List Writeset} {m : List Writes} (h : List.Forall₂ SameWrites l m)
    (key : Bytes) : lookup l key = (Writes.last m.flatten key).join := by
  have hf : ∀ {l : List Writeset} {m : List Writes}, List.Forall₂ SameWrites l m →
      (l.reverse.findSome? fun ws => ws[key]?) = Writes.last m.flatten key := by
    intro l m h
    induction h with
    | nil => rfl
    | cons hw _ ih =>
      rw [List.reverse_cons, List.findSome?_append, ih, List.flatten_cons, Writes.last_append]
      simp [hw key]
  rw [lookup, hf h]

/-- One transaction of the machine and the session it stands for. -/
structure SnapshotSim (s : Session) (tx : SnapshotTx) : Prop where
  mode : s.mode = .snapshotIsolation
  snapshot : s.snapshot = tx.snapshot
  write : s.write = tx.write
  done : s.done = tx.closed
  writes : SameWrites s.writeset tx.writes
  readonly : tx.write = false → tx.writes = []

/-- The ledger, restricted to snapshot isolation, is the machine. -/
structure MachineSim (l : Ledger) (m : SnapshotMachine) : Prop where
  committed : List.Forall₂ SameWrites l.committed m.committed
  length : l.sessions.length = m.transactions.length
  sessions : ∀ i : Nat, Option.Rel SnapshotSim l.sessions[i]?.join m.transactions[i]?.join

theorem MachineSim.new : MachineSim .new .new := ⟨.nil, rfl, fun _ => .none⟩

section
variable {l : Ledger} {m : SnapshotMachine} {s s' : Session} {tx tx' : SnapshotTx} {i : Nat}

theorem MachineSim.put (h : MachineSim l m) (ht : SnapshotSim s' tx') (i : Nat) :
    MachineSim ⟨l.committed ++ [], l.sessions.set i (some s')⟩ (m.put i tx') where
  committed := by
    rw [List.append_nil]
    exact h.committed
  length := by simpa [SnapshotMachine.put] using h.length
  sessions := rel_set h.length h.sessions (.some ht) i

theorem MachineSim.valueAt (h : MachineSim l m) (ht : SnapshotSim s tx) (key : Bytes) :
    lookup (l.committed.take s.snapshot) key = m.valueAt tx.snapshot key := by
  rw [ht.snapshot]
  exact lookup_eq_last (List.forall₂_take tx.snapshot h.committed) key

theorem SnapshotSim.own (h : SnapshotSim s tx) (key : Bytes) : s.own key = tx.writes.last key := by
  unfold Session.own
  rw [h.write, h.writes key]
  cases hw : tx.write with
  | true => rfl
  | false => simp [h.readonly hw, Writes.last]

theorem SnapshotSim.track (h : SnapshotSim s tx) (key : Bytes) : s.track key = s := by
  unfold Session.track
  rw [h.mode]
  simp

/-- Under snapshot isolation only a write conflict stops a commit. -/
theorem MachineSim.conflicts (h : MachineSim l m) (ht : SnapshotSim s tx) :
    (l.committed.drop s.snapshot).findSome? s.conflict =
      if m.conflicts tx then some .keyWriteConflict else none := by
  have hd := List.forall₂_drop tx.snapshot h.committed
  unfold SnapshotMachine.conflicts
  rw [ht.snapshot]
  generalize l.committed.drop tx.snapshot = xs at hd
  generalize m.committed.drop tx.snapshot = ys at hd
  induction hd with
  | nil => rfl
  | cons hw _ ih =>
    rw [List.findSome?_cons, List.any_cons, ih]
    unfold Session.conflict
    rw [hw.overlap ht.writes, ht.mode]
    split <;> simp_all

theorem SnapshotMachine.put_self (hi : m.transactions[i]?.join = some tx) : m.put i tx = m := by
  obtain ⟨hl, hg⟩ := getElem_of_join hi
  simp [SnapshotMachine.put, ← hg]

theorem MachineSim.write (h : MachineSim l m) (ht : SnapshotSim s tx)
    (hi : m.transactions[i]?.join = some tx) (key : Bytes) (value : Option Bytes) :
    (s.store key value).2 = (m.write i tx key value).2 ∧
      MachineSim ⟨l.committed ++ [], l.sessions.set i (some (s.store key value).1)⟩
        (m.write i tx key value).1 := by
  unfold Session.store SnapshotMachine.write
  by_cases hc : tx.closed = true
  · rw [if_pos hc, if_pos (ht.done ▸ hc)]
    exact ⟨rfl, m.put_self hi ▸ h.put ht i⟩
  · have hd : ¬ s.done = true := ht.done ▸ hc
    rw [if_neg hc, if_neg hd]
    by_cases hw : (!tx.write) = true
    · rw [if_pos hw, if_pos (ht.write ▸ hw)]
      exact ⟨rfl, m.put_self hi ▸ h.put ht i⟩
    · have hs : ¬ (!s.write) = true := ht.write ▸ hw
      rw [if_neg hw, if_neg hs]
      refine ⟨rfl, h.put ?_ i⟩
      exact { ht with
        writes := ht.writes.insert key value
        readonly := fun hn => absurd hn (by simpa using hw) }

theorem SnapshotSim.close (h : SnapshotSim s tx) : SnapshotSim s.close { tx with closed := true } :=
  { h with done := rfl }

theorem MachineSim.commit (h : MachineSim l m) (ht : SnapshotSim s tx)
    (hi : m.transactions[i]?.join = some tx) :
    (s.commit l.committed).1 = (m.commit i tx).2 ∧
      MachineSim ⟨l.committed ++ (s.commit l.committed).2, l.sessions.set i (some s.close)⟩
        (m.commit i tx).1 := by
  unfold Session.commit SnapshotMachine.commit
  rw [ht.done, ht.writes.isEmpty, h.conflicts ht]
  by_cases hc : tx.closed = true
  · rw [if_pos hc, if_pos hc]
    have htx : { tx with closed := true } = tx := by rw [← hc]
    have hp := h.put ht.close i
    rw [htx, m.put_self hi] at hp
    exact ⟨rfl, hp⟩
  rw [if_neg hc, if_neg hc]
  by_cases he : tx.writes.isEmpty = true
  · rw [if_pos he, if_pos he]
    exact ⟨rfl, h.put ht.close i⟩
  rw [if_neg he, if_neg he]
  by_cases hf : m.conflicts tx = true
  · rw [if_pos hf, if_pos hf]
    exact ⟨rfl, h.put ht.close i⟩
  rw [if_neg hf, if_neg hf]
  have hp := h.put ht.close i
  exact ⟨rfl, List.rel_append h.committed (.cons ht.writes .nil), hp.length, hp.sessions⟩

theorem MachineSim.get (h : MachineSim l m) (ht : SnapshotSim s tx) (key : Bytes) :
    s.get (lookup (l.committed.take s.snapshot)) key = (s, m.get tx key) := by
  unfold Session.get SnapshotMachine.get
  rw [ht.done, ht.own, ht.track, h.valueAt ht]
  split
  · rfl
  · cases tx.writes.last key <;> rfl

theorem MachineSim.cancel (h : MachineSim l m) (ht : SnapshotSim s tx)
    (hi : m.transactions[i]?.join = some tx) :
    s.cancel.2 = (m.cancel i tx).2 ∧
      MachineSim ⟨l.committed ++ [], l.sessions.set i (some s.cancel.1)⟩ (m.cancel i tx).1 := by
  unfold Session.cancel SnapshotMachine.cancel
  rw [ht.done]
  split
  · exact ⟨rfl, m.put_self hi ▸ h.put ht i⟩
  · exact ⟨rfl, h.put ht.close i⟩

theorem MachineSim.drop (h : MachineSim l m) (i : Nat) :
    MachineSim ⟨l.committed ++ [], l.sessions.set i none⟩
      { m with transactions := m.transactions.set i none } where
  committed := by
    rw [List.append_nil]
    exact h.committed
  length := by simpa using h.length
  sessions := rel_set h.length h.sessions .none i

theorem MachineSim.on (h : MachineSim l m) (op : Op)
    {f : SnapshotTx → SnapshotMachine × Response}
    (hf : ∀ s tx, m.transactions[i]?.join = some tx → SnapshotSim s tx →
      (s.step l.committed op).2.1 = (f tx).2 ∧
      MachineSim ⟨l.committed ++ (s.step l.committed op).2.2,
        l.sessions.set i (s.step l.committed op).1⟩ (f tx).1) :
    (l.step (.on i op)).2 = (m.on i f).2 ∧ MachineSim (l.step (.on i op)).1 (m.on i f).1 := by
  have hr := h.sessions i
  simp only [Ledger.step, SnapshotMachine.on]
  generalize l.sessions[i]?.join = o at hr ⊢
  generalize hm : m.transactions[i]?.join = o' at hr ⊢
  cases hr with
  | none => exact ⟨rfl, h⟩
  | some ht => exact hf _ _ hm ht

theorem MachineSim.step (h : MachineSim l m) (call : SnapshotCall) :
    (l.step call.toCall).2 = (m.step call).2 ∧
      MachineSim (l.step call.toCall).1 (m.step call).1 := by
  cases call with
  | transaction write =>
    refine ⟨by simp [SnapshotCall.toCall, Ledger.step, SnapshotMachine.step, h.length], ?_⟩
    refine ⟨h.committed, by simp [SnapshotCall.toCall, Ledger.step, SnapshotMachine.step, h.length],
      rel_concat h.length h.sessions (.some ?_)⟩
    exact ⟨rfl, h.committed.length_eq, rfl, rfl, SameWrites.empty, fun _ => rfl⟩
  | get i key =>
    refine h.on (.get key) fun s tx hi ht => ?_
    simp only [Session.step, h.get ht key]
    exact ⟨trivial, m.put_self hi ▸ h.put ht i⟩
  | set i key val =>
    refine h.on (.set key val) fun s tx hi ht => ?_
    obtain ⟨hr, hs⟩ := h.write ht hi key (some val)
    exact ⟨congrArg Response.done hr, hs⟩
  | del i key =>
    refine h.on (.del key) fun s tx hi ht => ?_
    obtain ⟨hr, hs⟩ := h.write ht hi key none
    exact ⟨congrArg Response.done hr, hs⟩
  | commit i =>
    refine h.on .commit fun s tx hi ht => ?_
    obtain ⟨hr, hs⟩ := h.commit ht hi
    exact ⟨congrArg Response.done hr, hs⟩
  | cancel i =>
    refine h.on .cancel fun s tx hi ht => ?_
    obtain ⟨hr, hs⟩ := h.cancel ht hi
    exact ⟨congrArg Response.done hr, hs⟩
  | drop i => exact h.on .drop fun _ _ _ _ => ⟨rfl, h.drop i⟩
  | runGc => exact ⟨rfl, h⟩
  | runCleanup => exact ⟨rfl, h⟩

end

/-- Snapshot isolation. Under any schedule of calls and any clock, every call returns and answers
as the abstract machine does. -/
theorem Database.refines_snapshotMachine (start threshold : Nat)
    (calls : List (SnapshotCall × Nat)) :
    (Execution.collect Database.step (.new start threshold)
        (calls.map fun c => (c.1.toCall, c.2))).map Prod.snd =
      some (SnapshotMachine.answers (calls.map Prod.fst)) := by
  obtain ⟨db, hdb⟩ := Database.answers_ledger start threshold
    (calls.map fun c => (c.1.toCall, c.2))
  rw [hdb, Option.map_some, SnapshotMachine.answers]
  have hl := Execution.respond_simulation (fun l (c : Call × Nat) => Ledger.step l c.1)
    (fun m (c : SnapshotCall × Nat) => SnapshotMachine.step m c.1)
    (fun c => (c.1.toCall, c.2)) MachineSim (fun _ _ c h => h.step c.1) calls MachineSim.new
  rw [hl, Execution.respond_map]

end StupidKv
