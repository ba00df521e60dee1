import StupidKv.ReadValidation

namespace StupidKv
open Std
set_option autoImplicit true

/-- A transaction since its beginning. The methods called so far are history. -/
structure Edited where
  tx : TransactionInner
  ops : List Op

/-- One method, over the shared state it finds. -/
def Edited.step (s : Edited) (a : Inner × Op) : Option Edited := do
  let tx ← s.tx.perform a.1 0 a.2
  return ⟨tx, s.ops ++ [a.2]⟩

/-- What a `set` or a `del` puts under the key. -/
def Op.stored (key : Bytes) : Op → Option (Option Bytes)
  | .set k val => if k = key then some (some val) else none
  | .del k => if k = key then some none else none
  | _ => none

/-- The last of them. -/
def Edited.lastStored (s : Edited) (key : Bytes) : Option (Option Bytes) :=
  s.ops.reverse.findSome? (Op.stored key)

/-- `get` sees a value under the key. -/
def TransactionInner.Sees (tx : TransactionInner) (db : Inner) (key : Bytes) : Prop :=
  ∃ v, (tx.get db key).2 = .ok (some v)

/-- `exists`, and a `put` behind the `get`, take the key to be there exactly when `get` does. -/
structure Agree (tx : TransactionInner) (db : Inner) (key : Bytes) : Prop where
  found : (tx.exists db key).2 = .ok true ↔ tx.Sees db key
  taken : ∀ val, ((tx.get db key).1.put db key val).2 = .error .keyAlreadyExists ↔ tx.Sees db key
  free : ∀ val, ¬ tx.Sees db key → ((tx.get db key).1.put db key val).2 = .ok () ∧
    (((tx.get db key).1.put db key val).1.get db key).2 = .ok (some val)

section
variable {tx : TransactionInner} {db : Inner}

theorem get_own (hd : tx.done = false) (hw : tx.write = true) (hk : tx.writeset[key]? = some v)
    (db : Inner) : tx.get db key = (tx, .ok v) := by
  unfold TransactionInner.get
  rw [if_neg (by simp [hd]), if_pos hw, hk]

theorem get_shared (hd : tx.done = false) (hw : tx.write = true) (hk : tx.writeset[key]? = none)
    (db : Inner) : tx.get db key = (tx.track key, .ok (db.fetchInDatastore key tx.version)) := by
  unfold TransactionInner.get
  rw [if_neg (by simp [hd]), if_pos hw, hk]

theorem exists_own (hd : tx.done = false) (hw : tx.write = true) (hk : tx.writeset[key]? = some v)
    (db : Inner) : tx.exists db key = (tx, .ok true) := by
  unfold TransactionInner.exists
  rw [if_neg (by simp [hd]), if_pos hw, hk]

theorem exists_shared (hd : tx.done = false) (hw : tx.write = true)
    (hk : tx.writeset[key]? = none) (db : Inner) :
    tx.exists db key = (tx.track key, .ok (db.existsInDatastore key tx.version)) := by
  unfold TransactionInner.exists
  rw [if_neg (by simp [hd]), if_pos hw, hk]

theorem put_own (hd : tx.done = false) (hw : tx.write = true) (hk : tx.writeset[key]? = some v)
    (db : Inner) (val : Bytes) : tx.put db key val = (tx, .error .keyAlreadyExists) := by
  unfold TransactionInner.put
  rw [if_neg (by simp [hd]), if_neg (by simp [hw]), hk]

theorem put_shared (hd : tx.done = false) (hw : tx.write = true) (hk : tx.writeset[key]? = none)
    (db : Inner) (val : Bytes) :
    tx.put db key val =
      if db.existsInDatastore key tx.version then (tx, .error .keyAlreadyExists)
      else ({ tx with writeset := tx.writeset.insert key (some val) }, .ok ()) := by
  unfold TransactionInner.put
  rw [if_neg (by simp [hd]), if_neg (by simp [hw]), hk]

/-- With no entry of its own the transaction asks the shared state three times. -/
theorem Agree.shared (hd : tx.done = false) (hw : tx.write = true)
    (hk : tx.writeset[key]? = none) : Agree tx db key := by
  obtain ⟨readset, bloom, htrack⟩ := track_frame tx key
  have hget := get_shared hd hw hk db
  have hsees : tx.Sees db key ↔ db.existsInDatastore key tx.version = true := by
    unfold TransactionInner.Sees
    rw [hget, db.existsInDatastore_eq, Option.isSome_iff_exists]
    simp
  let tracked : TransactionInner := { tx with readset := readset, readsetBloom := bloom }
  have hbehind : (tx.get db key).1 = tracked := by rw [hget, htrack]
  have hd' : tracked.done = false := hd
  have hput : ∀ val, tracked.put db key val =
      if db.existsInDatastore key tx.version then (tracked, .error .keyAlreadyExists)
      else ({ tracked with writeset := tx.writeset.insert key (some val) }, .ok ()) :=
    fun val => put_shared hd' hw hk db val
  refine ⟨?_, ?_, ?_⟩
  · rw [exists_shared hd hw hk, hsees]
    simp
  · intro val
    rw [hbehind, hput, hsees]
    split <;> simp [*]
  · intro val hn
    rw [hsees] at hn
    rw [hbehind, hput, if_neg hn]
    have hown : ({ tracked with writeset := tx.writeset.insert key (some val) }
        : TransactionInner).done = false := hd
    refine ⟨rfl, ?_⟩
    rw [get_own hown hw ExtTreeMap.getElem?_insert_self]

theorem Agree.own (hd : tx.done = false) (hw : tx.write = true)
    (hk : tx.writeset[key]? = some (some v)) : Agree tx db key := by
  have hget := get_own hd hw hk db
  have hsees : tx.Sees db key := ⟨v, by rw [hget]⟩
  refine ⟨?_, ?_, ?_⟩
  · rw [exists_own hd hw hk]
    exact iff_of_true rfl hsees
  · intro val
    rw [hget, put_own hd hw hk]
    exact iff_of_true rfl hsees
  · intro val hn
    exact absurd hsees hn

/-- `exists` takes a deletion of its own for the key. -/
theorem not_agree_of_deletion (hd : tx.done = false) (hw : tx.write = true)
    (hk : tx.writeset[key]? = some none) : ¬ Agree tx db key := by
  intro h
  obtain ⟨v, hv⟩ := h.found.1 (by rw [exists_own hd hw hk])
  rw [get_own hd hw hk] at hv
  cases hv

theorem agree_iff_writeset (hd : tx.done = false) (hw : tx.write = true) :
    Agree tx db key ↔ tx.writeset[key]? ≠ some none := by
  rcases hk : tx.writeset[key]? with _ | _ | v
  · exact iff_of_true (.shared hd hw hk) (by simp)
  · exact iff_of_false (not_agree_of_deletion hd hw hk) (by simp)
  · exact iff_of_true (.own hd hw hk) (by simp)

end

theorem Edited.lastStored_concat (s : Edited) (tx : TransactionInner) (op : Op) (key : Bytes) :
    Edited.lastStored ⟨tx, s.ops ++ [op]⟩ key =
      match op.stored key with
      | some v => some v
      | none => s.lastStored key := by
  simp only [Edited.lastStored, List.reverse_append, List.reverse_cons, List.reverse_nil,
    List.nil_append, List.singleton_append, List.findSome?_cons]
  cases op.stored key <;> rfl

/-- The rights of a transaction stay, and its writeset while it is open. -/
structure KeepsWrites (tx tx' : TransactionInner) : Prop where
  write : tx'.write = tx.write
  writeset : tx'.done = false → tx.done = false ∧ tx'.writeset = tx.writeset

theorem KeepsWrites.refl (tx : TransactionInner) : KeepsWrites tx tx := ⟨rfl, fun h => ⟨h, rfl⟩⟩

theorem KeepsWrites.get (tx : TransactionInner) (db : Inner) (key : Bytes) :
    KeepsWrites tx (tx.get db key).1 := by
  obtain ⟨readset, bloom, he⟩ := get_frame tx db key
  rw [he]
  exact ⟨rfl, fun h => ⟨h, rfl⟩⟩

theorem KeepsWrites.exists (tx : TransactionInner) (db : Inner) (key : Bytes) :
    KeepsWrites tx (tx.exists db key).1 := by
  rw [exists_object]
  exact .get tx db key

theorem KeepsWrites.close {tx tx' : TransactionInner} (hw : tx'.write = tx.write)
    (hd : tx'.done = true) : KeepsWrites tx tx' :=
  ⟨hw, fun h => absurd (hd.symm.trans h) (by simp)⟩

theorem KeepsWrites.cancel (tx : TransactionInner) : KeepsWrites tx tx.cancel.1 := by
  unfold TransactionInner.cancel
  split
  · exact .refl tx
  · obtain ⟨-, -, -, hd, hw⟩ := clearSets_frame { tx with done := true }
    exact .close hw hd

theorem KeepsWrites.runCommit {tx tx' : TransactionInner} {db db' : Inner}
    (h : tx.runCommit db now append = some (db', tx', r)) : KeepsWrites tx tx' := by
  rcases runCommit_object h with rfl | rfl | rfl
  · exact .refl _
  · exact .close rfl rfl
  · obtain ⟨-, -, -, hd, hw⟩ := clearSets_frame { tx with done := true, writeset := ∅ }
    exact .close hw hd

/-- An open writer holds a deletion of the key when that is the last it stored. -/
structure Edited.Faithful (s : Edited) : Prop where
  write : s.tx.write = true
  deletion : s.tx.done = false → ∀ key : Bytes,
    s.tx.writeset[key]? = some none ↔ s.lastStored key = some none

section
variable {s t : Edited} {tx' : TransactionInner}

theorem Edited.Faithful.quiet (h : s.Faithful) (hk : KeepsWrites s.tx tx')
    (hop : ∀ key, op.stored key = none) : Edited.Faithful ⟨tx', s.ops ++ [op]⟩ where
  write := hk.write.trans h.write
  deletion := by
    intro hd key
    obtain ⟨hd, he⟩ := hk.writeset hd
    rw [s.lastStored_concat, hop key]
    change tx'.writeset[key]? = some none ↔ _
    rw [he]
    exact h.deletion hd key

theorem Edited.Faithful.store (h : s.Faithful) (k : Bytes) (value : Option Bytes)
    (hop : ∀ key, op.stored key = if k = key then some value else none) :
    Edited.Faithful ⟨(s.tx.store k value).1, s.ops ++ [op]⟩ := by
  unfold TransactionInner.store
  split
  · rename_i hd
    exact ⟨h.write, fun hn => absurd (hd.symm.trans hn) (by simp)⟩
  · rename_i hd
    rw [if_neg (by simp [h.write])]
    refine ⟨h.write, ?_⟩
    intro hn key
    rw [s.lastStored_concat, hop key]
    change (s.tx.writeset.insert k value)[key]? = some none ↔ _
    rw [ExtTreeMap.getElem?_insert]
    by_cases hk : k = key
    · subst hk
      simp
    · rw [if_neg (fun hc => hk (LawfulEqOrd.compare_eq_iff_eq.1 hc)), if_neg hk]
      exact h.deletion hn key

/-- A `put` finds the key deleted and fails, or stores a value where nothing was stored. -/
theorem Edited.Faithful.put (h : s.Faithful) (db : Inner) (k val : Bytes) :
    Edited.Faithful ⟨(s.tx.put db k val).1, s.ops ++ [.put k val]⟩ := by
  have hop : ∀ key, (Op.put k val).stored key = none := fun _ => rfl
  cases hd : s.tx.done with
  | true =>
    have he : (s.tx.put db k val).1 = s.tx := by
      unfold TransactionInner.put
      rw [if_pos hd]
    rw [he]
    exact h.quiet (.refl _) hop
  | false =>
    cases hk : s.tx.writeset[k]? with
    | some v =>
      rw [put_own hd h.write hk]
      exact h.quiet (.refl _) hop
    | none =>
      rw [put_shared hd h.write hk]
      split
      · exact h.quiet (.refl _) hop
      · refine ⟨h.write, ?_⟩
        intro hn key
        rw [s.lastStored_concat, hop key]
        change (s.tx.writeset.insert k (some val))[key]? = some none ↔ _
        rw [ExtTreeMap.getElem?_insert]
        split
        · rename_i hc
          rw [← LawfulEqOrd.compare_eq_iff_eq.1 hc]
          have hdel := h.deletion hd k
          rw [hk] at hdel
          exact iff_of_false (by simp) (fun hl => absurd (hdel.2 hl) (by simp))
        · exact h.deletion hd key

theorem Edited.Faithful.step (h : s.Faithful) (hs : s.step a = some t) : t.Faithful := by
  obtain ⟨db, op⟩ := a
  obtain ⟨tx', hp, he⟩ := Option.bind_eq_some_iff.1 hs
  cases he
  cases op with
  | set key val =>
    cases hp
    exact h.store key (some val) fun _ => rfl
  | del key =>
    cases hp
    exact h.store key none fun _ => rfl
  | put key val =>
    cases hp
    exact h.put db key val
  | get key =>
    cases hp
    exact h.quiet (.get s.tx db key) fun _ => rfl
  | «exists» key =>
    cases hp
    exact h.quiet (.exists s.tx db key) fun _ => rfl
  | cancel =>
    cases hp
    exact h.quiet (.cancel s.tx) fun _ => rfl
  | commit =>
    obtain ⟨⟨db', tx₁, r⟩, hrun, rfl⟩ := Option.map_eq_some_iff.1 hp
    exact h.quiet (.runCommit hrun) fun _ => rfl
  | drop =>
    cases hp
    exact h.quiet (.refl s.tx) fun _ => rfl
  | withSnapshotIsolation =>
    cases hp
    exact h.quiet ⟨rfl, fun hn => ⟨hn, rfl⟩⟩ fun _ => rfl
  | withSerializableSnapshotIsolation =>
    cases hp
    exact h.quiet ⟨rfl, fun hn => ⟨hn, rfl⟩⟩ fun _ => rfl

end

/-- The three questions agree exactly on the keys whose last `set` or `del` was not a `del`. -/
theorem agree_iff {db₀ db₁ : Database} {tx : TransactionInner} {s : Edited}
    (hb : db₀.poolGet true = some (db₁, tx))
    (h : Execution.Run Edited.step (fun _ _ => True) ⟨tx, []⟩ s) (hd : s.tx.done = false)
    (db : Inner) (key : Bytes) : Agree s.tx db key ↔ s.lastStored key ≠ some none := by
  have hf : s.Faithful := by
    refine h.invariant ?_ ?_
    · intro s a t hs _ ht
      exact hs.step ht
    · obtain ⟨-, -, hw, -, -, hws⟩ := Database.poolGet_fresh hb
      refine ⟨hw, fun _ key => ?_⟩
      change tx.writeset[key]? = some none ↔ _
      rw [hws]
      simp [Edited.lastStored]
  rw [agree_iff_writeset hd hf.write, not_iff_not]
  exact hf.deletion hd key

/-- The methods of a new writer on a database with the value `[7]` under `[1]`. -/
def Edited.after (ops : List Op) : Option Edited := do
  let (_, tx) ← sevenStored.poolGet true
  Execution.exec Edited.step ⟨tx, []⟩ (ops.map fun op => (sevenStored.inner, op))

theorem Edited.after_run {ops : List Op} (h : Edited.after ops = some s) :
    ∃ db' tx, sevenStored.poolGet true = some (db', tx) ∧
      Execution.Run Edited.step (fun _ _ => True) ⟨tx, []⟩ s := by
  simp only [Edited.after, Option.bind_eq_bind] at h
  obtain ⟨⟨db', tx⟩, hb, hs⟩ := Option.bind_eq_some_iff.1 h
  exact ⟨db', tx, hb, .of_exec hs⟩

/-- The deleted key is set again. -/
theorem agree_setAgain :
    ∃ s, Edited.after [.del [1], .put [1] [8], .set [1] [9]] = some s ∧
      Agree s.tx sevenStored.inner [1] := by
  have hrun : (Edited.after [.del [1], .put [1] [8], .set [1] [9]]).map (fun s =>
      decide (s.tx.done = false) && decide (s.lastStored [1] ≠ some none)) = some true := by
    decide +kernel
  obtain ⟨s, hs, hb⟩ := Option.map_eq_some_iff.1 hrun
  rw [Bool.and_eq_true, decide_eq_true_eq, decide_eq_true_eq] at hb
  obtain ⟨db', tx, hget, hr⟩ := Edited.after_run hs
  exact ⟨s, hs, (agree_iff hget hr hb.1 sevenStored.inner [1]).2 hb.2⟩

/-- The transaction deletes `[1]`: `get` finds nothing, `exists` still answers yes. -/
theorem not_agree_deleted :
    ¬ ∀ (db₀ db₁ : Database) tx s, db₀.poolGet true = some (db₁, tx) →
      Execution.Run Edited.step (fun _ _ => True) ⟨tx, []⟩ s → s.tx.done = false →
      ∀ (db : Inner) key, Agree s.tx db key := by
  intro hall
  have hrun : (Edited.after [.del [1]]).map (fun s =>
      decide (s.tx.done = false) && decide (s.tx.write = true) &&
        decide (s.tx.writeset[([1] : Bytes)]? = some none)) = some true := by
    decide +kernel
  obtain ⟨s, hs, hb⟩ := Option.map_eq_some_iff.1 hrun
  rw [Bool.and_eq_true, Bool.and_eq_true, decide_eq_true_eq, decide_eq_true_eq,
    decide_eq_true_eq] at hb
  obtain ⟨⟨hd, hw⟩, hk⟩ := hb
  obtain ⟨db', tx, hget, hr⟩ := Edited.after_run hs
  exact not_agree_of_deletion hd hw hk (hall sevenStored db' tx s hget hr hd sevenStored.inner [1])

end StupidKv
