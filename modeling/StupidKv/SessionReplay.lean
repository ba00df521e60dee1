import StupidKv.History
import StupidKv.Serial

namespace StupidKv
open Std
set_option autoImplicit true

def Op.reads (key : Bytes) : Op → Prop
  | .get k => k = key
  | .exists k => k = key
  | _ => False

section
variable {s s' : Session} {committed other : List Writeset} {m : Nat}

/-- What a method call leaves of a session. -/
inductive Session.Leaves (s : Session) : Session → Prop
  | same : Leaves s s
  | switched (mode : IsolationLevel) : Leaves s { s with mode := mode }
  | tracked (key : Bytes) : Leaves s { s with readset := key :: s.readset }
  | stored (hw : s.write = true) (key : Bytes) (value : Option Bytes) :
      Leaves s { s with writeset := s.writeset.insert key value }
  | closed : Leaves s s.close

theorem Session.Leaves.track (s : Session) (key : Bytes) : s.Leaves (s.track key) := by
  unfold Session.track
  split
  · exact .tracked key
  · exact .same

theorem Session.Leaves.get (s : Session) (view : Bytes → Option Bytes) (key : Bytes) :
    s.Leaves (s.get view key).1 := by
  unfold Session.get
  split
  · exact .same
  · split
    · exact .same
    · exact .track s key

theorem Session.exists_object (s : Session) (view : Bytes → Option Bytes) (key : Bytes) :
    (s.exists view key).1 = (s.get view key).1 := by
  unfold Session.exists Session.get
  split
  · rfl
  · cases s.own key <;> rfl

theorem Session.Leaves.store (s : Session) (key : Bytes) (value : Option Bytes) :
    s.Leaves (s.store key value).1 := by
  unfold Session.store
  split
  · exact .same
  · split
    · exact .same
    · rename_i hw
      exact .stored (by simpa using hw) key value

theorem Session.Leaves.put (s : Session) (view : Bytes → Option Bytes) (key val : Bytes) :
    s.Leaves (s.put view key val).1 := by
  unfold Session.put
  split
  · exact .same
  · split
    · exact .same
    · rename_i hw
      split
      · exact .same
      · exact .stored (by simpa using hw) key (some val)

theorem Session.Leaves.cancel (s : Session) : s.Leaves s.cancel.1 := by
  unfold Session.cancel
  split
  · exact .same
  · exact .closed

theorem Session.Leaves.of_step (h : (s.step committed op).1 = some s') : s.Leaves s' := by
  cases op with
  | withSnapshotIsolation =>
    cases h
    exact .switched _
  | withSerializableSnapshotIsolation =>
    cases h
    exact .switched _
  | get key =>
    cases h
    exact .get s _ key
  | «exists» key =>
    have he : (s.exists (lookup (committed.take s.snapshot)) key).1 = s' := Option.some.inj h
    rw [← he, Session.exists_object]
    exact .get s _ key
  | set key val =>
    cases h
    exact .store s key (some val)
  | put key val =>
    cases h
    exact .put s _ key val
  | del key =>
    cases h
    exact .store s key none
  | cancel =>
    cases h
    exact .cancel s
  | commit =>
    cases h
    exact .closed
  | drop => cases h

theorem Session.step_frame (h : (s.step committed op).1 = some s') :
    s'.snapshot = s.snapshot ∧ s'.write = s.write ∧
      (s.write = false → s'.writeset = s.writeset) := by
  cases Session.Leaves.of_step h with
  | stored hw key value => exact ⟨rfl, rfl, fun hn => absurd (hw.symm.trans hn) (by simp)⟩
  | _ => exact ⟨rfl, rfl, fun _ => rfl⟩

theorem Session.step_open (h : (s.step committed op).1 = some s') (hd : s'.done = false) :
    s.done = false ∧ op ≠ .commit ∧ ∀ key ∈ s.readset, key ∈ s'.readset := by
  have hop : op ≠ .commit := by
    intro he
    subst he
    cases h
    cases hd
  cases Session.Leaves.of_step h with
  | same => exact ⟨hd, hop, fun key hk => hk⟩
  | switched mode => exact ⟨hd, hop, fun key hk => hk⟩
  | tracked k => exact ⟨hd, hop, fun key hk => List.mem_cons_of_mem k hk⟩
  | stored hw k value => exact ⟨hd, hop, fun key hk => hk⟩
  | closed => cases hd

theorem Session.step_tracks (h : (s.step committed op).1 = some s') (hd : s.done = false)
    (hr : op.reads key) (ho : s.own key = none) (hw : s.write = true)
    (hm : s.mode = .serializableSnapshotIsolation) : key ∈ s'.readset := by
  have hget : ∀ view, key ∈ (s.get view key).1.readset := by
    intro view
    simp only [Session.get, Session.track, hd, ho, hw, hm, Bool.false_eq_true, if_false, and_self,
      if_true]
    exact List.mem_cons_self
  cases op with
  | get k =>
    cases hr
    cases h
    exact hget _
  | «exists» k =>
    cases hr
    have he : (s.exists (lookup (committed.take s.snapshot)) key).1 = s' := Option.some.inj h
    rw [← he, Session.exists_object]
    exact hget _
  | _ => cases hr

theorem Session.get_writeset (s : Session) (view : Bytes → Option Bytes) (key : Bytes) :
    (s.get view key).1.writeset = s.writeset := by
  unfold Session.get
  split
  · rfl
  · split
    · rfl
    · unfold Session.track
      split <;> rfl

theorem Session.step_wrote (h : (s.step committed op).1 = some s') (hd : s'.done = false)
    (hp : ∀ key val, op ≠ .put key val) :
    (!s'.writeset.isEmpty) =
      (!s.writeset.isEmpty || writes (op, (s.step committed op).2.1)) := by
  have hstore : ∀ key value, (s.store key value).1 = s' →
      (!s'.writeset.isEmpty) = (!s.writeset.isEmpty || (s.store key value).2.isOk) := by
    intro key value he
    subst he
    unfold Session.store
    split
    · simp [Except.toBool]
    · split <;> simp [Except.toBool]
  cases op with
  | set key val =>
    rw [hstore key (some val) (by simpa [Session.step] using h)]
    simp only [Session.step]
    cases (s.store key (some val)).2 <;> rfl
  | del key =>
    rw [hstore key none (by simpa [Session.step] using h)]
    simp only [Session.step]
    cases (s.store key none).2 <;> rfl
  | put key val => exact absurd rfl (hp key val)
  | get key =>
    have he : (s.get (lookup (committed.take s.snapshot)) key).1 = s' := Option.some.inj h
    rw [← he, Session.get_writeset]
    exact (Bool.or_false _).symm
  | «exists» key =>
    have he : (s.exists (lookup (committed.take s.snapshot)) key).1 = s' := Option.some.inj h
    rw [← he, Session.exists_object, Session.get_writeset]
    exact (Bool.or_false _).symm
  | cancel =>
    have hc : s.cancel.1.writeset = s.writeset := by
      unfold Session.cancel
      split <;> rfl
    have he : s.cancel.1 = s' := Option.some.inj h
    rw [← he, hc]
    exact (Bool.or_false _).symm
  | drop => cases h
  | _ =>
    cases h
    exact (Bool.or_false _).symm

theorem Session.step_closed (hd : s.done = true) (committed : List Writeset) (op : Op) :
    writes (op, (s.step committed op).2.1) = false ∧
      ∀ s', (s.step committed op).1 = some s' → s'.done = true := by
  cases op <;> simp [writes, Session.step, Session.get, Session.exists, Session.store,
    Session.put, Session.cancel, Session.close, hd]

theorem Session.step_answers : (s.step committed op).2.1 ≠ .gone := by
  cases op <;> simp [Session.step]

theorem Session.step_publishes (h : (s.step committed op).2.2 ≠ []) :
    op = .commit ∧ s.done = false ∧ s.writeset.isEmpty = false ∧
      (committed.drop s.snapshot).findSome? s.conflict = none ∧
      s.step committed op = (some s.close, .done (.ok ()), [s.writeset]) := by
  cases op with
  | commit =>
    simp only [Session.step] at h ⊢
    unfold Session.commit at h ⊢
    cases hd : s.done with
    | true => simp [hd] at h
    | false =>
      cases he : s.writeset.isEmpty with
      | true => simp [hd, he] at h
      | false =>
        cases hc : (committed.drop s.snapshot).findSome? s.conflict with
        | some e => simp [hd, he, hc] at h
        | none => simp
  | _ => exact absurd rfl h

/-- Over another snapshot a session goes on the same way, as long as what it reads is the same
and it does not try to publish. -/
theorem Session.step_rebase (committed : List Writeset) (hp : ∀ key val, op ≠ .put key val)
    (hv : ∀ key, op.reads key → s.done = false → s.own key = none →
      lookup (other.take m) key = lookup (committed.take s.snapshot) key)
    (hc : op = .commit → s.done = true ∨ s.writeset.isEmpty = true) :
    (s.rebase m).step other op =
      ((s.step committed op).1.map (rebase m), (s.step committed op).2.1, []) ∧
      (s.step committed op).2.2 = [] := by
  cases op with
  | withSnapshotIsolation => exact ⟨rfl, rfl⟩
  | withSerializableSnapshotIsolation => exact ⟨rfl, rfl⟩
  | get key =>
    have hg := Session.get_rebase (m := m) (hv key rfl)
    exact ⟨by simp only [Session.step, Session.rebase_snapshot, hg, Option.map_some], rfl⟩
  | «exists» key =>
    have hg := Session.exists_rebase (m := m) (hv key rfl)
    exact ⟨by simp only [Session.step, Session.rebase_snapshot, hg, Option.map_some], rfl⟩
  | set key val => exact ⟨by simp [Session.step, Session.store_rebase], rfl⟩
  | put key val => exact absurd rfl (hp key val)
  | del key => exact ⟨by simp [Session.step, Session.store_rebase], rfl⟩
  | cancel => exact ⟨by simp [Session.step, Session.cancel_rebase], rfl⟩
  | commit =>
    rcases hc rfl with hd | he
    · have hd' : (s.rebase m).done = true := hd
      simp only [Session.step, Session.commit, hd, hd']
      exact ⟨rfl, rfl⟩
    · have he' : (s.rebase m).writeset.isEmpty = true := he
      simp only [Session.step, Session.commit, he, he', Session.rebase_done]
      cases s.done <;> exact ⟨rfl, rfl⟩
  | drop => exact ⟨rfl, rfl⟩

theorem Session.alone_concat (committed : List Writeset) (write : Bool) (n : Nat) (ops : List Op)
    (op : Op) :
    Session.alone committed write n (ops ++ [op]) =
      ((Session.turn (Session.alone committed write n ops).1 op).1,
        (Session.alone committed write n ops).2 ++
          [(Session.turn (Session.alone committed write n ops).1 op).2]) := by
  rw [Session.alone, Execution.respond_append]
  rfl

theorem lookup_append_of_not_mem {later : List Writeset} (h : ∀ ws ∈ later, key ∉ ws)
    (earlier : List Writeset) : lookup (earlier ++ later) key = lookup earlier key := by
  induction later using List.reverseRecOn with
  | nil => rw [List.append_nil]
  | append_singleton later ws ih =>
    rw [← List.append_assoc, lookup_concat, ih fun a ha => h a (by simp [ha]),
      ExtTreeMap.getElem?_eq_none (h ws (by simp)), Option.getD_none]

/-- A passed validation makes everything the session read current. -/
theorem Session.current_of_validated (hm : s.mode = .serializableSnapshotIsolation)
    (hv : (committed.drop s.snapshot).findSome? s.conflict = none) (hk : key ∈ s.readset) :
    lookup committed key = lookup (committed.take s.snapshot) key := by
  have hn : ∀ ws ∈ committed.drop s.snapshot, key ∉ ws := by
    intro ws hws hmem
    have hc := List.findSome?_eq_none_iff.1 hv ws hws
    have hov : (ws.keys.any fun key => s.readset.contains key) = true :=
      List.any_eq_true.2 ⟨key, ExtTreeMap.mem_keys.2 hmem, by simpa using hk⟩
    unfold Session.conflict at hc
    rw [hm, hov] at hc
    split at hc
    · cases hc
    · simp at hc
  have hl := lookup_append_of_not_mem hn (committed.take s.snapshot)
  rwa [List.take_append_drop] at hl

end

/-- The two views show an open session the same values: everywhere to a reader, whose reads are
not tracked, and on the tracked keys to a writer. -/
def Session.SameReads (s : Session) (view view' : Bytes → Option Bytes) : Prop :=
  ∀ key, (s.write = true → key ∈ s.readset) → view' key = view key

/-- What one transaction's calls would have answered elsewhere. `o` is its session, `published`
the number of commits before its own. -/
structure Story (committed : List Writeset) (n : Nat) (write : Bool)
    (calls : List (Op × Response)) (o : Option Session) (published : Option Nat) : Prop where
  began : n ≤ committed.length
  frame : ∀ s, o = some s → s.snapshot = n ∧ s.write = write ∧ (s.write = false → s.writeset = ∅)
  fresh : ∀ s, o = some s → s.done = false →
    calls.any writes = !s.writeset.isEmpty ∧ published = none
  live : ∀ s, o = some s → s.done = false → ∀ other m,
    s.SameReads (lookup (committed.take n)) (lookup (other.take m)) →
    Session.alone other write m (calls.map Prod.fst) =
      ((other, some (s.rebase m)), calls.map Prod.snd)
  reader : calls.any writes = false → ∀ other m,
    (∀ key, lookup (other.take m) key = lookup (committed.take n) key) →
    Session.alone other write m (calls.map Prod.fst) =
      ((other, o.map (Session.rebase m)), calls.map Prod.snd)
  writer : ∀ m, published = some m → m < committed.length ∧ calls.any writes = true ∧
    Session.alone (committed.take m) write m (calls.map Prod.fst) =
      ((committed.take (m + 1), o.map (Session.rebase m)), calls.map Prod.snd)

section
variable {s : Session} {committed : List Writeset} {n : Nat} {write : Bool}
  {calls : List (Op × Response)} {o : Option Session} {published : Option Nat}

theorem Story.begin (committed : List Writeset) (write : Bool) :
    Story committed committed.length write [] (some (.fresh write committed.length)) none where
  began := le_rfl
  frame := by
    intro s hs
    cases hs
    exact ⟨rfl, rfl, fun _ => rfl⟩
  fresh := by
    intro s hs _
    cases hs
    exact ⟨rfl, rfl⟩
  live := by
    intro s hs _ other m _
    cases hs
    rfl
  reader := fun _ _ _ _ => rfl
  writer := by simp

theorem Story.grow (h : Story committed n write calls o published) (later : List Writeset) :
    Story (committed ++ later) n write calls o published where
  began := by
    rw [List.length_append]
    exact h.began.trans (Nat.le_add_right _ _)
  frame := h.frame
  fresh := h.fresh
  live := by
    rw [List.take_append_of_le_length h.began]
    exact h.live
  reader := by
    rw [List.take_append_of_le_length h.began]
    exact h.reader
  writer := by
    intro m hm
    obtain ⟨hlt, hw, ha⟩ := h.writer m hm
    rw [List.take_append_of_le_length hlt.le, List.take_append_of_le_length hlt]
    refine ⟨?_, hw, ha⟩
    rw [List.length_append]
    exact hlt.trans_le (Nat.le_add_right _ _)

theorem Session.alone_step {other after ws : List Writeset} {m : Nat}
    (ha : Session.alone other write m (calls.map Prod.fst) =
      ((after, some (s.rebase m)), calls.map Prod.snd))
    (hs : (s.rebase m).step after op = (o, r, ws)) :
    Session.alone other write m ((calls ++ [(op, r)]).map Prod.fst) =
      ((after ++ ws, o), (calls ++ [(op, r)]).map Prod.snd) := by
  simp only [List.map_append, List.map_cons, List.map_nil, Session.alone_concat, ha,
    Session.turn, hs]

theorem Story.quiet (h : Story committed n write calls (some s) published)
    (hp : ∀ key val, op ≠ .put key val)
    (hm : ∀ key, op.reads key → s.mode = .serializableSnapshotIsolation) :
    Story committed n write (calls ++ [(op, (s.step committed op).2.1)])
      (s.step committed op).1 published := by
  obtain ⟨hsn, hsw, hro⟩ := h.frame s rfl
  -- A session that goes on in place of `s`, over other commits.
  have hgo : ∀ other after : List Writeset, ∀ m,
      (∀ key, op.reads key → s.done = false → s.own key = none →
        lookup (after.take m) key = lookup (committed.take n) key) →
      (op = .commit → s.done = true ∨ s.writeset.isEmpty = true) →
      Session.alone other write m (calls.map Prod.fst) =
        ((after, some (s.rebase m)), calls.map Prod.snd) →
      Session.alone other write m
          ((calls ++ [(op, (s.step committed op).2.1)]).map Prod.fst) =
        ((after, (s.step committed op).1.map (Session.rebase m)),
          (calls ++ [(op, (s.step committed op).2.1)]).map Prod.snd) := by
    intro other after m hv hc ha
    obtain ⟨hr, -⟩ := Session.step_rebase committed hp (hsn ▸ hv) hc
    rw [Session.alone_step ha hr, List.append_nil]
  exact {
    began := h.began
    frame := by
      intro s' hs'
      obtain ⟨hsn', hsw', hro'⟩ := Session.step_frame hs'
      refine ⟨hsn'.trans hsn, hsw'.trans hsw, fun hw => ?_⟩
      rw [hsw'] at hw
      exact (hro' hw).trans (hro hw)
    fresh := by
      intro s' hs' hd'
      obtain ⟨hd, -, -⟩ := Session.step_open hs' hd'
      obtain ⟨hf, hpub⟩ := h.fresh s rfl hd
      refine ⟨?_, hpub⟩
      rw [List.any_append, hf, Session.step_wrote hs' hd' hp]
      simp
    live := by
      intro s' hs' hd' other m hsame
      obtain ⟨hd, hnc, hsub⟩ := Session.step_open hs' hd'
      obtain ⟨-, hw', -⟩ := Session.step_frame hs'
      have ha := h.live s rfl hd other m fun key hk =>
        hsame key fun hw => hsub key (hk (hw' ▸ hw))
      have hgoal := hgo other other m (fun key hk _ ho => ?_) (fun hc => absurd hc hnc) ha
      · rw [hs'] at hgoal
        exact hgoal
      · exact hsame key fun hw => Session.step_tracks hs' hd hk ho (hw' ▸ hw) (hm key hk)
    reader := by
      intro hn other m hview
      rw [List.any_append, Bool.or_eq_false_iff] at hn
      refine hgo other other m (fun key _ _ _ => hview key) (fun _ => ?_)
        (h.reader hn.1 other m hview)
      cases hd : s.done with
      | true => exact .inl rfl
      | false =>
        obtain ⟨hf, -⟩ := h.fresh s rfl hd
        rw [hn.1] at hf
        exact .inr (by simpa using hf.symm)
    writer := by
      intro m hpub
      obtain ⟨hlt, hw, ha⟩ := h.writer m hpub
      have hd : s.done = true := by
        by_contra hd
        obtain ⟨-, hn⟩ := h.fresh s rfl (Bool.eq_false_iff.2 hd)
        rw [hn] at hpub
        cases hpub
      refine ⟨hlt, by rw [List.any_append, hw, Bool.true_or], ?_⟩
      refine hgo (committed.take m) (committed.take (m + 1)) m (fun key _ hd' _ => ?_)
        (fun _ => .inl hd) ha
      rw [hd] at hd'
      cases hd' }

/-- The commit of a writer: replayed over everything committed so far, it reads the same. -/
theorem Story.publish (h : Story committed n write calls (some s) published)
    (hm : s.mode = .serializableSnapshotIsolation)
    (hws : (s.step committed .commit).2.2 ≠ []) :
    Story (committed ++ (s.step committed .commit).2.2) n write
      (calls ++ [(.commit, (s.step committed .commit).2.1)])
      (s.step committed .commit).1 (some committed.length) := by
  obtain ⟨-, hd, he, hv, hstep⟩ := Session.step_publishes hws
  obtain ⟨hsn, hsw, hro⟩ := h.frame s rfl
  obtain ⟨hf, hpub⟩ := h.fresh s rfl hd
  have hstep' : (s.rebase committed.length).step committed .commit =
      (some (s.close.rebase committed.length), .done (.ok ()), [s.writeset]) := by
    have hd' : (s.rebase committed.length).done = false := hd
    have he' : (s.rebase committed.length).writeset.isEmpty = false := he
    simp only [Session.step, Session.commit, hd', he', Session.rebase_snapshot, List.drop_length]
    rfl
  have hsame : s.SameReads (lookup (committed.take n))
      (lookup (committed.take committed.length)) := by
    intro key hk
    rw [List.take_length, ← hsn]
    refine Session.current_of_validated hm hv (hk ?_)
    by_contra hw
    rw [hro (Bool.eq_false_iff.2 hw)] at he
    simp at he
  rw [hstep]
  exact {
    began := by
      rw [List.length_append]
      exact h.began.trans (Nat.le_add_right _ _)
    frame := by
      intro s' hs'
      cases hs'
      exact ⟨hsn, hsw, hro⟩
    fresh := by
      intro s' hs' hd'
      cases hs'
      cases hd'
    live := by
      intro s' hs' hd'
      cases hs'
      cases hd'
    reader := by
      intro hn
      rw [List.any_append, hf, he] at hn
      cases hn
    writer := by
      intro m hm'
      cases hm'
      refine ⟨by simp, by rw [List.any_append, hf, he]; rfl, ?_⟩
      have ha := h.live s rfl hd committed committed.length hsame
      rw [List.take_left, List.take_of_length_le (by simp)]
      exact Session.alone_step ha hstep' }

end

end StupidKv
