import StupidKv.Chronicle

namespace StupidKv
open Std
set_option autoImplicit true

/-- The sessions that may already work are in serializable mode. -/
def Ready (l : Ledger) (ready : List Nat) : Prop :=
  ∀ i ∈ ready, i < l.sessions.length ∧
    ∀ s, l.sessions[i]?.join = some s → s.mode = .serializableSnapshotIsolation

section
variable {t : Trace} {l : Ledger} {points : List Point} {s s' : Session} {ready : List Nat}
  {committed : List Writeset} {op : Op} {call : Call} {calls : List Call}

theorem Session.step_mode (h : (s.step committed op).1 = some s')
    (hop : op ≠ .withSnapshotIsolation)
    (hm : s.mode = .serializableSnapshotIsolation ∨ op = .withSerializableSnapshotIsolation) :
    s'.mode = .serializableSnapshotIsolation := by
  cases op <;> grind [Session.step, Session.get, Session.exists, Session.store, Session.put,
    Session.cancel, Session.close, Session.track]

theorem Op.serializable_not_put (h : op.serializable b = true) (key val : Bytes) :
    op ≠ .put key val := by
  rintro rfl
  cases h

theorem Op.serializable_ready (h : op.serializable b = true)
    (ho : op = .commit ∨ ∃ key, op.reads key) : b = true := by
  rcases ho with rfl | ⟨key, hk⟩
  · exact h
  · cases op <;> first | exact h | exact hk.elim

theorem Ready.on (h : Ready l ready) (hi : l.sessions[i]?.join = some s)
    (hop : op.serializable (ready.contains i) = true) :
    Ready ⟨committed, l.sessions.set i (s.step l.committed op).1⟩
      (if op = .withSerializableSnapshotIsolation ∧ i < l.sessions.length then i :: ready
        else ready) := by
  obtain ⟨hlt, -⟩ := getElem_of_join hi
  have hsnap : op ≠ .withSnapshotIsolation := by
    rintro rfl
    cases hop
  intro j hj
  have hj' : (j = i ∧ op = .withSerializableSnapshotIsolation) ∨ j ∈ ready := by
    split at hj
    · rename_i hc
      rcases List.mem_cons.1 hj with hj | hj
      · exact .inl ⟨hj, hc.1⟩
      · exact .inr hj
    · exact .inr hj
  rw [List.length_set]
  by_cases hij : i = j
  · subst hij
    refine ⟨hlt, fun s' hs' => ?_⟩
    rw [List.getElem?_set_self hlt, Option.join_some] at hs'
    rcases hj' with ⟨-, ho⟩ | hr
    · exact Session.step_mode hs' hsnap (.inr ho)
    · exact Session.step_mode hs' hsnap (.inl ((h i hr).2 s hi))
  · rw [List.getElem?_set_ne hij]
    rcases hj' with ⟨he, -⟩ | hr
    · exact absurd he.symm hij
    · exact h j hr

theorem Chronicle.step (h : Chronicle t l points) (hr : Ready l ready)
    (hs : SerializableSchedule l.sessions.length ready (call :: calls) = true) :
    ∃ points' ready', Chronicle (t ++ [(call, (l.step call).2)]) (l.step call).1 points' ∧
      Ready (l.step call).1 ready' ∧
      SerializableSchedule (l.step call).1.sessions.length ready' calls = true := by
  cases call with
  | transaction write =>
    refine ⟨_, ready, h.transaction write, ?_,
      by simpa [Ledger.step, SerializableSchedule] using hs⟩
    intro i hi
    obtain ⟨hlt, hm⟩ := hr i hi
    simp only [Ledger.step, List.length_append, List.getElem?_append_left hlt]
    exact ⟨hlt.trans (Nat.lt_succ_self _), hm⟩
  | runGc => exact ⟨points, ready, h.skip _ rfl (fun _ => rfl) (fun _ => rfl), hr, hs⟩
  | runCleanup => exact ⟨points, ready, h.skip _ rfl (fun _ => rfl) (fun _ => rfl), hr, hs⟩
  | on i op =>
    rw [SerializableSchedule, Bool.and_eq_true] at hs
    obtain ⟨hop, hs⟩ := hs
    cases hi : l.sessions[i]?.join with
    | none =>
      have hstep : l.step (.on i op) = (l, .gone) := by simp only [Ledger.step, hi]
      rw [hstep]
      refine ⟨points, _, h.skip _ ?_ ?_ ?_, ?_, hs⟩
      · unfold rawPoint
        split
        · rename_i heq
          cases heq
        · rename_i heq
          cases heq
        · rfl
      · intro j
        simp [Trace.opsOf]
      · intro j
        rfl
      · intro j hj
        split at hj
        · rename_i hc
          rcases List.mem_cons.1 hj with rfl | hj
          · exact ⟨hc.2, fun s hs => absurd (hi.symm.trans hs) (by simp)⟩
          · exact hr j hj
        · exact hr j hj
    | some s =>
      have hstep : l.step (.on i op) = (⟨l.committed ++ (s.step l.committed op).2.2,
          l.sessions.set i (s.step l.committed op).1⟩, (s.step l.committed op).2.1) := by
        simp only [Ledger.step, hi]
      rw [hstep]
      obtain ⟨points', hc⟩ := h.on hi (Op.serializable_not_put hop) fun ho =>
        (hr i (by simpa using Op.serializable_ready hop ho)).2 s hi
      refine ⟨points', _, hc, hr.on hi hop, ?_⟩
      simpa using hs

theorem Chronicle.run (h : Chronicle t l points) (hr : Ready l ready)
    (hs : SerializableSchedule l.sessions.length ready calls = true) :
    ∃ points', Chronicle (t ++ calls.zip (Execution.respond Ledger.step l calls).2)
      (Execution.respond Ledger.step l calls).1 points' := by
  induction calls generalizing t l points ready with
  | nil => exact ⟨points, by simpa [Execution.respond] using h⟩
  | cons call calls ih =>
    obtain ⟨points₁, ready₁, h₁, hr₁, hs₁⟩ := h.step hr hs
    obtain ⟨points₂, h₂⟩ := ih h₁ hr₁ hs₁
    refine ⟨points₂, ?_⟩
    rw [List.append_assoc] at h₂
    exact h₂

/-- The transactions whose place in the serial order is among the given points. -/
def placed (wrote : Nat → Bool) (points : List Point) : List Nat :=
  points.filterMap fun
    | .start i _ _ => if wrote i then none else some i
    | .publish i _ => some i
    | .idle _ => none

theorem Chronicle.published (h : Chronicle t l points) (hp : .publish i m ∈ points) :
    ∃ n w o, t.writable i = w ∧ Story l.committed n w (t.opsOf i) o (some m) := by
  obtain ⟨w, n, hs⟩ := h.started i (h.known _ hp)
  obtain ⟨hw, published, hpub, hst⟩ := h.stories i w n hs
  rw [hpub m hp] at hst
  exact ⟨n, w, _, hw, hst⟩

theorem Chronicle.serialOrder_eq (h : Chronicle t l points) :
    t.serialOrder = placed t.wrote points := by
  rw [Trace.serialOrder_eq, h.shown, List.filterMap_map, placed]
  refine List.filterMap_congr fun p hp => ?_
  cases p with
  | start i w n => rfl
  | publish i m =>
    obtain ⟨n, w, o, -, hst⟩ := h.published hp
    have hw : t.wrote i = true := (hst.writer m rfl).2.1
    simp [Point.raw, hw]
  | idle i =>
    obtain ⟨hw, -⟩ := h.idle i hp
    simp [Point.raw, hw]

theorem respond_on (sessions : List (Option Session)) (committed : List Writeset)
    (o : Option Session) (ops : List Op) :
    Execution.respond Ledger.step ⟨committed, sessions ++ [o]⟩
        (ops.map (Call.on sessions.length)) =
      (⟨(Execution.respond Session.turn (committed, o) ops).1.1,
        sessions ++ [(Execution.respond Session.turn (committed, o) ops).1.2]⟩,
        (Execution.respond Session.turn (committed, o) ops).2) := by
  induction ops generalizing committed o with
  | nil => rfl
  | cons op ops ih =>
    have hstep : Ledger.step ⟨committed, sessions ++ [o]⟩ (.on sessions.length op) =
        (⟨(Session.turn (committed, o) op).1.1,
          sessions ++ [(Session.turn (committed, o) op).1.2]⟩,
          (Session.turn (committed, o) op).2) := by
      cases o with
      | none => simp [Ledger.step, Session.turn]
      | some s => simp [Ledger.step, Session.turn]
    simp only [List.map_cons, Execution.respond, hstep, ih]

theorem respond_block (t : Trace) (i : Nat) (l : Ledger) (after : List Writeset)
    (o : Option Session)
    (ha : Session.alone l.committed (t.writable i) l.committed.length ((t.opsOf i).map Prod.fst) =
      ((after, o), (t.opsOf i).map Prod.snd)) :
    Execution.respond Ledger.step l ((t.block i l.sessions.length).map Prod.fst) =
      (⟨after, l.sessions ++ [o]⟩, (t.block i l.sessions.length).map Prod.snd) := by
  have hon := respond_on l.sessions l.committed
    (some (.fresh (t.writable i) l.committed.length)) ((t.opsOf i).map Prod.fst)
  unfold Session.alone at ha
  rw [ha] at hon
  simp only [List.map_map] at hon
  simp only [Trace.block, List.map_cons, Execution.respond, Ledger.step, List.map_map,
    Function.comp_def] at hon ⊢
  rw [hon]

/-- The serial replay up to a point answers as the run did and has committed as much. -/
def Replayed (t : Trace) (l : Ledger) (before : List Point) : Prop :=
  ∃ sessions, Execution.respond Ledger.step .new
      ((t.blocks (placed t.wrote before)).map Prod.fst) =
    (⟨l.committed.take (before.countP Point.publishes), sessions⟩,
      (t.blocks (placed t.wrote before)).map Prod.snd) ∧
    sessions.length = (placed t.wrote before).length

theorem Replayed.skip (h : Replayed t l before) (hn : placed t.wrote [p] = [])
    (hp : p.publishes = false) : Replayed t l (before ++ [p]) := by
  have hpl : placed t.wrote (before ++ [p]) = placed t.wrote before := by
    rw [← List.append_nil (placed t.wrote before), ← hn]
    exact List.filterMap_append
  have hc : (before ++ [p]).countP Point.publishes = before.countP Point.publishes := by
    simp [List.countP_append, hp]
  unfold Replayed
  rw [hpl, hc]
  exact h

/-- The block of `i`, run over the ledger the earlier blocks leave. -/
theorem Replayed.block (h : Replayed t l before)
    (hle : before.countP Point.publishes ≤ l.committed.length)
    (hn : placed t.wrote [p] = [i])
    (ha : Session.alone (l.committed.take (before.countP Point.publishes)) (t.writable i)
        (before.countP Point.publishes) ((t.opsOf i).map Prod.fst) =
      ((l.committed.take ((before ++ [p]).countP Point.publishes), o),
        (t.opsOf i).map Prod.snd)) : Replayed t l (before ++ [p]) := by
  obtain ⟨sessions, hrun, hlen⟩ := h
  have hpl : placed t.wrote (before ++ [p]) = placed t.wrote before ++ [i] := by
    rw [← hn]
    exact List.filterMap_append
  have hrb := respond_block t i
    ⟨l.committed.take (before.countP Point.publishes), sessions⟩
    (l.committed.take ((before ++ [p]).countP Point.publishes)) o
    (by simpa [Nat.min_eq_left hle] using ha)
  refine ⟨sessions ++ [o], ?_, by simp [hpl, hlen]⟩
  rw [hpl, Trace.blocks, List.zipIdx_append]
  unfold Trace.blocks at hrun
  simp only [List.flatMap_append, List.map_append, Execution.respond_append, hrun]
  simp only [List.zipIdx_cons, List.zipIdx_nil, List.flatMap_cons, List.flatMap_nil,
    List.append_nil, Nat.zero_add, ← hlen]
  rw [hrb]

theorem Chronicle.replay (h : Chronicle t l points) (before after : List Point)
    (he : points = before ++ after) : Replayed t l before := by
  induction before using List.reverseRecOn generalizing after with
  | nil => exact ⟨[], rfl, rfl⟩
  | append_singleton before p ih =>
    have he' : points = before ++ p :: after := by
      rw [he, List.append_assoc]
      rfl
    have hat := h.numbers before p after he'
    have hp : p ∈ points := he' ▸ List.mem_append_right _ (List.mem_cons_self ..)
    have hle : before.countP Point.publishes ≤ l.committed.length := by
      rw [← h.count, he', List.countP_append]
      exact Nat.le_add_right _ _
    have ih := ih (p :: after) he'
    cases p with
    | idle i => exact ih.skip rfl rfl
    | start i w n =>
      obtain ⟨hw, published, -, hst⟩ := h.stories i w n hp
      have hn : n = before.countP Point.publishes := hat
      cases hwr : t.wrote i with
      | true => exact ih.skip (by simp [placed, hwr]) rfl
      | false =>
        have hpl : placed t.wrote [.start i w n] = [i] := by simp [placed, hwr]
        have ha := hst.reader hwr (l.committed.take n) n fun key => by
          rw [List.take_take, Nat.min_self]
        refine ih.block (o := l.sessions[i]?.join.map (Session.rebase n)) hle hpl ?_
        rw [← hn, hw, ha, List.countP_append, ← hn]
        rfl
    | publish i m =>
      obtain ⟨n, w, o, hw, hst⟩ := h.published hp
      have hm : m = before.countP Point.publishes := hat
      obtain ⟨-, -, ha⟩ := hst.writer m rfl
      refine ih.block (o := o.map (Session.rebase m)) hle rfl ?_
      rw [← hm, hw, ha, List.countP_append, ← hm]
      rfl

theorem Ledger.serial_answers (hs : SerializableSchedule 0 [] calls = true) :
    let t : Trace := calls.zip (Execution.respond Ledger.step .new calls).2
    (Execution.respond Ledger.step .new (t.serial.map Prod.fst)).2 = t.serial.map Prod.snd := by
  intro t
  have hr : Ready .new [] := by simp [Ready]
  obtain ⟨points, hc⟩ := Chronicle.new.run hr hs
  obtain ⟨sessions, hrun, -⟩ := hc.replay points [] (List.append_nil _).symm
  rw [List.nil_append] at hc hrun
  rw [Trace.serial, hc.serialOrder_eq, hrun]

end

/-- Serializability. Every call of the serial replay of a run, over whatever clock, answers as it
did in the run: the transactions that wrote go in commit order, the others where they began. -/
theorem Database.serializable (start threshold : Nat) (calls : List (Call × Nat))
    (hs : SerializableSchedule 0 [] (calls.map Prod.fst) = true) :
    ∃ db rs, Execution.collect Database.step (.new start threshold) calls = some (db, rs) ∧
      ∀ start' threshold' replay,
        replay.map Prod.fst = (Trace.serial ((calls.map Prod.fst).zip rs)).map Prod.fst →
        (Execution.collect Database.step (.new start' threshold') replay).map Prod.snd =
          some ((Trace.serial ((calls.map Prod.fst).zip rs)).map Prod.snd) := by
  obtain ⟨db, hdb⟩ := Database.answers_ledger start threshold calls
  refine ⟨db, _, hdb, fun start' threshold' replay hreplay => ?_⟩
  obtain ⟨db', hdb'⟩ := Database.answers_ledger start' threshold' replay
  rw [hdb', Option.map_some, Option.some.injEq, Execution.respond_map Ledger.step Prod.fst,
    hreplay, Execution.respond_map Ledger.step Prod.fst]
  exact Ledger.serial_answers hs

/-- Two transactions that each read what the other writes, then a reader. -/
def writeSkew : List (Call × Nat) :=
  [(.transaction true, 0), (.on 0 .withSerializableSnapshotIsolation, 0),
    (.transaction true, 0), (.on 1 .withSerializableSnapshotIsolation, 0),
    (.on 0 (.get [1]), 0), (.on 1 (.get [2]), 0), (.on 0 (.set [2] [7]), 0),
    (.on 1 (.set [1] [8]), 0), (.on 0 .commit, 5), (.on 1 .commit, 3), (.runGc, 9),
    (.transaction false, 0), (.on 2 .withSerializableSnapshotIsolation, 0),
    (.on 2 (.exists [1]), 0), (.on 2 (.get [2]), 0), (.on 2 .drop, 0)]

theorem Database.serializable_writeSkew :
    SerializableSchedule 0 [] (writeSkew.map Prod.fst) = true ∧
      ∃ db rs, Execution.collect Database.step (.new 0 8) writeSkew = some (db, rs) ∧
        ∀ start' threshold' replay,
          replay.map Prod.fst = (Trace.serial ((writeSkew.map Prod.fst).zip rs)).map Prod.fst →
          (Execution.collect Database.step (.new start' threshold') replay).map Prod.snd =
            some ((Trace.serial ((writeSkew.map Prod.fst).zip rs)).map Prod.snd) :=
  ⟨by decide, Database.serializable 0 8 writeSkew (by decide)⟩

end StupidKv
