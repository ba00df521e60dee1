import StupidKv.GoOwnership

namespace StupidKv
open Std
set_option autoImplicit true

/-- What a Go program sees, told without a database: the ledger, and whether the database handle
is open. -/
structure GoLedger where
  ledger : Ledger
  isOpen : Bool

/-- The values of a writeset fit into a C `int`. -/
def Writeset.Short (ws : Writeset) : Prop :=
  ∀ (key : Bytes) v, ws[key]? = some (some v) → v.length < 2 ^ 31

def GoCall.short : GoCall → Bool
  | .set _ _ value | .put _ _ value => decide (value.length < 2 ^ 31)
  | _ => true

/-- The snapshot number is the clock's business. -/
def GoAnswer.masked : GoAnswer → GoAnswer
  | .version _ => .version 0
  | r => r

namespace GoLedger
variable (detail : PersistenceError → String)

def method (g : GoLedger) (i : Nat) (op : Op) (view : Response → GoAnswer) :
    GoLedger × GoAnswer :=
  let (ledger, r) := g.ledger.step (.on i op)
  ({ g with ledger }, view r)

def step (g : GoLedger) : GoCall → GoLedger × GoAnswer
  | .transaction write => ({ g with ledger := (g.ledger.step (.transaction write)).1 }, .unit)
  | .withSnapshotIsolation i => g.method i .withSnapshotIsolation fun _ => .unit
  | .withSerializableSnapshotIsolation i =>
    g.method i .withSerializableSnapshotIsolation fun _ => .unit
  | .version _ => (g, .version 0)
  | .closed i => (g, .closed (g.ledger.sessions[i]?.join.elim true (·.done)))
  | .get i key => g.method i (.get key) (·.goGet detail)
  | .exists i key => g.method i (.exists key) (·.goExists detail)
  | .set i key value => g.method i (.set key value) (·.goDone detail)
  | .put i key value => g.method i (.put key value) (·.goDone detail)
  | .delete i key => g.method i (.del key) (·.goDone detail)
  | .commit i => g.method i .commit (·.goDone detail)
  | .cancel i => g.method i .cancel (·.goDone detail)
  | .close i => g.method i .drop fun _ => .unit
  | .snapshot => (g, .error (if g.isOpen then none else some nilError))
  | .closeDatabase => ({ g with isOpen := false }, .unit)

end GoLedger

/-- Every value in the ledger is short. -/
structure Ledger.Short (l : Ledger) : Prop where
  committed : ∀ ws ∈ l.committed, ws.Short
  sessions : ∀ (i : Nat) s, l.sessions[i]?.join = some s → s.writeset.Short

theorem Writeset.Short.empty : Writeset.Short ∅ := by
  intro key v h
  simp at h

theorem Writeset.Short.insert {ws : Writeset} (h : ws.Short)
    (hv : ∀ v ∈ value, v.length < 2 ^ 31) (key : Bytes) :
    Writeset.Short (ws.insert key value) := by
  intro k v hk
  rw [ExtTreeMap.getElem?_insert] at hk
  split at hk
  · cases hk
    exact hv v rfl
  · exact h k v hk

theorem lookup_short {committed : List Writeset} (h : ∀ ws ∈ committed, ws.Short)
    (hv : lookup committed key = some v) : v.length < 2 ^ 31 := by
  unfold lookup at hv
  rw [Option.join_eq_some_iff] at hv
  obtain ⟨ws, hm, hws⟩ := List.exists_of_findSome?_eq_some hv
  exact h ws (List.mem_reverse.1 hm) key v hws

/-- The values an operation brings along. -/
def Op.short : Op → Bool
  | .set _ value | .put _ value => decide (value.length < 2 ^ 31)
  | _ => true

section
variable {s : Session} {committed : List Writeset}

@[simp] theorem Session.track_writeset (s : Session) (key : Bytes) :
    (s.track key).writeset = s.writeset := by
  unfold Session.track
  split <;> rfl

theorem Session.get_short (h : s.writeset.Short) {view : Bytes → Option Bytes}
    (hview : ∀ v, view key = some v → v.length < 2 ^ 31) :
    (s.get view key).1.writeset = s.writeset ∧
      ∀ v, (s.get view key).2 = .ok (some v) → v.length < 2 ^ 31 := by
  unfold Session.get
  split
  · exact ⟨rfl, fun v hv => nomatch hv⟩
  · split
    · rename_i x hown
      refine ⟨rfl, fun v hv => ?_⟩
      cases hv
      unfold Session.own at hown
      split at hown
      · exact h key v hown
      · cases hown
    · refine ⟨s.track_writeset key, fun v hv => hview v ?_⟩
      simpa using hv

theorem Session.exists_writeset (s : Session) (view : Bytes → Option Bytes) (key : Bytes) :
    (s.exists view key).1.writeset = s.writeset := by
  unfold Session.exists
  split
  · rfl
  · split
    · rfl
    · exact s.track_writeset key

theorem Session.store_short (h : s.writeset.Short) (hv : ∀ v ∈ value, v.length < 2 ^ 31) :
    (s.store key value).1.writeset.Short := by
  unfold Session.store
  split
  · exact h
  · split
    · exact h
    · exact h.insert hv key

theorem Session.put_short (h : s.writeset.Short) (hv : value.length < 2 ^ 31)
    (view : Bytes → Option Bytes) : (s.put view key value).1.writeset.Short := by
  unfold Session.put
  split
  · exact h
  · split
    · exact h
    · split
      · exact h
      · exact h.insert (by simpa using hv) key

theorem Session.commit_short (h : s.writeset.Short) :
    ∀ ws ∈ (s.commit committed).2, Writeset.Short ws := by
  unfold Session.commit
  split
  · simp
  · split
    · simp
    · split
      · simp
      · simpa using h

theorem Session.step_short (h : s.writeset.Short) (hc : ∀ ws ∈ committed, Writeset.Short ws)
    (hop : op.short = true) :
    (∀ s' ∈ (s.step committed op).1, s'.writeset.Short) ∧
      (∀ ws ∈ (s.step committed op).2.2, Writeset.Short ws) ∧
      ∀ v, (s.step committed op).2.1 = .value (.ok (some v)) → v.length < 2 ^ 31 := by
  have hview : ∀ key v, lookup (committed.take s.snapshot) key = some v → v.length < 2 ^ 31 :=
    fun key v hv => lookup_short (fun ws hw => hc ws (List.mem_of_mem_take hw)) hv
  cases op with
  | get key =>
    obtain ⟨hw, hv⟩ := Session.get_short h (hview key)
    refine ⟨?_, by simp [Session.step], fun v hr => hv v ?_⟩
    · simp only [Session.step, Option.mem_def, Option.some.injEq]
      rintro s' rfl
      rw [hw]
      exact h
    · simpa [Session.step] using hr
  | «exists» key =>
    refine ⟨?_, by simp [Session.step], by simp [Session.step]⟩
    simp only [Session.step, Option.mem_def, Option.some.injEq]
    rintro s' rfl
    rw [Session.exists_writeset]
    exact h
  | set key value =>
    refine ⟨?_, by simp [Session.step], by simp [Session.step]⟩
    simp only [Session.step, Option.mem_def, Option.some.injEq]
    rintro s' rfl
    exact Session.store_short h (by simpa [Op.short] using hop)
  | put key value =>
    refine ⟨?_, by simp [Session.step], by simp [Session.step]⟩
    simp only [Session.step, Option.mem_def, Option.some.injEq]
    rintro s' rfl
    exact Session.put_short h (by simpa [Op.short] using hop) _
  | del key =>
    refine ⟨?_, by simp [Session.step], by simp [Session.step]⟩
    simp only [Session.step, Option.mem_def, Option.some.injEq]
    rintro s' rfl
    exact Session.store_short h (by simp)
  | cancel =>
    refine ⟨?_, by simp [Session.step], by simp [Session.step]⟩
    simp only [Session.step, Option.mem_def, Option.some.injEq]
    rintro s' rfl
    unfold Session.cancel
    split <;> exact h
  | commit =>
    refine ⟨?_, Session.commit_short h, by simp [Session.step]⟩
    simp only [Session.step, Option.mem_def, Option.some.injEq]
    rintro s' rfl
    exact h
  | drop => exact ⟨by simp [Session.step], by simp [Session.step], by simp [Session.step]⟩
  | _ =>
    refine ⟨?_, by simp [Session.step], by simp [Session.step]⟩
    simp only [Session.step, Option.mem_def, Option.some.injEq]
    rintro s' rfl
    exact h

end

theorem Ledger.Short.method (h : Ledger.Short l) (hop : op.short = true) (i : Nat) :
    Ledger.Short (l.step (.on i op)).1 ∧
      ∀ v, (l.step (.on i op)).2 = .value (.ok (some v)) → v.length < 2 ^ 31 := by
  cases hi : l.sessions[i]?.join with
  | none =>
    simp only [Ledger.step, hi]
    exact ⟨h, fun v hv => absurd hv (by simp)⟩
  | some s =>
    obtain ⟨hs, hw, hv⟩ := Session.step_short (h.sessions i s hi) h.committed hop
    simp only [Ledger.step, hi]
    refine ⟨⟨?_, ?_⟩, hv⟩
    · intro ws hm
      rcases List.mem_append.1 hm with hm | hm
      · exact h.committed ws hm
      · exact hw ws hm
    · intro j s' hj
      rw [List.getElem?_set] at hj
      split at hj
      · split at hj
        · exact hs s' hj
        · cases hj
      · exact h.sessions j s' hj

/-- A call on a database without files. -/
def inMemory (c : GoCall × Nat) : GoCall × World := (c.1, ⟨c.2, none, .ok ()⟩)

theorem serve_inMemory (db : Database) (c : Call) (now : Nat) :
    db.serve ⟨c, now, none⟩ = db.step (c, now) := by
  unfold Database.serve
  split
  · rename_i i hc
    cases hc
    rfl
  · rfl

theorem cInt_short {n : Nat} (h : n < 2 ^ 31) : cInt n = n := by
  unfold cInt
  rw [BitVec.toInt_eq_toNat_cond, BitVec.toNat_ofNat, Nat.mod_eq_of_lt (by omega),
    if_pos (by omega)]

theorem cut_short {r : GoAnswer} (h : ∀ v, r = .value (some v) none → v.length < 2 ^ 31) :
    r.cut = r := by
  unfold GoAnswer.cut
  split
  · rename_i v
    rw [cInt_short (h v rfl)]
    simp
  · rfl

/-- The process, the API below it and the ledger. -/
structure Shows (p : GoProcess) (v : RustApi) (g : GoLedger) : Prop where
  wraps : Wraps (fun _ => False) p v
  sim : ∃ hist, Sim v.db g.ledger hist
  short : g.ledger.Short
  isOpen : v.isOpen = g.isOpen

section
variable {p : GoProcess} {v : RustApi} {g : GoLedger} (detail : PersistenceError → String)

/-- What the API does, the ledger does. -/
structure Agreed (v' : RustApi) (r : GoAnswer) (s : GoLedger × GoAnswer) : Prop where
  answer : r.masked = s.2
  whole : r.cut = r
  sim : ∃ hist, Sim v'.db s.1.ledger hist
  short : s.1.ledger.Short
  isOpen : v'.isOpen = s.1.isOpen

theorem Shows.method (h : Shows p v g) (now : Nat) (i : Nat) (op : Op) (hop : op.short = true)
    (view view' : Response → GoAnswer)
    (hview : ∀ r, (view r).masked = view' r)
    (hcut : ∀ r, (∀ x, r = .value (.ok (some x)) → x.length < 2 ^ 31) →
      (view r).cut = view r) :
    ∃ v' r, v.method ⟨now, none, .ok ()⟩ i op view = some (v', r) ∧
      Agreed v' r (g.method i op view') := by
  obtain ⟨hist, hsim⟩ := h.sim
  obtain ⟨db, hist', hstep, hsim'⟩ := hsim.step (.on i op) now
  obtain ⟨hshort, hvalue⟩ := h.short.method hop i
  refine ⟨{ v with db }, _, ?_, hview _, hcut _ hvalue, ⟨hist', hsim'⟩, hshort, h.isOpen⟩
  rw [RustApi.method, serve_inMemory, hstep]
  rfl

theorem masked_goDone (r : Response) : (r.goDone detail).masked = r.goDone detail := by
  unfold Response.goDone
  split <;> rfl

theorem masked_goExists (r : Response) : (r.goExists detail).masked = r.goExists detail := by
  unfold Response.goExists
  split <;> rfl

theorem cut_goExists (r : Response) : (r.goExists detail).cut = r.goExists detail := by
  unfold Response.goExists
  split <;> rfl

theorem masked_goGet (r : Response) : (r.goGet detail).masked = r.goGet detail := by
  unfold Response.goGet
  split <;> rfl

theorem cut_goGet (r : Response) (hr : ∀ x, r = .value (.ok (some x)) → x.length < 2 ^ 31) :
    (r.goGet detail).cut = r.goGet detail := by
  refine cut_short fun v hv => hr v ?_
  unfold Response.goGet at hv
  split at hv
  · cases hv
    rfl
  · cases hv
  · cases hv

theorem Shows.spec (h : Shows p v g) (c : GoCall × Nat) (hc : c.1.permitted v.isOpen = true)
    (hs : c.1.short = true) :
    ∃ v' r, v.step detail (inMemory c) = some (v', r) ∧ Agreed v' r (g.step detail c.1) := by
  obtain ⟨call, now⟩ := c
  cases call with
  | transaction write =>
    obtain ⟨hist, hsim⟩ := h.sim
    obtain ⟨db, hist', hstep, hsim'⟩ := hsim.step (.transaction write) now
    refine ⟨{ v with db }, .unit, ?_, rfl, rfl, ⟨hist', hsim'⟩, ⟨h.short.committed, ?_⟩, h.isOpen⟩
    · have hserve := serve_inMemory v.db (.transaction write) now
      rw [hstep] at hserve
      change v.isOpen = true at hc
      simp only [inMemory, RustApi.step, hc, ↓reduceIte, hserve]
      rfl
    · intro i s hi
      change (g.ledger.sessions ++ [_])[i]?.join = some s at hi
      rw [Option.join_eq_some_iff] at hi
      rcases Processes.getElem?_concat_cases hi with hi | ⟨-, he⟩
      · exact h.short.sessions i s (Option.join_eq_some_iff.2 hi)
      · cases he
        exact Writeset.Short.empty
  | withSnapshotIsolation i =>
    exact h.method now i .withSnapshotIsolation rfl (fun _ => .unit) (fun _ => .unit)
      (fun _ => rfl) fun _ _ => rfl
  | withSerializableSnapshotIsolation i =>
    exact h.method now i .withSerializableSnapshotIsolation rfl (fun _ => .unit) (fun _ => .unit)
      (fun _ => rfl) fun _ _ => rfl
  | version i => exact ⟨v, _, rfl, rfl, rfl, h.sim, h.short, h.isOpen⟩
  | closed i =>
    refine ⟨v, _, rfl, ?_, rfl, h.sim, h.short, h.isOpen⟩
    obtain ⟨hist, hsim⟩ := h.sim
    have hrel := hsim.sessions i
    simp only [GoAnswer.masked, GoLedger.step]
    generalize v.db.transactions[i]?.join = t at hrel ⊢
    generalize g.ledger.sessions[i]?.join = s at hrel ⊢
    cases hrel with
    | some ht => simp [ht.done]
    | none => rfl
  | get i key =>
    exact h.method now i (.get key) rfl _ _ (masked_goGet detail) (cut_goGet detail)
  | «exists» i key =>
    exact h.method now i (.exists key) rfl _ _ (masked_goExists detail)
      fun r _ => cut_goExists detail r
  | set i key value =>
    exact h.method now i (.set key value) hs _ _ (masked_goDone detail)
      fun r _ => cut_goDone detail r
  | put i key value =>
    exact h.method now i (.put key value) hs _ _ (masked_goDone detail)
      fun r _ => cut_goDone detail r
  | delete i key =>
    exact h.method now i (.del key) rfl _ _ (masked_goDone detail) fun r _ => cut_goDone detail r
  | commit i =>
    exact h.method now i .commit rfl _ _ (masked_goDone detail) fun r _ => cut_goDone detail r
  | cancel i =>
    exact h.method now i .cancel rfl _ _ (masked_goDone detail) fun r _ => cut_goDone detail r
  | close i =>
    exact h.method now i .drop rfl (fun _ => .unit) (fun _ => .unit) (fun _ => rfl) fun _ _ => rfl
  | snapshot =>
    refine ⟨v, _, rfl, ?_, rfl, h.sim, h.short, h.isOpen⟩
    simp only [GoAnswer.masked, GoLedger.step, h.isOpen]
  | closeDatabase => exact ⟨_, _, rfl, rfl, rfl, h.sim, h.short, rfl⟩

theorem Shows.step (h : Shows p v g) (c : GoCall × Nat) (hc : c.1.permitted v.isOpen = true)
    (hs : c.1.short = true) :
    ∃ p' v' r, p.step detail (inMemory c) = some (p', r) ∧ r.masked = (g.step detail c.1).2 ∧
      v.step detail (inMemory c) = some (v', r) ∧ Shows p' v' (g.step detail c.1).1 := by
  obtain ⟨v', r, hv, ha⟩ := h.spec detail c hc hs
  have hleak : ∀ i key db x, (inMemory c).1 = .get i key →
      p.lib.method i (.get key) (inMemory c).2 = some (db, .value (.ok (some x))) →
      cInt x.length < 0 → False := by
    intro i key db x _ hm hx
    obtain ⟨hist, hsim⟩ := h.sim
    obtain ⟨db', hist', hstep, -⟩ := hsim.step (.on i (.get key)) c.2
    have hserve := serve_inMemory v.db (.on i (.get key)) c.2
    simp only [CLibrary.method, h.wraps.db, inMemory, hserve, hstep, Option.bind_eq_bind,
      Option.bind_some, Option.pure_def, Option.some.injEq, Prod.mk.injEq] at hm
    have hget : (Op.get key).short = true := rfl
    obtain ⟨-, hvalue⟩ := h.short.method hget i
    rw [cInt_short (hvalue x hm.2)] at hx
    omega
  obtain ⟨p', v'', r', hp, hv', hw⟩ := h.wraps.step detail (inMemory c) hc hleak
  cases hv.symm.trans hv'
  rw [ha.whole] at hp
  exact ⟨p', v', r, hp, ha.answer, hv, hw, ha.sim, ha.short, ha.isOpen⟩

theorem Shows.run (h : Shows p v g) (calls : List (GoCall × Nat))
    (hs : ∀ c ∈ calls, c.1.short = true)
    (hu : wellUsed v.isOpen (calls.map inMemory) = true) :
    ∃ p' v' answers,
      Execution.collect (GoProcess.step detail) p (calls.map inMemory) = some (p', answers) ∧
      Execution.collect (RustApi.step detail) v (calls.map inMemory) = some (v', answers) ∧
      answers.map GoAnswer.masked =
        (Execution.respond (GoLedger.step detail) g (calls.map Prod.fst)).2 ∧
      Shows p' v' (Execution.respond (GoLedger.step detail) g (calls.map Prod.fst)).1 := by
  induction calls generalizing p v g with
  | nil => exact ⟨p, v, [], rfl, rfl, rfl, h⟩
  | cons c calls ih =>
    obtain ⟨hc, hu⟩ := Bool.and_eq_true_iff.1 hu
    obtain ⟨p₁, v₁, r, hp, hr, hv, h₁⟩ := h.step detail c hc (hs c List.mem_cons_self)
    rw [← RustApi.step_isOpen hv] at hu
    obtain ⟨p', v', answers, hrun, hapi, hans, h'⟩ :=
      ih h₁ (fun d hd => hs d (List.mem_cons_of_mem c hd)) hu
    refine ⟨p', v', r :: answers, by simp [Execution.collect, hp, hrun],
      by simp [Execution.collect, hv, hapi], ?_, h'⟩
    simp [Execution.respond, hr, hans]

end

/-- A Go program over an in-memory database, from one end to the other, with calls and finalizers
one after the other. If its values are shorter than 2^31 bytes and it begins no transaction on a
closed database, every method returns what the Rust API returns, every method but `Version` what the
ledger says, and at every moment the handles that are open are all that is allocated. -/
theorem GoProcess.methods_follow_ledger (detail : PersistenceError → String) (clock threshold : Nat)
    (calls : List (GoCall × Nat)) (hs : ∀ c ∈ calls, c.1.short = true)
    (hu : wellUsed true (calls.map inMemory) = true) :
    ∃ p answers, Execution.collect (GoProcess.step detail) (.new ∅ clock threshold)
        (calls.map inMemory) = some (p, answers) ∧
      (∃ v, Execution.collect (RustApi.step detail) ⟨.opened ∅ clock threshold, true⟩
        (calls.map inMemory) = some (v, answers)) ∧
      answers.map GoAnswer.masked =
        (Execution.respond (GoLedger.step detail) ⟨.new, true⟩ (calls.map Prod.fst)).2 ∧
      ∀ a c, p.lib.heap.read a = some c →
        c = .database ∧ p.db = some a ∨ ∃ i, c = .transaction i ∧ p.tx i = some a := by
  have h : Shows (.new ∅ clock threshold) ⟨.opened ∅ clock threshold, true⟩ ⟨.new, true⟩ := {
    wraps := Wraps.new _ ∅ clock threshold
    sim := ⟨[], Sim.new clock threshold⟩
    short := ⟨by simp [Ledger.new], by simp [Ledger.new]⟩
    isOpen := rfl }
  obtain ⟨p, v, answers, hrun, hapi, hans, h'⟩ := h.run detail calls hs hu
  refine ⟨p, answers, hrun, ⟨v, hapi⟩, hans, fun a c hc => ?_⟩
  have hl := h'.wraps.owned.live a c hc
  cases c with
  | database => exact .inl ⟨rfl, hl⟩
  | transaction i => exact .inr ⟨i, rfl, hl⟩
  | value x => exact hl.elim
  | string msg => exact hl.elim

/-- A program that closes its database first, and uses a transaction beyond its end. -/
def closesEarly : List (GoCall × Nat) :=
  [(.transaction true, 5), (.put 0 [1] [2], 5), (.closeDatabase, 6), (.get 0 [1], 6),
    (.commit 0, 7), (.commit 0, 7), (.close 0, 8), (.close 0, 8), (.get 0 [1], 9)]

theorem GoProcess.methods_follow_ledger_closesEarly :
    ∃ p answers, Execution.collect (GoProcess.step fun _ => "") (.new ∅ 3 100)
        (closesEarly.map inMemory) = some (p, answers) ∧
      answers.map GoAnswer.masked = [.unit, .error none, .unit, .value (some [2]) none, .error none,
        .error (some (.wraps .errTxClosed)), .unit, .unit,
        .value none (some (.text "stupidkv: unknown error (code -1)"))] := by
  obtain ⟨p, answers, hrun, -, hans, -⟩ := GoProcess.methods_follow_ledger (fun _ => "") 3 100 closesEarly
    (by decide) (by decide)
  refine ⟨p, answers, hrun, hans.trans ?_⟩
  decide +kernel

end StupidKv
