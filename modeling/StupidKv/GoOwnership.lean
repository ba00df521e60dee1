import StupidKv.GoBinding
import StupidKv.Pooling

namespace StupidKv
open Std
set_option autoImplicit true

/-- The text a C string can carry. -/
def cText (msg : String) : String :=
  if '\x00' ∈ msg.toList then "invalid error message" else msg

section
variable (detail : PersistenceError → String)

def goError (e : Error) : GoError :=
  mapError (CLibrary.mapErr detail e).1 (cText (CLibrary.mapErr detail e).2)

/-- What a method on a transaction that is closed, or never was one, returns. -/
def nilError : GoError := .text "stupidkv: unknown error (code -1)"

def Response.goGet : Response → GoAnswer
  | .value (.ok v) => .value v none
  | .value (.error e) => .value none (some (goError detail e))
  | _ => .value none (some nilError)

def Response.goExists : Response → GoAnswer
  | .found (.ok b) => .found b none
  | .found (.error e) => .found false (some (goError detail e))
  | _ => .found false (some nilError)

def Response.goDone : Response → GoAnswer
  | .done (.ok ()) => .error none
  | .done (.error e) => .error (some (goError detail e))
  | _ => .error (some nilError)

/-- The Rust API below the bindings, without any of their memory. -/
structure RustApi where
  db : Database
  isOpen : Bool

namespace RustApi

/-- The method of the Rust transaction a Go method stands for, and what becomes of its result. -/
def method (v : RustApi) (w : World) (i : Nat) (op : Op) (view : Response → GoAnswer) :
    Option (RustApi × GoAnswer) := do
  let (db, r) ← v.db.serve ⟨.on i op, w.now, w.append⟩
  return ({ v with db }, view r)

def step (v : RustApi) : GoCall × World → Option (RustApi × GoAnswer)
  | (.transaction write, w) =>
    if v.isOpen then do
      let (db, _) ← v.db.serve ⟨.transaction write, w.now, w.append⟩
      return ({ v with db }, .unit)
    else none
  | (.withSnapshotIsolation i, w) => v.method w i .withSnapshotIsolation fun _ => .unit
  | (.withSerializableSnapshotIsolation i, w) =>
    v.method w i .withSerializableSnapshotIsolation fun _ => .unit
  | (.version i, _) => some (v, .version (v.db.transactions[i]?.join.elim 0 (·.version)))
  | (.closed i, _) => some (v, .closed (v.db.transactions[i]?.join.elim true (·.done)))
  | (.get i key, w) => v.method w i (.get key) (·.goGet detail)
  | (.exists i key, w) => v.method w i (.exists key) (·.goExists detail)
  | (.set i key value, w) => v.method w i (.set key value) (·.goDone detail)
  | (.put i key value, w) => v.method w i (.put key value) (·.goDone detail)
  | (.delete i key, w) => v.method w i (.del key) (·.goDone detail)
  | (.commit i, w) => v.method w i .commit (·.goDone detail)
  | (.cancel i, w) => v.method w i .cancel (·.goDone detail)
  | (.close i, w) => v.method w i .drop fun _ => .unit
  | (.snapshot, w) => some (v, .error (
      if v.isOpen then
        match w.snapshot with
        | .ok () => none
        | .error e => some (mapError skIo (cText (detail e)))
      else some nilError))
  | (.closeDatabase, _) => some ({ v with isOpen := false }, .unit)

end RustApi

end

/-- What `Get` makes of a value of the Rust API: the length goes through a C `int`. -/
def GoAnswer.cut : GoAnswer → GoAnswer
  | .value (some v) none =>
    if cInt v.length < 0 then .panic else .value (some (v.take (cInt v.length).toNat)) none
  | r => r

/-- Two states of the library that no caller can tell apart. -/
structure SameLibrary (s s' : CLibrary) : Prop where
  db : s'.db = s.db
  heap : ∀ a, s'.heap.read a = s.heap.read a

theorem SameLibrary.refl (s : CLibrary) : SameLibrary s s := ⟨rfl, fun _ => rfl⟩

section
variable {s : CLibrary} {p : GoProcess} {leaks : Bytes → Prop}

theorem guard_code (s : CLibrary) (errOut : Bool) (e : Int × String) :
    (s.guard errOut (.error e)).2.code = e.1 := rfl

theorem takeError_guard (s : CLibrary) (e : Int × String) (hc : e.1 ≠ skOk) :
    ∃ s', GoProcess.takeError (s.guard true (.error e)).1 (s.guard true (.error e)).2 =
        some (s', some (mapError e.1 (cText e.2))) ∧
      SameLibrary s s' := by
  obtain ⟨heap, hf, hr⟩ := s.heap.free_alloc (.string (cText e.2))
  refine ⟨⟨heap, s.db⟩, ?_, rfl, hr⟩
  have hread := s.heap.read_alloc_self (.string (cText e.2))
  have hg : s.guard true (.error e) =
      (⟨(s.heap.alloc (.string (cText e.2))).1, s.db⟩,
        ⟨e.1, some (s.heap.alloc (.string (cText e.2))).2⟩) := rfl
  rw [hg, GoProcess.takeError, if_neg hc]
  simp only [GoProcess.goString, CLibrary.skFreeString, hread, hf]
  rfl

theorem mapErr_neg (detail : PersistenceError → String) (e : Error) :
    (CLibrary.mapErr detail e).1 < 0 := by
  cases e <;> simp [CLibrary.mapErr, skTxClosed, skWriteConflict, skReadConflict,
    skTxNotWritable, skAlreadyExists, skCommitNotPersisted]

theorem mapErr_ne_ok (detail : PersistenceError → String) (e : Error) :
    (CLibrary.mapErr detail e).1 ≠ skOk :=
  (mapErr_neg detail e).ne

theorem toNat_cInt_le (n : Nat) : (cInt n).toNat ≤ n := by
  unfold cInt
  rw [BitVec.toInt_eq_toNat_cond, BitVec.toNat_ofNat]
  split <;> omega

theorem bytes_cBytes (b : Bytes) : CLibrary.bytes (cBytes b) = some (.ok b) := by
  cases b with
  | nil => rfl
  | cons x b => simp [CLibrary.bytes, cBytes]

/-- What a live transaction answers to a method. -/
def Answers : Op → Response → Prop
  | .get _, r => ∃ x, r = .value x
  | .exists _, r => ∃ x, r = .found x
  | .withSnapshotIsolation, r | .withSerializableSnapshotIsolation, r | .drop, r => r = .unit
  | .set _ _, r | .put _ _, r | .del _, r | .commit, r | .cancel, r => ∃ x, r = .done x

/-- What a method does to the handles of the database. -/
structure Handled (db : Database) (i : Nat) (op : Op) (db' : Database) : Prop where
  length : db'.transactions.length = db.transactions.length
  others : ∀ j, j ≠ i → db'.transactions[j]?.join = db.transactions[j]?.join
  own : db'.transactions[i]?.join.isSome = decide (op ≠ .drop)

theorem Handled.set {db db' : Database} {i : Nat} (hi : db.transactions[i]?.join = some tx)
    (o : Option TransactionInner) (h : db'.transactions = db.transactions.set i o)
    (ho : o.isSome = decide (op ≠ .drop)) : Handled db i op db' := by
  obtain ⟨hlt, -⟩ := getElem_of_join hi
  constructor
  · rw [h, List.length_set]
  · intro j hj
    rw [h, List.getElem?_set_ne fun he => hj he.symm]
  · rw [h, List.getElem?_set_self hlt]
    exact ho

theorem serve_live {db : Database} (h : Serving db) (hi : db.transactions[i]?.join = some tx)
    (op : Op) (w : World) :
    ∃ db' r, db.serve ⟨.on i op, w.now, w.append⟩ = some (db', r) ∧ Serving db' ∧
      Answers op r ∧ Handled db i op db' := by
  obtain ⟨db', r, hserve, hs⟩ := h.serve ⟨.on i op, w.now, w.append⟩
  refine ⟨db', r, hserve, hs, ?_⟩
  cases op with
  | commit =>
    simp only [Database.serve, hi] at hserve
    obtain ⟨⟨inner, tx', res⟩, -, he⟩ := Option.bind_eq_some_iff.1 hserve
    cases he
    exact ⟨⟨res, rfl⟩, .set hi (some tx') rfl rfl⟩
  | drop =>
    simp only [Database.serve, Database.step, hi, Database.call] at hserve
    cases hserve
    exact ⟨rfl, .set hi none rfl rfl⟩
  | withSnapshotIsolation =>
    simp only [Database.serve, Database.step, hi, Database.call] at hserve
    cases hserve
    exact ⟨rfl, .set hi _ rfl rfl⟩
  | withSerializableSnapshotIsolation =>
    simp only [Database.serve, Database.step, hi, Database.call] at hserve
    cases hserve
    exact ⟨rfl, .set hi _ rfl rfl⟩
  | _ =>
    simp only [Database.serve, Database.step, hi, Database.call] at hserve
    cases hserve
    exact ⟨⟨_, rfl⟩, .set hi _ rfl rfl⟩

theorem serve_gone {db : Database} (hi : db.transactions[i]?.join = none) (op : Op) (w : World) :
    db.serve ⟨.on i op, w.now, w.append⟩ = some (db, .gone) := by
  cases op <;> simp only [Database.serve, Database.step, hi]

/-- Who owns what: each live cell is the box of an open handle, or a buffer nobody has taken. -/
structure Owned (leaks : Bytes → Prop) (p : GoProcess) : Prop where
  database : ∀ a, p.db = some a → p.lib.heap.read a = some .database
  transaction : ∀ i a, p.tx i = some a → p.lib.heap.read a = some (.transaction i)
  length : p.txs.length = p.lib.db.transactions.length
  isOpen : ∀ i, (p.tx i).isSome = p.lib.db.transactions[i]?.join.isSome
  live : ∀ a c, p.lib.heap.read a = some c →
    match c with
    | .database => p.db = some a
    | .transaction i => p.tx i = some a
    | .value v => leaks v
    | .string _ => False

/-- The process and the Rust API below it. -/
structure Wraps (leaks : Bytes → Prop) (p : GoProcess) (v : RustApi) : Prop where
  owned : Owned leaks p
  serving : Serving v.db
  db : p.lib.db = v.db
  isOpen : p.db.isSome = v.isOpen

theorem Owned.same (h : Owned leaks p) (hs : SameLibrary p.lib s) : Owned leaks { p with lib := s } where
  database a ha := (hs.heap a).trans (h.database a ha)
  transaction i a ha := (hs.heap a).trans (h.transaction i a ha)
  length := by rw [hs.db]; exact h.length
  isOpen i := by rw [hs.db]; exact h.isOpen i
  live a c hc := h.live a c ((hs.heap a).symm.trans hc)

theorem Owned.method {db : Database} (h : Owned leaks p) (hi : p.tx i = some a)
    (hd : Handled p.lib.db i op db) (hop : op ≠ .drop) :
    Owned leaks { p with lib := ⟨p.lib.heap, db⟩ } where
  database := h.database
  transaction := h.transaction
  length := h.length.trans hd.length.symm
  isOpen j := by
    by_cases hj : j = i
    · subst hj
      rw [hd.own, decide_eq_true hop]
      exact congrArg Option.isSome hi
    · rw [hd.others j hj]
      exact h.isOpen j
  live := h.live

theorem Owned.leak (h : Owned leaks p) (hv : leaks v) :
    Owned leaks { p with lib := { p.lib with heap := (p.lib.heap.alloc (.value v)).1 } } where
  database a ha := by
    rw [Heap.read_alloc, if_neg (Heap.ne_alloc (h.database a ha) _)]
    exact h.database a ha
  transaction i a ha := by
    rw [Heap.read_alloc, if_neg (Heap.ne_alloc (h.transaction i a ha) _)]
    exact h.transaction i a ha
  length := h.length
  isOpen := h.isOpen
  live a c hc := by
    rw [Heap.read_alloc] at hc
    split at hc
    · cases hc
      exact hv
    · exact h.live a c hc

theorem Wraps.cases (h : Wraps leaks p v) (i : Nat) :
    p.tx i = none ∧ v.db.transactions[i]?.join = none ∨
    ∃ a tx, p.tx i = some a ∧ p.lib.lockTx a = some i ∧ v.db.transactions[i]?.join = some tx := by
  have hopen := h.owned.isOpen i
  rw [h.db] at hopen
  cases ha : p.tx i with
  | none =>
    rw [ha] at hopen
    exact .inl ⟨rfl, Option.isNone_iff_eq_none.1 (by simpa using hopen.symm)⟩
  | some a =>
    rw [ha] at hopen
    obtain ⟨tx, htx⟩ := Option.isSome_iff_exists.1 hopen.symm
    exact .inr ⟨a, tx, rfl, by simp only [CLibrary.lockTx, h.owned.transaction i a ha], htx⟩

variable {v : RustApi} (detail : PersistenceError → String)

theorem returnError_finish {db : Database} (hl : p.lib.lockTx a = some i)
    (hm : p.lib.method i op w = some (⟨p.lib.heap, db⟩, .done x)) :
    ∃ s, p.returnError (p.lib.finish detail a op true w) =
        some ({ p with lib := s }, Response.goDone detail (.done x)) ∧
      SameLibrary ⟨p.lib.heap, db⟩ s := by
  cases x with
  | ok u =>
    refine ⟨⟨p.lib.heap, db⟩, ?_, .refl _⟩
    rw [CLibrary.finish, hl, Option.bind_eq_bind, Option.bind_some, hm]
    rfl
  | error e =>
    obtain ⟨s, htake, hsame⟩ := takeError_guard ⟨p.lib.heap, db⟩ (CLibrary.mapErr detail e)
      (mapErr_ne_ok detail e)
    refine ⟨s, ?_, hsame⟩
    rw [CLibrary.finish, hl, Option.bind_eq_bind, Option.bind_some, hm]
    simp only [Option.bind_eq_bind, Option.bind_some, GoProcess.returnError, Option.pure_def]
    rw [htake]
    rfl

/-- A step of the process is the same step of the API, up to the cut of a value. -/
def Lockstep (leaks : Bytes → Prop) (run : Option (GoProcess × GoAnswer))
    (spec : Option (RustApi × GoAnswer)) : Prop :=
  ∃ p v r, run = some (p, r.cut) ∧ spec = some (v, r) ∧ Wraps leaks p v

theorem cut_goDone (r : Response) : (r.goDone detail).cut = r.goDone detail := by
  unfold Response.goDone
  split <;> rfl

theorem Wraps.method (h : Wraps leaks p v) (w : World) (i : Nat) (op : Op) (hop : op ≠ .drop)
    (view : Response → GoAnswer) (run : Option (GoProcess × GoAnswer))
    (hnil : p.tx i = none → run = some (p, (view .gone).cut))
    (hlive : ∀ a db r, p.tx i = some a → p.lib.lockTx a = some i → Answers op r →
      p.lib.method i op w = some (⟨p.lib.heap, db⟩, r) →
      ∃ s, run = some ({ p with lib := s }, (view r).cut) ∧ s.db = db ∧
        (Owned leaks { p with lib := ⟨p.lib.heap, db⟩ } → Owned leaks { p with lib := s })) :
    Lockstep leaks run (v.method w i op view) := by
  rcases h.cases i with ⟨hp, hv⟩ | ⟨a, tx, hp, hl, hv⟩
  · refine ⟨p, v, view .gone, hnil hp, ?_, h⟩
    rw [RustApi.method, serve_gone hv]
    rfl
  · obtain ⟨db, r, hserve, hs, hr, hd⟩ := serve_live h.serving hv op w
    have hm : p.lib.method i op w = some (⟨p.lib.heap, db⟩, r) := by
      rw [CLibrary.method, h.db, hserve]
      rfl
    obtain ⟨s, hrun, hdb, howned⟩ := hlive a db r hp hl hr hm
    refine ⟨_, { v with db }, _, hrun, ?_, ?_⟩
    · rw [RustApi.method, hserve]
      rfl
    · rw [← h.db] at hd
      exact ⟨howned (h.owned.method hp hd hop), hs, hdb, h.isOpen⟩

theorem Wraps.done (h : Wraps leaks p v) (w : World) (i : Nat) (op : Op) (hop : op ≠ .drop)
    (hans : ∀ r, Answers op r → ∃ x, r = .done x) (call : Option Ptr → Option (CLibrary × CReply))
    (hnil : call none = some (p.lib, ⟨skNullArg, none⟩))
    (hcall : ∀ a, call (some a) = p.lib.finish detail a op true w) :
    Lockstep leaks (p.returnError (call (p.tx i))) (v.method w i op (·.goDone detail)) := by
  apply h.method w i op hop
  · intro hp
    rw [hp, hnil]
    rfl
  · intro a db r hp hl hr hm
    obtain ⟨x, rfl⟩ := hans r hr
    obtain ⟨s, hret, hsame⟩ := returnError_finish detail hl hm
    refine ⟨s, ?_, hsame.db, fun ho => ho.same hsame⟩
    rw [hp, hcall, cut_goDone]
    exact hret

theorem Wraps.set (h : Wraps leaks p v) (w : World) (i : Nat) (key value : Bytes) :
    Lockstep leaks (p.set detail w i key value) (v.method w i (.set key value) (·.goDone detail)) := by
  apply h.done detail w i (.set key value) (by simp) (fun _ hr => hr)
    fun tx => p.lib.skTxSet detail tx (cBytes key) (cBytes value) true w
  · rfl
  · intro a
    simp [CLibrary.skTxSet, CLibrary.writeOp, bytes_cBytes, Except.map]

theorem Wraps.put (h : Wraps leaks p v) (w : World) (i : Nat) (key value : Bytes) :
    Lockstep leaks (p.put detail w i key value) (v.method w i (.put key value) (·.goDone detail)) := by
  apply h.done detail w i (.put key value) (by simp) (fun _ hr => hr)
    fun tx => p.lib.skTxPut detail tx (cBytes key) (cBytes value) true w
  · rfl
  · intro a
    simp [CLibrary.skTxPut, CLibrary.writeOp, bytes_cBytes, Except.map]

theorem Wraps.delete (h : Wraps leaks p v) (w : World) (i : Nat) (key : Bytes) :
    Lockstep leaks (p.delete detail w i key) (v.method w i (.del key) (·.goDone detail)) := by
  apply h.done detail w i (.del key) (by simp) (fun _ hr => hr)
    fun tx => p.lib.skTxDel detail tx (cBytes key) true w
  · rfl
  · intro a
    simp [CLibrary.skTxDel, CLibrary.writeOp, bytes_cBytes]

theorem Wraps.switchIsolation (h : Wraps leaks p v) (w : World) (i : Nat) (ssi : Bool) :
    Lockstep leaks (p.switchIsolation w i ssi) (v.method w i
      (if ssi then .withSerializableSnapshotIsolation else .withSnapshotIsolation)
      fun _ => .unit) := by
  apply h.method w i
  · cases ssi <;> simp
  · intro hp
    rw [GoProcess.switchIsolation, hp]
    rfl
  · intro a db r hp hl hr hm
    have hr : r = .unit := by
      cases ssi <;> exact hr
    subst hr
    refine ⟨⟨p.lib.heap, db⟩, ?_, rfl, id⟩
    simp only [GoProcess.switchIsolation, hp, CLibrary.switchIsolation, hl, hm,
      Option.bind_eq_bind, Option.bind_some]
    rfl

theorem Wraps.exists (h : Wraps leaks p v) (w : World) (i : Nat) (key : Bytes) :
    Lockstep leaks (p.exists detail w i key) (v.method w i (.exists key) (·.goExists detail)) := by
  apply h.method w i _ (by simp)
  · intro hp
    rw [GoProcess.exists, hp]
    rfl
  · rintro a db r hp hl ⟨x, rfl⟩ hm
    cases x with
    | ok b =>
      refine ⟨⟨p.lib.heap, db⟩, ?_, rfl, id⟩
      simp only [GoProcess.exists, hp, CLibrary.skTxExists, bytes_cBytes, hl, hm,
        Option.bind_eq_bind, Option.bind_some]
      cases b <;> rfl
    | error e =>
      obtain ⟨s, htake, hsame⟩ := takeError_guard ⟨p.lib.heap, db⟩ (CLibrary.mapErr detail e)
        (mapErr_ne_ok detail e)
      refine ⟨s, ?_, hsame.db, fun ho => ho.same hsame⟩
      simp only [GoProcess.exists, hp, CLibrary.skTxExists, bytes_cBytes, hl, hm,
        Option.bind_eq_bind, Option.bind_some, Option.pure_def]
      rw [if_pos (by rw [guard_code]; exact mapErr_ne_ok detail e), htake]
      rfl

theorem skTxGet_live {db : Database} (hl : s.lockTx a = some i)
    (hm : s.method i (.get key) w = some (⟨s.heap, db⟩, .value x)) :
    s.skTxGet detail (some a) (cBytes key) true true true w = some (
      match x with
      | .ok (some v) => (⟨(s.heap.alloc (.value v)).1, db⟩,
          ⟨⟨skOk, none⟩, some (s.heap.alloc (.value v)).2, v.length⟩)
      | .ok none => (⟨s.heap, db⟩, ⟨⟨skNotFound, none⟩, none, 0⟩)
      | .error e =>
        let (s, r) := CLibrary.guard ⟨s.heap, db⟩ true (.error (CLibrary.mapErr detail e))
        (s, ⟨r, none, 0⟩)) := by
  simp only [CLibrary.skTxGet, bytes_cBytes, hl, hm, Option.bind_eq_bind, Option.bind_some]
  cases x with
  | ok x => cases x <;> rfl
  | error e => rfl

/-- `Get` gives its buffer back, unless the length does not fit. -/
theorem Wraps.get (h : Wraps leaks p v) (w : World) (i : Nat) (key : Bytes)
    (hleak : ∀ db x, p.lib.method i (.get key) w = some (db, .value (.ok (some x))) →
      cInt x.length < 0 → leaks x) :
    Lockstep leaks (p.get detail w i key) (v.method w i (.get key) (·.goGet detail)) := by
  apply h.method w i _ (by simp)
  · intro hp
    rw [GoProcess.get, hp]
    rfl
  · rintro a db r hp hl ⟨x, rfl⟩ hm
    rw [GoProcess.get, hp, skTxGet_live detail hl hm]
    cases x with
    | ok x =>
      cases x with
      | none => exact ⟨⟨p.lib.heap, db⟩, rfl, rfl, id⟩
      | some x =>
        simp only [Option.bind_eq_bind, Option.bind_some, ↓reduceIte, Response.goGet, GoAnswer.cut,
          GoProcess.goBytes]
        by_cases hx : cInt x.length < 0
        · refine ⟨⟨(p.lib.heap.alloc (.value x)).1, db⟩, ?_, rfl, fun ho => ho.leak (hleak _ x hm hx)⟩
          simp only [if_pos hx]
          rfl
        · obtain ⟨heap, hf, hread⟩ := p.lib.heap.free_alloc (.value x)
          refine ⟨⟨heap, db⟩, ?_, rfl, fun ho => ho.same ⟨rfl, hread⟩⟩
          simp only [if_neg hx, Heap.read_alloc_self, if_pos (toNat_cInt_le x.length),
            Option.bind_some, CLibrary.skFreeValue, ↓reduceIte, hf, Option.bind_eq_bind,
            Option.pure_def]
    | error e =>
      obtain ⟨s, htake, hsame⟩ := takeError_guard ⟨p.lib.heap, db⟩ (CLibrary.mapErr detail e)
        (mapErr_ne_ok detail e)
      have hnot : (CLibrary.mapErr detail e).1 ≠ skNotFound :=
        ((mapErr_neg detail e).trans Int.one_pos).ne
      refine ⟨s, ?_, hsame.db, fun ho => ho.same hsame⟩
      simp only [Option.bind_eq_bind, Option.bind_some, guard_code, if_neg hnot,
        if_neg (mapErr_ne_ok detail e), htake]
      rfl

theorem Owned.begin {db : Database} (h : Owned leaks p)
    (hd : db.transactions = p.lib.db.transactions ++ [some t]) :
    Owned leaks { p with
      lib := ⟨(p.lib.heap.alloc (.transaction p.lib.db.transactions.length)).1, db⟩
      txs := p.txs ++
        [some (p.lib.heap.alloc (.transaction p.lib.db.transactions.length)).2] } := by
  have hread : ∀ {b c}, p.lib.heap.read b = some c →
      (p.lib.heap.alloc (.transaction p.lib.db.transactions.length)).1.read b = some c := by
    intro b c hb
    rw [Heap.read_alloc, if_neg (Heap.ne_alloc hb _)]
    exact hb
  have hold : ∀ i a, p.tx i = some a → (p.txs ++
      [some (p.lib.heap.alloc (.transaction p.lib.db.transactions.length)).2])[i]?.join =
        some a := by
    intro i a hi
    obtain ⟨hlt, -⟩ := getElem_of_join hi
    rw [List.getElem?_append_left hlt]
    exact hi
  constructor
  · exact fun a ha => hread (h.database a ha)
  · intro i a ha
    change (p.txs ++ [_])[i]?.join = some a at ha
    rcases Nat.lt_or_ge i p.txs.length with hlt | hge
    · rw [List.getElem?_append_left hlt] at ha
      exact hread (h.transaction i a ha)
    · obtain ⟨hlt, -⟩ := getElem_of_join ha
      rw [List.length_append, List.length_singleton] at hlt
      have hi : i = p.txs.length := by omega
      subst hi
      rw [List.getElem?_concat_length] at ha
      cases ha
      rw [Heap.read_alloc_self, h.length]
  · simp [hd, h.length]
  · intro i
    change ((p.txs ++ [_])[i]?.join).isSome = (db.transactions[i]?.join).isSome
    rw [hd]
    rcases Nat.lt_trichotomy i p.txs.length with hlt | rfl | hgt
    · rw [List.getElem?_append_left hlt, List.getElem?_append_left (h.length ▸ hlt)]
      exact h.isOpen i
    · rw [List.getElem?_concat_length, h.length, List.getElem?_concat_length]
      rfl
    · rw [List.getElem?_eq_none (by simp; omega), List.getElem?_eq_none (by
        rw [h.length] at hgt
        simp
        omega)]
      rfl
  · intro b c hb
    rw [Heap.read_alloc] at hb
    split at hb
    · rename_i he
      cases hb
      change (p.txs ++ [_])[p.lib.db.transactions.length]?.join = some b
      rw [← h.length, List.getElem?_concat_length, he]
      rfl
    · have hl := h.live b c hb
      cases c with
      | transaction i => exact hold i b hl
      | _ => exact hl

theorem Wraps.transaction (h : Wraps leaks p v) (w : World) (write : Bool) (ho : v.isOpen = true) :
    Lockstep leaks (p.transaction w write) (v.step detail (.transaction write, w)) := by
  obtain ⟨db, t, ht, hs, hb⟩ := h.serving.transaction write
  have hserve : v.db.serve ⟨.transaction write, w.now, w.append⟩ = some (db, _) := ht
  obtain ⟨a, ha⟩ := Option.isSome_iff_exists.1 (h.isOpen.trans ho)
  have hwrite : decide ((if write then 1 else 0 : Int) ≠ 0) = write := by cases write <;> rfl
  have hd : db.transactions = p.lib.db.transactions ++ [some t] := h.db ▸ hb.handles
  refine ⟨_, { v with db }, .unit, ?_, ?_, h.owned.begin hd, hs, rfl, h.isOpen⟩
  · simp only [GoProcess.transaction, CLibrary.skDbTxBegin, ha, Option.bind_eq_bind,
      Option.bind_some, h.owned.database a ha, ↓reduceIte, hwrite, h.db, hserve]
    rfl
  · simp only [RustApi.step, ho, ↓reduceIte, hserve]
    rfl

theorem Owned.close {db : Database} {heap : Heap Allocation} (h : Owned leaks p) (hi : p.tx i = some a)
    (hd : Handled p.lib.db i .drop db)
    (hread : ∀ b, heap.read b = if b = a then none else p.lib.heap.read b) :
    Owned leaks { p with lib := ⟨heap, db⟩, txs := p.txs.set i none } := by
  have hcell := h.transaction i a hi
  obtain ⟨hlt, -⟩ := getElem_of_join hi
  constructor
  · intro b hb
    have hbox := h.database b hb
    rw [hread, if_neg]
    · exact hbox
    · rintro rfl
      cases hcell.symm.trans hbox
  · intro j b hb
    change ((p.txs.set i none)[j]?.join) = some b at hb
    rw [List.getElem?_set] at hb
    split at hb
    · simp at hb
    · rename_i hij
      have hbox := h.transaction j b hb
      rw [hread, if_neg]
      · exact hbox
      · rintro rfl
        cases hcell.symm.trans hbox
        exact hij rfl
  · rw [List.length_set, h.length, hd.length]
  · intro j
    change ((p.txs.set i none)[j]?.join).isSome = (db.transactions[j]?.join).isSome
    by_cases hj : j = i
    · subst hj
      rw [hd.own, List.getElem?_set_self hlt]
      rfl
    · rw [List.getElem?_set_ne fun he => hj he.symm, hd.others j hj]
      exact h.isOpen j
  · intro b c hb
    rw [hread] at hb
    split at hb
    · cases hb
    · rename_i hba
      have hl := h.live b c hb
      cases c with
      | transaction j =>
        change ((p.txs.set i none)[j]?.join) = some b
        rw [List.getElem?_set_ne]
        · exact hl
        · rintro rfl
          cases hl.symm.trans hi
          exact hba rfl
      | _ => exact hl

theorem Wraps.close (h : Wraps leaks p v) (w : World) (i : Nat) :
    Lockstep leaks (p.close w i) (v.method w i .drop fun _ => .unit) := by
  rcases h.cases i with ⟨hp, hv⟩ | ⟨a, tx, hp, hl, hv⟩
  · refine ⟨p, v, .unit, ?_, ?_, h⟩
    · rw [GoProcess.close, hp]
      rfl
    · rw [RustApi.method, serve_gone hv]
      rfl
  · obtain ⟨db, r, hserve, hs, -, hd⟩ := serve_live h.serving hv .drop w
    obtain ⟨heap, hf, hread⟩ := Heap.free_of_read (h.owned.transaction i a hp)
    rw [← h.db] at hd
    refine ⟨_, { v with db }, .unit, ?_, ?_, h.owned.close hp hd hread, hs, rfl, h.isOpen⟩
    · simp only [GoProcess.close, hp, CLibrary.skTxFree, hl, CLibrary.method, h.db, hserve,
        Option.bind_eq_bind, Option.bind_some, Option.pure_def, hf]
      rfl
    · rw [RustApi.method, hserve]
      rfl

theorem Wraps.closeDatabase (h : Wraps leaks p v) (w : World) :
    Lockstep leaks p.closeDatabase (v.step detail (.closeDatabase, w)) := by
  cases hp : p.db with
  | none =>
    refine ⟨p, _, .unit, ?_, rfl, h.owned, h.serving, h.db, by rw [hp]; rfl⟩
    rw [GoProcess.closeDatabase, hp]
    rfl
  | some a =>
    have hbox := h.owned.database a hp
    obtain ⟨heap, hf, hread⟩ := Heap.free_of_read hbox
    refine ⟨{ p with lib := ⟨heap, p.lib.db⟩, db := none }, _, .unit, ?_, rfl, ?_, h.serving,
      h.db, rfl⟩
    · simp only [GoProcess.closeDatabase, hp, CLibrary.skDbFree, hbox, ↓reduceIte, hf,
        Option.bind_eq_bind, Option.bind_some, Option.pure_def]
      rfl
    · constructor
      · exact fun b hb => nomatch hb
      · intro i b hb
        have hcell := h.owned.transaction i b hb
        rw [hread, if_neg]
        · exact hcell
        · rintro rfl
          cases hcell.symm.trans hbox
      · exact h.owned.length
      · exact h.owned.isOpen
      · intro b c hb
        rw [hread] at hb
        split at hb
        · cases hb
        · rename_i hba
          have hl := h.owned.live b c hb
          cases c with
          | database =>
            cases hl.symm.trans hp
            exact absurd rfl hba
          | _ => exact hl

theorem Wraps.snapshot (h : Wraps leaks p v) (w : World) :
    Lockstep leaks (p.snapshot detail w) (v.step detail (.snapshot, w)) := by
  have ho := h.isOpen
  cases hp : p.db with
  | none =>
    rw [hp] at ho
    refine ⟨p, v, .error (some nilError), ?_, ?_, h⟩
    · simp only [GoProcess.snapshot, hp]
      rfl
    · simp only [RustApi.step, ← ho]
      rfl
  | some a =>
    rw [hp] at ho
    have hbox := h.owned.database a hp
    cases hw : w.snapshot with
    | ok u =>
      refine ⟨p, v, .error none, ?_, ?_, h⟩
      · simp only [GoProcess.snapshot, hp, CLibrary.skDbSnapshot, hbox, hw, ↓reduceIte]
        rfl
      · simp only [RustApi.step, ← ho, hw]
        rfl
    | error e =>
      obtain ⟨s, htake, hsame⟩ := takeError_guard p.lib (skIo, detail e) (by simp [skIo, skOk])
      refine ⟨{ p with lib := s }, v, .error (some (mapError skIo (cText (detail e)))), ?_, ?_,
        h.owned.same hsame, h.serving, hsame.db.trans h.db, h.isOpen⟩
      · simp only [GoProcess.snapshot, hp, CLibrary.skDbSnapshot, hbox, hw, ↓reduceIte,
          GoProcess.returnError, Option.bind_eq_bind, Option.bind_some, htake, Option.pure_def]
        rfl
      · simp only [RustApi.step, ← ho, hw]
        rfl

theorem Wraps.looks (h : Wraps leaks p v) (w : World) (i : Nat) :
    Lockstep leaks (p.version i) (v.step detail (.version i, w)) ∧
      Lockstep leaks (p.closed i) (v.step detail (.closed i, w)) := by
  rcases h.cases i with ⟨hp, hv⟩ | ⟨a, tx, hp, hl, hv⟩
  · refine ⟨⟨p, v, .version 0, ?_, ?_, h⟩, ⟨p, v, .closed true, ?_, ?_, h⟩⟩
    · rw [GoProcess.version, hp]
      rfl
    · rw [RustApi.step, hv]
      rfl
    · rw [GoProcess.closed, hp]
      rfl
    · rw [RustApi.step, hv]
      rfl
  · refine ⟨⟨p, v, .version tx.version, ?_, ?_, h⟩, ⟨p, v, .closed tx.done, ?_, ?_, h⟩⟩
    · simp only [GoProcess.version, hp, CLibrary.skTxVersion, hl, h.db, Option.bind_eq_bind,
        Option.bind_some, hv]
      rfl
    · rw [RustApi.step, hv]
      rfl
    · simp only [GoProcess.closed, hp, CLibrary.skTxIsClosed, hl, h.db, Option.bind_eq_bind,
        Option.bind_some, hv]
      cases tx.done <;> rfl
    · rw [RustApi.step, hv]
      rfl

/-- A transaction is begun on the database while it is open. -/
def GoCall.permitted (isOpen : Bool) : GoCall → Bool
  | .transaction _ => isOpen
  | _ => true

theorem Wraps.step (h : Wraps leaks p v) (c : GoCall × World)
    (hc : c.1.permitted v.isOpen = true)
    (hleak : ∀ i key db x, c.1 = .get i key →
      p.lib.method i (.get key) c.2 = some (db, .value (.ok (some x))) →
      cInt x.length < 0 → leaks x) :
    Lockstep leaks (p.step detail c) (v.step detail c) := by
  obtain ⟨call, w⟩ := c
  cases call with
  | transaction write => exact h.transaction detail w write hc
  | withSnapshotIsolation i => exact h.switchIsolation w i false
  | withSerializableSnapshotIsolation i => exact h.switchIsolation w i true
  | version i => exact (h.looks detail w i).1
  | closed i => exact (h.looks detail w i).2
  | get i key => exact h.get detail w i key fun db x => hleak i key db x rfl
  | «exists» i key => exact h.exists detail w i key
  | set i key value => exact h.set detail w i key value
  | put i key value => exact h.put detail w i key value
  | delete i key => exact h.delete detail w i key
  | commit i =>
    exact h.done detail w i .commit (by simp) (fun _ hr => hr)
      (fun tx => p.lib.skTxCommit detail tx true w) rfl fun _ => rfl
  | cancel i =>
    exact h.done detail w i .cancel (by simp) (fun _ hr => hr)
      (fun tx => p.lib.skTxCancel detail tx true w) rfl fun _ => rfl
  | close i => exact h.close w i
  | snapshot => exact h.snapshot detail w
  | closeDatabase => exact h.closeDatabase detail w

theorem Wraps.refused (h : Wraps leaks p v) (c : GoCall × World)
    (hc : c.1.permitted v.isOpen = false) :
    p.step detail c = none ∧ v.step detail c = none := by
  obtain ⟨call, w⟩ := c
  cases call with
  | transaction write =>
    change v.isOpen = false at hc
    have hp : p.db = none := by
      rw [← h.isOpen] at hc
      exact Option.not_isSome_iff_eq_none.1 (Bool.not_eq_true _ ▸ hc)
    constructor
    · simp only [GoProcess.step, GoProcess.transaction, CLibrary.skDbTxBegin, hp]
      rfl
    · rw [RustApi.step, hc]
      rfl
  | _ => cases hc

end

theorem Wraps.new (leaks : Bytes → Prop) (datastore : SkipMap Bytes Versions)
    (clock threshold : Nat) :
    Wraps leaks (.new datastore clock threshold) ⟨.opened datastore clock threshold, true⟩ where
  owned := {
    database := by
      rintro a ⟨⟩
      rfl
    transaction := by
      intro i a ha
      simp [GoProcess.new, GoProcess.tx] at ha
    length := rfl
    isOpen := fun _ => rfl
    live := by
      intro a c hc
      change (Heap.alloc .empty Allocation.database).1.read a = some c at hc
      rw [Heap.read_alloc] at hc
      split at hc
      · rename_i ha
        cases hc
        rw [ha]
        rfl
      · cases hc }
  serving := Serving.new datastore clock threshold
  db := rfl
  isOpen := rfl

/-- No transaction is begun once the database is closed. -/
def wellUsed : Bool → List (GoCall × World) → Bool
  | _, [] => true
  | isOpen, c :: calls =>
    c.1.permitted isOpen && wellUsed (isOpen && decide (c.1 ≠ .closeDatabase)) calls

theorem RustApi.step_isOpen {detail : PersistenceError → String} {v v' : RustApi}
    (h : v.step detail c = some (v', r)) :
    v'.isOpen = (v.isOpen && decide (c.1 ≠ .closeDatabase)) := by
  have hmethod : ∀ {w i op view}, v.method w i op view = some (v', r) → v'.isOpen = v.isOpen := by
    intro w i op view hm
    obtain ⟨⟨db, x⟩, -, he⟩ := Option.bind_eq_some_iff.1 hm
    cases he
    rfl
  obtain ⟨call, w⟩ := c
  cases call with
  | transaction write =>
    obtain ⟨-, h⟩ := Option.ite_none_right_eq_some.1 h
    obtain ⟨⟨db, x⟩, -, he⟩ := Option.bind_eq_some_iff.1 h
    cases he
    simp
  | version i =>
    cases h
    simp
  | closed i =>
    cases h
    simp
  | snapshot =>
    cases h
    simp
  | closeDatabase =>
    cases h
    simp
  | _ =>
    rw [RustApi.step] at h
    simpa using hmethod h

/-- A length that is negative as a C `int`. -/
def tooLong (v : Bytes) : Prop := cInt v.length < 0

section
variable {p : GoProcess} {v : RustApi} (detail : PersistenceError → String)

theorem Wraps.run (h : Wraps tooLong p v) (calls : List (GoCall × World)) :
    match Execution.collect (GoProcess.step detail) p calls with
    | none => wellUsed v.isOpen calls = false
    | some (p', answers) => wellUsed v.isOpen calls = true ∧ ∃ v' results,
        Execution.collect (RustApi.step detail) v calls = some (v', results) ∧
          answers = results.map GoAnswer.cut ∧ Wraps tooLong p' v' := by
  induction calls generalizing p v with
  | nil => exact ⟨rfl, v, [], rfl, rfl, h⟩
  | cons c calls ih =>
    cases hc : c.1.permitted v.isOpen with
    | false =>
      rw [Execution.collect, (h.refused detail c hc).1]
      change (c.1.permitted v.isOpen && _) = false
      rw [hc, Bool.false_and]
    | true =>
      obtain ⟨p₁, v₁, r, hp, hv, h₁⟩ := h.step detail c hc fun _ _ _ _ _ _ hx => hx
      have ih := ih h₁
      rw [RustApi.step_isOpen hv] at ih
      rw [Execution.collect, hp, wellUsed, hc, Bool.true_and]
      cases hrest : Execution.collect (GoProcess.step detail) p₁ calls with
      | none =>
        rw [hrest] at ih
        simpa [hrest] using ih
      | some q =>
        obtain ⟨p', answers⟩ := q
        rw [hrest] at ih
        obtain ⟨hu, v', results, hrun, rfl, h'⟩ := ih
        simp only [Option.bind_eq_bind, Option.bind_some, hrest, Option.pure_def]
        exact ⟨hu, v', r :: results, by simp [Execution.collect, hv, hrun], rfl, h'⟩

end

/-- However a Go program uses the package, as long as its calls and finalizers run one after the
other and it begins no transaction on a closed database: no pointer is freed twice or used after it
was freed, every message and every value buffer is given back, except for the buffer of a value too
long for a C `int`, and the answers are those of the Rust API, with the length of a value taken as a
C `int`. -/
theorem GoProcess.memory_safe (detail : PersistenceError → String)
    (datastore : SkipMap Bytes Versions) (clock threshold : Nat)
    (calls : List (GoCall × World)) :
    match Execution.collect (GoProcess.step detail) (.new datastore clock threshold) calls with
    | none => wellUsed true calls = false
    | some (p, answers) => wellUsed true calls = true ∧ Owned tooLong p ∧ ∃ v results,
        Execution.collect (RustApi.step detail) ⟨.opened datastore clock threshold, true⟩ calls =
          some (v, results) ∧ answers = results.map GoAnswer.cut := by
  have h := (Wraps.new tooLong datastore clock threshold).run detail calls
  split
  · rename_i hrun
    rw [hrun] at h
    exact h
  · rename_i p answers hrun
    rw [hrun] at h
    obtain ⟨hu, v, results, hv, ha, hw⟩ := h
    exact ⟨hu, hw.owned, v, results, hv, ha⟩

end StupidKv
