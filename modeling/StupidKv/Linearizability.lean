import StupidKv.Lib.Processes
import StupidKv.Server

namespace StupidKv
open Std Linearization Processes
set_option autoImplicit true

/-- What clients of the server write; `none` deletes. -/
abbrev KeyWrite := String × Option String

/-- The value the last write of `key` leaves. -/
def valueOf (log : List KeyWrite) (key : String) : Option String :=
  (log.reverse.findSome? fun w => if w.1 = key then some w.2 else none).join

def HttpRequest.key : HttpRequest → String
  | .get key | .exists key | .insert key _ | .update key _ | .delete key => key

def conflictResponse : StatusCode × ErrorResponse :=
  (.conflict, ⟨"Write conflict, retry the transaction"⟩)

def existsResponse : StatusCode × ErrorResponse :=
  (.conflict, ⟨"Key already exists, cannot be overwritten"⟩)

/-- The server as one atomic object. The state is the log of all writes; a request that met the log
`start` takes effect when it is `log`. A conflict is answered only to a write that somebody else's
write of the same key has overtaken. -/
inductive Responds (start log : List KeyWrite) :
    HttpRequest → List KeyWrite → ApiResult → Prop
  | get : Responds start log (.get key) log (.ok (.get key (valueOf log key)))
  | exists : Responds start log (.exists key) log (.ok (.exists key (valueOf log key).isSome))
  | insert (h : valueOf log key = none) :
      Responds start log (.insert key value) (log ++ [(key, some value)]) (.ok (.write key value))
  | taken (h : (valueOf log key).isSome) :
      Responds start log (.insert key value) log (.error existsResponse)
  | update :
      Responds start log (.update key value) (log ++ [(key, some value)]) (.ok (.write key value))
  | delete :
      Responds start log (.delete key) (log ++ [(key, none)]) (.ok (.get key (valueOf log key)))
  | conflict (hw : req.write = true) (h : ∃ w ∈ log.drop start.length, w.1 = req.key) :
      Responds start log req log (.error conflictResponse)

/-- The writeset a handler commits for one write. -/
def writesetOf (w : KeyWrite) : Writeset :=
  (∅ : Writeset).insert (textBytes w.1) (w.2.map textBytes)

theorem getElem?_writesetOf (w : KeyWrite) (key : String) :
    (writesetOf w)[textBytes key]? = if w.1 = key then some (w.2.map textBytes) else none := by
  unfold writesetOf
  rw [ExtTreeMap.getElem?_insert]
  by_cases h : w.1 = key
  · simp [h]
  · have hb : textBytes w.1 ≠ textBytes key := fun he => h (textBytes_injective he)
    simp [h, hb]

theorem lookup_log (log : List KeyWrite) (key : String) :
    lookup (log.map writesetOf) (textBytes key) = (valueOf log key).map textBytes := by
  unfold lookup valueOf
  rw [← List.map_reverse, List.findSome?_map]
  induction log.reverse with
  | nil => rfl
  | cons w ws ih =>
    simp only [List.findSome?_cons, Function.comp_apply, getElem?_writesetOf]
    by_cases h : w.1 = key
    · simp [h]
    · simpa [h] using ih

theorem valueOf_append_of_untouched {log later : List KeyWrite} (h : ∀ w ∈ later, w.1 ≠ key) :
    valueOf (log ++ later) key = valueOf log key := by
  unfold valueOf
  rw [List.reverse_append, List.findSome?_append, List.findSome?_eq_none_iff.2]
  · rfl
  · intro w hw
    simp [h w (List.mem_reverse.1 hw)]

/-- A session of a handler about to commit its one write. -/
def Session.holding (snapshot : Nat) (w : KeyWrite) : Session :=
  { Session.fresh true snapshot with writeset := writesetOf w }

theorem conflict_holding (n : Nat) (w v : KeyWrite) :
    (Session.holding n w).conflict (writesetOf v) =
      if v.1 = w.1 then some .keyWriteConflict else none := by
  have hkeys : ((writesetOf v).keys.any fun key => (writesetOf w).contains key) =
      decide (v.1 = w.1) := by
    rw [Bool.eq_iff_iff, List.any_eq_true]
    simp only [ExtTreeMap.mem_keys, ExtTreeMap.contains_iff_mem, writesetOf, decide_eq_true_eq,
      ExtTreeMap.mem_insert, ExtTreeMap.not_mem_empty, or_false, LawfulEqOrd.compare_eq_iff_eq]
    constructor
    · rintro ⟨key, rfl, he⟩
      exact (textBytes_injective he).symm
    · intro he
      exact ⟨_, rfl, by rw [he]⟩
  unfold Session.conflict
  simp only [Session.holding, Session.fresh, hkeys]
  by_cases h : v.1 = w.1 <;> simp [h]

theorem findSome?_conflict (n : Nat) (w : KeyWrite) (later : List KeyWrite) :
    (later.map writesetOf).findSome? (Session.holding n w).conflict =
      if ∃ v ∈ later, v.1 = w.1 then some .keyWriteConflict else none := by
  induction later with
  | nil => simp
  | cons v later ih =>
    rw [List.map_cons, List.findSome?_cons, conflict_holding, ih]
    by_cases h : v.1 = w.1
    · simp [h]
    · rw [if_neg h]
      refine if_congr ?_ rfl rfl
      simp [h]

/-- The commit of one write: refused exactly behind a write of the same key the session has not
seen. -/
theorem commit_holding (snap later : List KeyWrite) (w : KeyWrite) :
    (Session.holding snap.length w).commit ((snap ++ later).map writesetOf) =
      if ∃ v ∈ later, v.1 = w.1 then (.error .keyWriteConflict, []) else (.ok (), [writesetOf w]) := by
  have hne : (writesetOf w).isEmpty = false := by
    rw [Bool.eq_false_iff, Ne, ExtTreeMap.isEmpty_iff]
    intro he
    have := getElem?_writesetOf w w.1
    rw [he] at this
    simp at this
  have hdrop : ((snap ++ later).map writesetOf).drop snap.length = later.map writesetOf := by
    rw [List.map_append, List.drop_left' (List.length_map _)]
  unfold Session.commit
  simp only [Session.holding, Session.fresh, Bool.false_eq_true, ↓reduceIte, hne, hdrop]
  have hf := findSome?_conflict snap.length w later
  simp only [Session.holding, Session.fresh] at hf
  rw [hf]
  split
  · rename_i he
    split at he
    · rename_i hv
      cases he
      rw [if_pos hv]
    · cases he
  · rename_i he
    split at he
    · cases he
    · rename_i hv
      rw [if_neg hv]

abbrev ServerPhase := Phase (List KeyWrite) HttpRequest ApiResult

/-- What a transaction begun at `snap` sees. -/
def viewOf (snap : List KeyWrite) : Bytes → Option Bytes := lookup (snap.map writesetOf)

/-- A script on a session over `snap` ends with the response its request has been given, and if it
has not been given one yet, its commit does that, whatever was written since. -/
def Serves (start snap : List KeyWrite) (req : HttpRequest) :
    Script → Session → ServerPhase → Prop
  | .reply r, _, p => p = .decided r
  | .get key next, s, p =>
    Serves start snap req (next (s.get (viewOf snap) key).2) (s.get (viewOf snap) key).1 p
  | .exists key next, s, p =>
    Serves start snap req (next (s.exists (viewOf snap) key).2) (s.exists (viewOf snap) key).1 p
  | .put key val next, s, p =>
    Serves start snap req (next (s.put (viewOf snap) key val).2) (s.put (viewOf snap) key val).1 p
  | .set key val next, s, p =>
    Serves start snap req (next (s.store key (some val)).2) (s.store key (some val)).1 p
  | .del key next, s, p =>
    Serves start snap req (next (s.store key none).2) (s.store key none).1 p
  | .commit next, s, p => p = .waiting start req ∧ ∀ later, ∃ log r,
      Responds start (snap ++ later) req log r ∧
      log.map writesetOf = (snap ++ later).map writesetOf ++
        (s.commit ((snap ++ later).map writesetOf)).2 ∧
      Serves start snap req (next (s.commit ((snap ++ later).map writesetOf)).1) s.close (.decided r)

/-- A call of a handler leaves its request where it was, or lets it take effect. -/
inductive Moves (log : List KeyWrite) : ServerPhase → List KeyWrite → ServerPhase → Prop
  | stay : Moves log p log p
  | decide (h : Responds start log req log' r) : Moves log (.waiting start req) log' (.decided r)

section
variable {start snap : List KeyWrite} {req : HttpRequest} (detail : PersistenceError → String)

theorem Serves.commit_write {w : KeyWrite} {body : Json} (hs : start <+: snap)
    (hw : req.write = true) (hkey : w.1 = req.key)
    (hok : ∀ later, (∀ v ∈ later, v.1 ≠ w.1) →
      Responds start (snap ++ later) req (snap ++ later ++ [w]) (.ok body)) :
    Serves start snap req
      (.commit fun r => .orReturn detail r fun _ => .reply (.ok body))
      (.holding snap.length w) (.waiting start req) := by
  refine ⟨rfl, fun later => ?_⟩
  rw [commit_holding]
  by_cases h : ∃ v ∈ later, v.1 = w.1
  · rw [if_pos h]
    obtain ⟨v, hv, hvw⟩ := h
    refine ⟨snap ++ later, .error conflictResponse, .conflict hw ⟨v, ?_, hvw.trans hkey⟩, ?_, rfl⟩
    · rw [List.drop_append_of_le_length hs.length_le]
      exact List.mem_append_right _ hv
    · exact (List.append_nil _).symm
  · rw [if_neg h]
    push Not at h
    refine ⟨snap ++ later ++ [w], .ok body, hok later h, ?_, rfl⟩
    simp

theorem decoded (value : Option String) : (value.map textBytes).map fromUtf8Lossy = value := by
  cases value with
  | none => rfl
  | some v => exact congrArg some (fromUtf8Lossy_textBytes v)

theorem get_fresh (write : Bool) (key : String) :
    (Session.fresh write snap.length).get (viewOf snap) (textBytes key) =
      (.fresh write snap.length, .ok ((valueOf snap key).map textBytes)) := by
  cases write <;> simp [Session.get, Session.fresh, Session.own, Session.track, viewOf, lookup_log]

theorem Serves.get (key : String) :
    Serves start snap (.get key) (getHandler detail key) (.fresh false snap.length)
      (.decided (.ok (.get key (valueOf snap key)))) := by
  rw [getHandler, Serves, get_fresh]
  change Phase.decided _ = Phase.decided _
  rw [decoded]

theorem Serves.exists (key : String) :
    Serves start snap (.exists key) (existsHandler detail key) (.fresh false snap.length)
      (.decided (.ok (.exists key (valueOf snap key).isSome))) := by
  have hex : (Session.fresh false snap.length).exists (viewOf snap) (textBytes key) =
      (.fresh false snap.length, .ok (valueOf snap key).isSome) := by
    simp [Session.exists, Session.fresh, Session.own, Session.track, viewOf, lookup_log]
  rw [existsHandler, Serves, hex]
  rfl

theorem Serves.taken (key value : String) (h : (valueOf snap key).isSome = true) :
    Serves start snap (.insert key value) (insertHandler detail key value) (.fresh true snap.length)
      (.decided (.error existsResponse)) := by
  have hput : (Session.fresh true snap.length).put (viewOf snap) (textBytes key) (textBytes value) =
      (.fresh true snap.length, .error .keyAlreadyExists) := by
    simp [Session.put, Session.fresh, viewOf, lookup_log, h]
  rw [insertHandler, Serves, hput]
  rfl

theorem Serves.insert (key value : String) (hs : start <+: snap) (h : valueOf snap key = none) :
    Serves start snap (.insert key value) (insertHandler detail key value) (.fresh true snap.length)
      (.waiting start (.insert key value)) := by
  have hput : (Session.fresh true snap.length).put (viewOf snap) (textBytes key) (textBytes value) =
      (.holding snap.length (key, some value), .ok ()) := by
    simp [Session.put, Session.fresh, Session.holding, writesetOf, viewOf, lookup_log, h]
  rw [insertHandler, Serves, hput]
  apply Serves.commit_write detail hs rfl rfl
  intro later hl
  apply Responds.insert
  rw [valueOf_append_of_untouched hl]
  exact h

theorem Serves.update (key value : String) (hs : start <+: snap) :
    Serves start snap (.update key value) (updateHandler detail key value) (.fresh true snap.length)
      (.waiting start (.update key value)) := by
  have hset : (Session.fresh true snap.length).store (textBytes key) (some (textBytes value)) =
      (.holding snap.length (key, some value), .ok ()) := rfl
  rw [updateHandler, Serves, hset]
  exact Serves.commit_write detail hs rfl rfl fun later _ => .update

theorem Serves.delete (key : String) (hs : start <+: snap) :
    Serves start snap (.delete key) (deleteHandler detail key) (.fresh true snap.length)
      (.waiting start (.delete key)) := by
  have hdel : (Session.fresh true snap.length).store (textBytes key) none =
      (.holding snap.length (key, none), .ok ()) := rfl
  rw [deleteHandler, Serves, get_fresh]
  simp only [Script.orReturn, decoded]
  rw [Serves, hdel]
  apply Serves.commit_write (w := (key, none)) detail hs rfl rfl
  intro later hl
  rw [← valueOf_append_of_untouched hl]
  exact .delete

theorem Serves.handler (req : HttpRequest) (hs : start <+: snap) :
    ∃ p, Moves snap (.waiting start req) snap p ∧
      Serves start snap req (req.handler detail) (.fresh req.write snap.length) p := by
  cases req with
  | get key => exact ⟨_, .decide .get, Serves.get detail key⟩
  | «exists» key => exact ⟨_, .decide .exists, Serves.exists detail key⟩
  | insert key value =>
    cases h : valueOf snap key with
    | none => exact ⟨_, .stay, Serves.insert detail key value hs h⟩
    | some v =>
      have h : (valueOf snap key).isSome = true := by simp [h]
      exact ⟨_, .decide (.taken h), Serves.taken detail key value h⟩
  | update key value => exact ⟨_, .stay, Serves.update detail key value hs⟩
  | delete key => exact ⟨_, .stay, Serves.delete detail key hs⟩

end

section
variable {start snap : List KeyWrite} {req : HttpRequest} {s : Session} {p : ServerPhase}

theorem Session.store_snapshot (s : Session) (key : Bytes) (value : Option Bytes) :
    (s.store key value).1.snapshot = s.snapshot := by
  unfold Session.store
  split
  · rfl
  · split <;> rfl

theorem Session.track_snapshot (s : Session) (key : Bytes) : (s.track key).snapshot = s.snapshot := by
  unfold Session.track
  split <;> rfl

theorem Session.get_snapshot (s : Session) (view : Bytes → Option Bytes) (key : Bytes) :
    (s.get view key).1.snapshot = s.snapshot := by
  unfold Session.get
  split
  · rfl
  · split
    · rfl
    · exact s.track_snapshot key

theorem Session.exists_snapshot (s : Session) (view : Bytes → Option Bytes) (key : Bytes) :
    (s.exists view key).1.snapshot = s.snapshot := by
  unfold Session.exists
  split
  · rfl
  · split
    · rfl
    · exact s.track_snapshot key

theorem Session.put_snapshot (s : Session) (view : Bytes → Option Bytes) (key val : Bytes) :
    (s.put view key val).1.snapshot = s.snapshot := by
  unfold Session.put
  split
  · rfl
  · split
    · rfl
    · split <;> rfl

theorem Serves.advance {script : Script} (h : Serves start snap req script s p)
    (later : List KeyWrite) (hn : s.snapshot = snap.length) (hr : ∀ r, script ≠ .reply r) :
    ∃ s' r ws script' log p', s.step ((snap ++ later).map writesetOf) script.op = (some s', r, ws) ∧
      script.resume r = some script' ∧ s'.snapshot = snap.length ∧
      log.map writesetOf = (snap ++ later).map writesetOf ++ ws ∧
      Moves (snap ++ later) p log p' ∧ Serves start snap req script' s' p' := by
  have htake : ((snap ++ later).map writesetOf).take s.snapshot = snap.map writesetOf := by
    rw [hn, List.map_append, List.take_left' (List.length_map _)]
  cases script with
  | reply r => exact absurd rfl (hr r)
  | get key next =>
    refine ⟨(s.get (viewOf snap) key).1, .value (s.get (viewOf snap) key).2, [], _, snap ++ later, p,
      ?_, rfl, ?_, (List.append_nil _).symm, .stay, h⟩
    · rw [Script.op, Session.step, htake]
      rfl
    · rw [Session.get_snapshot, hn]
  | «exists» key next =>
    refine ⟨(s.exists (viewOf snap) key).1, .found (s.exists (viewOf snap) key).2, [], _,
      snap ++ later, p, ?_, rfl, ?_, (List.append_nil _).symm, .stay, h⟩
    · rw [Script.op, Session.step, htake]
      rfl
    · rw [Session.exists_snapshot, hn]
  | put key val next =>
    refine ⟨(s.put (viewOf snap) key val).1, .done (s.put (viewOf snap) key val).2, [], _,
      snap ++ later, p, ?_, rfl, ?_, (List.append_nil _).symm, .stay, h⟩
    · rw [Script.op, Session.step, htake]
      rfl
    · rw [Session.put_snapshot, hn]
  | set key val next =>
    refine ⟨(s.store key (some val)).1, .done (s.store key (some val)).2, [], _, snap ++ later, p,
      rfl, rfl, ?_, (List.append_nil _).symm, .stay, h⟩
    rw [Session.store_snapshot, hn]
  | del key next =>
    refine ⟨(s.store key none).1, .done (s.store key none).2, [], _, snap ++ later, p, rfl, rfl, ?_,
      (List.append_nil _).symm, .stay, h⟩
    rw [Session.store_snapshot, hn]
  | commit next =>
    obtain ⟨rfl, hc⟩ := h
    obtain ⟨log, r, hresp, hlog, hs⟩ := hc later
    exact ⟨_, _, _, _, log, _, rfl, rfl, hn, hlog, .decide hresp, hs⟩

end

def Task.handle : Task → Option Nat
  | .running h _ => some h
  | .arrived _ | .answered => none

/-- A task over the sessions of the ledger, and the phase of its request. -/
inductive Stands (sessions : List (Option Session)) (log : List KeyWrite) :
    Task → ServerPhase → Prop
  | arrived (hs : start <+: log) : Stands sessions log (.arrived req) (.waiting start req)
  | running (hh : sessions[h]?.join = some s) (hn : s.snapshot = snap.length) (hs : snap <+: log)
      (hv : Serves start snap req script s p) : Stands sessions log (.running h script) p
  | answered : Stands sessions log .answered .answered

/-- The server over a log of writes: the ledger holds the log, every task stands where its request
does, and every transaction belongs to one handler. -/
structure Tracks (s : Server) (l : Ledger) (log : List KeyWrite) (ps : List ServerPhase) : Prop where
  sim : ∃ hist, Sim s.db l hist
  committed : l.committed = log.map writesetOf
  length : s.tasks.length = ps.length
  tasks : ∀ (i : Nat) t p, s.tasks[i]? = some t → ps[i]? = some p → Stands l.sessions log t p
  apart : ∀ (i j : Nat) h, look s.tasks Task.handle i = some h →
    look s.tasks Task.handle j = some h → i = j
  owned : ∀ (h : Nat) x, l.sessions[h]?.join = some x → ∃ i, look s.tasks Task.handle i = some h

theorem Tracks.new (start threshold : Nat) : Tracks (.new start threshold) .new [] [] where
  sim := ⟨[], Sim.new start threshold⟩
  committed := rfl
  length := rfl
  tasks := by simp [Server.new]
  apart := by simp [Server.new]
  owned := by simp [Ledger.new]

section
variable {s : Server} {l l' : Ledger} {log log' : List KeyWrite} {ps : List ServerPhase}
  {t t' : Task} {p p' : ServerPhase} {i : Nat} {db : Database}

theorem Stands.mono (h : Stands l.sessions log t p)
    (hk : ∀ j s, t.handle = some j → l.sessions[j]?.join = some s → l'.sessions[j]?.join = some s)
    (hl : log <+: log') : Stands l'.sessions log' t p := by
  cases h with
  | arrived hs => exact .arrived (hs.trans hl)
  | running hh hn hs hv => exact .running (hk _ _ rfl hh) hn (hs.trans hl) hv
  | answered => exact .answered

theorem Tracks.phase (h : Tracks s l log ps) (hi : s.tasks[i]? = some t) :
    ∃ p, ps[i]? = some p := by
  obtain ⟨hlt, -⟩ := List.getElem?_eq_some_iff.1 hi
  exact ⟨_, List.getElem?_eq_getElem (h.length ▸ hlt)⟩

theorem Tracks.live (h : Tracks s l log ps) (hj : look s.tasks Task.handle j = some k) :
    ∃ x, l.sessions[k]?.join = some x := by
  obtain ⟨t, ht, hk⟩ := look_eq_some.1 hj
  obtain ⟨p, hp⟩ := h.phase ht
  cases h.tasks j t p ht hp with
  | running hh => exact ⟨_, by cases hk; exact hh⟩
  | arrived => cases hk
  | answered => cases hk

theorem Tracks.move (h : Tracks s l log ps) (hi : s.tasks[i]? = some t)
    (hsim : ∃ hist, Sim db l' hist) (hc : l'.committed = log'.map writesetOf) (hl : log <+: log')
    (hk : ∀ j x, t.handle ≠ some j → l.sessions[j]?.join = some x → l'.sessions[j]?.join = some x)
    (ht : Stands l'.sessions log' t' p')
    (hf : ∀ j, t'.handle = some j → t.handle = some j ∨ l.sessions[j]?.join = none)
    (ho : ∀ (j : Nat) x, l'.sessions[j]?.join = some x → t'.handle = some j ∨
      t.handle ≠ some j ∧ ∃ y, l.sessions[j]?.join = some y) :
    Tracks ⟨db, s.tasks.set i t'⟩ l' log' (ps.set i p') where
  sim := hsim
  committed := hc
  length := by simpa using h.length
  tasks := by
    intro j u q hu hq
    rcases getElem?_set_cases hu with ⟨rfl, rfl⟩ | ⟨hij, hu⟩
    · rcases getElem?_set_cases hq with ⟨-, rfl⟩ | ⟨hne, -⟩
      · exact ht
      · exact absurd rfl hne
    · rcases getElem?_set_cases hq with ⟨he, -⟩ | ⟨-, hq⟩
      · exact absurd he hij
      · refine (h.tasks j u q hu hq).mono (fun k x hkj hx => hk k x ?_ hx) hl
        intro hik
        exact hij (h.apart i j k (by rw [look_of_getElem? hi, hik]) (by rw [look_of_getElem? hu, hkj]))
  apart := by
    have hown : ∀ j k, i ≠ j → look s.tasks Task.handle j = some k → t'.handle ≠ some k := by
      intro j k hij hj hk'
      rcases hf k hk' with hik | hn
      · exact hij (h.apart i j k (by rw [look_of_getElem? hi, hik]) hj)
      · obtain ⟨x, hx⟩ := h.live hj
        rw [hn] at hx
        cases hx
    intro j k m hj hk'
    simp only [look_set hi] at hj hk'
    split at hj
    · rename_i hij
      split at hk'
      · rename_i hik
        exact hij.symm.trans hik
      · rename_i hik
        exact absurd hj (hown k m hik hk')
    · rename_i hij
      split at hk'
      · exact absurd hk' (hown j m hij hj)
      · exact h.apart j k m hj hk'
  owned := by
    intro j x hx
    rcases ho j x hx with hj | ⟨hj, y, hy⟩
    · exact ⟨i, by rw [look_set hi, if_pos rfl, hj]⟩
    · obtain ⟨k, hk⟩ := h.owned j y hy
      have hik : i ≠ k := by
        rintro rfl
        rw [look_of_getElem? hi] at hk
        exact hj hk
      exact ⟨k, by rw [look_set hi, if_neg hik, hk]⟩

theorem Moves.atomic (h : Moves log p log' p') (hp : ps[i]? = some p) :
    ∃ es, es.filter Event.visible = [] ∧ Atomic Responds log ps es log' (ps.set i p') := by
  cases h with
  | stay =>
    obtain ⟨hlt, rfl⟩ := List.getElem?_eq_some_iff.1 hp
    rw [List.set_getElem_self]
    exact ⟨[], rfl, .nil⟩
  | decide hr => exact ⟨[.effect i], rfl, .effect hp hr .nil⟩

theorem Moves.grows (h : Moves log p log' p') : log <+: log' := by
  cases h with
  | stay => exact List.prefix_rfl
  | decide hr =>
    cases hr with
    | insert | update | delete => exact List.prefix_append _ _
    | get | «exists» | taken | conflict => exact List.prefix_rfl

theorem Tracks.receive (h : Tracks s l log ps) (req : HttpRequest) :
    Tracks { s with tasks := s.tasks ++ [.arrived req] } l log (ps ++ [.waiting log req]) where
  sim := h.sim
  committed := h.committed
  length := by simp [h.length]
  tasks := by
    intro j t p ht hp
    rcases getElem?_concat_cases ht with ht | ⟨rfl, rfl⟩
    · rcases getElem?_concat_cases hp with hp | ⟨hj, -⟩
      · exact h.tasks j t p ht hp
      · obtain ⟨hlt, -⟩ := List.getElem?_eq_some_iff.1 ht
        exact absurd hlt (by rw [hj, h.length]; exact Nat.lt_irrefl _)
    · rw [h.length, List.getElem?_concat_length] at hp
      cases hp
      exact .arrived List.prefix_rfl
  apart := by
    intro j k m hj hk
    rw [look_concat rfl] at hj hk
    exact h.apart j k m hj hk
  owned := by
    intro j x hx
    obtain ⟨k, hk⟩ := h.owned j x hx
    exact ⟨k, by rw [look_concat rfl, hk]⟩

theorem Tracks.begin (h : Tracks s l log ps) (detail : PersistenceError → String)
    (hi : s.tasks[i]? = some (.arrived req)) (hp : ps[i]? = some p) (now : Nat) :
    ∃ db l' p', s.db.step (.transaction req.write, now) = some (db, .handle l.sessions.length) ∧
      Moves log p log p' ∧
      Tracks ⟨db, s.tasks.set i (.running l.sessions.length (req.handler detail))⟩ l' log
        (ps.set i p') := by
  obtain ⟨hist, hsim⟩ := h.sim
  obtain ⟨db, hist', hstep, hsim'⟩ := hsim.step (.transaction req.write) now
  have hst := h.tasks i _ p hi hp
  cases hst with
  | @arrived start _ hs =>
    obtain ⟨p', hm, hv⟩ := Serves.handler detail req hs
    refine ⟨db, (l.step (.transaction req.write)).1, p', hstep, hm, ?_⟩
    have hlen : l.committed.length = log.length := by rw [h.committed, List.length_map]
    refine h.move hi ⟨hist', hsim'⟩ h.committed List.prefix_rfl ?_
      (.running ?_ ?_ List.prefix_rfl hv) ?_ ?_
    · intro j x _ hx
      obtain ⟨hj, -⟩ := getElem_of_join hx
      simpa [Ledger.step, List.getElem?_append_left hj] using hx
    · simp [Ledger.step, hlen]
    · rfl
    · intro j hj
      cases hj
      exact .inr (by simp)
    · intro j x hx
      rw [Option.join_eq_some_iff] at hx
      rcases getElem?_concat_cases hx with hx | ⟨rfl, -⟩
      · exact .inr ⟨by simp [Task.handle], x, Option.join_eq_some_iff.2 hx⟩
      · exact .inl rfl

theorem Ledger.step_on {x : Session} (l : Ledger) (hx : l.sessions[j]?.join = some x) (op : Op) :
    l.step (.on j op) = (⟨l.committed ++ (x.step l.committed op).2.2,
      l.sessions.set j (x.step l.committed op).1⟩, (x.step l.committed op).2.1) := by
  simp only [Ledger.step, hx]

theorem Tracks.proceed {script : Script} (h : Tracks s l log ps)
    (hi : s.tasks[i]? = some (.running j script)) (hp : ps[i]? = some p)
    (hr : ∀ r, script ≠ .reply r) (now : Nat) :
    ∃ db r l' log' script' p', s.db.step (.on j script.op, now) = some (db, r) ∧
      script.resume r = some script' ∧ Moves log p log' p' ∧
      Tracks ⟨db, s.tasks.set i (.running j script')⟩ l' log' (ps.set i p') := by
  obtain ⟨hist, hsim⟩ := h.sim
  obtain ⟨db, hist', hstep, hsim'⟩ := hsim.step (.on j script.op) now
  have hst := h.tasks i _ p hi hp
  cases hst with
  | @running _ x snap _ req _ _ hh hn hs hv =>
    obtain ⟨later, rfl⟩ := hs
    obtain ⟨x', r, ws, script', log', p', hx, hres, hn', hlog, hm, hv'⟩ :=
      hv.advance later hn hr
    rw [← h.committed] at hx hlog
    have hl : l.step (.on j script.op) = (⟨l.committed ++ ws, l.sessions.set j (some x')⟩, r) := by
      rw [Ledger.step_on l hh, hx]
    rw [hl] at hstep hsim'
    refine ⟨db, r, ⟨l.committed ++ ws, l.sessions.set j (some x')⟩, log', script', p', hstep, hres,
      hm, ?_⟩
    have hj : (l.sessions.set j (some x'))[j]?.join = some x' := by
      obtain ⟨hlt, -⟩ := getElem_of_join hh
      simp [hlt]
    refine h.move hi ⟨hist', hsim'⟩ hlog.symm hm.grows ?_
      (.running hj hn' ((List.prefix_append _ _).trans hm.grows) hv') (fun k hk => .inl hk) ?_
    · intro k y hjk hy
      have hne : j ≠ k := fun he => hjk (congrArg some he)
      simpa [List.getElem?_set_ne hne] using hy
    · intro k y hy
      by_cases hjk : j = k
      · exact .inl (congrArg some hjk)
      · refine .inr ⟨fun he => hjk (Option.some.inj he), y, ?_⟩
        simpa [List.getElem?_set_ne hjk] using hy

theorem Tracks.finish (h : Tracks s l log ps) (hi : s.tasks[i]? = some (.running j (.reply r)))
    (hp : ps[i]? = some p) (now : Nat) :
    ∃ db res l', s.db.step (.on j .drop, now) = some (db, res) ∧ p = .decided r ∧
      Tracks ⟨db, s.tasks.set i .answered⟩ l' log (ps.set i .answered) := by
  obtain ⟨hist, hsim⟩ := h.sim
  obtain ⟨db, hist', hstep, hsim'⟩ := hsim.step (.on j .drop) now
  have hst := h.tasks i _ p hi hp
  cases hst with
  | running hh hn hs hv =>
    refine ⟨db, _, (l.step (.on j .drop)).1, hstep, hv, ?_⟩
    have hl : l.step (.on j .drop) = (⟨l.committed ++ [], l.sessions.set j none⟩, .unit) :=
      Ledger.step_on l hh .drop
    refine h.move hi ⟨hist', hsim'⟩ ?_ List.prefix_rfl ?_ .answered (by simp [Task.handle]) ?_
    · simpa [hl] using h.committed
    · intro k y hjk hy
      have hne : j ≠ k := fun he => hjk (congrArg some he)
      simpa [hl, List.getElem?_set_ne hne] using hy
    · intro k y hy
      rw [hl] at hy
      by_cases hjk : j = k
      · subst hjk
        obtain ⟨hlt, -⟩ := getElem_of_join hh
        simp [hlt] at hy
      · refine .inr ⟨fun he => hjk (Option.some.inj he), y, ?_⟩
        simpa [List.getElem?_set_ne hjk] using hy

/-- The calls of the background workers change neither the log nor any session. -/
theorem Tracks.background (h : Tracks s l log ps) (call : Call) (now : Nat)
    (hl : l.step call = (l, .unit)) :
    ∃ db, s.db.step (call, now) = some (db, .unit) ∧ Tracks { s with db := db } l log ps := by
  obtain ⟨hist, hsim⟩ := h.sim
  obtain ⟨db, hist', hstep, hsim'⟩ := hsim.step call now
  rw [hl] at hstep hsim'
  exact ⟨db, hstep, { h with sim := ⟨hist', hsim'⟩ }⟩

end

/-- Each step of the server is what the atomic object can do. -/
theorem Server.simulates (detail : PersistenceError → String) :
    Simulates Responds (Server.step detail) fun s log ps => ∃ l, Tracks s l log ps := by
  rintro s a s' shown log ps ⟨l, h⟩ hstep
  cases a with
  | receive req =>
    cases hstep
    exact ⟨[.invoke req], log, _, rfl, .invoke .nil, l, h.receive req⟩
  | runGc now =>
    obtain ⟨db, hdb, ht⟩ := h.background .runGc now rfl
    simp only [Server.step, hdb] at hstep
    cases hstep
    exact ⟨[], log, ps, rfl, .nil, l, ht⟩
  | runCleanup =>
    obtain ⟨db, hdb, ht⟩ := h.background .runCleanup 0 rfl
    simp only [Server.step, hdb] at hstep
    cases hstep
    exact ⟨[], log, ps, rfl, .nil, l, ht⟩
  | run i now =>
    simp only [Server.step, Server.run] at hstep
    split at hstep
    · rename_i req hi
      obtain ⟨p, hp⟩ := h.phase hi
      obtain ⟨db, l', p', hdb, hm, ht⟩ := h.begin detail hi hp now
      rw [hdb] at hstep
      cases hstep
      obtain ⟨es, hes, ha⟩ := hm.atomic hp
      exact ⟨es, log, _, hes, ha, l', ht⟩
    · rename_i j script hi
      obtain ⟨p, hp⟩ := h.phase hi
      cases script with
      | reply r =>
        obtain ⟨db, res, l', hdb, rfl, ht⟩ := h.finish hi hp now
        rw [Script.op, hdb] at hstep
        cases hstep
        exact ⟨[.answer i r], log, _, rfl, .answer hp .nil, l', ht⟩
      | _ =>
        obtain ⟨db, r, l', log', script', p', hdb, hres, hm, ht⟩ :=
          h.proceed hi hp (by simp) now
        rw [hdb] at hstep
        simp only [Option.bind_eq_bind, Option.bind_some, hres] at hstep
        cases hstep
        obtain ⟨es, hes, ha⟩ := hm.atomic hp
        exact ⟨es, log', _, hes, ha, l', ht⟩
    · cases hstep

/-- A read that began before a write of its key and is answered after it. -/
def overtakenRead : List ServerAction :=
  [.receive (.get "k"), .receive (.insert "k" "v"), .run 0 5, .run 1 5, .run 1 5, .run 1 6, .run 1 7,
    .runGc 7, .run 0 8, .run 0 8]

end StupidKv
