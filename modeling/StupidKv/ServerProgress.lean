import StupidKv.Linearizability

namespace StupidKv
open Std Linearization Processes
set_option autoImplicit true

/-- At most `n` calls are left, whatever they are answered; dropping the transaction is one. -/
def Script.Within : Script → Nat → Prop
  | _, 0 => False
  | .reply _, _ + 1 => True
  | .get _ next, n + 1 => ∀ r, (next r).Within n
  | .exists _ next, n + 1 => ∀ r, (next r).Within n
  | .put _ _ next, n + 1 => ∀ r, (next r).Within n
  | .set _ _ next, n + 1 => ∀ r, (next r).Within n
  | .del _ next, n + 1 => ∀ r, (next r).Within n
  | .commit next, n + 1 => ∀ r, (next r).Within n

theorem Script.Within.pos {script : Script} (h : script.Within n) : 0 < n := by
  cases n with
  | zero => cases script <;> exact absurd h (by simp [Script.Within])
  | succ n => exact Nat.succ_pos n

theorem Script.Within.orReturn {next : α → Script} (detail : PersistenceError → String)
    (r : Except Error α) (h : ∀ a, (next a).Within (n + 1)) :
    (Script.orReturn detail r next).Within (n + 1) := by
  cases r with
  | ok a => exact h a
  | error e => trivial

theorem Script.Within.resume {script script' : Script} (h : script.Within n)
    (hr : script.resume r = some script') : script'.Within (n - 1) := by
  cases n with
  | zero => exact absurd h.pos (Nat.lt_irrefl 0)
  | succ n =>
    unfold Script.resume at hr
    split at hr
    all_goals first | cases hr; exact h _ | cases hr

/-- The longest handler is that of `delete`. -/
theorem HttpRequest.handler_within (detail : PersistenceError → String) (req : HttpRequest) :
    (req.handler detail).Within 4 := by
  cases req with
  | get key => exact fun r => .orReturn detail r fun _ => trivial
  | «exists» key => exact fun r => .orReturn detail r fun _ => trivial
  | insert key value =>
    exact fun r => .orReturn detail r fun _ r => .orReturn detail r fun _ => trivial
  | update key value =>
    exact fun r => .orReturn detail r fun _ r => .orReturn detail r fun _ => trivial
  | delete key =>
    exact fun r => .orReturn detail r fun _ r => .orReturn detail r fun _ r =>
      .orReturn detail r fun _ => trivial

def Task.isAnswered : Task → Bool
  | .answered => true
  | .arrived _ | .running _ _ => false

def Task.Within : Task → Nat → Prop
  | .arrived _, n => n = 5
  | .running _ script, n => script.Within n
  | .answered, _ => True

/-- What one call does to the task that makes it. -/
inductive Task.Advances (detail : PersistenceError → String) (i : Nat) :
    Task → Task → List (Event HttpRequest ApiResult) → Prop
  | begin : Advances detail i (.arrived req) (.running h (req.handler detail)) []
  | call (hr : script.resume r = some script') :
      Advances detail i (.running h script) (.running h script') []
  | reply : Advances detail i (.running h (.reply r)) .answered [.answer i r]

/-- What a step does to the tasks. -/
inductive Server.Steps (detail : PersistenceError → String) (tasks : List Task) :
    ServerAction → List Task → List (Event HttpRequest ApiResult) → Prop
  | receive : Steps detail tasks (.receive req) (tasks ++ [.arrived req]) [.invoke req]
  | run (hi : tasks[i]? = some t) (ht : t.Advances detail i t' shown) :
      Steps detail tasks (.run i now) (tasks.set i t') shown
  | background (h : ∀ i now, a ≠ .run i now) : Steps detail tasks a tasks []

section
variable {detail : PersistenceError → String} {s s' : Server} {t t' : Task}
  {shown : List (Event HttpRequest ApiResult)} {i : Nat}

theorem Server.run_cases (h : s.run detail i now = some (s', shown)) :
    ∃ t t', s.tasks[i]? = some t ∧ s'.tasks = s.tasks.set i t' ∧ t.Advances detail i t' shown := by
  unfold Server.run at h
  split at h
  · rename_i req hi
    obtain ⟨⟨db, r⟩, -, h⟩ := Option.bind_eq_some_iff.1 h
    dsimp only at h
    split at h
    · cases h
      exact ⟨_, _, hi, rfl, .begin⟩
    · cases h
  · rename_i j script hi
    obtain ⟨⟨db, r⟩, -, h⟩ := Option.bind_eq_some_iff.1 h
    dsimp only at h
    split at h
    · cases h
      exact ⟨_, _, hi, rfl, .reply⟩
    · obtain ⟨script', hr, h⟩ := Option.bind_eq_some_iff.1 h
      cases h
      exact ⟨_, _, hi, rfl, .call hr⟩
  · cases h

theorem Server.steps (h : s.step detail a = some (s', shown)) :
    Server.Steps detail s.tasks a s'.tasks shown := by
  cases a with
  | receive req =>
    cases h
    exact .receive
  | run i now =>
    obtain ⟨t, t', hi, hs, ht⟩ := Server.run_cases h
    rw [hs]
    exact .run hi ht
  | runGc now =>
    rw [Server.step, Option.map_eq_some_iff] at h
    obtain ⟨p, -, h⟩ := h
    cases h
    exact .background (by simp)
  | runCleanup =>
    rw [Server.step, Option.map_eq_some_iff] at h
    obtain ⟨p, -, h⟩ := h
    cases h
    exact .background (by simp)

theorem Task.Advances.within (h : t.Advances detail i t' shown) (hn : t.Within n) :
    0 < n ∧ t'.Within (n - 1) := by
  cases h with
  | @begin req h =>
    cases hn
    exact ⟨by decide, req.handler_within detail⟩
  | call hr => exact ⟨Script.Within.pos hn, Script.Within.resume hn hr⟩
  | reply => exact ⟨Script.Within.pos hn, trivial⟩

end

/-- Request `i` has at most `n` calls to make; it may not have arrived yet. -/
def Left (tasks : List Task) (i n : Nat) : Prop :=
  match tasks[i]? with
  | some t => t.Within n
  | none => n = 5

def ServerAction.runs (i : Nat) : ServerAction → Bool
  | .run j _ => j == i
  | .receive _ | .runGc _ | .runCleanup => false

def isAnswer (i : Nat) : Event HttpRequest ApiResult → Bool
  | .answer j _ => j == i
  | .invoke _ | .effect _ => false

def isAnswered (tasks : List Task) (i : Nat) : Bool := tasks[i]?.any Task.isAnswered

section
variable {detail : PersistenceError → String} {tasks tasks' : List Task} {i n : Nat}
  {shown : List (Event HttpRequest ApiResult)} {a : ServerAction}

theorem getElem?_received (tasks : List Task) (req : HttpRequest) (i : Nat) :
    (tasks ++ [.arrived req])[i]? =
      if i = tasks.length then some (.arrived req) else tasks[i]? := by
  rcases Nat.lt_trichotomy i tasks.length with hi | rfl | hi
  · rw [List.getElem?_append_left hi, if_neg hi.ne]
  · rw [List.getElem?_concat_length, if_pos rfl]
  · rw [List.getElem?_eq_none hi.le, List.getElem?_eq_none (by simpa using hi), if_neg hi.ne']

/-- A call of request `i` uses up one of those it has left; no other step does. -/
theorem Server.Steps.left (h : Server.Steps detail tasks a tasks' shown) (hn : Left tasks i n) :
    (a.runs i).toNat ≤ n ∧ Left tasks' i (n - (a.runs i).toNat) := by
  cases h with
  | receive =>
    refine ⟨Nat.zero_le _, ?_⟩
    unfold Left at hn ⊢
    rw [getElem?_received]
    split at hn
    · rename_i t ht
      obtain ⟨hlt, -⟩ := List.getElem?_eq_some_iff.1 ht
      rw [if_neg hlt.ne, ht]
      exact hn
    · rename_i ht
      split
      · rename_i he
        split at he
        · cases he
          exact hn
        · rw [ht] at he
          cases he
      · exact hn
  | @run j t t' _ now hj ht =>
    unfold Left at hn ⊢
    by_cases hij : j = i
    · subst hij
      rw [hj] at hn
      have hr : ∀ now, (ServerAction.run j now).runs j = true := fun _ => beq_self_eq_true j
      rw [getElem?_set_at hj, hr]
      exact ht.within hn
    · have hr : ∀ now, (ServerAction.run j now).runs i = false := fun _ => beq_false_of_ne hij
      rw [List.getElem?_set_ne hij, hr]
      exact ⟨Nat.zero_le _, hn⟩
  | background hb =>
    have hr : a.runs i = false := by
      cases a with
      | run j now => exact absurd rfl (hb j now)
      | _ => rfl
    rw [hr]
    exact ⟨Nat.zero_le _, hn⟩

theorem Task.Advances.answers {t t' : Task} (h : t.Advances detail i t' shown) (j : Nat) :
    t.isAnswered = false ∧
      shown.countP (isAnswer j) = if i = j then t'.isAnswered.toNat else 0 := by
  cases h with
  | begin => simp [Task.isAnswered]
  | call => simp [Task.isAnswered]
  | reply => simp [Task.isAnswered, isAnswer, List.countP_cons]

theorem Server.Steps.answers (h : Server.Steps detail tasks a tasks' shown) (i : Nat) :
    (isAnswered tasks' i).toNat = (isAnswered tasks i).toNat + shown.countP (isAnswer i) := by
  cases h with
  | receive =>
    unfold isAnswered
    rw [getElem?_received]
    split
    · rename_i hi
      simp [hi, Task.isAnswered, isAnswer]
    · simp [isAnswer]
  | @run j t t' _ now hj ht =>
    obtain ⟨hopen, hcount⟩ := ht.answers i
    unfold isAnswered
    by_cases hij : j = i
    · subst hij
      rw [getElem?_set_at hj, hj, hcount]
      simp [hopen]
    · rw [List.getElem?_set_ne hij, hcount, if_neg hij]
      rfl
  | background hb => simp

theorem Server.run_left {s s' : Server} {actions : List ServerAction}
    {shown : List (List (Event HttpRequest ApiResult))}
    (h : Execution.collect (Server.step detail) s actions = some (s', shown))
    (hn : Left s.tasks i n) :
    actions.countP (·.runs i) ≤ n ∧ Left s'.tasks i (n - actions.countP (·.runs i)) ∧
      (isAnswered s'.tasks i).toNat =
        (isAnswered s.tasks i).toNat + shown.flatten.countP (isAnswer i) := by
  induction actions generalizing s n shown with
  | nil =>
    cases h
    exact ⟨Nat.zero_le _, hn, rfl⟩
  | cons a actions ih =>
    obtain ⟨⟨s₁, first⟩, hstep, h⟩ := Option.bind_eq_some_iff.1 h
    obtain ⟨⟨s₂, rest⟩, hrest, he⟩ := Option.bind_eq_some_iff.1 h
    cases he
    have hs := Server.steps hstep
    obtain ⟨hle, hn₁⟩ := hs.left hn
    obtain ⟨hcount, hleft, hans⟩ := ih hrest hn₁
    have hc : (a :: actions).countP (·.runs i) =
        actions.countP (·.runs i) + (a.runs i).toNat := by
      rw [List.countP_cons]
      cases a.runs i <;> rfl
    refine ⟨by omega, ?_, ?_⟩
    · rw [hc, Nat.add_comm, ← Nat.sub_sub]
      exact hleft
    · rw [hans, hs.answers i, List.flatten_cons, List.countP_append, Nat.add_assoc]

end

theorem Tracks.unblocked {s : Server} {t : Task} {i : Nat} (h : Tracks s l log ps)
    (detail : PersistenceError → String) (hi : s.tasks[i]? = some t) (ht : t.isAnswered = false)
    (now : Nat) : (s.run detail i now).isSome = true := by
  obtain ⟨p, hp⟩ := h.phase hi
  unfold Server.run
  rw [hi]
  cases t with
  | answered => cases ht
  | arrived req =>
    obtain ⟨db, l', p', hdb, -, -⟩ := h.begin detail hi hp now
    simp [hdb]
  | running j script =>
    cases script with
    | reply r =>
      obtain ⟨db, res, l', hdb, -, -⟩ := h.finish hi hp now
      simp [Script.op, hdb]
    | _ =>
      obtain ⟨db, r, l', log', script', p', hdb, hres, -, -⟩ := h.proceed hi hp (by simp) now
      simp [hdb, hres]

/-- With atomic database calls no request waits for another one. Whatever the others do, the next
call of a handler goes through, its request is answered with its fifth call at the latest, and
answered once. -/
theorem Server.answers_within_five (detail : PersistenceError → String) (start threshold : Nat)
    (actions : List ServerAction) (s : Server) (shown : List (List (Event HttpRequest ApiResult)))
    (h : Execution.collect (Server.step detail) (.new start threshold) actions = some (s, shown))
    (i : Nat) :
    (∀ t, s.tasks[i]? = some t → t.isAnswered = false →
      ∀ now, (s.run detail i now).isSome = true) ∧
    actions.countP (·.runs i) ≤ 5 ∧
    (actions.countP (·.runs i) = 5 → isAnswered s.tasks i = true) ∧
    shown.flatten.countP (isAnswer i) = (isAnswered s.tasks i).toNat := by
  obtain ⟨es, log, ps, -, -, l, ht⟩ :=
    (Server.simulates detail).run ⟨.new, Tracks.new start threshold⟩ h
  obtain ⟨hle, hleft, hans⟩ := Server.run_left (i := i) (n := 5) h rfl
  refine ⟨fun t hi hopen now => ht.unblocked detail hi hopen now, hle, ?_, ?_⟩
  · intro hfive
    rw [hfive] at hleft
    unfold Left at hleft
    unfold isAnswered
    split at hleft
    · rename_i t hi
      rw [hi]
      cases t with
      | answered => rfl
      | arrived req => cases hleft
      | running j script => exact absurd (Script.Within.pos hleft) (Nat.lt_irrefl 0)
    · cases hleft
  · simpa [isAnswered, Server.new] using hans.symm

theorem Server.answers_within_five_overtaken :
    ∃ s shown, Execution.collect (Server.step fun _ => "") (.new 3 100) overtakenRead =
      some (s, shown) ∧ isAnswered s.tasks 1 = true ∧ shown.flatten.countP (isAnswer 1) = 1 := by
  have h : (Execution.collect (Server.step fun _ => "") (.new 3 100) overtakenRead).map
      (fun p => isAnswered p.1.tasks 1) = some true := by
    decide +kernel
  obtain ⟨⟨s, shown⟩, hrun, hans⟩ := Option.map_eq_some_iff.1 h
  obtain ⟨-, -, -, hcount⟩ :=
    Server.answers_within_five (fun _ => "") 3 100 overtakenRead s shown hrun 1
  exact ⟨s, shown, hrun, hans, by rw [hcount, hans]; rfl⟩

end StupidKv
