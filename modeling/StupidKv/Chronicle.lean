import StupidKv.Lib.Processes
import StupidKv.SessionReplay

namespace StupidKv
open Std
set_option autoImplicit true

/-- The points of a run that decide the serial order, with the number of commits before them.
An idle commit had nothing to write. -/
inductive Point where
  | start (i : Nat) (write : Bool) (n : Nat)
  | publish (i : Nat) (m : Nat)
  | idle (i : Nat)

namespace Point

def index : Point → Nat
  | start i _ _ => i
  | publish i _ => i
  | idle i => i

def publishes : Point → Bool
  | publish _ _ => true
  | _ => false

/-- The recorded number of earlier commits is `c`. -/
def At (c : Nat) : Point → Prop
  | start _ _ n => n = c
  | publish _ m => m = c
  | idle _ => True

def raw : Point → Nat × Bool
  | start i _ _ => (i, true)
  | publish i _ => (i, false)
  | idle i => (i, false)

end Point

/-- What a trace shows of a point: the transaction, and whether it began there. -/
def rawPoint : Call × Response → Option (Nat × Bool)
  | (.transaction _, .handle i) => some (i, true)
  | (.on i .commit, .done (.ok _)) => some (i, false)
  | _ => none

theorem Trace.place_eq (wrote : Nat → Bool) (e : Call × Response) :
    Trace.place wrote e = (rawPoint e).bind fun p =>
      if wrote p.1 = p.2 then none else some p.1 := by
  unfold Trace.place
  split
  · rfl
  · rename_i i _
    cases h : wrote i <;> simp [rawPoint, h]
  · rename_i h₁ h₂
    have hraw : rawPoint e = none := by
      unfold rawPoint
      split
      · exact absurd rfl (h₁ _ _)
      · exact absurd rfl (h₂ _ _)
      · rfl
    rw [hraw]
    rfl

theorem Trace.serialOrder_eq (t : Trace) :
    t.serialOrder = (t.filterMap rawPoint).filterMap fun p =>
      if t.wrote p.1 = p.2 then none else some p.1 := by
  rw [List.filterMap_filterMap]
  exact List.filterMap_congr fun e _ => Trace.place_eq t.wrote e

/-- The points of a run so far and the story of every transaction in it. -/
structure Chronicle (t : Trace) (l : Ledger) (points : List Point) : Prop where
  shown : t.filterMap rawPoint = points.map Point.raw
  count : points.countP Point.publishes = l.committed.length
  numbers : ∀ before p after, points = before ++ p :: after →
    p.At (before.countP Point.publishes)
  known : ∀ p ∈ points, p.index < l.sessions.length
  started : ∀ i, i < l.sessions.length → ∃ w n, .start i w n ∈ points
  stories : ∀ i w n, .start i w n ∈ points → t.writable i = w ∧
    ∃ published, (∀ m, .publish i m ∈ points → published = some m) ∧
      Story l.committed n w (t.opsOf i) l.sessions[i]?.join published
  idle : ∀ i, .idle i ∈ points → t.wrote i = false ∧
    ∀ s, l.sessions[i]?.join = some s → s.done = true
  unborn : ∀ i, l.sessions.length ≤ i → t.opsOf i = []

theorem Chronicle.new : Chronicle [] .new [] where
  shown := rfl
  count := rfl
  numbers := by simp
  known := by simp
  started := by simp [Ledger.new]
  stories := by simp
  idle := by simp
  unborn := fun _ _ => rfl

theorem Trace.opsOf_concat (t : Trace) (e : Call × Response) (i : Nat) :
    (t ++ [e]).opsOf i = t.opsOf i ++ Trace.opsOf [e] i := by
  simp [Trace.opsOf]

theorem Trace.opsOf_on (j : Nat) (op : Op) (hr : r ≠ .gone) (i : Nat) :
    Trace.opsOf [(.on j op, r)] i = if j = i then [(op, r)] else [] := by
  simp only [Trace.opsOf, List.filterMap_cons, List.filterMap_nil]
  by_cases h : j = i
  · simp [h, hr]
  · simp [h]

theorem Trace.writable_concat (t : Trace) (e : Call × Response) (i : Nat) :
    (t ++ [e]).writable i = (t.writable i || e == (.transaction true, .handle i)) := by
  simp [Trace.writable]

section
variable {t : Trace} {l : Ledger} {points : List Point} {s : Session}
  {committed : List Writeset}

/-- A call that neither begins nor commits anything, and touches no session. -/
theorem Chronicle.skip (h : Chronicle t l points) (e : Call × Response)
    (hp : rawPoint e = none) (ho : ∀ i, Trace.opsOf [e] i = [])
    (hw : ∀ i, (e == (.transaction true, .handle i)) = false) :
    Chronicle (t ++ [e]) l points := by
  have hops : ∀ i, (t ++ [e]).opsOf i = t.opsOf i := fun i => by
    rw [Trace.opsOf_concat, ho, List.append_nil]
  exact { h with
    shown := by
      rw [List.filterMap_append, h.shown]
      simp [hp]
    stories := by
      intro i w n hi
      rw [Trace.writable_concat, hw, Bool.or_false, hops]
      exact h.stories i w n hi
    idle := by
      intro i hi
      unfold Trace.wrote
      rw [hops]
      exact h.idle i hi
    unborn := fun i hi => by rw [hops, h.unborn i hi] }

theorem numbers_concat {before : List Point} (p : Point) (h : ∀ a p b, before = a ++ p :: b →
    p.At (a.countP Point.publishes)) (hp : p.At (before.countP Point.publishes))
    (a : List Point) (q : Point) (b : List Point) (he : before ++ [p] = a ++ q :: b) :
    q.At (a.countP Point.publishes) := by
  rcases Processes.concat_split_cases he with ⟨rfl, rfl, -⟩ | ⟨later, hb, -⟩
  · exact hp
  · exact h a q later hb

theorem Chronicle.transaction (h : Chronicle t l points) (write : Bool) :
    Chronicle (t ++ [(.transaction write, .handle l.sessions.length)])
      { l with sessions := l.sessions ++ [some (.fresh write l.committed.length)] }
      (points ++ [.start l.sessions.length write l.committed.length]) := by
  have hops : ∀ i, Trace.opsOf (t ++ [(.transaction write, .handle l.sessions.length)]) i =
      t.opsOf i := fun i => by
    rw [Trace.opsOf_concat]
    exact List.append_nil _
  have hjoin : ∀ i, i < l.sessions.length →
      (l.sessions ++ [some (.fresh write l.committed.length)])[i]?.join =
        l.sessions[i]?.join := fun i hi => by rw [List.getElem?_append_left hi]
  have hnew : ∀ p ∈ points, p.index ≠ l.sessions.length := fun p hp he =>
    absurd (h.known p hp) (he ▸ Nat.lt_irrefl _)
  have hunseen : t.writable l.sessions.length = false := by
    by_contra hw
    obtain ⟨e, he, heq⟩ := List.any_eq_true.1 (Bool.not_eq_false _ ▸ hw)
    have hm : (l.sessions.length, true) ∈ points.map Point.raw := by
      rw [← h.shown]
      exact List.mem_filterMap.2 ⟨e, he, by rw [eq_of_beq heq]; rfl⟩
    obtain ⟨p, hp, hpe⟩ := List.mem_map.1 hm
    cases p with
    | start i w n => exact hnew _ hp (congrArg Prod.fst hpe)
    | publish i m => cases hpe
    | idle i => cases hpe
  exact {
    shown := by
      rw [List.filterMap_append, h.shown, List.map_append]
      rfl
    count := by
      rw [List.countP_append, h.count]
      rfl
    numbers := numbers_concat (.start _ _ _) h.numbers h.count.symm
    known := by
      intro p hp
      rw [List.length_append]
      rcases List.mem_append.1 hp with hp | hp
      · exact (h.known p hp).trans (Nat.lt_succ_self _)
      · rw [List.mem_singleton.1 hp]
        exact Nat.lt_succ_self _
    started := by
      intro i hi
      rw [List.length_append] at hi
      rcases Nat.lt_or_eq_of_le (Nat.le_of_lt_succ hi) with hi | rfl
      · obtain ⟨w, n, hs⟩ := h.started i hi
        exact ⟨w, n, List.mem_append_left _ hs⟩
      · exact ⟨_, _, List.mem_append_right _ (List.mem_singleton.2 rfl)⟩
    stories := by
      intro i w n hi
      rw [hops, Trace.writable_concat]
      rcases List.mem_append.1 hi with hi | hi
      · obtain ⟨hw, published, hpub, hst⟩ := h.stories i w n hi
        have hlt := h.known _ hi
        refine ⟨?_, published, ?_, ?_⟩
        · have hne : l.sessions.length ≠ i := fun he => hnew _ hi he.symm
          simp [hw, hne]
        · intro m hm
          rcases List.mem_append.1 hm with hm | hm
          · exact hpub m hm
          · cases List.mem_singleton.1 hm
        · rw [hjoin i hlt]
          exact hst
      · cases List.mem_singleton.1 hi
        refine ⟨?_, none, ?_, ?_⟩
        · rw [hunseen]
          cases write <;> simp
        · intro m hm
          rcases List.mem_append.1 hm with hm | hm
          · exact absurd rfl (hnew _ hm)
          · cases List.mem_singleton.1 hm
        · rw [h.unborn _ le_rfl, List.getElem?_concat_length]
          exact Story.begin l.committed write
    idle := by
      intro i hi
      rcases List.mem_append.1 hi with hi | hi
      · unfold Trace.wrote
        rw [hops, hjoin i (h.known _ hi)]
        exact h.idle i hi
      · cases List.mem_singleton.1 hi
    unborn := by
      intro i hi
      rw [List.length_append] at hi
      rw [hops, h.unborn i (Nat.le_of_succ_le hi)] }

theorem Chronicle.call {extra : List Point} (h : Chronicle t l points)
    (hi : l.sessions[i]?.join = some s)
    (hraw : [(Call.on i op, (s.step l.committed op).2.1)].filterMap rawPoint =
      extra.map Point.raw)
    (hcount : extra.countP Point.publishes = (s.step l.committed op).2.2.length)
    (hnum : ∀ a p b, points ++ extra = a ++ p :: b → p.At (a.countP Point.publishes))
    (hown : ∀ p ∈ extra, p.index = i)
    (hstory : ∀ n w published,
      Story l.committed n w (t.opsOf i) (some s) published → ∃ published',
      Story (l.committed ++ (s.step l.committed op).2.2) n w
        (t.opsOf i ++ [(op, (s.step l.committed op).2.1)]) (s.step l.committed op).1 published' ∧
      (∀ m, published = some m → published' = some m) ∧
      ∀ m, .publish i m ∈ extra → published' = some m)
    (hidle : ∀ n w published, .idle i ∈ extra →
      Story l.committed n w (t.opsOf i) (some s) published →
      (t.opsOf i).any writes = false ∧ writes (op, (s.step l.committed op).2.1) = false ∧
        ∀ s', (s.step l.committed op).1 = some s' → s'.done = true) :
    Chronicle (t ++ [(.on i op, (s.step l.committed op).2.1)])
      ⟨l.committed ++ (s.step l.committed op).2.2,
        l.sessions.set i (s.step l.committed op).1⟩ (points ++ extra) := by
  obtain ⟨hlt, -⟩ := getElem_of_join hi
  have hops : ∀ j, Trace.opsOf (t ++ [(.on i op, (s.step l.committed op).2.1)]) j =
      t.opsOf j ++ if i = j then [(op, (s.step l.committed op).2.1)] else [] := fun j => by
    rw [Trace.opsOf_concat, Trace.opsOf_on i op Session.step_answers]
  have hself : (l.sessions.set i (s.step l.committed op).1)[i]?.join =
      (s.step l.committed op).1 := by
    rw [List.getElem?_set_self hlt, Option.join_some]
  have hother : ∀ j, i ≠ j →
      (l.sessions.set i (s.step l.committed op).1)[j]?.join = l.sessions[j]?.join := by
    intro j hj
    rw [List.getElem?_set_ne hj]
  have hold : ∀ {p : Point}, p ∈ points ++ extra → p.index ≠ i → p ∈ points := by
    intro p hp hne
    rcases List.mem_append.1 hp with hp | hp
    · exact hp
    · exact absurd (hown p hp) hne
  have hfirst : ∀ w n, .start i w n ∈ extra → False := by
    intro w n hs
    have hm : (i, true) ∈ extra.map Point.raw := List.mem_map.2 ⟨_, hs, rfl⟩
    rw [← hraw] at hm
    obtain ⟨e, he, hr⟩ := List.mem_filterMap.1 hm
    rw [List.mem_singleton.1 he] at hr
    unfold rawPoint at hr
    split at hr
    · rename_i heq
      cases heq
    · cases hr
    · cases hr
  exact {
    shown := by
      rw [List.filterMap_append, h.shown, List.map_append, hraw]
    count := by
      rw [List.countP_append, h.count, hcount, List.length_append]
    numbers := hnum
    known := by
      intro p hp
      rw [List.length_set]
      by_cases hpi : p.index = i
      · exact hpi ▸ hlt
      · exact h.known p (hold hp hpi)
    started := by
      intro j hj
      rw [List.length_set] at hj
      obtain ⟨w, n, hs⟩ := h.started j hj
      exact ⟨w, n, List.mem_append_left _ hs⟩
    stories := by
      intro j w n hj
      have hj : Point.start j w n ∈ points := by
        rcases List.mem_append.1 hj with hj | hj
        · exact hj
        · have hji : j = i := hown _ hj
          subst hji
          exact (hfirst w n hj).elim
      obtain ⟨hw, published, hpub, hst⟩ := h.stories j w n hj
      refine ⟨by simp [Trace.writable_concat, hw], ?_⟩
      rw [hops]
      by_cases hij : i = j
      · subst hij
        rw [hi] at hst
        obtain ⟨published', hst', hkeep, hnew⟩ := hstory n w published hst
        refine ⟨published', fun m hm => ?_, by simpa [hself] using hst'⟩
        rcases List.mem_append.1 hm with hm | hm
        · exact hkeep m (hpub m hm)
        · exact hnew m hm
      · rw [if_neg hij, List.append_nil, hother j hij]
        exact ⟨published, fun m hm => hpub m (hold hm (Ne.symm hij)), hst.grow _⟩
    idle := by
      intro j hj
      unfold Trace.wrote
      rw [hops]
      by_cases hij : i = j
      · subst hij
        rw [if_pos rfl, List.any_append, hself]
        have hex : (t.opsOf i).any writes = false ∧
            writes (op, (s.step l.committed op).2.1) = false ∧
            ∀ s', (s.step l.committed op).1 = some s' → s'.done = true := by
          rcases List.mem_append.1 hj with hj | hj
          · obtain ⟨hw, hd⟩ := h.idle i hj
            obtain ⟨hc, hcd⟩ := Session.step_closed (hd s hi) l.committed op
            exact ⟨hw, hc, hcd⟩
          · obtain ⟨w, n, hs⟩ := h.started i hlt
            obtain ⟨-, published, -, hst⟩ := h.stories i w n hs
            rw [hi] at hst
            exact hidle n w published hj hst
        obtain ⟨hw, hc, hcd⟩ := hex
        exact ⟨by simp [hw, hc], hcd⟩
      · rw [if_neg hij, List.append_nil, hother j hij]
        exact h.idle j (hold hj (Ne.symm hij))
    unborn := by
      intro j hj
      rw [List.length_set] at hj
      have hij : i ≠ j := fun he => absurd hlt (he ▸ Nat.not_lt.2 hj)
      rw [hops, if_neg hij, List.append_nil, h.unborn j hj] }

theorem rawPoint_on (h : rawPoint (.on i op, r) ≠ none) : op = .commit ∧ r = .done (.ok ()) := by
  unfold rawPoint at h
  split at h
  · rename_i heq
    cases heq
  · rename_i heq
    cases heq
    exact ⟨rfl, rfl⟩
  · exact absurd rfl h

theorem Session.commit_idle (hr : (s.step committed .commit).2.1 = .done (.ok ()))
    (hws : (s.step committed .commit).2.2 = []) :
    s.done = false ∧ s.writeset.isEmpty = true := by
  simp only [Session.step, Session.commit] at hr hws
  cases hd : s.done with
  | true => simp [hd] at hr
  | false =>
    cases he : s.writeset.isEmpty with
    | true => exact ⟨rfl, rfl⟩
    | false =>
      cases hf : (committed.drop s.snapshot).findSome? s.conflict with
      | some e => simp [hd, he, hf] at hr
      | none => simp [hd, he, hf] at hws

theorem Chronicle.on (h : Chronicle t l points) (hi : l.sessions[i]?.join = some s)
    (hp : ∀ key val, op ≠ .put key val)
    (hm : (op = .commit ∨ ∃ key, op.reads key) → s.mode = .serializableSnapshotIsolation) :
    ∃ points', Chronicle (t ++ [(.on i op, (s.step l.committed op).2.1)])
      ⟨l.committed ++ (s.step l.committed op).2.2,
        l.sessions.set i (s.step l.committed op).1⟩ points' := by
  by_cases hws : (s.step l.committed op).2.2 = []
  · have hquiet : ∀ n w published, Story l.committed n w (t.opsOf i) (some s) published →
        Story (l.committed ++ (s.step l.committed op).2.2) n w
          (t.opsOf i ++ [(op, (s.step l.committed op).2.1)]) (s.step l.committed op).1
          published := by
      intro n w published hst
      rw [hws, List.append_nil]
      exact hst.quiet hp fun key hk => hm (.inr ⟨key, hk⟩)
    by_cases hraw : rawPoint (.on i op, (s.step l.committed op).2.1) = none
    · refine ⟨points ++ [], h.call hi (by simp [hraw]) (by simp [hws]) ?_ (by simp) ?_ (by simp)⟩
      · rw [List.append_nil]
        exact h.numbers
      · intro n w published hst
        exact ⟨published, hquiet n w published hst, fun _ => id, by simp⟩
    · obtain ⟨rfl, hr⟩ := rawPoint_on hraw
      obtain ⟨hd, he⟩ := Session.commit_idle hr hws
      refine ⟨points ++ [.idle i], h.call hi (by simp [hr, rawPoint, Point.raw])
        (by simp [hws, Point.publishes]) (numbers_concat (.idle i) h.numbers trivial) ?_ ?_ ?_⟩
      · intro p hp
        rw [List.mem_singleton.1 hp]
        rfl
      · intro n w published hst
        exact ⟨published, hquiet n w published hst, fun _ => id, by simp⟩
      · intro n w published _ hst
        obtain ⟨hf, -⟩ := hst.fresh s rfl hd
        refine ⟨by rw [hf, he]; rfl, rfl, ?_⟩
        intro s' hs'
        cases hs'
        rfl
  · obtain ⟨rfl, hd, -, -, hstep⟩ := Session.step_publishes hws
    refine ⟨points ++ [.publish i l.committed.length], h.call hi ?_ ?_
      (numbers_concat (.publish i _) h.numbers h.count.symm) ?_ ?_ (by simp)⟩
    · rw [hstep]
      rfl
    · rw [hstep]
      rfl
    · intro p hp
      rw [List.mem_singleton.1 hp]
      rfl
    · intro n w published hst
      refine ⟨_, hst.publish (hm (.inl rfl)) hws, ?_, ?_⟩
      · intro m hpub
        obtain ⟨-, hn⟩ := hst.fresh s rfl hd
        rw [hn] at hpub
        cases hpub
      · intro m hpub
        cases List.mem_singleton.1 hpub
        rfl

end

end StupidKv
