import Mathlib.Logic.Basic

namespace Execution
set_option autoImplicit true

variable {S A R : Type*}

/-- Follow a schedule through a partial step function. -/
def exec (step : S → A → Option S) : S → List A → Option S
  | s, [] => some s
  | s, a :: as => (step s a).bind fun t => exec step t as

/-- The states reached by steps that all meet the guard. -/
inductive Run (step : S → A → Option S) (guard : S → A → Prop) (s : S) : S → Prop
  | refl : Run step guard s s
  | step (h : Run step guard s t) (hg : guard t a) (hs : step t a = some u) : Run step guard s u

variable {guard : S → A → Prop}

theorem Run.invariant {step : S → A → Option S} {Inv : S → Prop} (h : Run step guard s t)
    (hs : ∀ s a t, Inv s → guard s a → step s a = some t → Inv t) (hi : Inv s) : Inv t := by
  induction h with
  | refl => exact hi
  | step _ hg hst ih => exact hs _ _ _ ih hg hst

theorem Run.trans {step : S → A → Option S} (h : Run step guard s t) (h' : Run step guard t u) :
    Run step guard s u := by
  induction h' with
  | refl => exact h
  | step _ hg hs ih => exact .step ih hg hs

theorem Run.of_exec {step : S → A → Option S} {s t : S} {as : List A}
    (h : exec step s as = some t) : Run step (fun _ _ => True) s t := by
  suffices hr : ∀ {r}, Run step (fun _ _ => True) r s → Run step (fun _ _ => True) r t from
    hr .refl
  intro r hr
  induction as generalizing s with
  | nil =>
    cases h
    exact hr
  | cons a as ih =>
    obtain ⟨u, hu, ht⟩ := Option.bind_eq_some_iff.1 h
    exact ih ht (.step hr trivial hu)

/-- A schedule that stops at the first step the check refuses. -/
theorem Run.of_guarded {step : S → A → Option S} {ok : S → A → Bool} {s t : S} {as : List A}
    (h : exec (fun s a => if ok s a then step s a else none) s as = some t) :
    Run step (fun s a => ok s a = true) s t := by
  suffices hr : ∀ {r}, Run step (fun s a => ok s a = true) r s →
      Run step (fun s a => ok s a = true) r t from hr .refl
  intro r hr
  induction as generalizing s with
  | nil =>
    cases h
    exact hr
  | cons a as ih =>
    obtain ⟨u, hu, ht⟩ := Option.bind_eq_some_iff.1 h
    obtain ⟨hok, hu⟩ := Option.ite_none_right_eq_some.1 hu
    exact ih ht (.step hr hok hu)

theorem exec_check {step : S → A → Option S} {p : S → Bool}
    (h : (exec step s as).map p = some true) : ∃ t, exec step s as = some t ∧ p t = true := by
  obtain ⟨t, ht, hp⟩ := Option.map_eq_some_iff.1 h
  exact ⟨t, ht, hp⟩

/-- Follow a schedule and collect what every call returns. -/
def collect (step : S → A → Option (S × R)) : S → List A → Option (S × List R)
  | s, [] => some (s, [])
  | s, a :: as => do
    let (t, r) ← step s a
    let (u, rs) ← collect step t as
    return (u, r :: rs)

/-- The same for a machine that always answers. -/
def respond (spec : S → A → S × R) : S → List A → S × List R
  | s, [] => (s, [])
  | s, a :: as =>
    ((respond spec (spec s a).1 as).1, (spec s a).2 :: (respond spec (spec s a).1 as).2)

theorem respond_append (spec : S → A → S × R) (s : S) (as bs : List A) :
    respond spec s (as ++ bs) =
      ((respond spec (respond spec s as).1 bs).1,
        (respond spec s as).2 ++ (respond spec (respond spec s as).1 bs).2) := by
  induction as generalizing s with
  | nil => rfl
  | cons a as ih => simp only [List.cons_append, respond, ih]

theorem respond_map (spec : S → A → S × R) (f : B → A) (s : S) (bs : List B) :
    respond (fun s b => spec s (f b)) s bs = respond spec s (bs.map f) := by
  induction bs generalizing s with
  | nil => rfl
  | cons b bs ih => simp only [List.map_cons, respond, ih]

/-- A lockstep simulation: the concrete calls return, with the abstract machine's answers. -/
theorem collect_simulation (step : S → A → Option (S × R)) (spec : S' → A → S' × R)
    (Rel : S → S' → Prop)
    (h : ∀ s s' a, Rel s s' → ∃ t, step s a = some (t, (spec s' a).2) ∧ Rel t (spec s' a).1)
    (as : List A) (hr : Rel s s') :
    ∃ t, collect step s as = some (t, (respond spec s' as).2) ∧ Rel t (respond spec s' as).1 := by
  induction as generalizing s s' with
  | nil => exact ⟨s, rfl, hr⟩
  | cons a as ih =>
    obtain ⟨t, ht, hrel⟩ := h s s' a hr
    obtain ⟨u, hu, hrel'⟩ := ih hrel
    exact ⟨u, by simp [collect, respond, ht, hu], hrel'⟩

theorem collect_cons {step : S → A → Option (S × R)} (f : R → Q) (h : step s a = some (t, r))
    (as : List A) :
    (collect step s (a :: as)).map (fun p => p.2.map f) =
      ((collect step t as).map fun p => p.2.map f).map (f r :: ·) := by
  simp only [collect, h, Option.bind_eq_bind, Option.bind_some]
  cases collect step t as <;> rfl

/-- Two starts of one machine in lockstep: the calls return on both sides, and what `f` shows of the
answers is the same. -/
theorem collect_lockstep (step : S → A → Option (S × R)) (f : R → Q) (ok : A → Prop)
    (Rel : S → S → Prop)
    (h : ∀ s s' a, Rel s s' → ok a → ∃ t t' r r', step s a = some (t, r) ∧
      step s' a = some (t', r') ∧ f r' = f r ∧ Rel t t')
    (as : List A) (hok : ∀ a ∈ as, ok a) (hr : Rel s s') :
    (collect step s' as).map (fun p => p.2.map f) = (collect step s as).map fun p => p.2.map f := by
  induction as generalizing s s' with
  | nil => rfl
  | cons a as ih =>
    obtain ⟨t, t', r, r', ht, ht', hf, hrel⟩ := h s s' a hr (hok a List.mem_cons_self)
    have hrest := ih (fun b hb => hok b (List.mem_cons_of_mem a hb)) hrel
    rw [collect_cons f ht, collect_cons f ht', hrest, hf]

/-- A machine whose calls all return, step by step as another one that sees its states through `f`:
so does every sequence of calls. -/
theorem collect_refines (step : S → A → Option (S × R)) (step' : S' → A → Option (S' × R))
    (f : S → S') (Inv : S → Prop)
    (h : ∀ s a, Inv s → ∃ t r, step s a = some (t, r) ∧ step' (f s) a = some (f t, r) ∧ Inv t)
    (as : List A) (hi : Inv s) :
    ∃ t rs, collect step s as = some (t, rs) ∧ collect step' (f s) as = some (f t, rs) ∧ Inv t := by
  induction as generalizing s with
  | nil => exact ⟨s, [], rfl, rfl, hi⟩
  | cons a as ih =>
    obtain ⟨t, r, ht, ht', hit⟩ := h s a hi
    obtain ⟨u, rs, hu, hu', hiu⟩ := ih hit
    exact ⟨u, r :: rs, by simp [collect, ht, hu], by simp [collect, ht', hu'], hiu⟩

/-- Two machines in lockstep give the same answers; `f` translates the calls. -/
theorem respond_simulation (spec : S → A → S × R) (spec' : S' → B → S' × R) (f : B → A)
    (Rel : S → S' → Prop)
    (h : ∀ s s' b, Rel s s' →
      (spec s (f b)).2 = (spec' s' b).2 ∧ Rel (spec s (f b)).1 (spec' s' b).1)
    (bs : List B) (hr : Rel s s') :
    (respond spec s (bs.map f)).2 = (respond spec' s' bs).2 := by
  induction bs generalizing s s' with
  | nil => rfl
  | cons b bs ih =>
    obtain ⟨ha, hrel⟩ := h s s' b hr
    simp only [List.map_cons, respond, ha, ih hrel]

end Execution
