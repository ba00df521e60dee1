import Mathlib.Logic.Basic

namespace Parking
set_option autoImplicit true

/-- The code of a thread that goes on until a flag goes down, and parks in between. `next` is one
step, with the flag as the thread reads it and an outcome that others decide. -/
structure Service (σ α : Type*) where
  next : Bool → α → σ → σ
  parks : σ → Bool
  stopped : σ → Bool
  /-- No park is ahead any more once the flag is down. -/
  past : σ → Bool
  /-- The number of steps to the end once the flag is down. -/
  left : σ → Nat

/-- Such a thread; the token is what `unpark` leaves for it. -/
structure Thread (σ : Type*) where
  stage : σ
  token : Bool

def Thread.unpark (t : Thread σ) : Thread σ := { t with token := true }

@[simp] theorem Thread.unpark_stage (t : Thread σ) : t.unpark.stage = t.stage := rfl

namespace Service

/-- A parked thread goes on when it finds the token, or when its time is over. -/
def step (v : Service σ α) (flag timeout : Bool) (outcome : α) (t : Thread σ) :
    Option (Thread σ) :=
  if v.stopped t.stage then none
  else if v.parks t.stage then
    if t.token || timeout then some ⟨v.next flag outcome t.stage, false⟩ else none
  else some ⟨v.next flag outcome t.stage, t.token⟩

/-- Once the flag is down, every step is one to the end, and leads past the last park. -/
structure Lawful (v : Service σ α) : Prop where
  left : ∀ a s, v.stopped s = false → v.left (v.next false a s) < v.left s
  past : ∀ a s, v.past s = true → v.past (v.next false a s) = true
  woken : ∀ a s, v.parks s = true → v.past (v.next false a s) = true
  not_parks : ∀ s, v.past s = true → v.parks s = false

/-- The thread cannot miss that the flag is down. -/
def Told (v : Service σ α) (t : Thread σ) : Prop := t.token = true ∨ v.past t.stage = true

variable {v : Service σ α} {t t' : Thread σ}

theorem told_unpark (v : Service σ α) (t : Thread σ) : v.Told t.unpark := .inl rfl

theorem step_cases (h : v.step flag timeout a t = some t') :
    v.stopped t.stage = false ∧ t'.stage = v.next flag a t.stage ∧
      (v.parks t.stage = false → t'.token = t.token) := by
  unfold step at h
  split at h
  · cases h
  · rename_i hs
    have hs' : v.stopped t.stage = false := by simpa using hs
    split at h
    · rename_i hp
      split at h
      · cases h
        exact ⟨hs', rfl, fun hn => absurd hp (by simp [hn])⟩
      · cases h
    · cases h
      exact ⟨hs', rfl, fun _ => rfl⟩

/-- The step after which the thread has been told that the flag is down stays told. -/
theorem Told.step (hv : v.Lawful) (h : v.Told t) (hs : v.step false timeout a t = some t') :
    v.Told t' := by
  obtain ⟨-, hstage, htoken⟩ := step_cases hs
  cases hp : v.parks t.stage with
  | true =>
    apply Or.inr
    rw [hstage]
    exact hv.woken a _ hp
  | false =>
    cases h with
    | inl ht => exact .inl ((htoken hp).trans ht)
    | inr hpast =>
      apply Or.inr
      rw [hstage]
      exact hv.past a _ hpast

theorem left_lt (hv : v.Lawful) (hs : v.step false timeout a t = some t') :
    v.left t'.stage < v.left t.stage := by
  obtain ⟨hrun, hstage, -⟩ := step_cases hs
  rw [hstage]
  exact hv.left a _ hrun

/-- No wake-up is lost: a thread that has been told needs no timeout to go on. -/
theorem Told.goes_on (hv : v.Lawful) (h : v.Told t) (hs : v.stopped t.stage = false) (flag : Bool)
    (a : α) : (v.step flag false a t).isSome = true := by
  unfold Service.step
  cases hp : v.parks t.stage with
  | false => simp [hs]
  | true =>
    cases h with
    | inl ht => simp [hs, ht]
    | inr hpast => exact absurd hp (by simp [hv.not_parks _ hpast])

end Service

end Parking
