import Mathlib.Algebra.Order.Ring.Nat
import StupidKv.Lib.Execution
import StupidKv.Lib.Processes

namespace Execution
set_option autoImplicit true

variable {S A : Type*}

/-- How many steps of a schedule are of one kind. -/
def countSteps (step : S → A → Option S) (p : S → A → Bool) : S → List A → Nat
  | _, [] => 0
  | s, a :: as => (p s a).toNat + ((step s a).elim 0 fun t => countSteps step p t as)

/-- A rank that every such step brings down, and that other steps raise by a credit at most, bounds
their number. -/
theorem countSteps_le {step : S → A → Option S} {p : S → A → Bool} {Inv : S → Prop}
    {rank : S → Nat} {credit : A → Nat} {s t : S} {as : List A}
    (h : ∀ s a t, Inv s → step s a = some t →
      Inv t ∧ (p s a).toNat + rank t ≤ rank s + credit a)
    (hi : Inv s) (hrun : exec step s as = some t) :
    countSteps step p s as + rank t ≤ rank s + (as.map credit).sum := by
  induction as generalizing s with
  | nil =>
    cases hrun
    simp [countSteps]
  | cons a as ih =>
    obtain ⟨u, hu, ht⟩ := Option.bind_eq_some_iff.1 hrun
    obtain ⟨hiu, hrank⟩ := h s a u hi hu
    have hrest := ih hiu ht
    simp only [countSteps, hu, Option.elim_some, List.map_cons, List.sum_cons]
    omega

end Execution

namespace Processes
set_option autoImplicit true

variable {P : Type*}

theorem sum_set {l : List P} {i : Nat} (hi : l[i]? = some b) (f : P → Nat) (a : P) :
    ((l.set i a).map f).sum + f b = (l.map f).sum + f a := by
  induction l generalizing i with
  | nil => cases hi
  | cons x l ih =>
    cases i with
    | zero =>
      cases hi
      simp only [List.set_cons_zero, List.map_cons, List.sum_cons]
      omega
    | succ i =>
      have h := ih hi
      simp only [List.set_cons_succ, List.map_cons, List.sum_cons]
      omega

end Processes
