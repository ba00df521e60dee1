import StupidKv.Lib.Execution
import Mathlib.Data.List.Basic

namespace Linearization
set_option autoImplicit true

variable {S Op Res : Type*}

/-- What happens at a shared object. A call is named by its place in the order of invocations. An
effect is the moment at which a call takes place; nobody sees it. -/
inductive Event (Op Res : Type*) where
  | invoke (op : Op)
  | effect (i : Nat)
  | answer (i : Nat) (r : Res)
deriving DecidableEq

def Event.visible : Event Op Res → Bool
  | effect _ => false
  | invoke _ | answer _ _ => true

/-- Where a call stands. A call that waits remembers the state of the object when it was made. -/
inductive Phase (S Op Res : Type*) where
  | waiting (start : S) (op : Op)
  | decided (r : Res)
  | answered

/-- The traces of an atomic object: every call takes effect at one moment between its invocation
and its answer. `spec start now op next r` says what a call made in `start` may do in `now`. -/
inductive Atomic (spec : S → S → Op → S → Res → Prop) :
    S → List (Phase S Op Res) → List (Event Op Res) → S → List (Phase S Op Res) → Prop
  | nil : Atomic spec s ps [] s ps
  | invoke (h : Atomic spec s (ps ++ [.waiting s op]) es t qs) :
      Atomic spec s ps (.invoke op :: es) t qs
  | effect (hi : ps[i]? = some (.waiting start op)) (hs : spec start s op u r)
      (h : Atomic spec u (ps.set i (.decided r)) es t qs) : Atomic spec s ps (.effect i :: es) t qs
  | answer (hi : ps[i]? = some (.decided r)) (h : Atomic spec s (ps.set i .answered) es t qs) :
      Atomic spec s ps (.answer i r :: es) t qs

section
variable {spec : S → S → Op → S → Res → Prop}

theorem Atomic.append (h : Atomic spec s ps es t qs) (h' : Atomic spec t qs es' u rs) :
    Atomic spec s ps (es ++ es') u rs := by
  induction h with
  | nil => exact h'
  | invoke _ ih => exact .invoke (ih h')
  | effect hi hs _ ih => exact .effect hi hs (ih h')
  | answer hi _ ih => exact .answer hi (ih h')

/-- A machine whose steps show what an atomic object can do around some effects. -/
def Simulates {C A : Type*} (spec : S → S → Op → S → Res → Prop)
    (step : C → A → Option (C × List (Event Op Res)))
    (Rel : C → S → List (Phase S Op Res) → Prop) : Prop :=
  ∀ c a c' shown s ps, Rel c s ps → step c a = some (c', shown) →
    ∃ es t qs, es.filter Event.visible = shown ∧ Atomic spec s ps es t qs ∧ Rel c' t qs

variable {C A : Type*} {step : C → A → Option (C × List (Event Op Res))}
  {Rel : C → S → List (Phase S Op Res) → Prop}

theorem Simulates.run (h : Simulates spec step Rel) (hr : Rel c s ps)
    (hrun : Execution.collect step c as = some (c', shown)) :
    ∃ es t qs, es.filter Event.visible = shown.flatten ∧ Atomic spec s ps es t qs ∧ Rel c' t qs := by
  induction as generalizing c s ps shown with
  | nil =>
    cases hrun
    exact ⟨[], s, ps, rfl, .nil, hr⟩
  | cons a as ih =>
    obtain ⟨⟨c₁, first⟩, hstep, hrun⟩ := Option.bind_eq_some_iff.1 hrun
    obtain ⟨⟨c₂, rest⟩, hrest, he⟩ := Option.bind_eq_some_iff.1 hrun
    cases he
    obtain ⟨es, t, qs, hes, ha, hr₁⟩ := h c a c₁ first s ps hr hstep
    obtain ⟨es', u, rs, hes', ha', hr₂⟩ := ih hr₁ hrest
    refine ⟨es ++ es', u, rs, ?_, ha.append ha', hr₂⟩
    rw [List.filter_append, hes, hes', List.flatten_cons]

end

end Linearization
