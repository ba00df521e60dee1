import Mathlib.Order.Basic
import Mathlib.Data.Set.Insert

namespace Timeline
set_option autoImplicit true

variable {T W : Type*}

/-- A timeline gives one value to every stamp it holds; `none` is a deletion. -/
def Functional (P : Set (T × Option W)) : Prop :=
  ∀ t x y, (t, x) ∈ P → (t, y) ∈ P → x = y

section
variable [LinearOrder T]

/-- The value a reader at `q` sees: that of the last write stamped at or before `q`. -/
inductive Visible (P : Set (T × Option W)) (q : T) : Option W → Prop
  | written (h : (t, x) ∈ P) (hq : t ≤ q)
      (last : ∀ t' x', (t', x') ∈ P → t' ≤ q → t' ≤ t) : Visible P q x
  | unwritten (h : ∀ t x, (t, x) ∈ P → q < t) : Visible P q none

theorem Visible.unique {P : Set (T × Option W)} (hf : Functional P)
    (h : Visible P q x) (h' : Visible P q y) : x = y := by
  cases h with
  | written hx hq hl =>
    cases h' with
    | written hy hq' hl' =>
      have he := le_antisymm (hl' _ _ hx hq) (hl _ _ hy hq')
      subst he
      exact hf _ _ _ hx hy
    | unwritten hn => exact absurd hq (not_le.2 (hn _ _ hx))
  | unwritten hn =>
    cases h' with
    | written hy hq' hl' => exact absurd hq' (not_le.2 (hn _ _ hy))
    | unwritten => rfl

theorem Visible.congr {P Q : Set (T × Option W)} (h : Visible P q x)
    (he : ∀ t y, t ≤ q → ((t, y) ∈ P ↔ (t, y) ∈ Q)) : Visible Q q x := by
  cases h with
  | written hx hq hl =>
    exact .written ((he _ _ hq).1 hx) hq fun t' x' h' hq' => hl t' x' ((he _ _ hq').2 h') hq'
  | unwritten hn =>
    refine .unwritten fun t y hy => ?_
    by_contra hc
    exact absurd (hn t y ((he _ _ (not_lt.1 hc)).2 hy)) hc

theorem Visible.insert_future {P : Set (T × Option W)} (h : Visible P q x) (ht : q < t) :
    Visible (insert (t, y) P) q x := by
  refine h.congr fun s z hs => ⟨Or.inr, ?_⟩
  rintro (he | he)
  · cases he
    exact absurd ht (not_lt.2 hs)
  · exact he

theorem Visible.insert_last {P : Set (T × Option W)} (hq : t ≤ q)
    (hl : ∀ s y, (s, y) ∈ P → s ≤ q → s ≤ t) : Visible (insert (t, x) P) q x := by
  refine .written (Or.inl rfl) hq ?_
  rintro s y (he | he) hs
  · cases he
    exact le_rfl
  · exact hl s y he hs

theorem Visible.insert_overtaken {P : Set (T × Option W)} (h : Visible P q x)
    (hs : (s, z) ∈ P) (hts : t ≤ s) (hsq : s ≤ q) : Visible (insert (t, y) P) q x := by
  cases h with
  | written hx hq hl =>
    refine .written (Or.inr hx) hq ?_
    rintro r w (he | he) hr
    · cases he
      exact hts.trans (hl _ _ hs hsq)
    · exact hl r w he hr
  | unwritten hn => exact absurd hsq (not_le.2 (hn _ _ hs))

/-- A write is what `q` sees, also when whoever overtakes it before `q` wrote the same value. -/
theorem Visible.insert_last_or {P : Set (T × Option W)} (h : Visible P q z) (hq : t ≤ q)
    (hl : ∀ s y, (s, y) ∈ P → s ≤ q → s ≤ t ∨ y = x) : Visible (insert (t, x) P) q x := by
  cases h with
  | unwritten hn =>
    exact insert_last hq fun s y hs hsq => absurd hsq (not_le.2 (hn s y hs))
  | @written r _ hz hr hlast =>
    by_cases hle : r ≤ t
    · exact insert_last hq fun s y hs hsq => (hlast s y hs hsq).trans hle
    · obtain hrt | rfl := hl r z hz hr
      · exact absurd hrt hle
      · exact (Visible.written hz hr hlast).insert_overtaken hz (le_of_not_ge hle) hr

theorem Visible.later {P : Set (T × Option W)} (h : Visible P q x) (hq : q ≤ r)
    (hn : ∀ t y, (t, y) ∈ P → t ≤ r → t ≤ q) : Visible P r x := by
  cases h with
  | written hx hxq hl =>
    exact .written hx (hxq.trans hq) fun t y hy hr => hl t y hy (hn t y hy hr)
  | unwritten ha =>
    refine .unwritten fun t y hy => ?_
    by_contra hc
    exact absurd (ha t y hy) (not_lt.2 (hn t y hy (not_lt.1 hc)))

end

end Timeline
