import Mathlib.Data.List.Basic

namespace Processes
set_option autoImplicit true

variable {P Q : Type*}

/-- What `f` shows of the process `i`. -/
def look (l : List P) (f : P → Option Q) (i : Nat) : Option Q := l[i]?.bind f

@[simp] theorem look_nil (f : P → Option Q) (i : Nat) : look [] f i = none := rfl

section
variable {l : List P} {f : P → Option Q} {i : Nat} {p p' : P}

theorem look_of_getElem? (hi : l[i]? = some p) : look l f i = f p := by
  simp [look, hi]

theorem look_eq_some : look l f i = some q ↔ ∃ p, l[i]? = some p ∧ f p = some q := by
  simp [look, Option.bind_eq_some_iff]

theorem look_set (hi : l[i]? = some p) (p' : P) (j : Nat) :
    look (l.set i p') f j = if i = j then f p' else look l f j := by
  obtain ⟨hlt, -⟩ := List.getElem?_eq_some_iff.1 hi
  unfold look
  rw [List.getElem?_set]
  by_cases hij : i = j
  · simp [hij, hij ▸ hlt]
  · simp [hij]

/-- A move the view does not notice. -/
theorem look_set_same (hi : l[i]? = some p) (hf : f p' = f p) (j : Nat) :
    look (l.set i p') f j = look l f j := by
  rw [look_set hi]
  split
  · rename_i hij
    rw [hf, ← hij, look_of_getElem? hi]
  · rfl

theorem look_concat (hf : f p = none) (j : Nat) : look (l ++ [p]) f j = look l f j := by
  unfold look
  rw [List.getElem?_append]
  split
  · rfl
  · rename_i hlt
    rw [List.getElem?_eq_none (Nat.not_lt.1 hlt)]
    cases j - l.length with
    | zero => exact hf
    | succ n => rfl

end

theorem getElem?_set_cases {l : List P} {i j : Nat} (h : (l.set i a)[j]? = some b) :
    i = j ∧ a = b ∨ i ≠ j ∧ l[j]? = some b := by
  rw [List.getElem?_set] at h
  split at h
  · rename_i hij
    split at h
    · cases h
      exact .inl ⟨hij, rfl⟩
    · cases h
  · rename_i hij
    exact .inr ⟨hij, h⟩

theorem getElem?_set_ne {l : List P} {i j : Nat} (h : l[j]? = some b) (hij : i ≠ j) (a : P) :
    (l.set i a)[j]? = some b := by
  rw [List.getElem?_set, if_neg hij, h]

theorem getElem?_set_at {l : List P} {i : Nat} (hi : l[i]? = some b) (a : P) :
    (l.set i a)[i]? = some a := by
  obtain ⟨hlt, -⟩ := List.getElem?_eq_some_iff.1 hi
  exact List.getElem?_set_self hlt

theorem getElem?_concat_of {l : List P} {j : Nat} (hj : l[j]? = some b) (a : P) :
    (l ++ [a])[j]? = some b := by
  obtain ⟨hlt, -⟩ := List.getElem?_eq_some_iff.1 hj
  exact (List.getElem?_append_left hlt).trans hj

theorem getElem?_concat_cases {l : List P} {j : Nat} (h : (l ++ [a])[j]? = some b) :
    l[j]? = some b ∨ j = l.length ∧ a = b := by
  rcases Nat.lt_or_ge j l.length with hj | hj
  · rw [List.getElem?_append_left hj] at h
    exact .inl h
  · rw [List.getElem?_append_right hj] at h
    obtain ⟨hlt, he⟩ := List.getElem?_eq_some_iff.1 h
    rw [List.length_singleton] at hlt
    exact .inr ⟨by omega, by simpa using he⟩

theorem mem_set_iff {l : List P} {i : Nat} (hi : l[i]? = some b) (a x : P) :
    x ∈ l.set i a ↔ x = a ∨ ∃ j, i ≠ j ∧ l[j]? = some x := by
  constructor
  · intro hx
    obtain ⟨j, hj⟩ := List.mem_iff_getElem?.1 hx
    rcases getElem?_set_cases hj with ⟨-, rfl⟩ | ⟨hij, hj⟩
    · exact .inl rfl
    · exact .inr ⟨j, hij, hj⟩
  · rintro (rfl | ⟨j, hij, hj⟩)
    · obtain ⟨hlt, -⟩ := List.getElem?_eq_some_iff.1 hi
      exact List.mem_set hlt x
    · exact List.mem_of_getElem? (getElem?_set_ne hj hij a)

theorem mem_iff_at {l : List P} {i : Nat} (hi : l[i]? = some b) (x : P) :
    x ∈ l ↔ x = b ∨ ∃ j, i ≠ j ∧ l[j]? = some x := by
  have h := mem_set_iff hi b x
  obtain ⟨hlt, rfl⟩ := List.getElem?_eq_some_iff.1 hi
  rwa [List.set_getElem_self] at h

theorem exists_set {l : List P} {i : Nat} {p : P → Prop} (hi : l[i]? = some b)
    (h : ∃ x ∈ l, p x) (hp : p b → p a) : ∃ x ∈ l.set i a, p x := by
  obtain ⟨x, hx, hpx⟩ := h
  rcases (mem_iff_at hi x).1 hx with rfl | hj
  · exact ⟨a, (mem_set_iff hi a a).2 (.inl rfl), hp hpx⟩
  · exact ⟨x, (mem_set_iff hi a x).2 (.inr hj), hpx⟩

theorem concat_split_cases {l before after : List P} (h : l ++ [a] = before ++ b :: after) :
    l = before ∧ a = b ∧ after = [] ∨ ∃ later, l = before ++ b :: later ∧ after = later ++ [a] := by
  rcases List.eq_nil_or_concat after with rfl | ⟨later, x, rfl⟩
  · obtain ⟨rfl, hab⟩ := List.append_inj' h rfl
    exact .inl ⟨rfl, List.head_eq_of_cons_eq hab, rfl⟩
  · rw [List.concat_eq_append, ← List.cons_append, ← List.append_assoc] at h
    obtain ⟨hl, hx⟩ := List.append_inj' h rfl
    exact .inr ⟨later, hl, by rw [List.concat_eq_append, List.head_eq_of_cons_eq hx]⟩

end Processes
