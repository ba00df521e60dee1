import StupidKv.Lib.Ranking
import StupidKv.Lifecycle

namespace StupidKv
open Parking Processes
set_option autoImplicit true

theorem sum_workers (f : WorkerName → Nat) : ∑ w, f w =
    f .cleanup + (f .garbage + (f .snapshot + (f .append + (f .fsync + f .resync)))) := rfl

theorem Dropper.eq_of_finished {d : Dropper} (h : d.finished = true) : d = .of [] :=
  of_decide_eq_true h

def Dropper.joins (d : Dropper) (w : WorkerName) : Bool := d.joining = .unpark w || d.joining = .join w

/-- How many `Arc`s to `Inner` a step lets go, itself or with what it recycles. -/
def DropStep.inner : DropStep → Nat
  | recycle | releaseInner => 1
  | _ => 0

def DropStep.pool : DropStep → Nat
  | releasePool => 1
  | _ => 0

def Dropper.inner (d : Dropper) : Nat := (d.rest.map DropStep.inner).sum

def Dropper.pool (d : Dropper) : Nat := (d.rest.map DropStep.pool).sum

/-- A handle is taken with its flag down, a flag goes down to take all its handles, and nobody needs
what was let go before. -/
def Orderly (flags : Flag → Bool) : List DropStep → Prop
  | [] => True
  | .clear f :: rest =>
    (∀ w, w.flag = f → .take w ∈ rest) ∧ Orderly (Function.update flags f false) rest
  | .take w :: rest =>
    flags w.flag = false ∧ (w.holdsInner = true → .releaseInner ∈ rest) ∧ Orderly flags rest
  | .recycle :: rest => .releasePool ∈ rest ∧ Orderly flags rest
  | .releaseInner :: rest => Orderly flags rest
  | .releasePool :: rest => Orderly flags rest

theorem Orderly.mono {flags flags' : Flag → Bool} (h : Orderly flags l)
    (hf : ∀ f, flags f = false → flags' f = false) : Orderly flags' l := by
  induction l generalizing flags flags' with
  | nil => trivial
  | cons i rest ih =>
    cases i with
    | clear f =>
      apply And.intro h.1
      apply ih h.2
      intro g hg
      by_cases hgf : g = f
      · simp [hgf]
      · rw [Function.update_of_ne hgf] at hg ⊢
        exact hf g hg
    | take w => exact ⟨hf _ h.1, h.2.1, ih h.2.2 hf⟩
    | recycle => exact ⟨h.1, ih h.2 hf⟩
    | releaseInner => exact ih h hf
    | releasePool => exact ih h hf

theorem Orderly.append (hl : Orderly flags l) (h : Orderly flags rest) : Orderly flags (l ++ rest) := by
  induction l generalizing flags with
  | nil => exact h
  | cons i l ih =>
    cases i with
    | clear f =>
      apply And.intro fun w hw => List.mem_append_left _ (hl.1 w hw)
      apply ih hl.2
      apply h.mono
      intro g hg
      by_cases hgf : g = f
      · simp [hgf]
      · rwa [Function.update_of_ne hgf]
    | take w => exact ⟨hl.1, fun hw => List.mem_append_left _ (hl.2.1 hw), ih hl.2.2 h⟩
    | recycle => exact ⟨List.mem_append_left _ hl.1, ih hl.2 h⟩
    | releaseInner => exact ih hl h
    | releasePool => exact ih hl h

theorem Orderly.releases (h : Orderly flags l) (hw : w.holdsInner = true) (ht : .take w ∈ l) :
    .releaseInner ∈ l := by
  induction l generalizing flags with
  | nil => cases ht
  | cons i l ih =>
    have hcases : i = .take w ∨ .take w ∈ l := by simpa [eq_comm] using ht
    apply List.mem_cons_of_mem
    cases i with
    | clear f => exact ih h.2 (by simpa using ht)
    | take x =>
      rcases hcases with hx | hm
      · cases hx
        exact h.2.1 hw
      · exact ih h.2.2 hm
    | recycle => exact ih h.2 (by simpa using ht)
    | releaseInner => exact ih h (by simpa using ht)
    | releasePool => exact ih h (by simpa using ht)

theorem orderly_dropDatabase (flags : Flag → Bool) (persistent : Bool) :
    Orderly flags (dropDatabase persistent) := by
  cases persistent with
  | false =>
    refine ⟨fun w hw => ?_, ?_⟩
    · cases w <;> first | decide | cases hw
    · simp [Orderly, WorkerName.flag, dropPersistenceIf]
  | true =>
    refine ⟨fun w hw => ?_, ?_, ?_, fun w hw => ?_, ?_⟩
    · cases w <;> first | decide | cases hw
    · rfl
    · decide
    · cases w <;> first | decide | cases hw
    · refine ⟨rfl, by decide, rfl, by decide, fun w hw => ?_, ?_⟩
      · cases w <;> first | decide | cases hw
      · simp [Orderly, WorkerName.flag, WorkerName.holdsInner]

theorem orderly_dropPool (flags : Flag → Bool) (pooled : Nat) : Orderly flags (dropPool pooled) := by
  change Orderly flags (List.replicate pooled .releaseInner)
  induction pooled with
  | zero => trivial
  | succ n ih => exact ih

theorem orderly_dropInner (flags : Flag → Bool) : Orderly flags (dropInner false) := by
  refine ⟨fun w hw => ?_, rfl, nofun, trivial⟩
  cases w <;> first | decide | cases hw

namespace Lifecycle

/-- What a step of a drop does. -/
inductive Advances (s : Lifecycle) : Dropper → Lifecycle → Dropper → Prop
  | unpark : Advances s ⟨.unpark w, rest⟩ (s.unpark w) ⟨.join w, rest⟩
  | join (hw : s.exited w = true) : Advances s ⟨.join w, rest⟩ s (.of rest)
  | clear : Advances s (.of (.clear f :: rest))
      { s with flags := Function.update s.flags f false } (.of rest)
  | take (hw : s.handles w = true) : Advances s (.of (.take w :: rest))
      { s with handles := Function.update s.handles w false } ⟨.unpark w, rest⟩
  | skip (hw : s.handles w = false) : Advances s (.of (.take w :: rest)) s (.of rest)
  | recycle : Advances s (.of (.recycle :: rest)) { s with pooled := s.pooled + 1 } (.of rest)
  | discard : Advances s (.of (.recycle :: rest)) s (.of (.releaseInner :: rest))
  | releaseInner (hn : s.innerCount = n + 2) : Advances s (.of (.releaseInner :: rest))
      { s with innerCount := n + 1 } (.of rest)
  | freeInner (hn : s.innerCount = 1) : Advances s (.of (.releaseInner :: rest))
      { s with innerCount := 0 } (.of (dropInner s.persistent ++ rest))
  | releasePool (hn : s.poolCount = n + 2) : Advances s (.of (.releasePool :: rest))
      { s with poolCount := n + 1 } (.of rest)
  | freePool (hn : s.poolCount = 1) : Advances s (.of (.releasePool :: rest))
      { s with poolCount := 0, pooled := 0 } (.of (dropPool s.pooled ++ rest))

theorem advances {s s' : Lifecycle} {d d' : Dropper} (h : s.advance d = some (s', d')) :
    Advances s d s' d' := by
  obtain ⟨joining, rest⟩ := d
  cases joining with
  | unpark w =>
    cases h
    exact .unpark
  | join w =>
    obtain ⟨hw, he⟩ := Option.ite_none_right_eq_some.1 h
    cases he
    exact .join hw
  | no =>
    cases rest with
    | nil => cases h
    | cons i rest =>
      simp only [advance] at h
      cases i with
      | clear f =>
        cases h
        exact .clear
      | take w =>
        simp only [dropStep] at h
        cases hw : s.handles w with
        | true =>
          rw [if_pos hw] at h
          cases h
          exact .take hw
        | false =>
          rw [if_neg (by simp [hw])] at h
          cases h
          exact .skip hw
      | recycle =>
        simp only [dropStep] at h
        split at h <;> cases h
        · exact .recycle
        · exact .discard
      | releaseInner =>
        simp only [dropStep] at h
        split at h <;> cases h
        · exact .freeInner ‹_›
        · exact .releaseInner ‹_›
      | releasePool =>
        simp only [dropStep] at h
        split at h <;> cases h
        · exact .freePool ‹_›
        · exact .releasePool ‹_›

/-- What a step of a drop leaves alone. -/
structure Frame (s s' : Lifecycle) : Prop where
  persistent : s'.persistent = s.persistent
  isOpen : s'.isOpen = s.isOpen
  transactions : s'.transactions = s.transactions
  stage : ∀ w, (s'.workers w).thread.stage = (s.workers w).thread.stage
  ending : ∀ w, (s'.workers w).ending = (s.workers w).ending
  token : ∀ w, (s.workers w).thread.token = true → (s'.workers w).thread.token = true
  flags : ∀ f, s.flags f = false → s'.flags f = false
  handles : ∀ w, s.handles w = false → s'.handles w = false

theorem Frame.refl (s : Lifecycle) : Frame s s :=
  ⟨rfl, rfl, rfl, fun _ => rfl, fun _ => rfl, fun _ h => h, fun _ h => h, fun _ h => h⟩

theorem Frame.unpark (s : Lifecycle) (w : WorkerName) : Frame s (s.unpark w) := by
  have hw : ∀ x, ((s.unpark w).workers x).thread.stage = (s.workers x).thread.stage ∧
      ((s.unpark w).workers x).ending = (s.workers x).ending ∧
      ((s.workers x).thread.token = true → ((s.unpark w).workers x).thread.token = true) := by
    intro x
    by_cases hx : x = w
    · subst hx
      simp [Lifecycle.unpark, putWorker, Parking.Thread.unpark]
    · simp [Lifecycle.unpark, putWorker, Function.update_of_ne hx]
  exact { Frame.refl s with
    stage := fun x => (hw x).1
    ending := fun x => (hw x).2.1
    token := fun x => (hw x).2.2 }

theorem Advances.frame {s s' : Lifecycle} (h : Advances s d s' d') : Frame s s' := by
  cases h with
  | unpark => exact Frame.unpark s _
  | join | skip | discard => exact Frame.refl s
  | @clear f =>
    refine { Frame.refl s with flags := fun x hx => ?_ }
    by_cases hf : x = f
    · simp [hf]
    · simpa [Function.update_of_ne hf] using hx
  | @take w _ hw =>
    refine { Frame.refl s with handles := fun x hx => ?_ }
    by_cases hf : x = w
    · simp [hf]
    · simpa [Function.update_of_ne hf] using hx
  | recycle | releaseInner | freeInner | releasePool | freePool => exact { Frame.refl s with }

theorem Advances.droppers {s s' : Lifecycle} (h : Advances s d s' d') :
    s'.droppers = s.droppers := by
  cases h <;> rfl

theorem sum_putWorker (f : WorkerName → Worker → Nat) (s : Lifecycle) (w : WorkerName)
    (worker : Worker) :
    ∑ x, f x ((s.putWorker w worker).workers x) + f w (s.workers w) =
      ∑ x, f x (s.workers x) + f w worker := by
  simp only [sum_workers, putWorker]
  cases w <;> simp [Function.update] <;> omega

/-- What the pool holds, while there is one. -/
def heldByPool (s : Lifecycle) : Nat := if s.poolCount = 0 then 0 else 1 + s.pooled

/-- The counts are those of the `Arc`s there are. -/
structure Counted (s : Lifecycle) : Prop where
  inner : s.innerCount = (if s.isOpen then (Dropper.of (StupidKv.dropDatabase s.persistent)).inner
      else 0) + s.persistent.toNat + s.transactions + (s.droppers.map Dropper.inner).sum +
    ∑ w, (s.workers w).ending.inner + s.heldByPool
  pool : s.poolCount = s.isOpen.toNat + s.transactions + (s.droppers.map Dropper.pool).sum

theorem inner_cons (i : DropStep) (rest : List DropStep) :
    (Dropper.of (i :: rest)).inner = i.inner + (Dropper.of rest).inner := by
  simp [Dropper.inner, Dropper.of]

theorem pool_cons (i : DropStep) (rest : List DropStep) :
    (Dropper.of (i :: rest)).pool = i.pool + (Dropper.of rest).pool := by
  simp [Dropper.pool, Dropper.of]

theorem inner_append (l rest : List DropStep) :
    (Dropper.of (l ++ rest)).inner = (Dropper.of l).inner + (Dropper.of rest).inner := by
  simp [Dropper.inner, Dropper.of]

theorem pool_append (l rest : List DropStep) :
    (Dropper.of (l ++ rest)).pool = (Dropper.of l).pool + (Dropper.of rest).pool := by
  simp [Dropper.pool, Dropper.of]

theorem inner_dropPool (pooled : Nat) : (Dropper.of (dropPool pooled)).inner = 1 + pooled := by
  simp [Dropper.inner, Dropper.of, dropPool, DropStep.inner]

theorem pool_dropPool (pooled : Nat) : (Dropper.of (dropPool pooled)).pool = 0 := by
  simp [Dropper.pool, Dropper.of, dropPool, DropStep.pool]

theorem inner_pos {d : Dropper} (h : .releaseInner ∈ d.rest) : 1 ≤ d.inner :=
  List.single_le_sum (fun _ _ => Nat.zero_le _) _ (List.mem_map.2 ⟨_, h, rfl⟩)

theorem pool_pos {d : Dropper} (h : .releasePool ∈ d.rest) : 1 ≤ d.pool :=
  List.single_le_sum (fun _ _ => Nat.zero_le _) _ (List.mem_map.2 ⟨_, h, rfl⟩)

/-- What a thread lets go is what it counted for; `k` and `l` are the others' shares. -/
theorem Advances.counted {s s' : Lifecycle} (h : Advances s d s' d') (ho : Orderly s.flags d.rest)
    (hi : s.innerCount = k + d.inner + s.heldByPool) (hp : s.poolCount = l + d.pool)
    (hk : s.persistent.toNat ≤ k) :
    s'.innerCount = k + d'.inner + s'.heldByPool ∧ s'.poolCount = l + d'.pool := by
  cases h with
  | unpark | join => exact ⟨hi, hp⟩
  | clear | take | skip =>
    simp only [inner_cons, pool_cons, DropStep.inner, DropStep.pool, Nat.zero_add] at hi hp
    exact ⟨hi, hp⟩
  | @recycle rest =>
    have hpos : 1 ≤ (Dropper.of rest).pool := pool_pos ho.1
    simp only [inner_cons, pool_cons, DropStep.inner, DropStep.pool, heldByPool] at hi hp ⊢
    rw [if_neg (by omega)] at hi ⊢
    omega
  | discard =>
    simp only [inner_cons, pool_cons, DropStep.inner, DropStep.pool] at hi hp ⊢
    exact ⟨hi, hp⟩
  | releaseInner hn =>
    simp only [inner_cons, pool_cons, DropStep.inner, DropStep.pool, heldByPool] at hi hp ⊢
    omega
  | freeInner hn =>
    simp only [inner_cons, pool_cons, DropStep.inner, DropStep.pool] at hi hp ⊢
    have hpers : s.persistent = false := by
      cases h : s.persistent with
      | false => rfl
      | true =>
        rw [h] at hk
        simp only [Bool.toNat_true] at hk
        omega
    rw [inner_append, pool_append, hpers]
    have hz : (Dropper.of (dropInner false)).inner = 0 := rfl
    have hz' : (Dropper.of (dropInner false)).pool = 0 := rfl
    simp only [heldByPool] at hi ⊢
    omega
  | releasePool hn =>
    simp only [inner_cons, pool_cons, DropStep.inner, DropStep.pool, heldByPool, hn,
      Nat.succ_ne_zero, if_false] at hi hp ⊢
    omega
  | freePool hn =>
    simp only [inner_cons, pool_cons, DropStep.inner, DropStep.pool, heldByPool, hn, one_ne_zero,
      if_false, if_true, inner_append, pool_append, inner_dropPool, pool_dropPool] at hi hp ⊢
    omega

end Lifecycle

/-- A thread on its way through a drop: whom it waits for has been told. -/
structure Dropper.Safe (s : Lifecycle) (d : Dropper) : Prop where
  orderly : Orderly s.flags d.rest
  down : ∀ w, d.joins w = true →
    s.flags w.flag = false ∧ (w.holdsInner = true → .releaseInner ∈ d.rest)
  told : ∀ w, d.joining = .join w → w.service.Told (s.workers w).thread

theorem Dropper.Safe.of {s : Lifecycle} {rest : List DropStep} (h : Orderly s.flags rest) :
    Dropper.Safe s (.of rest) where
  orderly := h
  down w hw := by simp [Dropper.joins, Dropper.of] at hw
  told w hw := by simp [Dropper.of] at hw

namespace Lifecycle

theorem Frame.safe {s s' : Lifecycle} (h : Frame s s') (hx : Dropper.Safe s x) :
    Dropper.Safe s' x where
  orderly := hx.orderly.mono h.flags
  down w hw := ⟨h.flags _ (hx.down w hw).1, (hx.down w hw).2⟩
  told w hw := by
    cases hx.told w hw with
    | inl ht => exact .inl (h.token w ht)
    | inr hp => exact .inr (by rwa [h.stage w])

theorem stage_of_exited {s : Lifecycle} (h : s.exited w = true) :
    (s.workers w).thread.stage = .exited := by
  simp only [exited, Bool.and_eq_true, decide_eq_true_eq] at h
  exact h.1

theorem exited_of_frame {s s' : Lifecycle} (h : Frame s s') (w : WorkerName) :
    s'.exited w = s.exited w := by
  simp only [exited, h.stage w, h.ending w]

/-- The last `Arc` to `Inner` is not let go while something else counts on one. -/
def Sole (s : Lifecycle) (d : Dropper) : Prop :=
  s.innerCount = 1 → 1 ≤ d.inner → s.persistent = false ∧ s.isOpen = false

theorem inner_of_release (rest : List DropStep) : 1 ≤ (Dropper.of (.releaseInner :: rest)).inner := by
  rw [inner_cons]
  exact Nat.le_add_right 1 _

theorem Advances.safe {s s' : Lifecycle} (h : Advances s d s' d') (hd : Dropper.Safe s d)
    (hs : Sole s d) : Dropper.Safe s' d' := by
  have hf := h.frame
  cases h with
  | @unpark w rest =>
    refine ⟨hd.orderly, fun x hx => hd.down x ?_, fun x hx => ?_⟩
    · simpa [Dropper.joins] using hx
    · cases hx
      have htold := w.service.told_unpark (s.workers w).thread
      simpa [Lifecycle.unpark, putWorker] using htold
  | join hw => exact .of hd.orderly
  | clear => exact .of hd.orderly.2
  | @take w rest hw =>
    refine ⟨hd.orderly.2.2, fun x hx => ?_, fun x hx => by cases hx⟩
    obtain rfl : w = x := by simpa [Dropper.joins] using hx
    exact ⟨hd.orderly.1, hd.orderly.2.1⟩
  | skip hw => exact .of hd.orderly.2.2
  | recycle => exact .of hd.orderly.2
  | discard => exact .of hd.orderly.2
  | releaseInner hn => exact .of hd.orderly
  | freeInner hn =>
    rw [(hs hn (inner_of_release _)).1]
    exact .of ((orderly_dropInner _).append hd.orderly)
  | releasePool hn => exact .of hd.orderly
  | freePool hn => exact .of ((orderly_dropPool _ _).append hd.orderly)

/-- A handle that is still there with its flag down is one that the thread is going to take. -/
theorem Advances.takes {s s' : Lifecycle} (h : Advances s d s' d') (hd : Dropper.Safe s d)
    (hf : s'.flags w.flag = false) (hw : s'.handles w = true) :
    .take w ∈ d'.rest ∨
      s.flags w.flag = false ∧ s.handles w = true ∧ (.take w ∈ d.rest → .take w ∈ d'.rest) := by
  cases h with
  | unpark | join => exact .inr ⟨hf, hw, id⟩
  | @clear f rest =>
    by_cases hwf : w.flag = f
    · exact .inl (hd.orderly.1 w hwf)
    · refine .inr ⟨by simpa [Function.update_of_ne hwf] using hf, hw, fun hm => ?_⟩
      simpa [Dropper.of] using hm
  | @take x rest hx =>
    have hne : w ≠ x := by
      rintro rfl
      simp at hw
    refine .inr ⟨hf, by simpa [Function.update_of_ne hne] using hw, fun hm => ?_⟩
    simpa [Dropper.of, hne] using hm
  | @skip x rest hx =>
    have hne : w ≠ x := by
      rintro rfl
      simp [hx] at hw
    refine .inr ⟨hf, hw, fun hm => ?_⟩
    simpa [Dropper.of, hne] using hm
  | recycle | discard | releaseInner | releasePool =>
    exact .inr ⟨hf, hw, fun hm => by simpa [Dropper.of] using hm⟩
  | freeInner | freePool =>
    refine .inr ⟨hf, hw, fun hm => ?_⟩
    exact List.mem_append_right _ (by simpa [Dropper.of] using hm)

theorem Advances.joining {s s' : Lifecycle} (h : Advances s d s' d') (hw : s'.handles w = false)
    (he : s.exited w = false) :
    d'.joins w = true ∨ s.handles w = false ∧ (d.joins w = true → d'.joins w = true) := by
  cases h with
  | unpark => exact .inr ⟨hw, fun hj => by simpa [Dropper.joins] using hj⟩
  | @join x rest hx =>
    refine .inr ⟨hw, fun hj => ?_⟩
    obtain rfl : x = w := by simpa [Dropper.joins] using hj
    rw [hx] at he
    cases he
  | @take x rest hx =>
    by_cases hwx : w = x
    · subst hwx
      exact .inl (by simp [Dropper.joins])
    · refine .inr ⟨by simpa [Function.update_of_ne hwx] using hw, fun hj => ?_⟩
      simp [Dropper.joins, Dropper.of] at hj
  | clear | skip | recycle | discard | releaseInner | freeInner | releasePool | freePool =>
    exact .inr ⟨hw, fun hj => by simp [Dropper.joins, Dropper.of] at hj⟩

/-- The flag is down, or someone is going to clear it. -/
def Falling (s : Lifecycle) (f : Flag) : Prop :=
  s.flags f = false ∨ ∃ d ∈ s.droppers, DropStep.clear f ∈ d.rest

theorem Advances.falls {s s' : Lifecycle} (h : Advances s d s' d') (hc : .clear f ∈ d.rest) :
    s'.flags f = false ∨ .clear f ∈ d'.rest := by
  cases h with
  | @clear g rest =>
    by_cases hfg : f = g
    · exact .inl (by simp [hfg])
    · exact .inr (by simpa [Dropper.of, hfg] using hc)
  | unpark | join => exact .inr hc
  | take | skip | recycle | discard | releaseInner | releasePool =>
    exact .inr (by simpa [Dropper.of] using hc)
  | freeInner | freePool =>
    exact .inr (List.mem_append_right _ (by simpa [Dropper.of] using hc))

theorem Advances.falling {s s' : Lifecycle} (h : Advances s d s' d') (hs : Sole s d)
    (hf : s'.flags f = false ∨ .clear f ∈ d'.rest) :
    (s.flags f = false ∨ .clear f ∈ d.rest) ∨
      f = .resync ∧ s'.innerCount = 0 ∧ s.isOpen = false := by
  cases h with
  | @clear g rest =>
    by_cases hfg : f = g
    · exact .inl (.inr (by simp [Dropper.of, hfg]))
    · simp only [Function.update_of_ne hfg] at hf
      exact .inl (hf.imp_right fun hm => List.mem_cons_of_mem _ hm)
  | unpark | join => exact .inl hf
  | take | skip | recycle | releaseInner | releasePool =>
    exact .inl (hf.imp_right fun hm => List.mem_cons_of_mem _ hm)
  | discard => exact .inl (hf.imp_right fun hm => by simpa [Dropper.of] using hm)
  | freeInner hn =>
    obtain ⟨hp, ho⟩ := hs hn (inner_of_release _)
    rw [hp] at hf
    rcases hf with hf | hf
    · exact .inl (.inl hf)
    · rcases List.mem_append.1 hf with hm | hm
      · exact .inr ⟨by simpa [dropInner, dropPersistenceIf] using hm, rfl, ho⟩
      · exact .inl (.inr (List.mem_cons_of_mem _ hm))
  | freePool hn =>
    refine .inl (hf.imp_right fun hm => ?_)
    rcases List.mem_append.1 hm with hm | hm
    · simp [dropPool] at hm
    · exact List.mem_cons_of_mem _ hm

theorem Advances.freed {s s' : Lifecycle} (h : Advances s d s' d') (hz : s'.innerCount = 0) :
    s.innerCount = 0 ∨ .clear .resync ∈ d'.rest := by
  cases h with
  | releaseInner hn => cases hz
  | freeInner hn => exact .inr List.mem_cons_self
  | _ => exact .inl hz

theorem Advances.stays_freed {s s' : Lifecycle} (h : Advances s d s' d') (hz : s.innerCount = 0) :
    s'.innerCount = 0 := by
  cases h with
  | releaseInner hn => simp [hn] at hz
  | freeInner hn => rfl
  | _ => exact hz

/-- When a flag has to be on its way down. -/
def MustFall (s : Lifecycle) : Flag → Prop
  | .background => s.isOpen = false
  | .persistence => s.isOpen = false ∧ s.persistent = true
  | .resync => s.innerCount = 0

structure Safe (s : Lifecycle) : Prop where
  droppers : ∀ d ∈ s.droppers, Dropper.Safe s d
  taken : ∀ w, s.flags w.flag = false → s.handles w = true →
    ∃ d ∈ s.droppers, DropStep.take w ∈ d.rest
  joined : ∀ w, s.handles w = false → s.exited w = false → ∃ d ∈ s.droppers, d.joins w = true
  ending : ∀ w, (s.workers w).ending = .of [] ∨
    w.holdsInner = true ∧ (s.workers w).ending = .of [.releaseInner]
  stopped : ∀ w, (s.workers w).thread.stage = .exited → (s.workers w).ending ≠ .of [] →
    s.flags w.flag = false
  counted : Counted s
  closing : ∀ f, s.Falling f → s.isOpen = false
  cleared : ∀ f, s.MustFall f → s.Falling f
  resync : s.Falling .resync → s.innerCount = 0
  unstarted : s.persistent = false → ∀ w, w.flag = .persistence → s.exited w = true

section
variable {s t : Lifecycle}

theorem inner_dropDatabase (persistent : Bool) :
    (Dropper.of (StupidKv.dropDatabase persistent)).inner = 1 + persistent.toNat := by
  cases persistent <;> rfl

theorem sum_single_le {l : List Dropper} (hd : d ∈ l) (f : Dropper → Nat) : f d ≤ (l.map f).sum :=
  List.single_le_sum (fun _ _ => Nat.zero_le _) _ (List.mem_map.2 ⟨d, hd, rfl⟩)

theorem Counted.isOpen (h : Counted s) (ho : s.isOpen = true) :
    s.innerCount ≠ 0 ∧ s.poolCount ≠ 0 := by
  have hi := h.inner
  have hp := h.pool
  rw [ho] at hi hp
  simp only [if_true, inner_dropDatabase, Bool.toNat_true] at hi hp
  omega

theorem Counted.sole (h : Counted s) (hd : d ∈ s.droppers) : Sole s d := by
  intro hone hpos
  have hi := h.inner
  have hle := sum_single_le hd Dropper.inner
  cases hp : s.persistent with
  | true =>
    rw [hp] at hi
    simp only [Bool.toNat_true] at hi
    omega
  | false =>
    apply And.intro rfl
    cases ho : s.isOpen with
    | false => rfl
    | true =>
      rw [ho] at hi
      simp only [if_true, inner_dropDatabase] at hi
      omega

theorem Counted.run {s' : Lifecycle} (h : Counted s) (hi : s.droppers[i]? = some d)
    (had : Advances s d s' d') (hd : Dropper.Safe s d) :
    Counted { s' with droppers := s'.droppers.set i d' } := by
  have hf := had.frame
  have hsum := sum_set hi Dropper.inner d'
  have hsum' := sum_set hi Dropper.pool d'
  have hle := sum_single_le (List.mem_of_getElem? hi) Dropper.inner
  have hle' := sum_single_le (List.mem_of_getElem? hi) Dropper.pool
  have hinner := h.inner
  have hpool := h.pool
  obtain ⟨k, hk⟩ : ∃ k, (s.droppers.map Dropper.inner).sum = k + d.inner :=
    ⟨_, (Nat.sub_add_cancel hle).symm⟩
  obtain ⟨l, hl⟩ : ∃ l, (s.droppers.map Dropper.pool).sum = l + d.pool :=
    ⟨_, (Nat.sub_add_cancel hle').symm⟩
  have hw : ∑ w, (s'.workers w).ending.inner = ∑ w, (s.workers w).ending.inner :=
    Finset.sum_congr rfl fun w _ => congrArg Dropper.inner (hf.ending w)
  obtain ⟨hc, hc'⟩ := had.counted hd.orderly
    (k := (if s.isOpen then (Dropper.of (StupidKv.dropDatabase s.persistent)).inner else 0) +
      s.persistent.toNat + s.transactions + k + ∑ w, (s.workers w).ending.inner)
    (l := s.isOpen.toNat + s.transactions + l) (by omega) (by omega) (by omega)
  constructor
  · change s'.innerCount = _
    simp only [hf.isOpen, hf.persistent, hf.transactions, had.droppers, hw]
    change _ = _ + s'.heldByPool
    omega
  · change s'.poolCount = _
    simp only [hf.isOpen, hf.transactions, had.droppers]
    omega

theorem Safe.run {s' : Lifecycle} (h : Safe s) (hi : s.droppers[i]? = some d)
    (had : Advances s d s' d') : Safe { s' with droppers := s'.droppers.set i d' } := by
  have hmem := List.mem_of_getElem? hi
  have hd := h.droppers d hmem
  have hsole := h.counted.sole hmem
  have hf : Frame s { s' with droppers := s'.droppers.set i d' } := { had.frame with }
  have hi' : s'.droppers[i]? = some d := had.droppers ▸ hi
  have hnew : d' ∈ s'.droppers.set i d' := (mem_set_iff hi' d' d').2 (.inl rfl)
  have hfall : ∀ f, Falling { s' with droppers := s'.droppers.set i d' } f →
      s.Falling f ∨ f = .resync ∧ s'.innerCount = 0 ∧ s.isOpen = false := by
    intro f hf
    rcases hf with hf | ⟨x, hx, hc⟩
    · exact (had.falling hsole (.inl hf)).imp_left
        fun hs => hs.imp_right fun hm => ⟨d, hmem, hm⟩
    · rcases (mem_set_iff hi' d' x).1 hx with rfl | ⟨j, -, hj⟩
      · exact (had.falling hsole (.inr hc)).imp_left
          fun hs => hs.imp_right fun hm => ⟨d, hmem, hm⟩
      · exact .inl (.inr ⟨x, List.mem_of_getElem? (had.droppers ▸ hj), hc⟩)
  exact {
    droppers := by
      intro x hx
      rcases (mem_set_iff hi' d' x).1 hx with rfl | ⟨j, -, hj⟩
      · exact Frame.safe { Frame.refl s' with } (had.safe hd hsole)
      · exact hf.safe (h.droppers x (List.mem_of_getElem? (had.droppers ▸ hj)))
    taken := by
      intro w hw hh
      rcases had.takes hd hw hh with hm | ⟨hw, hh, hm⟩
      · exact ⟨d', hnew, hm⟩
      · exact exists_set hi' (had.droppers ▸ h.taken w hw hh) hm
    joined := by
      intro w hh he
      rw [exited_of_frame hf] at he
      rcases had.joining hh he with hm | ⟨hh, hm⟩
      · exact ⟨d', hnew, hm⟩
      · exact exists_set hi' (had.droppers ▸ h.joined w hh he) hm
    ending := by
      intro w
      rw [hf.ending w]
      exact h.ending w
    stopped := by
      intro w hs he
      rw [hf.stage w] at hs
      rw [hf.ending w] at he
      exact hf.flags _ (h.stopped w hs he)
    counted := h.counted.run hi had hd
    closing := by
      intro f hff
      rw [hf.isOpen]
      rcases hfall f hff with hs | ⟨-, -, ho⟩
      · exact h.closing f hs
      · exact ho
    cleared := by
      have hkeep : ∀ f, s.Falling f →
          Falling { s' with droppers := s'.droppers.set i d' } f := by
        rintro f (hs | hs)
        · exact .inl (hf.flags f hs)
        · obtain ⟨x, hx, hc⟩ := had.droppers ▸ hs
          rcases (mem_iff_at hi' x).1 hx with rfl | hj
          · exact (had.falls hc).imp_right fun hm => ⟨d', hnew, hm⟩
          · exact .inr ⟨x, (mem_set_iff hi' d' x).2 (.inr hj), hc⟩
      intro f hm
      cases f with
      | background => exact hkeep _ (h.cleared .background (hf.isOpen.symm.trans hm))
      | persistence =>
        exact hkeep _ (h.cleared .persistence ⟨hf.isOpen.symm.trans hm.1, hf.persistent.symm.trans hm.2⟩)
      | resync =>
        rcases had.freed hm with hz | hm
        · exact hkeep _ (h.cleared .resync hz)
        · exact .inr ⟨d', hnew, hm⟩
    resync := by
      intro hff
      rcases hfall .resync hff with hs | ⟨-, hz, -⟩
      · exact had.stays_freed (h.resync hs)
      · exact hz
    unstarted := by
      intro hp w hw
      rw [exited_of_frame hf]
      exact h.unstarted (hf.persistent ▸ hp) w hw }

theorem Safe.call (h : Safe s) (new : List Dropper) (hw : t.workers = s.workers)
    (hf : t.flags = s.flags) (hh : t.handles = s.handles) (hp : t.persistent = s.persistent)
    (hd : t.droppers = s.droppers ++ new) (hnew : ∀ d ∈ new, Dropper.Safe t d) (hc : Counted t)
    (hclosing : ∀ f, t.Falling f → t.isOpen = false)
    (hcleared : ∀ f, t.MustFall f → t.Falling f)
    (hresync : t.Falling .resync → t.innerCount = 0) : Safe t := by
  have hex : ∀ w, t.exited w = s.exited w := fun w => by simp only [exited, hw]
  exact {
    droppers := by
      intro d hm
      rcases List.mem_append.1 (hd ▸ hm) with hm | hm
      · obtain ⟨ho, hdown, htold⟩ := h.droppers d hm
        exact ⟨hf ▸ ho, fun w hj => hf ▸ hdown w hj, fun w hj => hw ▸ htold w hj⟩
      · exact hnew d hm
    taken := by
      intro w hfl hha
      obtain ⟨d, hm, ht⟩ := h.taken w (hf ▸ hfl) (hh ▸ hha)
      exact ⟨d, hd ▸ List.mem_append_left _ hm, ht⟩
    joined := by
      intro w hha he
      obtain ⟨d, hm, ht⟩ := h.joined w (hh ▸ hha) (hex w ▸ he)
      exact ⟨d, hd ▸ List.mem_append_left _ hm, ht⟩
    ending := fun w => hw ▸ h.ending w
    stopped := fun w hs he => hf ▸ h.stopped w (hw ▸ hs) (hw ▸ he)
    counted := hc
    closing := hclosing
    cleared := hcleared
    resync := hresync
    unstarted := fun hp' w hx => hex w ▸ h.unstarted (hp ▸ hp') w hx }

theorem Safe.not_falling (h : Safe s) (ho : s.isOpen = true) (f : Flag) : ¬ s.Falling f := by
  intro hf
  rw [h.closing f hf] at ho
  cases ho

theorem Safe.begin (h : Safe s) (ho : s.isOpen = true) (hs : s.step .begin = some t) : Safe t := by
  have hc := h.counted
  obtain ⟨hinner, hpool⟩ := hc.isOpen ho
  simp only [step, if_pos ho, Option.some.injEq] at hs
  subst hs
  have hc' : Counted { s with
      poolCount := s.poolCount + 1
      innerCount := if s.pooled = 0 then s.innerCount + 1 else s.innerCount
      pooled := s.pooled - 1
      transactions := s.transactions + 1 } := by
    constructor
    · have hi := hc.inner
      simp only [heldByPool, if_neg hpool, if_pos ho, Nat.succ_ne_zero, if_false] at hi ⊢
      split <;> omega
    · have hp := hc.pool
      simp only at hp ⊢
      omega
  refine h.call [] rfl rfl rfl rfl (by simp) (by simp) hc' ?_ ?_ ?_
  · intro f hf
    exact absurd hf (h.not_falling ho f)
  · intro f hm
    cases f with
    | background => exact absurd (ho.symm.trans hm) (by simp)
    | persistence => exact absurd (ho.symm.trans hm.1) (by simp)
    | resync => exact absurd hm (hc'.isOpen ho).1
  · intro hf
    exact absurd hf (h.not_falling ho .resync)

theorem falling_spawn (s : Lifecycle) (rest : List DropStep)
    (ht : t.droppers = s.droppers ++ [.of rest]) (hf : t.flags = s.flags) (f : Flag) :
    t.Falling f ↔ s.Falling f ∨ .clear f ∈ rest := by
  simp only [Falling, ht, hf, List.mem_append, List.mem_singleton, or_and_right, exists_or,
    exists_eq_left, Dropper.of, or_assoc]

theorem Safe.dropTransaction (h : Safe s) (hs : s.step .dropTransaction = some t) : Safe t := by
  have hc := h.counted
  obtain ⟨hn, he⟩ := Option.ite_none_left_eq_some.1 hs
  cases he
  have hfall := falling_spawn s StupidKv.dropTransaction (t := { s with
    transactions := s.transactions - 1
    droppers := s.droppers ++ [.of StupidKv.dropTransaction] }) rfl rfl
  have hno : ∀ f, DropStep.clear f ∉ StupidKv.dropTransaction := by simp [StupidKv.dropTransaction]
  refine h.call [.of StupidKv.dropTransaction] rfl rfl rfl rfl rfl ?_ ?_ ?_ ?_ ?_
  · intro d hd
    obtain rfl := List.mem_singleton.1 hd
    exact .of ⟨by simp, trivial⟩
  · have hi := hc.inner
    have hp := hc.pool
    have hone : (Dropper.of StupidKv.dropTransaction).inner = 1 := rfl
    have hone' : (Dropper.of StupidKv.dropTransaction).pool = 1 := rfl
    constructor
    · simp only [heldByPool, List.map_append, List.map_cons, List.map_nil, List.sum_append,
        List.sum_cons, List.sum_nil, hone] at hi ⊢
      omega
    · simp only [List.map_append, List.map_cons, List.map_nil, List.sum_append, List.sum_cons,
        List.sum_nil, hone']
      omega
  · intro f hf
    exact h.closing f (((hfall f).1 hf).resolve_right (hno f))
  · intro f hm
    apply (hfall f).2 ∘ Or.inl
    apply h.cleared f
    cases f <;> exact hm
  · intro hf
    exact h.resync (((hfall _).1 hf).resolve_right (hno _))

theorem Safe.dropDatabase (h : Safe s) (ho : s.isOpen = true)
    (hs : s.step .dropDatabase = some t) : Safe t := by
  have hc := h.counted
  simp only [step, if_pos ho, Option.some.injEq] at hs
  subst hs
  have hfall := falling_spawn s (StupidKv.dropDatabase s.persistent) (t := { s with
    isOpen := false
    droppers := s.droppers ++ [.of (StupidKv.dropDatabase s.persistent)] }) rfl rfl
  refine h.call [.of (StupidKv.dropDatabase s.persistent)] rfl rfl rfl rfl rfl ?_ ?_ ?_ ?_ ?_
  · intro d hd
    obtain rfl := List.mem_singleton.1 hd
    exact .of (orderly_dropDatabase _ _)
  · have hi := hc.inner
    have hp := hc.pool
    have hone : (Dropper.of (StupidKv.dropDatabase s.persistent)).pool = 1 := by
      cases s.persistent <;> rfl
    rw [ho] at hi hp
    constructor
    · simp only [heldByPool, List.map_append, List.map_cons, List.map_nil, List.sum_append,
        List.sum_cons, List.sum_nil, if_true, Bool.false_eq_true, if_false] at hi ⊢
      omega
    · simp only [List.map_append, List.map_cons, List.map_nil, List.sum_append, List.sum_cons,
        List.sum_nil, hone, Bool.toNat_true, Bool.toNat_false] at hp ⊢
      omega
  · intro f hf
    rfl
  · intro f hm
    apply (hfall f).2
    cases f with
    | background => exact .inr (by cases s.persistent <;> decide)
    | persistence =>
      obtain ⟨-, hp⟩ := hm
      replace hp : s.persistent = true := hp
      rw [hp]
      exact .inr (by decide)
    | resync => exact absurd hm (hc.isOpen ho).1
  · intro hf
    rcases (hfall .resync).1 hf with hf | hf
    · exact h.resync hf
    · have hno : ∀ p, DropStep.clear .resync ∉ StupidKv.dropDatabase p := by decide
      exact absurd hf (hno _)

theorem Safe.unpark (h : Safe s) (w : WorkerName) : Safe (s.unpark w) := by
  have hf := Frame.unpark s w
  exact {
    droppers := fun d hd => hf.safe (h.droppers d hd)
    taken := h.taken
    joined := fun x hh he => h.joined x hh (exited_of_frame hf x ▸ he)
    ending := fun x => hf.ending x ▸ h.ending x
    stopped := fun x hs he => h.stopped x (hf.stage x ▸ hs) (hf.ending x ▸ he)
    counted := by
      have hw : ∑ x, ((s.unpark w).workers x).ending.inner = ∑ x, (s.workers x).ending.inner :=
        Finset.sum_congr rfl fun x _ => congrArg Dropper.inner (hf.ending x)
      exact ⟨hw.symm ▸ h.counted.inner, h.counted.pool⟩
    closing := h.closing
    cleared := h.cleared
    resync := h.resync
    unstarted := fun hp x hx => exited_of_frame hf x ▸ h.unstarted hp x hx }

/-- Only a thread that drops something takes the last `Arc` from under a worker: while a worker has
its own, whoever joins it has another one. -/
theorem Safe.shared (h : Safe s) (hs : (s.workers w).thread.stage = .exited)
    (he : (s.workers w).ending = .of [.releaseInner]) : ∃ n, s.innerCount = n + 2 := by
  have hdown := h.stopped w hs (by simp [he, Dropper.of])
  have hholds : w.holdsInner = true := by
    rcases h.ending w with hn | ⟨hh, -⟩
    · simp [hn, Dropper.of] at he
    · exact hh
  obtain ⟨d, hd, hpos⟩ : ∃ d ∈ s.droppers, 1 ≤ d.inner := by
    cases hh : s.handles w with
    | true =>
      obtain ⟨d, hd, ht⟩ := h.taken w hdown hh
      exact ⟨d, hd, inner_pos ((h.droppers d hd).orderly.releases hholds ht)⟩
    | false =>
      have hex : s.exited w = false := by simp [exited, he, Dropper.finished, Dropper.of]
      obtain ⟨d, hd, hj⟩ := h.joined w hh hex
      exact ⟨d, hd, inner_pos (((h.droppers d hd).down w hj).2 hholds)⟩
  have hle := sum_single_le hd Dropper.inner
  have hone : (s.workers w).ending.inner = 1 := by rw [he]; rfl
  have hle' : (s.workers w).ending.inner ≤ ∑ x, (s.workers x).ending.inner :=
    Finset.single_le_sum (f := fun x => (s.workers x).ending.inner) (fun _ _ => Nat.zero_le _)
      (Finset.mem_univ w)
  have hi := h.counted.inner
  exact ⟨s.innerCount - 2, by omega⟩

theorem putWorker_workers (s : Lifecycle) (w x : WorkerName) (worker : Worker) :
    (s.putWorker w worker).workers x = if x = w then worker else s.workers x := by
  simp only [putWorker, Function.update_apply]

theorem Safe.ending_step (h : Safe s) (hs : (s.workers w).thread.stage = .exited)
    (had : s.advance (s.workers w).ending = some (s', e)) : ∃ n, s.innerCount = n + 2 ∧
      s' = { s with innerCount := n + 1 } ∧ e = .of [] ∧
      (s.workers w).ending = .of [.releaseInner] := by
  rcases h.ending w with he | ⟨-, he⟩
  · rw [he] at had
    cases had
  · obtain ⟨n, hn⟩ := h.shared hs he
    rw [he] at had
    simp only [advance, Dropper.of, dropStep, hn, Option.some.injEq, Prod.mk.injEq] at had
    obtain ⟨rfl, rfl⟩ := had
    exact ⟨n, hn, rfl, rfl, he⟩

theorem Safe.workEnding (h : Safe s) (hs : (s.workers w).thread.stage = .exited)
    (had : s.advance (s.workers w).ending = some (s', e)) :
    Safe (s'.putWorker w ⟨(s'.workers w).thread, e⟩) := by
  obtain ⟨n, hn, rfl, rfl, he⟩ := h.ending_step hs had
  have hthread : ∀ x, ((putWorker { s with innerCount := n + 1 } w
      ⟨(s.workers w).thread, .of []⟩).workers x).thread = (s.workers x).thread := by
    intro x
    rw [putWorker_workers]
    split
    · rename_i hx
      rw [hx]
    · rfl
  have hexited : ∀ x, s.exited x = true → exited (putWorker { s with innerCount := n + 1 } w
      ⟨(s.workers w).thread, .of []⟩) x = true := by
    intro x hx
    simp only [exited, putWorker_workers] at hx ⊢
    split
    · simp [hs, Dropper.finished]
    · exact hx
  exact {
    droppers := fun d hd => ⟨(h.droppers d hd).orderly, (h.droppers d hd).down, fun x hx => by
      unfold Service.Told
      rw [hthread x]
      exact (h.droppers d hd).told x hx⟩
    taken := h.taken
    joined := fun x hh hx => h.joined x hh (by
      cases hs : s.exited x with
      | false => rfl
      | true => exact absurd (hexited x hs) (by simp [hx]))
    ending := by
      intro x
      rw [putWorker_workers]
      split
      · exact .inl rfl
      · exact h.ending x
    stopped := by
      intro x hx hne
      rw [hthread x] at hx
      rw [putWorker_workers] at hne
      split at hne
      · exact absurd rfl hne
      · exact h.stopped x hx hne
    counted := by
      have hsum := sum_putWorker (fun _ worker => worker.ending.inner)
        { s with innerCount := n + 1 } w ⟨(s.workers w).thread, .of []⟩
      have hone : (s.workers w).ending.inner = 1 := by rw [he]; rfl
      have hzero : (Dropper.of []).inner = 0 := rfl
      have hi := h.counted.inner
      refine ⟨?_, h.counted.pool⟩
      simp only [hone, hzero] at hsum
      change n + 1 = (if s.isOpen then (Dropper.of (StupidKv.dropDatabase s.persistent)).inner
        else 0) + s.persistent.toNat + s.transactions + (s.droppers.map Dropper.inner).sum +
        _ + s.heldByPool
      simp only [putWorker] at hsum ⊢
      omega
    closing := h.closing
    cleared := by
      intro f hm
      cases f with
      | resync => cases hm
      | background => exact h.cleared .background hm
      | persistence => exact h.cleared .persistence hm
    resync := by
      intro hf
      have hz := h.resync hf
      rw [hn] at hz
      cases hz
    unstarted := fun hp x hx => hexited x (h.unstarted hp x hx) }

theorem next_up (w : WorkerName) (stolen : Stolen) (place : WorkerPlace) (h : place ≠ .exited) :
    w.service.next true stolen place ≠ .exited := by
  cases w <;> cases place <;> simp [WorkerName.service, WorkerPlace.loop,
    WorkerPlace.resyncLoop, WorkerPlace.appendLoop] at h ⊢
  cases stolen with
  | retry => simp
  | operation full => cases full <;> simp
  | empty gathered => cases gathered <;> simp

theorem Safe.workLoop (h : Safe s)
    (hs : w.service.step (s.flags w.flag) timeout stolen (s.workers w).thread = some thread) :
    Safe (s.putWorker w { s.workers w with thread }) := by
  obtain ⟨hrun, hstage, -⟩ := Service.step_cases hs
  have hne : (s.workers w).thread.stage ≠ .exited := by simpa [WorkerName.service] using hrun
  have hending : ∀ x, ((s.putWorker w { s.workers w with thread }).workers x).ending =
      (s.workers x).ending := by
    intro x
    rw [putWorker_workers]
    split
    · rename_i hx
      rw [hx]
    · rfl
  have hexited : ∀ x, s.exited x = true →
      exited (s.putWorker w { s.workers w with thread }) x = true := by
    intro x hx
    have hxw : x ≠ w := by
      rintro rfl
      simp [exited, hne] at hx
    simpa [exited, putWorker_workers, hxw] using hx
  exact {
    droppers := fun d hd => ⟨(h.droppers d hd).orderly, (h.droppers d hd).down, fun x hx => by
      have htold := (h.droppers d hd).told x hx
      rw [putWorker_workers]
      split
      · rename_i hxw
        subst hxw
        have hdown := ((h.droppers d hd).down x (by simp [Dropper.joins, hx])).1
        rw [hdown] at hs
        exact htold.step x.lawful hs
      · exact htold⟩
    taken := h.taken
    joined := fun x hh hx => h.joined x hh (by
      cases hs : s.exited x with
      | false => rfl
      | true => exact absurd (hexited x hs) (by simp [hx]))
    ending := fun x => hending x ▸ h.ending x
    stopped := by
      intro x hx he
      rw [hending x] at he
      rw [putWorker_workers] at hx
      split at hx
      · rename_i hxw
        subst hxw
        cases hf : s.flags x.flag with
        | false => exact hf
        | true =>
          rw [hf] at hstage
          exact absurd (hstage.symm.trans hx) (next_up x stolen _ hne)
      · exact h.stopped x hx he
    counted := by
      have hsum : ∑ x, ((s.putWorker w { s.workers w with thread }).workers x).ending.inner =
          ∑ x, (s.workers x).ending.inner :=
        Finset.sum_congr rfl fun x _ => congrArg Dropper.inner (hending x)
      exact ⟨hsum.symm ▸ h.counted.inner, h.counted.pool⟩
    closing := h.closing
    cleared := h.cleared
    resync := h.resync
    unstarted := fun hp x hx => hexited x (h.unstarted hp x hx) }

theorem Safe.step (h : Safe s) (hs : s.step a = some t) : Safe t := by
  cases a with
  | begin =>
    obtain ⟨ho, -⟩ := Option.ite_none_right_eq_some.1 hs
    exact h.begin ho hs
  | commit =>
    obtain ⟨-, he⟩ := Option.ite_none_left_eq_some.1 hs
    cases he
    split
    · exact h.unpark .append
    · exact h
  | dropTransaction => exact h.dropTransaction hs
  | dropDatabase =>
    obtain ⟨ho, -⟩ := Option.ite_none_right_eq_some.1 hs
    exact h.dropDatabase ho hs
  | run i =>
    obtain ⟨d, hd, hs⟩ := Option.bind_eq_some_iff.1 hs
    obtain ⟨⟨s', d'⟩, had, hs⟩ := Option.bind_eq_some_iff.1 hs
    cases hs
    exact h.run hd (advances had)
  | work w timeout stolen =>
    simp only [Lifecycle.step] at hs
    split at hs
    · obtain ⟨⟨s', e⟩, had, hs⟩ := Option.bind_eq_some_iff.1 hs
      cases hs
      exact h.workEnding ‹_› had
    · obtain ⟨thread, ht, hs⟩ := Option.bind_eq_some_iff.1 hs
      cases hs
      exact h.workLoop ht

end

theorem Safe.opened (opts : DatabaseOptions) (popts : Option PersistenceOptions) :
    Safe (.opened opts popts) := by
  have hending : ∀ w, ((Lifecycle.opened opts popts).workers w).ending.inner =
      (w.started opts popts && w.holdsInner).toNat := by
    intro w
    simp only [Lifecycle.opened]
    cases w.started opts popts <;> cases w.holdsInner <;> rfl
  have hfall : ∀ f, ¬ (Lifecycle.opened opts popts).Falling f := by
    rintro f (hf | ⟨d, hd, -⟩)
    · cases hf
    · cases hd
  have hexited : ∀ w, w.started opts popts = false → (Lifecycle.opened opts popts).exited w = true := by
    intro w hw
    simp [exited, Lifecycle.opened, hw, Dropper.finished]
  have hne : (Lifecycle.opened opts popts).innerCount ≠ 0 := by
    simp only [Lifecycle.opened]
    omega
  exact {
    droppers := fun d hd => nomatch hd
    taken := fun w hf => nomatch hf
    joined := fun w hh he => absurd (hexited w hh) (by simp [he])
    ending := by
      intro w
      simp only [Lifecycle.opened]
      split
      · cases hw : w.holdsInner with
        | true => exact .inr ⟨rfl, rfl⟩
        | false => exact .inl rfl
      · exact .inl rfl
    stopped := by
      intro w hs he
      simp only [Lifecycle.opened] at hs he
      split at hs
      · cases hs
      · rename_i hn
        rw [if_neg hn] at he
        exact absurd rfl he
    counted := by
      refine ⟨?_, rfl⟩
      rw [Finset.sum_congr rfl fun w _ => hending w]
      simp only [Lifecycle.opened, inner_dropDatabase, heldByPool, if_true, one_ne_zero, if_false,
        List.map_nil, List.sum_nil]
      omega
    closing := fun f hf => absurd hf (hfall f)
    cleared := by
      intro f hm
      cases f with
      | background => cases hm
      | persistence => cases hm.1
      | resync => exact absurd hm hne
    resync := fun hf => absurd hf (hfall .resync)
    unstarted := by
      intro hp w hw
      apply hexited
      cases popts with
      | some o => cases hp
      | none => cases w <;> first | rfl | cases hw }

/-- Workers that were started run until their flag is down. -/
def Running (opts : DatabaseOptions) (popts : Option PersistenceOptions) (s : Lifecycle) : Prop :=
  s.persistent = popts.isSome ∧
    ∀ w, w.started opts popts = true → (s.workers w).thread.stage = .exited →
      s.flags w.flag = false

variable {opts : DatabaseOptions} {popts : Option PersistenceOptions} {s t : Lifecycle}

theorem Running.frame (h : Running opts popts s) (hf : Frame s t) : Running opts popts t :=
  ⟨hf.persistent.trans h.1, fun w hw hs => hf.flags _ (h.2 w hw (hf.stage w ▸ hs))⟩

theorem Running.step (h : Running opts popts s) (hs : s.step a = some t) :
    Running opts popts t := by
  cases a with
  | begin =>
    obtain ⟨-, he⟩ := Option.ite_none_right_eq_some.1 hs
    cases he
    exact h
  | commit =>
    obtain ⟨-, he⟩ := Option.ite_none_left_eq_some.1 hs
    cases he
    split
    · exact h.frame (Frame.unpark s .append)
    · exact h
  | dropTransaction =>
    obtain ⟨-, he⟩ := Option.ite_none_left_eq_some.1 hs
    cases he
    exact h
  | dropDatabase =>
    obtain ⟨-, he⟩ := Option.ite_none_right_eq_some.1 hs
    cases he
    exact h
  | run i =>
    obtain ⟨d, -, hs⟩ := Option.bind_eq_some_iff.1 hs
    obtain ⟨⟨s', d'⟩, had, hs⟩ := Option.bind_eq_some_iff.1 hs
    cases hs
    exact h.frame { (advances had).frame with }
  | work w timeout stolen =>
    simp only [Lifecycle.step] at hs
    split at hs
    · obtain ⟨⟨s', e⟩, had, hs⟩ := Option.bind_eq_some_iff.1 hs
      cases hs
      have h' := h.frame (advances had).frame
      refine ⟨h'.1, fun x hx hst => h'.2 x hx ?_⟩
      rw [putWorker_workers] at hst
      split at hst
      · rename_i hxw
        rw [hxw]
        exact hst
      · exact hst
    · rename_i hne
      obtain ⟨thread, ht, hs⟩ := Option.bind_eq_some_iff.1 hs
      cases hs
      obtain ⟨-, hstage, -⟩ := Service.step_cases ht
      refine ⟨h.1, fun x hx hst => ?_⟩
      rw [putWorker_workers] at hst
      split at hst
      · rename_i hxw
        subst hxw
        cases hf : s.flags x.flag with
        | false => exact hf
        | true =>
          rw [hf] at hstage
          exact absurd (hstage.symm.trans hst) (next_up x stolen _ hne)
      · exact h.2 x hx hst

theorem Running.opened (opts : DatabaseOptions) (popts : Option PersistenceOptions) :
    Running opts popts (.opened opts popts) := by
  refine ⟨rfl, fun w hw hs => ?_⟩
  simp [Lifecycle.opened, hw] at hs

theorem safe_of_exec (h : Execution.exec step (.opened opts popts) actions = some s) :
    Safe s ∧ Running opts popts s := by
  have hstep : ∀ (s : Lifecycle) a t, Safe s ∧ Running opts popts s → True →
      s.step a = some t → Safe t ∧ Running opts popts t :=
    fun s a t hi _ hs => ⟨hi.1.step hs, hi.2.step hs⟩
  exact (Execution.Run.of_exec h).invariant hstep
    ⟨Safe.opened opts popts, Running.opened opts popts⟩

theorem Safe.exited_of_down (h : Safe s) (hd : ∀ d ∈ s.droppers, d.finished = true)
    (hw : s.flags w.flag = false) : s.exited w = true := by
  cases he : s.exited w with
  | true => rfl
  | false =>
    cases hh : s.handles w with
    | true =>
      obtain ⟨d, hm, ht⟩ := h.taken w hw hh
      rw [Dropper.eq_of_finished (hd d hm)] at ht
      cases ht
    | false =>
      obtain ⟨d, hm, hj⟩ := h.joined w hh he
      rw [Dropper.eq_of_finished (hd d hm)] at hj
      cases hj

theorem Safe.down_of_mustFall (h : Safe s) (hd : ∀ d ∈ s.droppers, d.finished = true)
    (hm : s.MustFall f) : s.flags f = false := by
  rcases h.cleared f hm with hf | ⟨d, hdm, hc⟩
  · exact hf
  · rw [Dropper.eq_of_finished (hd d hdm)] at hc
    cases hc

theorem sum_finished {l : List Dropper} (hd : ∀ d ∈ l, d.finished = true) (f : Dropper → Nat)
    (hf : f (.of []) = 0) : (l.map f).sum = 0 := by
  apply List.sum_eq_zero
  intro n hn
  obtain ⟨d, hm, rfl⟩ := List.mem_map.1 hn
  rw [Dropper.eq_of_finished (hd d hm), hf]

theorem Safe.ending_of_exited (h : Safe s) (hx : ∀ w, w ≠ .resync → s.exited w = true) :
    ∑ w, (s.workers w).ending.inner = 0 := by
  apply Finset.sum_eq_zero
  intro w _
  rcases h.ending w with he | ⟨hh, he⟩
  · rw [he]
    rfl
  · have hw := hx w (by rintro rfl; cases hh)
    simp [exited, he, Dropper.finished, Dropper.of] at hw

/-- What the end of a database leaves. While it is open its workers run, and while it or a
transaction is open `Inner` and the pool are there. When all drops are done, the workers have
exited and the pool is freed; `Inner` and the oracle's worker are gone as well if there is no
`Persistence`, and stay for ever if there is one. -/
theorem what_remains (opts : DatabaseOptions) (popts : Option PersistenceOptions)
    (actions : List LifecycleAction) (s : Lifecycle)
    (h : Execution.exec step (.opened opts popts) actions = some s) :
    (s.isOpen = true → ∀ w, w.started opts popts = true → s.exited w = false) ∧
    (s.isOpen = true ∨ s.transactions ≠ 0 → s.innerCount ≠ 0 ∧ s.poolCount ≠ 0) ∧
    (s.isOpen = false → (∀ d ∈ s.droppers, d.finished = true) →
      (∀ w, w ≠ .resync → s.exited w = true) ∧
      (s.transactions = 0 → s.poolCount = 0 ∧ s.innerCount = popts.isSome.toNat ∧
        s.exited .resync = popts.isNone)) := by
  obtain ⟨hs, hpers, hrun⟩ := safe_of_exec h
  have hi := hs.counted.inner
  have hp := hs.counted.pool
  refine ⟨fun ho w hw => ?_, ?_, fun ho hd => ?_⟩
  · by_contra hx
    have hst := stage_of_exited (Bool.eq_true_of_not_eq_false hx)
    exact hs.not_falling ho w.flag (.inl (hrun w hw hst))
  · rintro (ho | ht)
    · exact hs.counted.isOpen ho
    · exact ⟨by omega, by omega⟩
  · have hx : ∀ w, w ≠ .resync → s.exited w = true := by
      intro w hw
      have hbackground := hs.down_of_mustFall (f := .background) hd ho
      cases hflag : w.flag with
      | background => exact hs.exited_of_down hd (hflag ▸ hbackground)
      | persistence =>
        cases hps : s.persistent with
        | false => exact hs.unstarted hps w hflag
        | true =>
          have hpersistence := hs.down_of_mustFall (f := .persistence) hd ⟨ho, hps⟩
          exact hs.exited_of_down hd (hflag ▸ hpersistence)
      | resync => exact absurd (by cases w <;> first | rfl | cases hflag) hw
    refine ⟨hx, fun ht => ?_⟩
    have hend := hs.ending_of_exited hx
    have hinner := sum_finished hd Dropper.inner rfl
    have hpool := sum_finished hd Dropper.pool rfl
    rw [ho, ht, hpool] at hp
    simp only [ho, ht, hinner, hend, heldByPool, hp, Bool.toNat_false, Nat.add_zero, if_true,
      Bool.false_eq_true, if_false, Nat.zero_add] at hi
    refine ⟨hp, by rw [hi, hpers], ?_⟩
    cases hpo : popts with
    | none =>
      have hz : s.innerCount = 0 := by rw [hi, hpers, hpo]; rfl
      exact hs.exited_of_down hd (hs.down_of_mustFall (f := .resync) hd hz)
    | some o =>
      have hone : s.innerCount = 1 := by rw [hi, hpers, hpo]; rfl
      have hup : s.flags .resync ≠ false := fun hf => by simp [hs.resync (.inl hf)] at hone
      by_contra hx
      have hst := stage_of_exited (Bool.eq_true_of_not_eq_false hx)
      exact hup (hrun .resync rfl hst)

/-- No collector is started. -/
def uncollected : DatabaseOptions :=
  { DatabaseOptions.new with enableCleanup := false, enableGc := false }

/-- The database is dropped while a transaction is open. -/
def closesFirst : List LifecycleAction :=
  [LifecycleAction.begin, .dropDatabase] ++ List.replicate 12 (LifecycleAction.run 0) ++
    [LifecycleAction.dropTransaction] ++ List.replicate 4 (LifecycleAction.run 1)

theorem what_remains_closesFirst :
    ∃ s, Execution.exec step (.opened uncollected (some (.new "data"))) closesFirst = some s ∧
      s.innerCount = 1 ∧ s.poolCount = 0 ∧ s.exited .resync = false := by
  have h : (Execution.exec step (.opened uncollected (some (.new "data"))) closesFirst).map
      (fun s => (s.isOpen, s.transactions, s.droppers.all Dropper.finished)) =
        some (false, 0, true) := by
    decide +kernel
  obtain ⟨s, hrun, hs⟩ := Option.map_eq_some_iff.1 h
  simp only [Prod.mk.injEq, List.all_eq_true] at hs
  obtain ⟨ho, ht, hd⟩ := hs
  obtain ⟨-, -, hend⟩ := what_remains uncollected (some (.new "data")) closesFirst s hrun
  obtain ⟨hx, hfree⟩ := hend ho hd
  obtain ⟨hpool, hinner, hresync⟩ := hfree ht
  exact ⟨s, hrun, hinner, hpool, hresync⟩

end Lifecycle

end StupidKv
