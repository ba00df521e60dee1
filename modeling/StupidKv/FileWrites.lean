import StupidKv.Recovery

namespace StupidKv
open Std
set_option autoImplicit true

/-- What replaying a file keeps of the newest write of a key among the versions that `p` lets
through: the next write takes its place if it is of the same version, or newer and unlike it. -/
def keepNewest (p : Nat → Bool) (newest : Option (Nat × Option Bytes)) (w : Nat × Option Bytes) :
    Option (Nat × Option Bytes) :=
  if p w.1 && newest.elim w.2.isSome fun n =>
      decide (n.1 = w.1) || decide (n.1 < w.1) && decide (n.2 ≠ w.2) then some w
  else newest

/-- The newest write kept of a key: the last line a snapshot has for it counts, then its records.
The first record of a key that no snapshot line has is kept as it is. -/
def keptNewest (p : Nat → Bool) (entries : List Entry) (records : List Record) (key : Bytes) :
    Option (Nat × Option Bytes) :=
  let logged := (records.filter fun r => r.1 = key).map Prod.snd
  match (entries.filter fun e => decide (e.1 = key) && !e.2.isEmpty).getLast?, logged with
  | some e, _ => (e.2 ++ logged).foldl (keepNewest p) none
  | none, [] => none
  | none, w :: logged => logged.foldl (keepNewest p) (if p w.1 then some w else none)

/-- All writes of a key in the two files. -/
def fileWrites (entries : List Entry) (records : List Record) (key : Bytes) :
    List (Nat × Option Bytes) :=
  (entries.filter fun e => e.1 = key).flatMap Prod.snd ++
    (records.filter fun r => r.1 = key).map Prod.snd

/-- The value of the greatest version the files have of a key; of one version the last write. -/
def greatestIn (entries : List Entry) (records : List Record) (key : Bytes) : Option Bytes :=
  ((fileWrites entries records key).foldl
    (fun best w => if best.all fun b => decide (b.1 ≤ w.1) then some w else best) none).bind Prod.snd

/-- The newest entry of a chain among the versions that `p` lets through. -/
def Versions.newest (p : Nat → Bool) (ch : Versions) : Option (Nat × Option Bytes) :=
  (ch.inner.filter fun e => p e.version).getLast?.map fun e => (e.version, e.value)

section
variable {p : Nat → Bool} {ch : Versions}

theorem filter_below {lo : List Version} (hp : ∀ a b, a ≤ b → p b = true → p a = true)
    (h : ∀ a ∈ lo, a.version < v) (hv : p v = true) : (lo.filter fun e => p e.version) = lo :=
  List.filter_eq_self.2 fun a ha => hp _ v (h a ha).le hv

theorem filter_above {hi : List Version} (hp : ∀ a b, a ≤ b → p b = true → p a = true)
    (h : ∀ a ∈ hi, v < a.version) (hv : p v = false) : (hi.filter fun e => p e.version) = [] := by
  refine List.filter_eq_nil_iff.2 fun a ha hpa => ?_
  rw [hp v _ (h a ha).le hpa] at hv
  cases hv

theorem keepNewest_of_lt {n w : Nat × Option Bytes} (h : w.1 < n.1) :
    keepNewest p (some n) w = some n := by
  unfold keepNewest
  rw [if_neg]
  simp only [Option.elim_some, Bool.and_eq_true, Bool.or_eq_true, decide_eq_true_eq]
  omega

theorem newest_of_above {lo hi : List Version}
    (h : (hi.filter fun e => p e.version).getLast? = some m) :
    ((lo ++ hi).filter fun e => p e.version).getLast? = some m := by
  rw [List.filter_append, List.getLast?_append, h, Option.some_or]

/-- A push does to the newest entry what replaying does. -/
theorem Versions.newest_push (hp : ∀ a b, a ≤ b → p b = true → p a = true) (ch : Versions)
    (w : Version) :
    (ch.push w).newest p = keepNewest p (ch.newest p) (w.version, w.value) := by
  have hpush : (ch.push w).inner = pushVersion ch.inner w := rfl
  unfold Versions.newest
  cases hv : p w.version with
  | false =>
    have hkeep : ∀ n, keepNewest p n (w.version, w.value) = n := by
      intro n
      rw [keepNewest, hv, Bool.false_and, if_neg Bool.false_ne_true]
    rw [hkeep]
    rcases ch.ascending.around w.version with
      ⟨lo, hi, hl, hlo, hhi⟩ | ⟨lo, e, hi, hl, he, hlo, hhi⟩
    · rw [hpush, hl, pushVersion_append hhi hlo]
      split
      · rfl
      · simp [List.filter_append, filter_above hp hhi hv, hv]
    · rw [hpush, hl, pushVersion_present he hhi hlo]
      simp [List.filter_append, filter_above hp hhi hv, hv, he]
  | true =>
    rcases ch.ascending.around w.version with
      ⟨lo, hi, hl, hlo, hhi⟩ | ⟨lo, e, hi, hl, he, hlo, hhi⟩
    · have hlow := filter_below hp hlo hv
      rw [hpush, hl, pushVersion_append hhi hlo]
      cases hm : (hi.filter fun e => p e.version).getLast? with
      | none =>
        -- Nothing newer passes: the entry below decides.
        rw [List.getLast?_eq_none_iff] at hm
        have hold : ((lo ++ hi).filter fun e => p e.version) = lo := by
          rw [List.filter_append, hlow, hm, List.append_nil]
        have hnew : ((lo ++ w :: hi).filter fun e => p e.version) = lo ++ [w] := by
          rw [List.filter_append, hlow, List.filter_cons_of_pos (by simpa using hv), hm]
        have hite : ((if lastValue lo = w.value then lo ++ hi else lo ++ w :: hi).filter
            fun e => p e.version) = if lastValue lo = w.value then lo else lo ++ [w] := by
          split
          · exact hold
          · exact hnew
        rw [hite, hold, lastValue]
        cases hn : lo.getLast? with
        | none =>
          rw [List.getLast?_eq_none_iff] at hn
          cases hx : w.value <;> simp [keepNewest, hv, hx, hn]
        | some n =>
          have hlt := hlo n (List.mem_of_getLast? hn)
          by_cases hx : n.value = w.value
          · simp [keepNewest, hn, hx, hlt.ne]
          · simp [keepNewest, hx, hlt, hv]
      | some m =>
        -- A newer entry passes and stays the newest.
        have hlt := hhi m (List.mem_filter.1 (List.mem_of_getLast? hm)).1
        rw [newest_of_above hm, Option.map_some, keepNewest_of_lt hlt]
        split
        · rw [newest_of_above hm, Option.map_some]
        · rw [List.append_cons, newest_of_above hm, Option.map_some]
    · rw [hpush, hl, pushVersion_present he hhi hlo, List.append_cons lo w, List.append_cons lo e]
      cases hm : (hi.filter fun e => p e.version).getLast? with
      | none =>
        rw [List.getLast?_eq_none_iff] at hm
        simp [hm, hv, he, keepNewest]
      | some m =>
        have hlt := hhi m (List.mem_filter.1 (List.mem_of_getLast? hm)).1
        rw [newest_of_above hm, newest_of_above hm, Option.map_some, keepNewest_of_lt hlt]

theorem Versions.newest_pushAll (hp : ∀ a b, a ≤ b → p b = true → p a = true)
    (l : List (Nat × Option Bytes)) (ch : Versions) :
    (ch.pushAll l).newest p = l.foldl (keepNewest p) (ch.newest p) := by
  unfold Versions.pushAll
  induction l generalizing ch with
  | nil => rfl
  | cons w l ih => rw [List.foldl_cons, ih, ch.newest_push hp, List.foldl_cons]

/-- The snapshot gives a key the chain of its last line. -/
theorem loadEntries_getElem? (entries : List Entry) (key : Bytes) :
    (entries.foldl loadEntry ∅)[key]? =
      (entries.filter fun e => decide (e.1 = key) && !e.2.isEmpty).getLast?.map fun e =>
        Versions.new.pushAll e.2 := by
  induction entries using List.reverseRecOn with
  | nil => simp
  | append_singleton entries e ih =>
    rw [List.foldl_concat, loadEntry_getElem?, ih, List.filter_append]
    by_cases hk : e.1 = key ∧ e.2 ≠ []
    · have hone : ([e].filter fun e => decide (e.1 = key) && !e.2.isEmpty) = [e] := by simp [hk]
      rw [if_pos hk, hone, List.getLast?_concat]
      rfl
    · have hnone : ([e].filter fun e => decide (e.1 = key) && !e.2.isEmpty) = [] := by
        simpa using hk
      rw [if_neg hk, hnone, List.append_nil]

/-- The records of a key are pushed onto its chain; the first of a new key starts one. -/
theorem replayRecords_getElem? (records : List Record) (datastore : SkipMap Bytes Versions)
    (key : Bytes) :
    (records.foldl replayRecord datastore)[key]? =
      match datastore[key]?, (records.filter fun r => r.1 = key).map Prod.snd with
      | some ch, logged => some (ch.pushAll logged)
      | none, [] => none
      | none, w :: logged => some ((Versions.ofVersion ⟨w.1, w.2⟩).pushAll logged) := by
  induction records generalizing datastore with
  | nil =>
    cases h : datastore[key]? <;> simp [h, Versions.pushAll]
  | cons r records ih =>
    rw [List.foldl_cons, ih, replayRecord_getElem?]
    by_cases hk : r.1 = key
    · rw [if_pos hk, List.filter_cons_of_pos (by simpa using hk), List.map_cons]
      cases datastore[key]? <;> rfl
    · rw [if_neg hk, List.filter_cons_of_neg (by simpa using hk)]

/-- The newest entry of a chain that `load` builds, told by the contents of the files. -/
theorem newest_load (hp : ∀ a b, a ≤ b → p b = true → p a = true) (entries : List Entry)
    (records : List Record) (key : Bytes) :
    (chainAt (records.foldl replayRecord (entries.foldl loadEntry ∅)) key).newest p =
      keptNewest p entries records key := by
  unfold chainAt keptNewest
  rw [replayRecords_getElem?, loadEntries_getElem?]
  cases (entries.filter fun e => decide (e.1 = key) && !e.2.isEmpty).getLast? with
  | some e =>
    rw [Option.map_some, Option.getD_some, Versions.newest_pushAll hp, Versions.newest_pushAll hp]
    exact List.foldl_append.symm
  | none =>
    rw [Option.map_none]
    cases (records.filter fun r => r.1 = key).map Prod.snd with
    | nil => rfl
    | cons w logged =>
      rw [Option.getD_some, Versions.newest_pushAll hp]
      congr 1
      cases hv : p w.1 <;> simp [Versions.newest, Versions.ofVersion, hv]

theorem Versions.newest_all (ch : Versions) :
    (ch.newest fun _ => true).bind Prod.snd = lastValue ch.inner := by
  unfold Versions.newest lastValue
  simp only [List.filter_true]
  cases ch.inner.getLast? <;> rfl

theorem Versions.newest_upto (ch : Versions) (q : Nat) :
    (ch.newest fun v => decide (v ≤ q)).bind Prod.snd = ch.fetchVersion q := by
  obtain ⟨lo, hi, hl, hlo, hhi⟩ := ch.ascending.split q
  have hfilter : (ch.inner.filter fun e => decide (e.version ≤ q)) = lo := by
    rw [hl, List.filter_append, List.filter_eq_self.2 fun a ha => decide_eq_true (hlo a ha),
      List.filter_eq_nil_iff.2 fun a ha => by simpa using hhi a ha, List.append_nil]
  rw [ch.fetchVersion_split lo hi hl hhi hlo, Versions.newest, hfilter, lastValue]
  cases lo.getLast? <;> rfl

end

end StupidKv
