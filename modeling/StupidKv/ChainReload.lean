import StupidKv.VersionLaws

namespace StupidKv
set_option autoImplicit true

/-- Neighbours hold different values, and the first one differs from `value`. -/
def Alternating (value : Option Bytes) : List Version → Prop
  | [] => True
  | e :: l => e.value ≠ value ∧ Alternating e.value l

/-- The value behind which a chain goes on that starts behind `value`. -/
def valueBehind (value : Option Bytes) (l : List Version) : Option Bytes :=
  (l.getLast?.map Version.value).getD value

theorem valueBehind_none (l : List Version) : valueBehind none l = lastValue l := by
  unfold valueBehind lastValue
  cases l.getLast? <;> rfl

theorem alternating_append :
    Alternating x (l ++ l') ↔ Alternating x l ∧ Alternating (valueBehind x l) l' := by
  induction l generalizing x with
  | nil => simp [Alternating, valueBehind]
  | cons e l ih =>
    have hbehind : valueBehind e.value l = valueBehind x (e :: l) := by
      cases l <;> simp [valueBehind, List.getLast?_cons]
    simp only [List.cons_append, Alternating, ih, hbehind, and_assoc]

/-- A chain that no push has anything to skip in: it begins with a value, and neighbours differ. -/
abbrev Versions.Canonical (ch : Versions) : Prop := Alternating none ch.inner

namespace Versions

theorem push_newer (ch : Versions) {w : Version} (h : ∀ e ∈ ch.inner, e.version < w.version) :
    (ch.push w).inner = if lastValue ch.inner = w.value then ch.inner else ch.inner ++ [w] := by
  have hpush : pushVersion (ch.inner ++ []) w = _ := pushVersion_append (by simp) h
  rwa [List.append_nil] at hpush

theorem Canonical.push {ch : Versions} (hc : ch.Canonical)
    (h : ∀ e ∈ ch.inner, e.version < w.version) : (ch.push w).Canonical := by
  change Alternating none (ch.push w).inner
  rw [ch.push_newer h]
  split
  · exact hc
  · rename_i hne
    apply alternating_append.2
    rw [valueBehind_none]
    exact ⟨hc, fun he => hne he.symm, trivial⟩

/-- What compaction drops ends before a value, or with one that it keeps. -/
theorem Canonical.gc {ch : Versions} (hc : ch.Canonical) (v : Nat) :
    (ch.gcOlderVersions v).Canonical := by
  obtain ⟨lo, hi, hl, hlo, hhi⟩ := ch.ascending.split v
  have hgc : (ch.gcOlderVersions v).inner = StupidKv.gcOlderVersions (lo ++ hi) v := by
    rw [← hl]
    rfl
  have halt : Alternating none (lo ++ hi) := hl ▸ hc
  obtain ⟨-, hrest⟩ := alternating_append.1 halt
  rw [valueBehind_none] at hrest
  change Alternating none (ch.gcOlderVersions v).inner
  rw [hgc, gcOlderVersions_split hhi hlo]
  cases lo using List.reverseRecOn with
  | nil => exact hrest
  | append_singleton lo x =>
    rw [lastValue_concat] at hrest
    simp only [List.getLast?_concat]
    cases hx : x.value with
    | none =>
      rw [hx] at hrest
      exact hrest
    | some b => exact ⟨by simp [hx], hrest⟩

theorem pushAll_alternating (ch : Versions) {l : List Version}
    (ha : Ascending (ch.inner ++ l)) (hl : Alternating (lastValue ch.inner) l) :
    (ch.pushAll (l.map fun e => (e.version, e.value))).inner = ch.inner ++ l := by
  induction l generalizing ch with
  | nil => simp [pushAll]
  | cons e l ih =>
    obtain ⟨hne, hrest⟩ := hl
    have hnewer : ∀ a ∈ ch.inner, a.version < e.version := by
      intro a hm
      exact (List.pairwise_append.1 ha).2.2 a hm e (List.mem_cons_self ..)
    have hpush : (ch.push e).inner = ch.inner ++ [e] := by
      rw [ch.push_newer hnewer, if_neg fun he => hne he.symm]
    have hlast : lastValue (ch.push e).inner = e.value := by
      rw [hpush, lastValue_concat]
    have hall := ih (ch.push e) (by rw [hpush, List.append_assoc]; exact ha) (hlast ▸ hrest)
    rw [hpush, List.append_assoc] at hall
    exact hall

theorem Canonical.reload {ch : Versions} (hc : ch.Canonical) :
    Versions.new.pushAll ch.allVersions = ch := by
  apply Versions.ext
  exact Versions.new.pushAll_alternating (l := ch.inner) ch.ascending hc

end Versions

/-- What happens to one chain: a write, or a compaction. -/
inductive ChainOp where
  | push (w : Version)
  | gcOlderVersions (version : Nat)
deriving DecidableEq, Repr

def ChainOp.written : ChainOp → Option Nat
  | push w => some w.version
  | gcOlderVersions _ => none

def Versions.apply (ch : Versions) : ChainOp → Versions
  | .push w => ch.push w
  | .gcOlderVersions version => ch.gcOlderVersions version

/-- The versions written grow from one push to the next. -/
def WrittenInOrder (ops : List ChainOp) : Prop :=
  (ops.filterMap ChainOp.written).Pairwise (· < ·)

instance (ops : List ChainOp) : Decidable (WrittenInOrder ops) :=
  inferInstanceAs (Decidable (List.Pairwise _ _))

theorem Versions.Canonical.foldl {ch : Versions} {ops : List ChainOp} (hc : ch.Canonical)
    (hnew : ∀ e ∈ ch.inner, ∀ v ∈ ops.filterMap ChainOp.written, e.version < v)
    (hops : WrittenInOrder ops) : (ops.foldl Versions.apply ch).Canonical := by
  induction ops generalizing ch with
  | nil => exact hc
  | cons op ops ih =>
    cases op with
    | push w =>
      obtain ⟨hw, hops⟩ := List.pairwise_cons.1 hops
      apply ih (hc.push fun e he => hnew e he w.version (List.mem_cons_self ..)) _ hops
      intro e he v hv
      rcases ch.push_writes_subset w (a := (e.version, e.value)) he with he | he
      · exact (Prod.mk.inj he).1 ▸ hw v hv
      · exact hnew e he v (List.mem_cons_of_mem _ hv)
    | gcOlderVersions version =>
      apply ih (hc.gc version) _ hops
      intro e he v hv
      have hmem := (gcOlderVersions_suffix ch.ascending version).subset he
      exact hnew e hmem v hv

/-- Writing a chain out and pushing it back one by one. -/
def Versions.reload (ch : Versions) : Versions := Versions.new.pushAll ch.allVersions

/-- A reload never shows, and a chain that was written in version order comes back as it was. -/
theorem Versions.reload_exact (ch : Versions) (ops : List ChainOp) (h : WrittenInOrder ops) :
    Ascending ch.reload.inner ∧
      (∀ q, ch.reload.fetchVersion q = ch.fetchVersion q ∧
        ch.reload.existsVersion q = ch.existsVersion q) ∧
      (ops.foldl Versions.apply .new).reload.inner = (ops.foldl Versions.apply .new).inner := by
  have hfetch : ∀ q, ch.reload.fetchVersion q = ch.fetchVersion q := ch.fetchVersion_reload
  have hcanonical : (ops.foldl Versions.apply .new).Canonical := by
    have hnew : Versions.new.Canonical := trivial
    apply hnew.foldl _ h
    intro e he
    cases he
  refine ⟨ch.reload.ascending, ?_, congrArg Versions.inner hcanonical.reload⟩
  intro q
  exact ⟨hfetch q, by rw [existsVersion_eq, existsVersion_eq, hfetch q]⟩

/-- A deletion, a repeated value and a compaction between the writes. -/
def churned : List ChainOp :=
  [.push ⟨1, some [1]⟩, .push ⟨2, some [1]⟩, .push ⟨4, none⟩, .gcOlderVersions 3,
    .push ⟨5, some [2]⟩, .gcOlderVersions 4, .push ⟨9, none⟩]

theorem reload_churned :
    WrittenInOrder churned ∧ (churned.foldl Versions.apply .new).inner = [⟨5, some [2]⟩, ⟨9, none⟩] ∧
      (churned.foldl Versions.apply .new).reload.inner =
        (churned.foldl Versions.apply .new).inner := by
  have hops : WrittenInOrder churned := by decide
  exact ⟨hops, by decide, (Versions.reload_exact .new churned hops).2.2⟩

end StupidKv
