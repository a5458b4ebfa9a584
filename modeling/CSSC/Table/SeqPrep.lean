import CSSC.Body.SeqState
import CSSC.Library.Selection
import CSSC.Table.DeltaTable
import Mathlib.Logic.Relation

/-!
# Which deltas a version consists of

`prepare_seqstate` marks in a `seq_state` the deltas that a version includes. The first loop of `prepare_seqstate_1`
goes down the predecessors (`predecessors`); its other three are alike, over the included deltas in some order, with
the list of each (`applyLists`). `bNonRecursive` is recorded and never read, and there is no cutoff date here.

The table is read as `References` over the sequence numbers, with the ancestors of a version as the roots. **The
deltas that `prepare_seqstate_1` includes are the selection of the ancestors** (`prepareSeqstate1_spec`). What the
lists of the table pass on holds of every delta included, for any table (`prepareSeqstate1_inherit`).
-/

namespace CSSC.Table

open CSSC.Lines CSSC.Body CSSC.Library.Selection

/-! ### `prepare_seqstate` -/

/-- The loop down the predecessors. Every turn goes to a smaller number, so `seq` bounds the turns; the bound is
a parameter and `diverges` its end. -/
def predecessors (T : DeltaTable) (seq : ℕ) : ℕ → ℕ → SeqState → Except Quit SeqState
  | 0, _, _ => .error .diverges
  | fuel + 1, y, st =>
    if seq < y then .error .assertion
    else do
      let found ← T.deltaAtSeqExists y
      if found = false then .error (.corrupt "missing sequence number %u")
      else do
        let d ← T.deltaAtSeq y
        if d.prevSeq = y then .error (.corrupt "sequence number %u cannot be its own predecessor")
        else if y < d.prevSeq then
          .error (.corrupt "sequene number %u has invalid (subsequent) predecessor %u")
        else if 0 < d.prevSeq then predecessors T seq fuel d.prevSeq (st.setIncluded d.prevSeq false)
        else .ok (st.setIncluded d.prevSeq false)

/-- One list is applied: the list of the delta `y`, by the setter `set`. -/
def applyList (set : SeqState → ℕ → SeqState) (y : ℕ) : List ℕ → SeqState → Except Quit SeqState
  | [], st => .ok st
  | s :: r, st =>
    if s = y then applyList set y r st
    else if s ≤ y then applyList set y r (set st s)
    else .error .assertion

/-- The lists of the included deltas are applied, in the order `ys`. -/
def applyLists (T : DeltaTable) (list : Delta → List ℕ) (set : SeqState → ℕ → SeqState) :
    List ℕ → SeqState → Except Quit SeqState
  | [], st => .ok st
  | y :: ys, st =>
    if (st.states y).included then do
      let d ← T.deltaAtSeq y
      let st' ← applyList set y (list d) st
      applyLists T list set ys st'
    else applyLists T list set ys st

/-- 1, 2, …, `n`. -/
def upTo (n : ℕ) : List ℕ := List.range' 1 n

/-- `n`, …, 2, 1. -/
def downFrom (n : ℕ) : List ℕ := (upTo n).reverse

/-- `prepare_seqstate_1`. -/
def prepareSeqstate1 (T : DeltaTable) (st : SeqState) (seq : ℕ) : Except Quit SeqState := do
  let st ← predecessors T seq (seq + 1) seq st
  let st ← applyLists T Delta.included (·.setIncluded · true) (downFrom seq) (st.setIncluded seq false)
  let st ← applyLists T Delta.excluded SeqState.setExcluded (upTo seq) st
  applyLists T Delta.ignored SeqState.setIgnored (downFrom seq) st

/-- What the command line says about one delta. -/
def nameDelta (incl excl : SidList) (st : SeqState) (d : Delta) : SeqState :=
  if incl.member d.id then st.setExplicitlyIncluded d.seq
  else if excl.member d.id then st.setExplicitlyExcluded d.seq
  else st

/-- `prepare_seqstate_2`. -/
def prepareSeqstate2 (T : DeltaTable) (incl excl : SidList) (st : SeqState) : SeqState :=
  T.current.foldl (nameDelta incl excl) st

/-- `prepare_seqstate`. -/
def prepareSeqstate (T : DeltaTable) (st : SeqState) (seq : ℕ) (incl excl : SidList) : Except Quit SeqState := do
  let st ← prepareSeqstate1 T st seq
  return prepareSeqstate2 T incl excl st

/-! ### The table as lists -/

namespace DeltaTable

/-- The lists of the deltas, by their numbers. -/
def lists (T : DeltaTable) : References ℕ where
  inc y := {s | ∃ d, T.at? y = some d ∧ s ∈ d.included}
  exc y := {s | ∃ d, T.at? y = some d ∧ s ∈ d.excluded}
  ign y := {s | ∃ d, T.at? y = some d ∧ s ∈ d.ignored}

/-- `b` is the predecessor of `a`. -/
def Prev (T : DeltaTable) (a b : ℕ) : Prop := ∃ d, T.at? a = some d ∧ b = d.prevSeq

/-- A delta, its predecessor, and so on down to 0. -/
def ancestors (T : DeltaTable) (y : ℕ) : Set ℕ := {x | Relation.ReflTransGen T.Prev y x}

theorem mem_ancestors_iff {T : DeltaTable} {y : ℕ} {d : Delta} (h : T.at? y = some d) (x : ℕ) :
    x ∈ T.ancestors y ↔ x = y ∨ x ∈ T.ancestors d.prevSeq := by
  constructor
  · intro hx
    rcases Relation.ReflTransGen.cases_head hx with rfl | ⟨z, ⟨e, he, rfl⟩, hz⟩
    · exact .inl rfl
    · obtain rfl := Option.some.inj (h.symm.trans he)
      exact .inr hz
  · rintro (rfl | hx)
    · exact .refl
    · exact .head ⟨d, h, rfl⟩ hx

theorem ancestors_of_none {T : DeltaTable} {y : ℕ} (h : T.at? y = none) : T.ancestors y = {y} := by
  ext x
  constructor
  · intro hx
    rcases Relation.ReflTransGen.cases_head hx with rfl | ⟨z, ⟨e, he, -⟩, -⟩
    · rfl
    · exact absurd (h.symm.trans he) (by simp)
  · rintro rfl
    exact .refl

theorem Earlier.at?_zero {T : DeltaTable} (h : T.Earlier) : T.at? 0 = none := by
  rcases hd : T.at? 0 with _ | d
  · rfl
  · obtain ⟨hm, h0⟩ := mem_of_at? hd
    exact absurd (h.pos hm) (by omega)

/-- The deltas of a set exist, 0 apart. -/
def Known (T : DeltaTable) (I : Set ℕ) : Prop := ∀ y ∈ I, y ≠ 0 → (T.at? y).isSome

/-- Ancestors exist, and are not above the delta they are ancestors of. -/
theorem Earlier.ancestors {T : DeltaTable} (h : T.Earlier) {y x : ℕ} (hx : x ∈ T.ancestors y)
    (hy : y ≠ 0 → (T.at? y).isSome) : x ≤ y ∧ (x ≠ 0 → (T.at? x).isSome) := by
  induction hx with
  | refl => exact ⟨le_rfl, hy⟩
  | tail _ hz ih =>
    obtain ⟨d, hd, rfl⟩ := hz
    obtain ⟨hm, rfl⟩ := mem_of_at? hd
    obtain ⟨hlt, hex, -⟩ := h d hm
    exact ⟨hlt.le.trans ih.1, hex⟩

/-- What the lists of a table name is earlier and exists. -/
theorem Earlier.lists {T : DeltaTable} (h : T.Earlier) {z k : ℕ}
    (hk : k ∈ T.lists.inc z ∨ k ∈ T.lists.exc z ∨ k ∈ T.lists.ign z) : k < z ∧ (T.at? k).isSome := by
  have hmem : ∃ d, T.at? z = some d ∧ k ∈ d.included ++ d.excluded ++ d.ignored := by
    rcases hk with ⟨d, hd, hk⟩ | ⟨d, hd, hk⟩ | ⟨d, hd, hk⟩
    · exact ⟨d, hd, by simp [hk]⟩
    · exact ⟨d, hd, by simp [hk]⟩
    · exact ⟨d, hd, by simp [hk]⟩
  obtain ⟨d, hd, hk'⟩ := hmem
  obtain ⟨hm, rfl⟩ := mem_of_at? hd
  exact (h d hm).2.2 k hk'

theorem Earlier.inc_lt {T : DeltaTable} (h : T.Earlier) : ∀ z, ∀ k ∈ T.lists.inc z, k < z :=
  fun _ _ hk => (h.lists (.inl hk)).1
theorem Earlier.exc_lt {T : DeltaTable} (h : T.Earlier) : ∀ z, ∀ k ∈ T.lists.exc z, k < z :=
  fun _ _ hk => (h.lists (.inr (.inl hk))).1
theorem Earlier.ign_lt {T : DeltaTable} (h : T.Earlier) : ∀ z, ∀ k ∈ T.lists.ign z, k < z :=
  fun _ _ hk => (h.lists (.inr (.inr hk))).1

theorem lists_of_none {T : DeltaTable} {y : ℕ} (h : T.at? y = none) :
    T.lists.inc y = ∅ ∧ T.lists.exc y = ∅ ∧ T.lists.ign y = ∅ := by
  simp [lists, h]

end DeltaTable

open DeltaTable

/-! ### What the setters do to the included set -/

section

variable (st : SeqState) (n : ℕ)

theorem includedSet_foldl_setIncluded (b : Bool) (l : List ℕ) :
    (l.foldl (·.setIncluded · b) st).includedSet = st.includedSet ∪ {s | s ∈ l} := by
  induction l generalizing st with
  | nil => simp
  | cons s l ih =>
    rw [List.foldl_cons, ih, SeqState.includedSet_setIncluded]
    ext k
    simp only [Set.mem_union, Set.mem_insert_iff, Set.mem_ofPred_eq, List.mem_cons]
    exact ⟨fun h => by tauto, fun h => by tauto⟩

@[simp] theorem includedSet_setExcluded : (st.setExcluded n).includedSet = st.includedSet \ {n} :=
  SeqState.includedSet_modify_false st n _ _ fun _ => rfl

@[simp] theorem includedSet_setIgnored : (st.setIgnored n).includedSet = st.includedSet \ {n} :=
  SeqState.includedSet_modify_false st n _ _ fun _ => rfl

theorem includedSet_foldl_diff {set : SeqState → ℕ → SeqState}
    (hset : ∀ st n, (set st n).includedSet = st.includedSet \ {n}) (l : List ℕ) :
    (l.foldl set st).includedSet = st.includedSet \ {s | s ∈ l} := by
  induction l generalizing st with
  | nil => simp
  | cons s l ih =>
    rw [List.foldl_cons, ih, hset]
    ext k
    simp only [Set.mem_sdiff, Set.mem_singleton_iff, Set.mem_ofPred_eq, List.mem_cons, not_or, and_assoc]

end

/-! ### The loops -/

/-- A list of earlier deltas is applied one by one. -/
theorem applyList_eq {set : SeqState → ℕ → SeqState} {y : ℕ} {l : List ℕ} (h : ∀ s ∈ l, s < y) (st : SeqState) :
    applyList set y l st = .ok (l.foldl set st) := by
  induction l generalizing st with
  | nil => rfl
  | cons s l ih =>
    have hs := h s List.mem_cons_self
    rw [applyList, if_neg hs.ne, if_pos hs.le, ih fun t ht => h t (List.mem_cons_of_mem s ht)]
    rfl

/-- **A loop over the lists is a sweep.** -/
theorem applyLists_spec {T : DeltaTable} {list : Delta → List ℕ} {set : SeqState → ℕ → SeqState}
    {op : Set ℕ → Set ℕ → Set ℕ} {f : ℕ → Set ℕ} (hT : T.Earlier)
    (hlist : ∀ d, ∀ s ∈ list d, s ∈ d.included ++ d.excluded ++ d.ignored)
    (hset : ∀ (st : SeqState) (l : List ℕ), (l.foldl set st).includedSet = op st.includedSet {s | s ∈ l})
    (hop : ∀ I J, op I J ⊆ I ∪ J) (hf : ∀ y, f y = {s | ∃ d, T.at? y = some d ∧ s ∈ list d})
    {ys : List ℕ} (hpos : ∀ y ∈ ys, y ≠ 0) {st : SeqState} (hk : T.Known st.includedSet) :
    ∃ st', applyLists T list set ys st = .ok st' ∧ st'.includedSet = sweep op f ys st.includedSet ∧
      T.Known st'.includedSet := by
  induction ys generalizing st with
  | nil => exact ⟨st, rfl, rfl, hk⟩
  | cons y ys ih =>
    have hpos' : ∀ z ∈ ys, z ≠ 0 := fun z hz => hpos z (List.mem_cons_of_mem y hz)
    by_cases hy : (st.states y).included = true
    · have hyI : y ∈ st.includedSet := hy
      have hy0 := hpos y List.mem_cons_self
      obtain ⟨d, hd⟩ := Option.isSome_iff_exists.mp (hk y hyI hy0)
      obtain ⟨hm, rfl⟩ := mem_of_at? hd
      have hl : ∀ s ∈ list d, s < d.seq ∧ (T.at? s).isSome := fun s hs => (hT d hm).2.2 s (hlist d s hs)
      have hfy : f d.seq = {s | s ∈ list d} := by
        rw [hf]
        ext s
        simp [hd]
      have hI : ((list d).foldl set st).includedSet = turn op f d.seq st.includedSet := by
        rw [hset, turn_of_mem hyI, hfy]
      have hk' : T.Known ((list d).foldl set st).includedSet := by
        intro s hs hs0
        rw [hset] at hs
        rcases hop _ _ hs with h | h
        · exact hk s h hs0
        · exact (hl s h).2
      obtain ⟨st', h1, h2, h3⟩ := ih hpos' hk'
      refine ⟨st', ?_, by rw [h2, hI]; rfl, h3⟩
      rw [applyLists, if_pos hy, (deltaAtSeq_of_at? hd (Nat.pos_of_ne_zero hy0)).1, ok_bind,
        applyList_eq (fun s hs => (hl s hs).1), ok_bind, h1]
    · obtain ⟨st', h1, h2, h3⟩ := ih hpos' hk
      refine ⟨st', by rw [applyLists, if_neg hy, h1], ?_, h3⟩
      rw [h2, sweep_cons, turn_of_notMem (show y ∉ st.includedSet from hy)]

/-- **The first loop includes the proper ancestors.** -/
theorem predecessors_spec {T : DeltaTable} (hT : T.Earlier) {seq fuel y : ℕ} {d : Delta} (st : SeqState)
    (hd : T.at? y = some d) (hy : y ≤ seq) (hfuel : y < fuel) :
    ∃ st', predecessors T seq fuel y st = .ok st' ∧
      st'.includedSet = st.includedSet ∪ T.ancestors d.prevSeq := by
  induction fuel generalizing y d st with
  | zero => omega
  | succ fuel ih =>
    obtain ⟨hm, rfl⟩ := mem_of_at? hd
    obtain ⟨hlt, hex, -⟩ := hT d hm
    obtain ⟨h1, h2⟩ := deltaAtSeq_of_at? hd (hT.pos hm)
    rw [predecessors, if_neg (by omega), h2, ok_bind, if_neg (by simp), h1, ok_bind, if_neg (by omega),
      if_neg (by omega)]
    by_cases h0 : d.prevSeq = 0
    · refine ⟨_, by rw [if_neg (by omega)], ?_⟩
      rw [SeqState.includedSet_setIncluded, h0, ancestors_of_none hT.at?_zero, Set.insert_eq, Set.union_comm]
    · obtain ⟨e, he⟩ := Option.isSome_iff_exists.mp (hex h0)
      obtain ⟨st', hst', hI⟩ := ih (st.setIncluded d.prevSeq false) he (by omega) (by omega)
      refine ⟨st', by rw [if_pos (by omega), hst'], ?_⟩
      rw [hI, SeqState.includedSet_setIncluded]
      ext x
      rw [Set.mem_union, Set.mem_insert_iff, Set.mem_union, mem_ancestors_iff he]
      exact ⟨fun h => by tauto, fun h => by tauto⟩

/-! ### The deltas of a version -/

theorem mem_upTo {n y : ℕ} : y ∈ upTo n ↔ y ≠ 0 ∧ y ≤ n := by
  simp only [upTo, List.mem_range'_1]
  omega

theorem mem_downFrom {n y : ℕ} : y ∈ downFrom n ↔ y ≠ 0 ∧ y ≤ n := by
  rw [downFrom, List.mem_reverse, mem_upTo]

theorem upTo_sorted (n : ℕ) : (upTo n).Pairwise (· < ·) := List.pairwise_lt_range'

theorem downFrom_sorted (n : ℕ) : (downFrom n).Pairwise (· > ·) := List.pairwise_reverse.mpr (upTo_sorted n)

/-- What the ancestors of a delta draw in exists and is not above it. -/
theorem drawn_known {T : DeltaTable} (hT : T.Earlier) {y k : ℕ} (hy : (T.at? y).isSome)
    (h : Drawn T.lists.inc (T.ancestors y) k) : k ≤ y ∧ (k ≠ 0 → (T.at? k).isSome) := by
  refine h.inherit (P := fun k => k ≤ y ∧ (k ≠ 0 → (T.at? k).isSome)) (fun k hk => hT.ancestors hk fun _ => hy) ?_
  intro z k hz hk
  obtain ⟨hlt, hex⟩ := hT.lists (.inl hk)
  exact ⟨hlt.le.trans hz.1, fun _ => hex⟩

/-- **The deltas that `prepare_seqstate_1` includes are the selection of the ancestors.** -/
theorem prepareSeqstate1_spec {T : DeltaTable} (hT : T.Earlier) {seq : ℕ} (hseq : (T.at? seq).isSome)
    {st : SeqState} (hst : st.includedSet = ∅) :
    ∃ st', prepareSeqstate1 T st seq = .ok st' ∧ Solves T.lists (T.ancestors seq) st'.includedSet := by
  obtain ⟨d, hd⟩ := Option.isSome_iff_exists.mp hseq
  obtain ⟨s₁, h1, hI₁⟩ := predecessors_spec hT st hd le_rfl (Nat.lt_succ_self seq)
  have hroots : (s₁.setIncluded seq false).includedSet = T.ancestors seq := by
    rw [SeqState.includedSet_setIncluded, hI₁, hst, Set.empty_union]
    ext x
    rw [Set.mem_insert_iff, mem_ancestors_iff hd]
  have hk₁ : T.Known (s₁.setIncluded seq false).includedSet := by
    rw [hroots]
    exact fun y hy => (hT.ancestors hy fun _ => hseq).2
  have hdown : ∀ y ∈ downFrom seq, y ≠ 0 := fun y hy => (mem_downFrom.mp hy).1
  obtain ⟨s₂, h2, hI₂, hk₂⟩ := applyLists_spec (f := T.lists.inc) hT
    (fun d s (hs : s ∈ d.included) => by simp [hs]) (fun st l => includedSet_foldl_setIncluded st true l)
    (fun _ _ => subset_rfl) (fun _ => rfl) hdown hk₁
  obtain ⟨s₃, h3, hI₃, hk₃⟩ := applyLists_spec (f := T.lists.exc) hT
    (fun d s (hs : s ∈ d.excluded) => by simp [hs])
    (fun st l => includedSet_foldl_diff st includedSet_setExcluded l)
    (fun _ _ => Set.sdiff_subset.trans Set.subset_union_left) (fun _ => rfl)
    (fun y hy => (mem_upTo.mp hy).1) hk₂
  obtain ⟨s₄, h4, hI₄, -⟩ := applyLists_spec (f := T.lists.ign) hT
    (fun d s (hs : s ∈ d.ignored) => by simp [hs])
    (fun st l => includedSet_foldl_diff st includedSet_setIgnored l)
    (fun _ _ => Set.sdiff_subset.trans Set.subset_union_left) (fun _ => rfl) hdown hk₃
  refine ⟨s₄, ?_, ?_⟩
  · rw [prepareSeqstate1, h1, ok_bind, h2, ok_bind, h3, ok_bind, h4]
  · rw [hI₄, hI₃, hI₂, hroots]
    refine solves_sweeps (downFrom_sorted seq) (upTo_sorted seq) hT.inc_lt hT.exc_lt hT.ign_lt ?_
    intro k hk
    obtain ⟨hle, -⟩ := drawn_known hT hseq hk
    by_cases h0 : k = 0
    · subst h0
      exact .inr (lists_of_none hT.at?_zero)
    · exact .inl ⟨mem_downFrom.mpr ⟨h0, hle⟩, mem_upTo.mpr ⟨h0, hle⟩⟩

/-! ### What every run preserves -/

/-- What the setter preserves, the loop over the lists preserves. -/
theorem applyList_preserves {set : SeqState → ℕ → SeqState} {P : SeqState → Prop} {y : ℕ} {l : List ℕ}
    (hset : ∀ st, ∀ s ∈ l, P st → P (set st s)) {st st' : SeqState} (hP : P st)
    (h : applyList set y l st = .ok st') : P st' := by
  induction l generalizing st with
  | nil => exact Except.ok.inj h ▸ hP
  | cons s l ih =>
    have hset' : ∀ st, ∀ t ∈ l, P st → P (set st t) := fun st t ht => hset st t (List.mem_cons_of_mem s ht)
    rw [applyList] at h
    split at h
    · exact ih hset' hP h
    · split at h
      · exact ih hset' (hset st s List.mem_cons_self hP) h
      · cases h

/-- What the setter preserves for the lists of included deltas, the loop over the lists preserves. -/
theorem applyLists_preserves {T : DeltaTable} {list : Delta → List ℕ} {set : SeqState → ℕ → SeqState}
    {P : SeqState → Prop} {Q : ℕ → Prop} (hQ : ∀ st : SeqState, P st → ∀ y ∈ st.includedSet, Q y)
    (hset : ∀ st y d, Q y → T.at? y = some d → ∀ s ∈ list d, P st → P (set st s)) {ys : List ℕ} {st st' : SeqState}
    (hP : P st) (h : applyLists T list set ys st = .ok st') : P st' := by
  induction ys generalizing st with
  | nil => exact Except.ok.inj h ▸ hP
  | cons y ys ih =>
    rw [applyLists] at h
    split at h
    · rename_i hy
      obtain ⟨d, hd, h⟩ := bind_eq_ok.mp h
      obtain ⟨s₁, h₁, h⟩ := bind_eq_ok.mp h
      have hyQ := hQ st hP y hy
      exact ih (applyList_preserves (fun st s hs => hset st y d hyQ (at?_of_deltaAtSeq hd) s hs) hP h₁) h
    · exact ih hP h

theorem predecessors_preserves {T : DeltaTable} {P : SeqState → Prop} {Q : ℕ → Prop}
    (hset : ∀ st y d, Q y → T.at? y = some d → P st → P (st.setIncluded d.prevSeq false))
    (hQ : ∀ y d, Q y → T.at? y = some d → Q d.prevSeq) {seq fuel y : ℕ} {st st' : SeqState} (hy : Q y) (hP : P st)
    (h : predecessors T seq fuel y st = .ok st') : P st' := by
  induction fuel generalizing y st with
  | zero => cases h
  | succ fuel ih =>
    rw [predecessors] at h
    split at h
    · cases h
    obtain ⟨found, -, h⟩ := bind_eq_ok.mp h
    split at h
    · cases h
    obtain ⟨d, hd, h⟩ := bind_eq_ok.mp h
    have hd := at?_of_deltaAtSeq hd
    split at h
    · cases h
    split at h
    · cases h
    split at h
    · exact ih (hQ y d hy hd) (hset st y d hy hd hP) h
    · exact Except.ok.inj h ▸ hset st y d hy hd hP

/-- **What the lists of the table pass on holds of every delta included**, for any table. -/
theorem prepareSeqstate1_inherit {T : DeltaTable} {Q : ℕ → Prop}
    (hprev : ∀ y d, Q y → T.at? y = some d → Q d.prevSeq)
    (hinc : ∀ y d, Q y → T.at? y = some d → ∀ s ∈ d.included, Q s) {seq : ℕ} {st st' : SeqState}
    (hst : ∀ y ∈ st.includedSet, Q y) (hseq : Q seq) (h : prepareSeqstate1 T st seq = .ok st') :
    ∀ y ∈ st'.includedSet, Q y := by
  have hinsert : ∀ (st : SeqState) s b, Q s → (∀ y ∈ st.includedSet, Q y) →
      ∀ y ∈ (st.setIncluded s b).includedSet, Q y := by
    intro st s b hs hst y hy
    rw [SeqState.includedSet_setIncluded] at hy
    rcases hy with rfl | hy
    · exact hs
    · exact hst y hy
  obtain ⟨s₁, h₁, h⟩ := bind_eq_ok.mp h
  obtain ⟨s₂, h₂, h⟩ := bind_eq_ok.mp h
  obtain ⟨s₃, h₃, h₄⟩ := bind_eq_ok.mp h
  have hQ₁ := predecessors_preserves (P := fun st => ∀ y ∈ st.includedSet, Q y) (Q := Q)
    (fun st y d hy hd hP => hinsert st _ _ (hprev y d hy hd) hP) hprev hseq hst h₁
  have hQ₂ := applyLists_preserves (P := fun st => ∀ y ∈ st.includedSet, Q y) (Q := Q) (fun _ hP => hP)
    (fun st y d hy hd s hs hP => hinsert st s true (hinc y d hy hd s hs) hP) (hinsert s₁ seq false hseq hQ₁) h₂
  have hQ₃ := applyLists_preserves (P := fun st => ∀ y ∈ st.includedSet, Q y) (Q := Q) (fun _ hP => hP)
    (fun st y d _ _ s _ hP z hz => hP z (by
      rw [includedSet_setExcluded] at hz
      exact hz.1)) hQ₂ h₃
  exact applyLists_preserves (P := fun st => ∀ y ∈ st.includedSet, Q y) (Q := Q) (fun _ hP => hP)
    (fun st y d _ _ s _ hP z hz => hP z (by
      rw [includedSet_setIgnored] at hz
      exact hz.1)) hQ₃ h₄

/-- What the three setters preserve, `prepare_seqstate_1` preserves. -/
theorem prepareSeqstate1_preserves {T : DeltaTable} {P : SeqState → Prop}
    (hi : ∀ st s b, P st → P (st.setIncluded s b)) (he : ∀ st s, P st → P (st.setExcluded s))
    (hg : ∀ st s, P st → P (st.setIgnored s)) {seq : ℕ} {st st' : SeqState} (hst : P st)
    (h : prepareSeqstate1 T st seq = .ok st') : P st' := by
  obtain ⟨s₁, h₁, h⟩ := bind_eq_ok.mp h
  obtain ⟨s₂, h₂, h⟩ := bind_eq_ok.mp h
  obtain ⟨s₃, h₃, h₄⟩ := bind_eq_ok.mp h
  have hP₁ := predecessors_preserves (Q := fun _ => True) (fun st _ _ _ _ hP => hi st _ _ hP) (fun _ _ _ _ => trivial)
    trivial hst h₁
  have hP₂ := applyLists_preserves (Q := fun _ => True) (fun _ _ _ _ => trivial)
    (fun st _ _ _ _ s _ hP => hi st s true hP) (hi s₁ seq false hP₁) h₂
  have hP₃ := applyLists_preserves (Q := fun _ => True) (fun _ _ _ _ => trivial)
    (fun st _ _ _ _ s _ hP => he st s hP) hP₂ h₃
  exact applyLists_preserves (Q := fun _ => True) (fun _ _ _ _ => trivial)
    (fun st _ _ _ _ s _ hP => hg st s hP) hP₃ h₄

/-- Nothing is open in the state that `prepare_seqstate_1` leaves. -/
theorem prepareSeqstate1_fresh {T : DeltaTable} {seq : ℕ} {st st' : SeqState} (hst : st.Fresh)
    (h : prepareSeqstate1 T st seq = .ok st') : st'.Fresh ∧ st'.last = st.last :=
  prepareSeqstate1_preserves (P := fun s => s.Fresh ∧ s.last = st.last)
    (fun _ _ _ hP => ⟨hP.1.modify .., hP.2⟩) (fun _ _ hP => ⟨hP.1.modify .., hP.2⟩)
    (fun _ _ hP => ⟨hP.1.modify .., hP.2⟩) ⟨hst, rfl⟩ h

/-! ### `prepare_seqstate` returns -/

theorem deltaAtSeqExists_ne_diverges (T : DeltaTable) (seq : ℕ) : T.deltaAtSeqExists seq ≠ .error .diverges := by
  unfold DeltaTable.deltaAtSeqExists
  split <;> simp

theorem deltaAtSeq_ne_diverges (T : DeltaTable) (seq : ℕ) : T.deltaAtSeq seq ≠ .error .diverges := by
  unfold DeltaTable.deltaAtSeq
  split
  · split <;> simp
  · simp

/-- Every predecessor has a smaller number. -/
theorem predecessors_ne_diverges (T : DeltaTable) (seq : ℕ) {fuel y : ℕ} (hy : y < fuel) (st : SeqState) :
    predecessors T seq fuel y st ≠ .error .diverges := by
  induction fuel generalizing y st with
  | zero => omega
  | succ fuel ih =>
    rw [predecessors]
    split
    · simp
    · refine bind_ne_diverges (deltaAtSeqExists_ne_diverges T y) fun found _ => ?_
      split
      · simp
      · refine bind_ne_diverges (deltaAtSeq_ne_diverges T y) fun d _ => ?_
        split_ifs
        · simp
        · simp
        · exact ih (by omega) _
        · simp

theorem applyList_ne_diverges (set : SeqState → ℕ → SeqState) (y : ℕ) (l : List ℕ) (st : SeqState) :
    applyList set y l st ≠ .error .diverges := by
  induction l generalizing st with
  | nil => nofun
  | cons s l ih =>
    rw [applyList]
    split_ifs
    · exact ih st
    · exact ih (set st s)
    · simp

theorem applyLists_ne_diverges (T : DeltaTable) (list : Delta → List ℕ) (set : SeqState → ℕ → SeqState) (ys : List ℕ)
    (st : SeqState) : applyLists T list set ys st ≠ .error .diverges := by
  induction ys generalizing st with
  | nil => nofun
  | cons y ys ih =>
    rw [applyLists]
    split
    · refine bind_ne_diverges (deltaAtSeq_ne_diverges T y) fun d _ => ?_
      exact bind_ne_diverges (applyList_ne_diverges set y _ st) fun st' _ => ih st'
    · exact ih st

/-- The bounds of the loops are enough. -/
theorem prepareSeqstate_ne_diverges (T : DeltaTable) (st : SeqState) (seq : ℕ) (incl excl : SidList) :
    prepareSeqstate T st seq incl excl ≠ .error .diverges := by
  refine bind_ne_diverges ?_ fun st' _ => by simp [pure, Except.pure]
  refine bind_ne_diverges (predecessors_ne_diverges T seq (Nat.lt_succ_self seq) st) fun st _ => ?_
  refine bind_ne_diverges (applyLists_ne_diverges _ _ _ _ _) fun st _ => ?_
  exact bind_ne_diverges (applyLists_ne_diverges _ _ _ _ _) fun st _ =>
    applyLists_ne_diverges _ _ _ _ _

end CSSC.Table
