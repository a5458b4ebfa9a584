import CSSC.Library.Chain
import CSSC.Table.SeqPrep

/-!
# When a version can be read

`prepare_seqstate_1` gives up on a table in which a version depends on deltas that are missing or that come later.
This is about any table, also one that no check has accepted. `line` is the way down the predecessors, which ends at
0, and `reads` are the lists of the table, as far as they name earlier deltas; for a table in which everything is
earlier these are the ancestors and the lists (`Earlier.line_eq`, `Earlier.reads_eq`).

A version is `Readable` if its predecessors, and the lists it depends on, name deltas that exist and are not later.
**`prepare_seqstate_1` completes exactly for the readable versions** (`prepareSeqstate1_ok_iff`), and what it includes
is the version (`prepareSeqstate1_solves`).
-/

namespace CSSC.Table

open CSSC.Lines CSSC.Body CSSC.Library.Selection CSSC.Library.Chain

namespace DeltaTable

/-- The number of the predecessor; none for 0 and for a number that no delta has. -/
def next (T : DeltaTable) (y : ℕ) : Option ℕ := if y = 0 then none else (T.at? y).map (·.prevSeq)

/-- The numbers that `prepare_seqstate_1` meets on its way down from `y`. -/
def line (T : DeltaTable) (y : ℕ) : Set ℕ := chain T.next y

/-- The lists as far as they name earlier deltas. -/
def reads (T : DeltaTable) : References ℕ where
  inc y := {s | s < y ∧ ∃ d, T.at? y = some d ∧ s ∈ d.included}
  exc y := {s | s < y ∧ ∃ d, T.at? y = some d ∧ s ∈ d.excluded}
  ign y := {s | s < y ∧ ∃ d, T.at? y = some d ∧ s ∈ d.ignored}

/-- What a version consists of: the selection of its predecessors. -/
def version (T : DeltaTable) (seq : ℕ) : Set ℕ := {k | ∀ J, Solves T.reads (T.line seq) J → k ∈ J}

/-- The delta exists, and on one of its lists there is no later number. -/
def Names (T : DeltaTable) (list : Delta → List ℕ) (y : ℕ) : Prop := ∃ d, T.at? y = some d ∧ ∀ s ∈ list d, s ≤ y

/-- What a version depends on exists and is not later. -/
structure Readable (T : DeltaTable) (seq : ℕ) : Prop where
  /-- The version has a number. -/
  pos : 0 < seq
  /-- The predecessors exist, each with a smaller number than the one before. -/
  prev : ∀ y ∈ T.line seq, y ≠ 0 → ∃ d, T.at? y = some d ∧ d.prevSeq < y
  /-- The deltas drawn in exist, and include no later ones. -/
  inc : ∀ y, Drawn T.reads.inc (T.line seq) y → y ≠ 0 → T.Names Delta.included y
  /-- The deltas drawn in exclude no later ones. -/
  exc : ∀ y, Drawn T.reads.inc (T.line seq) y → y ≠ 0 → T.Names Delta.excluded y
  /-- The deltas selected ignore no later ones. -/
  ign : ∀ J, Solves T.reads (T.line seq) J → ∀ y ∈ J, y ≠ 0 → T.Names Delta.ignored y

variable {T : DeltaTable} {y : ℕ} {d : Delta}

theorem next_zero (T : DeltaTable) : T.next 0 = none := if_pos rfl

theorem next_of_at? (h : T.at? y = some d) (hy : y ≠ 0) : T.next y = some d.prevSeq := by
  rw [next, if_neg hy, h]
  rfl

theorem next_of_none (h : T.at? y = none) : T.next y = none := by
  rw [next, h]
  split <;> rfl

theorem line_zero (T : DeltaTable) : T.line 0 = {0} := chain_of_none T.next_zero

theorem mem_line_iff (h : T.at? y = some d) (hy : y ≠ 0) (x : ℕ) : x ∈ T.line y ↔ x = y ∨ x ∈ T.line d.prevSeq :=
  mem_chain_iff (next_of_at? h hy)

theorem deltaAtSeq_of_not_exists (h : T.at? y = none) :
    T.deltaAtSeq y = .error .assertion ∧ T.deltaAtSeqExists y ≠ .ok true := by
  constructor
  · unfold deltaAtSeq
    split
    · rw [h]
    · rfl
  · unfold deltaAtSeqExists
    split
    · simp [h]
    · simp

/-- Going down, numbers get smaller. -/
theorem line_le (hprev : ∀ x ∈ T.line y, x ≠ 0 → ∃ d, T.at? x = some d ∧ d.prevSeq < x) {x : ℕ} (hx : x ∈ T.line y) :
    x ≤ y := by
  have hx' : Relation.ReflTransGen (Follows T.next) y x := hx
  induction hx' with
  | refl => exact le_rfl
  | @tail a b ha hab ih =>
    have hle := ih ha
    by_cases h0 : a = 0
    · subst h0
      exact absurd (T.next_zero.symm.trans hab) (by simp)
    · obtain ⟨d, hd, hlt⟩ := hprev a ha h0
      obtain rfl := Option.some.inj ((next_of_at? hd h0).symm.trans hab)
      omega

/-! ### A table in which everything is earlier -/

theorem Earlier.next_eq (h : T.Earlier) (y : ℕ) : T.next y = (T.at? y).map (·.prevSeq) := by
  by_cases hy : y = 0
  · subst hy
    rw [next_zero, h.at?_zero]
    rfl
  · rw [next, if_neg hy]

/-- The way down is down the predecessors. -/
theorem Earlier.line_eq (h : T.Earlier) (y : ℕ) : T.line y = T.ancestors y := by
  have hstep : Follows T.next = T.Prev := by
    ext a b
    show T.next a = some b ↔ ∃ d, T.at? a = some d ∧ b = d.prevSeq
    rw [h.next_eq, Option.map_eq_some_iff]
    simp only [eq_comm]
  rw [line, chain, DeltaTable.ancestors, hstep]

/-- The lists are read as they are. -/
theorem Earlier.reads_eq (h : T.Earlier) : T.reads = T.lists := by
  simp only [reads, DeltaTable.lists, References.mk.injEq]
  refine ⟨?_, ?_, ?_⟩ <;> ext y s <;> refine and_iff_right_of_imp fun hs => ?_
  · exact h.inc_lt y s hs
  · exact h.exc_lt y s hs
  · exact h.ign_lt y s hs

end DeltaTable

open DeltaTable

/-! ### The loop down the predecessors -/

/-- The loop completes if it always goes down, and then includes all it meets after the first. -/
theorem predecessors_of_prev {T : DeltaTable} {seq fuel y : ℕ} (hy0 : y ≠ 0) (hy : y ≤ seq) (hfuel : y < fuel)
    (hprev : ∀ x ∈ T.line y, x ≠ 0 → ∃ d, T.at? x = some d ∧ d.prevSeq < x) (st : SeqState) :
    ∃ st', predecessors T seq fuel y st = .ok st' ∧ insert y st'.includedSet = st.includedSet ∪ T.line y := by
  induction fuel generalizing y st with
  | zero => omega
  | succ fuel ih =>
    obtain ⟨d, hd, hlt⟩ := hprev y (mem_chain_self _ _) hy0
    obtain ⟨h1, h2⟩ := deltaAtSeq_of_at? hd (Nat.pos_of_ne_zero hy0)
    have hline : T.line y = insert y (T.line d.prevSeq) := by
      ext x
      rw [mem_line_iff hd hy0, Set.mem_insert_iff]
    rw [predecessors, if_neg (by omega), h2, ok_bind, if_neg (by simp), h1, ok_bind, if_neg (by omega),
      if_neg (by omega)]
    by_cases h0 : d.prevSeq = 0
    · refine ⟨_, by rw [if_neg (by omega)], ?_⟩
      rw [SeqState.includedSet_setIncluded, hline, h0, line_zero]
      ext x
      simp only [Set.mem_insert_iff, Set.mem_union, Set.mem_singleton_iff]
      tauto
    · obtain ⟨st', hst', hI⟩ := ih h0 (by omega) (by omega)
        (fun x hx hx0 => hprev x ((mem_line_iff hd hy0 x).mpr (.inr hx)) hx0) (st.setIncluded d.prevSeq false)
      refine ⟨st', by rw [if_pos (by omega), hst'], ?_⟩
      have hmem : d.prevSeq ∈ st'.includedSet := by
        refine predecessors_preserves (P := fun s => d.prevSeq ∈ s.includedSet) (Q := fun _ => True) ?_
          (fun _ _ _ _ => trivial) trivial ?_ hst'
        · intro s z e _ _ hs
          rw [SeqState.includedSet_setIncluded]
          exact .inr hs
        · rw [SeqState.includedSet_setIncluded]
          exact .inl rfl
      rw [Set.insert_eq_of_mem hmem, SeqState.includedSet_setIncluded] at hI
      rw [hI, hline]
      ext x
      have hx : d.prevSeq ∈ T.line d.prevSeq := mem_chain_self _ _
      simp only [Set.mem_insert_iff, Set.mem_union]
      constructor
      · rintro (h | (rfl | h) | h)
        · exact .inr (.inl h)
        · exact .inr (.inr hx)
        · exact .inl h
        · exact .inr (.inr h)
      · rintro (h | h | h)
        · exact .inr (.inl (.inr h))
        · exact .inl h
        · exact .inr (.inr h)

/-- The loop completes only if it always goes down. -/
theorem prev_of_predecessors {T : DeltaTable} {seq fuel y : ℕ} {st st' : SeqState}
    (h : predecessors T seq fuel y st = .ok st') :
    0 < y ∧ y ≤ seq ∧ ∀ x ∈ T.line y, x ≠ 0 → ∃ d, T.at? x = some d ∧ d.prevSeq < x := by
  induction fuel generalizing y st with
  | zero => cases h
  | succ fuel ih =>
    rw [predecessors] at h
    split at h
    · cases h
    rename_i hle
    obtain ⟨found, hf, h⟩ := bind_eq_ok.mp h
    have hy0 : 0 < y := by
      unfold deltaAtSeqExists at hf
      split at hf
      · rename_i hr
        exact hr.1
      · cases hf
    split at h
    · cases h
    obtain ⟨d, hd, h⟩ := bind_eq_ok.mp h
    have hd := at?_of_deltaAtSeq hd
    split at h
    · cases h
    rename_i hne
    split at h
    · cases h
    have hlt : d.prevSeq < y := by omega
    refine ⟨hy0, by omega, fun x hx hx0 => ?_⟩
    rcases (mem_line_iff hd hy0.ne' x).mp hx with rfl | hx
    · exact ⟨d, hd, hlt⟩
    · split at h
      · exact (ih h).2.2 x hx hx0
      · obtain h0 : d.prevSeq = 0 := by omega
        rw [h0, line_zero] at hx
        exact absurd hx hx0

/-! ### The loops over the lists -/

/-- A list is applied if it names no later delta; what names the delta itself is passed over. -/
theorem applyList_ok_iff {set : SeqState → ℕ → SeqState} {y : ℕ} {l : List ℕ} {st st' : SeqState} :
    applyList set y l st = .ok st' ↔ (∀ s ∈ l, s ≤ y) ∧ st' = (l.filter (· < y)).foldl set st := by
  induction l generalizing st with
  | nil => simp [applyList, eq_comm]
  | cons s l ih =>
    rw [applyList]
    by_cases hs : s = y
    · subst hs
      rw [if_pos rfl, ih]
      simp
    · by_cases hle : s ≤ y
      · rw [if_neg hs, if_pos hle, ih, List.filter_cons_of_pos (by simpa using lt_of_le_of_ne hle hs)]
        simp [hle]
      · rw [if_neg hs, if_neg hle]
        simp [hle]

/-- The turn of an included delta that names no later one. -/
theorem applyLists_turn {list : Delta → List ℕ} {set : SeqState → ℕ → SeqState} {ys : List ℕ} {st : SeqState} {d : Delta}
    (hy : (st.states y).included = true) (h0 : y ≠ 0) (hd : T.at? y = some d) (hl : ∀ s ∈ list d, s ≤ y) :
    applyLists T list set (y :: ys) st = applyLists T list set ys (((list d).filter (· < y)).foldl set st) := by
  rw [applyLists, if_pos hy, (deltaAtSeq_of_at? hd (Nat.pos_of_ne_zero h0)).1, ok_bind,
    applyList_ok_iff.mpr ⟨hl, rfl⟩, ok_bind]

/-- The loop stops at an included delta that does not exist or names a later one. -/
theorem applyLists_stuck {list : Delta → List ℕ} {set : SeqState → ℕ → SeqState} {ys : List ℕ} {st st' : SeqState}
    (hy : (st.states y).included = true) (h0 : y ≠ 0) (hnames : ¬ T.Names list y) :
    applyLists T list set (y :: ys) st ≠ .ok st' := by
  intro h
  rw [applyLists, if_pos hy] at h
  rcases hd : T.at? y with _ | d
  · rw [(deltaAtSeq_of_not_exists hd).1, error_bind] at h
    cases h
  · rw [(deltaAtSeq_of_at? hd (Nat.pos_of_ne_zero h0)).1, ok_bind] at h
    obtain ⟨s, hs, -⟩ := bind_eq_ok.mp h
    exact hnames ⟨d, hd, (applyList_ok_iff.mp hs).1⟩

/-- **A loop over the lists completes if every delta whose turn comes names no later one**; then it is a sweep. -/
theorem applyLists_ok_iff (T : DeltaTable) (list : Delta → List ℕ) (f : ℕ → Set ℕ) {set : SeqState → ℕ → SeqState}
    {op : Set ℕ → Set ℕ → Set ℕ}
    (hset : ∀ (st : SeqState) (l : List ℕ), (l.foldl set st).includedSet = op st.includedSet {s | s ∈ l})
    (hf : ∀ y, f y = {s | s < y ∧ ∃ d, T.at? y = some d ∧ s ∈ list d}) {ys : List ℕ} (hpos : ∀ y ∈ ys, y ≠ 0)
    (st : SeqState) :
    ((∃ st', applyLists T list set ys st = .ok st') ↔
      ∀ pre y post, ys = pre ++ y :: post → y ∈ sweep op f pre st.includedSet → T.Names list y) ∧
    ∀ st', applyLists T list set ys st = .ok st' → st'.includedSet = sweep op f ys st.includedSet := by
  induction ys generalizing st with
  | nil =>
    refine ⟨iff_of_true ⟨st, rfl⟩ fun pre y post h => by simp at h, fun st' h => ?_⟩
    rw [← Except.ok.inj (show Except.ok st = Except.ok st' from h)]
    rfl
  | cons y ys ih =>
    have hpos' : ∀ z ∈ ys, z ≠ 0 := fun z hz => hpos z (List.mem_cons_of_mem y hz)
    have hy0 := hpos y List.mem_cons_self
    rw [forall_turns_cons, sweep_cons]
    by_cases hy : (st.states y).included = true
    · have hyI : y ∈ st.includedSet := hy
      by_cases hnames : T.Names list y
      · obtain ⟨d, hd, hl⟩ := hnames
        have hI : (((list d).filter (· < y)).foldl set st).includedSet = turn op f y st.includedSet := by
          rw [hset, turn_of_mem hyI, hf]
          congr 1
          ext s
          simp [hd, and_comm]
        rw [applyLists_turn hy hy0 hd hl, and_iff_right fun _ => ⟨d, hd, hl⟩, ← hI]
        exact ih hpos' _
      · constructor
        · refine iff_of_false ?_ fun h => hnames (h.1 hyI)
          rintro ⟨st', h⟩
          exact applyLists_stuck hy hy0 hnames h
        · intro st' h
          exact absurd h (applyLists_stuck hy hy0 hnames)
    · have hyI : y ∉ st.includedSet := hy
      rw [applyLists, if_neg hy, turn_of_notMem hyI, and_iff_right fun h => absurd h hyI]
      exact ih hpos' st

/-! ### The whole of `prepare_seqstate_1` -/

section

variable {T : DeltaTable} {seq : ℕ}

theorem reads_inc_lt (T : DeltaTable) : ∀ z, ∀ k ∈ T.reads.inc z, k < z := fun _ _ hk => hk.1
theorem reads_exc_lt (T : DeltaTable) : ∀ z, ∀ k ∈ T.reads.exc z, k < z := fun _ _ hk => hk.1
theorem reads_ign_lt (T : DeltaTable) : ∀ z, ∀ k ∈ T.reads.ign z, k < z := fun _ _ hk => hk.1

/-- What is drawn in is not above the version. -/
theorem drawn_le (hprev : ∀ x ∈ T.line seq, x ≠ 0 → ∃ d, T.at? x = some d ∧ d.prevSeq < x) {k : ℕ}
    (h : Drawn T.reads.inc (T.line seq) k) : k ≤ seq :=
  h.inherit (fun _ hk => line_le hprev hk) fun z k hz hk => (reads_inc_lt T z k hk).le.trans hz

theorem drawn_finite (hprev : ∀ x ∈ T.line seq, x ≠ 0 → ∃ d, T.at? x = some d ∧ d.prevSeq < x) :
    {k | Drawn T.reads.inc (T.line seq) k}.Finite :=
  (Set.finite_le_nat seq).subset fun _ hk => drawn_le hprev hk

/-- The three sweeps, from the predecessors. -/
noncomputable def swept₁ (T : DeltaTable) (seq : ℕ) : Set ℕ := sweep (· ∪ ·) T.reads.inc (downFrom seq) (T.line seq)
/-- After the exclusions. -/
noncomputable def swept₂ (T : DeltaTable) (seq : ℕ) : Set ℕ := sweep (· \ ·) T.reads.exc (upTo seq) (swept₁ T seq)
/-- After the ignores. -/
noncomputable def swept₃ (T : DeltaTable) (seq : ℕ) : Set ℕ := sweep (· \ ·) T.reads.ign (downFrom seq) (swept₂ T seq)

/-- Nothing is drawn in by 0 and by what is above the version. -/
theorem drawn_swept (hprev : ∀ x ∈ T.line seq, x ≠ 0 → ∃ d, T.at? x = some d ∧ d.prevSeq < x) {k : ℕ}
    (h : Drawn T.reads.inc (T.line seq) k) :
    (k ∈ downFrom seq ∧ k ∈ upTo seq) ∨ (T.reads.inc k = ∅ ∧ T.reads.exc k = ∅ ∧ T.reads.ign k = ∅) := by
  by_cases hk : k = 0
  · subst hk
    simp [reads]
  · have := drawn_le hprev h
    exact .inl ⟨mem_downFrom.mpr ⟨hk, this⟩, mem_upTo.mpr ⟨hk, this⟩⟩

theorem mem_swept₁ (hprev : ∀ x ∈ T.line seq, x ≠ 0 → ∃ d, T.at? x = some d ∧ d.prevSeq < x) (k : ℕ) :
    k ∈ swept₁ T seq ↔ Drawn T.reads.inc (T.line seq) k := by
  rw [swept₁, sweep_union (downFrom_sorted seq) (reads_inc_lt T)]
  constructor
  · intro h
    induction h with
    | root hk => exact .root hk
    | list _ hk ih => exact .list ih hk.2
  · intro h
    induction h with
    | root hk => exact .root hk
    | @list z k hz hk ih =>
      rcases drawn_swept hprev hz with h | h
      · exact .list ih ⟨h.1, hk⟩
      · rw [h.1] at hk
        exact hk.elim

theorem swept₃_solves (hprev : ∀ x ∈ T.line seq, x ≠ 0 → ∃ d, T.at? x = some d ∧ d.prevSeq < x) :
    Solves T.reads (T.line seq) (swept₃ T seq) :=
  solves_sweeps (downFrom_sorted seq) (upTo_sorted seq) (reads_inc_lt T) (reads_exc_lt T) (reads_ign_lt T)
    fun _ hk => drawn_swept hprev hk

/-- There is one selection, so it is the version. -/
theorem version_eq (hprev : ∀ x ∈ T.line seq, x ≠ 0 → ∃ d, T.at? x = some d ∧ d.prevSeq < x) {J : Set ℕ}
    (hJ : Solves T.reads (T.line seq) J) : T.version seq = J := by
  ext k
  constructor
  · intro h
    exact h J hJ
  · intro h J' hJ'
    rwa [← hJ.unique hJ' (drawn_finite hprev) (reads_ign_lt T)]

/-- The turn of a delta in a downward sweep finds it as the whole sweep leaves it. -/
theorem mem_sweep_turn_down {op : Set ℕ → Set ℕ → Set ℕ} (hop : ∀ I J k, k ∉ J → (k ∈ op I J ↔ k ∈ I))
    {f : ℕ → Set ℕ} (hf : ∀ z, ∀ k ∈ f z, k < z) {n y : ℕ} {pre post : List ℕ} (h : downFrom n = pre ++ y :: post)
    (I : Set ℕ) : y ∈ sweep op f pre I ↔ y ∈ sweep op f (downFrom n) I := by
  have hs := downFrom_sorted n
  rw [h] at hs ⊢
  obtain ⟨hy, -⟩ := List.pairwise_cons.mp (List.pairwise_append.mp hs).2.1
  rw [sweep_append]
  refine (sweep_frame hop (fun z hz hk => ?_) _).symm
  have hlt := hf z y hk
  rcases List.mem_cons.mp hz with rfl | hz
  · exact lt_irrefl _ hlt
  · exact lt_asymm hlt (hy z hz)

/-- The turn of a delta in an upward sweep finds it as it was at the start. -/
theorem mem_sweep_turn_up {op : Set ℕ → Set ℕ → Set ℕ} (hop : ∀ I J k, k ∉ J → (k ∈ op I J ↔ k ∈ I))
    {f : ℕ → Set ℕ} (hf : ∀ z, ∀ k ∈ f z, k < z) {n y : ℕ} {pre post : List ℕ} (h : upTo n = pre ++ y :: post)
    (I : Set ℕ) : y ∈ sweep op f pre I ↔ y ∈ I := by
  have hs := upTo_sorted n
  rw [h] at hs
  refine sweep_frame hop (fun z hz hk => ?_) I
  exact lt_asymm (hf z y hk) ((List.pairwise_append.mp hs).2.2 z hz y List.mem_cons_self)

theorem union_frame (I J : Set ℕ) (k : ℕ) (hk : k ∉ J) : k ∈ I ∪ J ↔ k ∈ I := by simp [hk]
theorem diff_frame (I J : Set ℕ) (k : ℕ) (hk : k ∉ J) : k ∈ I \ J ↔ k ∈ I := by simp [hk]

/-- What has its turn in a sweep over all numbers up to the version. -/
theorem forall_split_iff {ys : List ℕ} {P : List ℕ → ℕ → Prop} {Q : ℕ → Prop}
    (hP : ∀ pre y post, ys = pre ++ y :: post → (P pre y ↔ Q y)) {R : ℕ → Prop} :
    (∀ pre y post, ys = pre ++ y :: post → P pre y → R y) ↔ ∀ y ∈ ys, Q y → R y := by
  constructor
  · intro h y hy hq
    obtain ⟨pre, post, he⟩ := List.append_of_mem hy
    exact h pre y post he ((hP pre y post he).mpr hq)
  · intro h pre y post he hp
    exact h y (he ▸ List.mem_append_right _ List.mem_cons_self) ((hP pre y post he).mp hp)

/-- The loop over the include lists, from the predecessors. -/
theorem includedLoop_ok_iff {st : SeqState} (hst : st.includedSet = T.line seq) :
    ((∃ st', applyLists T Delta.included (·.setIncluded · true) (downFrom seq) st = .ok st') ↔
      ∀ y ∈ downFrom seq, y ∈ swept₁ T seq → T.Names Delta.included y) ∧
    ∀ st', applyLists T Delta.included (·.setIncluded · true) (downFrom seq) st = .ok st' →
      st'.includedSet = swept₁ T seq := by
  obtain ⟨hok, hI⟩ := applyLists_ok_iff T Delta.included T.reads.inc
    (fun st l => includedSet_foldl_setIncluded st true l) (fun _ => rfl) (fun y hy => (mem_downFrom.mp hy).1) st
  rw [hst, forall_split_iff fun pre y post he => mem_sweep_turn_down union_frame (reads_inc_lt T) he _] at hok
  rw [hst] at hI
  exact ⟨hok, hI⟩

/-- The loop over the exclude lists, from what the one before leaves. -/
theorem excludedLoop_ok_iff {st : SeqState} (hst : st.includedSet = swept₁ T seq) :
    ((∃ st', applyLists T Delta.excluded SeqState.setExcluded (upTo seq) st = .ok st') ↔
      ∀ y ∈ upTo seq, y ∈ swept₁ T seq → T.Names Delta.excluded y) ∧
    ∀ st', applyLists T Delta.excluded SeqState.setExcluded (upTo seq) st = .ok st' →
      st'.includedSet = swept₂ T seq := by
  obtain ⟨hok, hI⟩ := applyLists_ok_iff T Delta.excluded T.reads.exc
    (fun st l => includedSet_foldl_diff st includedSet_setExcluded l) (fun _ => rfl)
    (fun y hy => (mem_upTo.mp hy).1) st
  rw [hst, forall_split_iff fun pre y post he => mem_sweep_turn_up diff_frame (reads_exc_lt T) he _] at hok
  rw [hst] at hI
  exact ⟨hok, hI⟩

/-- The loop over the ignore lists. A delta that it excludes has no turn afterwards. -/
theorem ignoredLoop_ok_iff {st : SeqState} (hst : st.includedSet = swept₂ T seq) :
    ((∃ st', applyLists T Delta.ignored SeqState.setIgnored (downFrom seq) st = .ok st') ↔
      ∀ y ∈ downFrom seq, y ∈ swept₃ T seq → T.Names Delta.ignored y) ∧
    ∀ st', applyLists T Delta.ignored SeqState.setIgnored (downFrom seq) st = .ok st' →
      st'.includedSet = swept₃ T seq := by
  obtain ⟨hok, hI⟩ := applyLists_ok_iff T Delta.ignored T.reads.ign
    (fun st l => includedSet_foldl_diff st includedSet_setIgnored l) (fun _ => rfl)
    (fun y hy => (mem_downFrom.mp hy).1) st
  rw [hst, forall_split_iff fun pre y post he => mem_sweep_turn_down diff_frame (reads_ign_lt T) he _] at hok
  rw [hst] at hI
  exact ⟨hok, hI⟩

/-- The three loops over the lists, after the loop down the predecessors. -/
theorem prepareSeqstate1_steps (hprev : ∀ x ∈ T.line seq, x ≠ 0 → ∃ d, T.at? x = some d ∧ d.prevSeq < x)
    (hseq : 0 < seq) {st : SeqState} (hst : st.includedSet = ∅) :
    ((∃ st', prepareSeqstate1 T st seq = .ok st') ↔
      (∀ y ∈ downFrom seq, y ∈ swept₁ T seq → T.Names Delta.included y) ∧
      (∀ y ∈ upTo seq, y ∈ swept₁ T seq → T.Names Delta.excluded y) ∧
      ∀ y ∈ downFrom seq, y ∈ swept₃ T seq → T.Names Delta.ignored y) ∧
    ∀ st', prepareSeqstate1 T st seq = .ok st' → st'.includedSet = swept₃ T seq := by
  obtain ⟨s₁, h₁, hI₁⟩ := predecessors_of_prev hseq.ne' le_rfl (Nat.lt_succ_self seq) hprev st
  have hroots : (s₁.setIncluded seq false).includedSet = T.line seq := by
    rw [SeqState.includedSet_setIncluded, hI₁, hst, Set.empty_union]
  obtain ⟨hok₂, hI₂⟩ := includedLoop_ok_iff hroots
  have hsteps : ∀ st', prepareSeqstate1 T st seq = .ok st' ↔
      ∃ s₂, applyLists T Delta.included (·.setIncluded · true) (downFrom seq) (s₁.setIncluded seq false) = .ok s₂ ∧
      ∃ s₃, applyLists T Delta.excluded SeqState.setExcluded (upTo seq) s₂ = .ok s₃ ∧
        applyLists T Delta.ignored SeqState.setIgnored (downFrom seq) s₃ = .ok st' := by
    intro st'
    rw [prepareSeqstate1, h₁, ok_bind, bind_eq_ok]
    simp only [bind_eq_ok]
  refine ⟨?_, fun st' h => ?_⟩
  · constructor
    · rintro ⟨st', h⟩
      obtain ⟨s₂, h₂, s₃, h₃, h₄⟩ := (hsteps st').mp h
      obtain ⟨hok₃, hI₃⟩ := excludedLoop_ok_iff (hI₂ s₂ h₂)
      obtain ⟨hok₄, -⟩ := ignoredLoop_ok_iff (hI₃ s₃ h₃)
      exact ⟨hok₂.mp ⟨s₂, h₂⟩, hok₃.mp ⟨s₃, h₃⟩, hok₄.mp ⟨st', h₄⟩⟩
    · rintro ⟨g₂, g₃, g₄⟩
      obtain ⟨s₂, h₂⟩ := hok₂.mpr g₂
      obtain ⟨hok₃, hI₃⟩ := excludedLoop_ok_iff (hI₂ s₂ h₂)
      obtain ⟨s₃, h₃⟩ := hok₃.mpr g₃
      obtain ⟨hok₄, -⟩ := ignoredLoop_ok_iff (hI₃ s₃ h₃)
      obtain ⟨s₄, h₄⟩ := hok₄.mpr g₄
      exact ⟨s₄, (hsteps s₄).mpr ⟨s₂, h₂, s₃, h₃, h₄⟩⟩
  · obtain ⟨s₂, h₂, s₃, h₃, h₄⟩ := (hsteps st').mp h
    obtain ⟨-, hI₃⟩ := excludedLoop_ok_iff (hI₂ s₂ h₂)
    exact (ignoredLoop_ok_iff (hI₃ s₃ h₃)).2 st' h₄

/-- What `prepare_seqstate_1` needs of the predecessors. -/
theorem prev_of_prepareSeqstate1 {st st' : SeqState} (h : prepareSeqstate1 T st seq = .ok st') :
    0 < seq ∧ ∀ x ∈ T.line seq, x ≠ 0 → ∃ d, T.at? x = some d ∧ d.prevSeq < x := by
  obtain ⟨s₁, h₁, -⟩ := bind_eq_ok.mp h
  obtain ⟨h0, -, hprev⟩ := prev_of_predecessors h₁
  exact ⟨h0, hprev⟩

/-- **`prepare_seqstate_1` completes exactly for the readable versions.** -/
theorem prepareSeqstate1_ok_iff {st : SeqState} (hst : st.includedSet = ∅) :
    (∃ st', prepareSeqstate1 T st seq = .ok st') ↔ T.Readable seq := by
  constructor
  · rintro ⟨st', h⟩
    obtain ⟨h0, hprev⟩ := prev_of_prepareSeqstate1 h
    obtain ⟨g₁, g₂, g₃⟩ := (prepareSeqstate1_steps hprev h0 hst).1.mp ⟨st', h⟩
    refine ⟨h0, hprev, fun y hy hy0 => ?_, fun y hy hy0 => ?_, fun J hJ y hy hy0 => ?_⟩
    · exact g₁ y (mem_downFrom.mpr ⟨hy0, drawn_le hprev hy⟩) ((mem_swept₁ hprev y).mpr hy)
    · exact g₂ y (mem_upTo.mpr ⟨hy0, drawn_le hprev hy⟩) ((mem_swept₁ hprev y).mpr hy)
    · have hle := drawn_le hprev ((hJ y).mp hy).1
      rw [hJ.unique (swept₃_solves hprev) (drawn_finite hprev) (reads_ign_lt T)] at hy
      exact g₃ y (mem_downFrom.mpr ⟨hy0, hle⟩) hy
  · rintro ⟨h0, hprev, hinc, hexc, hign⟩
    refine (prepareSeqstate1_steps hprev h0 hst).1.mpr ⟨fun y hy h => ?_, fun y hy h => ?_, fun y hy h => ?_⟩
    · exact hinc y ((mem_swept₁ hprev y).mp h) (mem_downFrom.mp hy).1
    · exact hexc y ((mem_swept₁ hprev y).mp h) (mem_upTo.mp hy).1
    · exact hign _ (swept₃_solves hprev) y h (mem_downFrom.mp hy).1

/-- **What `prepare_seqstate_1` includes is the selection of the predecessors.** -/
theorem prepareSeqstate1_solves {st st' : SeqState} (hst : st.includedSet = ∅)
    (h : prepareSeqstate1 T st seq = .ok st') :
    Solves T.reads (T.line seq) st'.includedSet ∧ st'.includedSet = T.version seq := by
  obtain ⟨h0, hprev⟩ := prev_of_prepareSeqstate1 h
  have hJ := swept₃_solves hprev
  rw [(prepareSeqstate1_steps hprev h0 hst).2 st' h]
  exact ⟨hJ, (version_eq hprev hJ).symm⟩

end

end CSSC.Table
