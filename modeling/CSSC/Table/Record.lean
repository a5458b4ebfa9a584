import CSSC.Table.SeqPrep

/-!
# Recording the lists of a new delta

`add_delta` computes the version that was edited from the predecessor and from the lists of the p-file entry, and
records lists of sequence numbers in the new delta, from which the version is computed again later. Two loops collect
the numbers: over the numbers that were tagged, below the highest one (`tagged`), and over the current deltas
(`listed`). What the lists of the p-file entry say about a number is `named`; of several deltas with one number the
last one that is named counts.

**The recorded delta reproduces the version that was edited exactly when the table is `Reproducible`**
(`recorded_iff`).
-/

namespace CSSC.Table

open CSSC.Lines CSSC.Body CSSC.Library.Selection DeltaTable

/-! ### The recorded lists -/

/-- A `std::set<seq_no>` in its order: the numbers up to `high` with a property. -/
def seqSet (high : ℕ) (p : ℕ → Bool) : List ℕ := (List.range (high + 1)).filter p

/-- The first loop: a number below the highest that was tagged, and what became of it. -/
def tagged (highest : ℕ) (st : SeqState) (flag : OneState → Bool) (s : ℕ) : Bool :=
  0 < s && s < highest && (st.states s).isExplicit && flag (st.states s)

/-- The second loop: the number of a current delta whose SID is in the list. -/
def listed (T : DeltaTable) (l : SidList) (s : ℕ) : Bool := T.current.any fun d => l.member d.id && d.seq = s

/-- The delta that is recorded. `highest` is the highest number when the first loop runs; `excluded` of the first
loop is `else if`: not included, but excluded. -/
def newDelta (T : DeltaTable) (highest : ℕ) (st : SeqState) (id : Sid) (predecessor : ℕ) (incl excl : SidList) : Delta where
  type := .D
  id := id
  seq := T.nextSeqno
  prevSeq := predecessor
  included := seqSet T.highestSeqno fun s => tagged highest st (·.included) s || listed T incl s
  excluded := seqSet T.highestSeqno fun s =>
    tagged highest st (fun o => !o.included && o.excluded) s || listed T excl s
  ignored := []

/-! ### What the p-file entry names -/

/-- What one delta adds to what is named about the number `y`. -/
def nameOne (incl excl : SidList) (y : ℕ) (acc : Option Bool) (d : Delta) : Option Bool :=
  if d.seq = y then
    if incl.member d.id then some true
    else if excl.member d.id then some false
    else acc
  else acc

/-- What the lists say about the number `y`: to be included, to be excluded, or nothing. -/
def named (T : DeltaTable) (incl excl : SidList) (y : ℕ) : Option Bool := T.current.foldl (nameOne incl excl y) none

/-- The numbers that the lists add to the version. -/
def added (T : DeltaTable) (incl excl : SidList) : Set ℕ := {y | named T incl excl y = some true}

/-- The numbers that the lists take away from the version. -/
def removed (T : DeltaTable) (incl excl : SidList) : Set ℕ := {y | named T incl excl y = some false}

/-- The numbers of the current deltas in a list. -/
def listedSet (T : DeltaTable) (l : SidList) : Set ℕ := {y | listed T l y = true}

/-- The lists of the table are such that recording the lists of the p-file entry is faithful: `J` is the version of
the predecessor. -/
def Reproducible (T : DeltaTable) (predecessor : ℕ) (incl excl : SidList) : Prop :=
  ∃ J, Solves T.lists (T.ancestors predecessor) J ∧
    Faithful T.lists (T.ancestors predecessor) J (added T incl excl) (removed T incl excl)
      (listedSet T incl) (listedSet T excl)

theorem listed_iff {T : DeltaTable} {l : SidList} {y : ℕ} :
    listed T l y = true ↔ ∃ d ∈ T.current, l.member d.id = true ∧ d.seq = y := by
  simp [listed]

section

variable {incl excl : SidList} {y : ℕ}

theorem named_true_listed {ds : List Delta} {acc : Option Bool} (hacc : acc ≠ some true)
    (h : ds.foldl (nameOne incl excl y) acc = some true) : ∃ d ∈ ds, incl.member d.id = true ∧ d.seq = y := by
  induction ds generalizing acc with
  | nil => exact absurd h hacc
  | cons d ds ih =>
    by_cases hd : d.seq = y ∧ incl.member d.id = true
    · exact ⟨d, List.mem_cons_self, hd.2, hd.1⟩
    · obtain ⟨e, he, h'⟩ := ih (by
        unfold nameOne
        split
        · rename_i hy
          rw [if_neg fun hm => hd ⟨hy, hm⟩]
          split
          · simp
          · exact hacc
        · exact hacc) h
      exact ⟨e, List.mem_cons_of_mem d he, h'⟩

theorem named_false_listed {ds : List Delta} {acc : Option Bool} (hacc : acc ≠ some false)
    (h : ds.foldl (nameOne incl excl y) acc = some false) : ∃ d ∈ ds, excl.member d.id = true ∧ d.seq = y := by
  induction ds generalizing acc with
  | nil => exact absurd h hacc
  | cons d ds ih =>
    by_cases hd : d.seq = y ∧ excl.member d.id = true
    · exact ⟨d, List.mem_cons_self, hd.2, hd.1⟩
    · obtain ⟨e, he, h'⟩ := ih (by
        unfold nameOne
        split
        · rename_i hy
          split
          · simp
          · rw [if_neg fun hm => hd ⟨hy, hm⟩]
            exact hacc
        · exact hacc) h
      exact ⟨e, List.mem_cons_of_mem d he, h'⟩

theorem named_of_listed {ds : List Delta} {acc : Option Bool}
    (h : acc ≠ none ∨ ∃ d ∈ ds, (incl.member d.id = true ∨ excl.member d.id = true) ∧ d.seq = y) :
    ds.foldl (nameOne incl excl y) acc ≠ none := by
  induction ds generalizing acc with
  | nil => simpa using h
  | cons d ds ih =>
    refine ih ?_
    rcases h with h | ⟨e, he, hm, hy⟩
    · left
      unfold nameOne
      split
      · split
        · simp
        · split
          · simp
          · exact h
      · exact h
    · rcases List.mem_cons.mp he with rfl | he
      · left
        unfold nameOne
        rw [if_pos hy]
        rcases hm with hm | hm
        · simp [hm]
        · simp only [hm, if_true]
          split <;> simp
      · exact .inr ⟨e, he, hm, hy⟩

end

theorem added_subset (T : DeltaTable) (incl excl : SidList) : added T incl excl ⊆ listedSet T incl :=
  fun _ h => listed_iff.mpr (named_true_listed (by simp) h)

theorem removed_subset (T : DeltaTable) (incl excl : SidList) : removed T incl excl ⊆ listedSet T excl :=
  fun _ h => listed_iff.mpr (named_false_listed (by simp) h)

/-- A number in one of the lists is added or taken away. -/
theorem listed_subset (T : DeltaTable) (incl excl : SidList) :
    listedSet T incl ∪ listedSet T excl ⊆ added T incl excl ∪ removed T incl excl := by
  intro y hy
  have hne : named T incl excl y ≠ none := by
    refine named_of_listed (.inr ?_)
    rcases hy with hy | hy
    · obtain ⟨d, hd, hm, hs⟩ := listed_iff.mp hy
      exact ⟨d, hd, .inl hm, hs⟩
    · obtain ⟨d, hd, hm, hs⟩ := listed_iff.mp hy
      exact ⟨d, hd, .inr hm, hs⟩
  obtain ⟨b, hb⟩ := Option.ne_none_iff_exists'.mp hne
  cases b with
  | true => exact .inl hb
  | false => exact .inr hb

/-! ### The version that is edited -/

/-- One delta is named on the command line. -/
theorem mem_nameDelta {incl excl : SidList} {st : SeqState} {d : Delta} {y : ℕ} {acc : Option Bool} {I : Set ℕ}
    (h : y ∈ st.includedSet ↔ acc = some true ∨ (acc = none ∧ y ∈ I)) :
    y ∈ (nameDelta incl excl st d).includedSet ↔
      nameOne incl excl y acc d = some true ∨ (nameOne incl excl y acc d = none ∧ y ∈ I) := by
  unfold nameDelta nameOne
  split
  · rw [SeqState.includedSet_setExplicitlyIncluded, Set.mem_insert_iff]
    by_cases hy : d.seq = y
    · simp [hy]
    · rw [if_neg hy, or_iff_right fun e => hy e.symm]
      exact h
  · split
    · rw [SeqState.includedSet_setExplicitlyExcluded, Set.mem_sdiff, Set.mem_singleton_iff]
      by_cases hy : d.seq = y
      · simp [hy]
      · rw [if_neg hy, and_iff_left fun e => hy e.symm]
        exact h
    · rw [ite_self]
      exact h

/-- **The lists of the p-file entry add and take away what they name.** -/
theorem includedSet_prepareSeqstate2 (T : DeltaTable) (incl excl : SidList) (st : SeqState) :
    (prepareSeqstate2 T incl excl st).includedSet =
      st.includedSet \ removed T incl excl ∪ added T incl excl := by
  have key : ∀ (ds : List Delta) (s : SeqState) (y : ℕ) (acc : Option Bool),
      (y ∈ s.includedSet ↔ acc = some true ∨ (acc = none ∧ y ∈ st.includedSet)) →
      (y ∈ (ds.foldl (nameDelta incl excl) s).includedSet ↔
        ds.foldl (nameOne incl excl y) acc = some true ∨
          (ds.foldl (nameOne incl excl y) acc = none ∧ y ∈ st.includedSet)) := by
    intro ds
    induction ds with
    | nil => exact fun s y acc h => h
    | cons d ds ih => exact fun s y acc h => ih _ y _ (mem_nameDelta h)
  ext y
  rw [prepareSeqstate2, key T.current st y none (by simp)]
  change named T incl excl y = some true ∨ (named T incl excl y = none ∧ _) ↔ _
  simp only [Set.mem_union, Set.mem_sdiff, removed, added, Set.mem_ofPred_eq]
  rcases h : named T incl excl y with _ | b
  · simp
  · cases b <;> simp

/-- Only what the lists name is tagged. -/
def TagsListed (T : DeltaTable) (incl excl : SidList) (st : SeqState) : Prop :=
  ∀ y, (st.states y).isExplicit = true →
    ((st.states y).included = true → y ∈ listedSet T incl) ∧ ((st.states y).excluded = true → y ∈ listedSet T excl)

theorem tagsListed_nameDelta {T : DeltaTable} {incl excl : SidList} {st : SeqState} {d : Delta} (hd : d ∈ T.current)
    (h : TagsListed T incl excl st) : TagsListed T incl excl (nameDelta incl excl st d) := by
  intro y
  unfold nameDelta
  split
  · rename_i hm
    by_cases hy : y = d.seq
    · subst hy
      by_cases hi : (st.states d.seq).included = true
      · simpa [SeqState.setExplicitlyIncluded, SeqState.modify, OneState.setExplicitlyIncluded, hi] using h d.seq
      · intro _
        refine ⟨fun _ => listed_iff.mpr ⟨d, hd, hm, rfl⟩, fun he => ?_⟩
        simp [SeqState.setExplicitlyIncluded, SeqState.modify, OneState.setExplicitlyIncluded, hi,
          OneState.setIncluded] at he
    · simpa [SeqState.setExplicitlyIncluded, SeqState.modify, hy] using h y
  · split
    · rename_i hm
      by_cases hy : y = d.seq
      · subst hy
        intro _
        refine ⟨fun hi => ?_, fun _ => listed_iff.mpr ⟨d, hd, hm, rfl⟩⟩
        simp [SeqState.setExplicitlyExcluded, SeqState.modify, OneState.setExplicitlyExcluded,
          OneState.setExcluded] at hi
      · simpa [SeqState.setExplicitlyExcluded, SeqState.modify, hy] using h y
    · exact h y

/-- **The first loop collects nothing that the second does not.** -/
theorem tagsListed_prepareSeqstate2 (T : DeltaTable) (incl excl : SidList) {st : SeqState}
    (h : ∀ y, (st.states y).isExplicit = false) : TagsListed T incl excl (prepareSeqstate2 T incl excl st) := by
  have key : ∀ (ds : List Delta) (s : SeqState), (∀ d ∈ ds, d ∈ T.current) → TagsListed T incl excl s →
      TagsListed T incl excl (ds.foldl (nameDelta incl excl) s) := by
    intro ds
    induction ds with
    | nil => exact fun s _ hs => hs
    | cons d ds ih =>
      exact fun s hds hs => ih _ (fun e he => hds e (List.mem_cons_of_mem d he))
        (tagsListed_nameDelta (hds d List.mem_cons_self) hs)
  refine key T.current st (fun _ h => h) fun y hy => ?_
  rw [h y] at hy
  cases hy

/-- `prepare_seqstate_1` tags nothing. -/
theorem prepareSeqstate1_untagged {T : DeltaTable} {seq : ℕ} {st st' : SeqState}
    (hst : ∀ y, (st.states y).isExplicit = false) (h : prepareSeqstate1 T st seq = .ok st') :
    ∀ y, (st'.states y).isExplicit = false := by
  have hmod : ∀ (st : SeqState) (n : ℕ) (f : OneState → OneState) (hf : ∀ s, (f s).active = s.active),
      (∀ s, (f s).isExplicit = s.isExplicit) → (∀ y, (st.states y).isExplicit = false) →
      ∀ y, ((st.modify n f hf).states y).isExplicit = false := by
    intro st n f hf he hst y
    by_cases hy : y = n
    · subst hy
      simp [SeqState.modify, he, hst y]
    · simp [SeqState.modify, hy, hst y]
  exact prepareSeqstate1_preserves (P := fun s => ∀ y, (s.states y).isExplicit = false)
    (fun st s _ hP => hmod st s _ _ (fun _ => rfl) hP) (fun st s hP => hmod st s _ _ (fun _ => rfl) hP)
    (fun st s hP => hmod st s _ _ (fun _ => rfl) hP) hst h

/-! ### The version that is recorded -/

/-- The number of a new delta is above all others. -/
theorem nextSeqno_eq {T : DeltaTable} (h : T.highestSeqno + 1 < 65536) : T.nextSeqno = T.highestSeqno + 1 :=
  Nat.mod_eq_of_lt h

theorem at?_le {T : DeltaTable} {y : ℕ} {d : Delta} (h : T.at? y = some d) : y ≤ T.highestSeqno := by
  obtain ⟨hm, rfl⟩ := mem_of_at? h
  exact le_highestSeqno hm

theorem listedSet_known {T : DeltaTable} {l : SidList} {y : ℕ} (h : y ∈ listedSet T l) : (T.at? y).isSome := by
  obtain ⟨d, hd, -, rfl⟩ := listed_iff.mp h
  exact at?_isSome_iff.mpr ⟨d, (List.mem_filter.mp hd).1, rfl⟩

section

variable {T : DeltaTable} {incl excl : SidList} {st : SeqState} {id : Sid} {predecessor : ℕ}

/-- The recorded lists are the numbers of the deltas that the p-file entry lists. -/
theorem mem_newDelta_included (ht : TagsListed T incl excl st) (y : ℕ) :
    y ∈ (newDelta T T.highestSeqno st id predecessor incl excl).included ↔ y ∈ listedSet T incl := by
  simp only [newDelta, seqSet, List.mem_filter, List.mem_range, Bool.or_eq_true]
  constructor
  · rintro ⟨-, h | h⟩
    · simp only [tagged, Bool.and_eq_true, decide_eq_true_eq] at h
      exact (ht y h.1.2).1 h.2
    · exact h
  · intro h
    obtain ⟨d, hd⟩ := Option.isSome_iff_exists.mp (listedSet_known h)
    exact ⟨Nat.lt_succ_of_le (at?_le hd), .inr h⟩

theorem mem_newDelta_excluded (ht : TagsListed T incl excl st) (y : ℕ) :
    y ∈ (newDelta T T.highestSeqno st id predecessor incl excl).excluded ↔ y ∈ listedSet T excl := by
  simp only [newDelta, seqSet, List.mem_filter, List.mem_range, Bool.or_eq_true]
  constructor
  · rintro ⟨-, h | h⟩
    · simp only [tagged, Bool.and_eq_true, decide_eq_true_eq] at h
      exact (ht y h.1.2).2 h.2.2
    · exact h
  · intro h
    obtain ⟨d, hd⟩ := Option.isSome_iff_exists.mp (listedSet_known h)
    exact ⟨Nat.lt_succ_of_le (at?_le hd), .inr h⟩

end

/-- A table with a new delta in front, as lists. -/
theorem lists_prepend {T : DeltaTable} {d : Delta} (h : ∀ e ∈ T, e.seq ≠ d.seq) (hi : d.ignored = []) :
    (T.prepend d).lists = T.lists.record d.seq {s | s ∈ d.included} {s | s ∈ d.excluded} := by
  unfold lists References.record
  congr 1 <;> funext y <;> by_cases hy : y = d.seq <;> ext s <;> simp [at?_prepend T d h, hy, hi]

/-- The ancestors of an old delta stay the same. -/
theorem ancestors_prepend {T : DeltaTable} (hT : T.Earlier) {d : Delta} (h : ∀ e ∈ T, e.seq ≠ d.seq) {y : ℕ}
    (hy : (T.at? y).isSome) (hlt : y < d.seq) : (T.prepend d).ancestors y = T.ancestors y := by
  ext x
  constructor
  · intro hx
    induction hx with
    | refl => exact .refl
    | @tail z x _ hz ih =>
      obtain ⟨e, he, rfl⟩ := hz
      have hzy := (hT.ancestors ih fun _ => hy).1
      rw [at?_prepend T d h, if_neg (by omega)] at he
      exact .tail ih ⟨e, he, rfl⟩
  · intro hx
    induction hx with
    | refl => exact .refl
    | @tail z x hz' hz ih =>
      obtain ⟨e, he, rfl⟩ := hz
      have hzy := (hT.ancestors hz' fun _ => hy).1
      refine .tail ih ⟨e, ?_, rfl⟩
      rw [at?_prepend T d h, if_neg (by omega)]
      exact he

/-- A new delta whose predecessor and lists are those of old deltas keeps the table in order. -/
theorem earlier_prepend {T : DeltaTable} (hT : T.Earlier) {d : Delta} (hd : T.highestSeqno < d.seq)
    (hp : (T.at? d.prevSeq).isSome) (hl : ∀ s ∈ d.included ++ d.excluded ++ d.ignored, (T.at? s).isSome) :
    (T.prepend d).Earlier := by
  have hne : ∀ e ∈ T, e.seq ≠ d.seq := fun e he h => by
    have := le_highestSeqno he
    omega
  have hlift : ∀ s, (T.at? s).isSome → s < d.seq ∧ ((T.prepend d).at? s).isSome := by
    intro s hs
    obtain ⟨e, he⟩ := Option.isSome_iff_exists.mp hs
    have := at?_le he
    refine ⟨by omega, ?_⟩
    rw [at?_prepend T d hne, if_neg (by omega)]
    exact hs
  intro e he
  rcases List.mem_cons.mp he with rfl | he
  · exact ⟨(hlift _ hp).1, fun _ => (hlift _ hp).2, fun s hs => hlift s (hl s hs)⟩
  · obtain ⟨h1, h2, h3⟩ := hT e he
    exact ⟨h1, fun h0 => (hlift _ (h2 h0)).2, fun s hs => ⟨(h3 s hs).1, (hlift _ (h3 s hs).2).2⟩⟩

/-- **The recorded delta reproduces the version that was edited exactly when the table is `Reproducible`.** Both
versions are computed without error, for every predecessor and every two lists. -/
theorem recorded_iff {T : DeltaTable} (hT : T.Earlier) {P : Delta} (hP : P ∈ T.current) (incl excl : SidList)
    (id : Sid) (hnew : T.highestSeqno + 1 < 65535) :
    ∃ sstate N state, prepareSeqstate T (.new T.highestSeqno (Nat.lt_of_succ_lt hnew)) P.seq incl excl = .ok sstate ∧
      N = newDelta T T.highestSeqno sstate id P.seq incl excl ∧
      prepareSeqstate1 (T.prepend N) (.new (T.highestSeqno + 1) hnew) N.seq = .ok state ∧
      (state.includedSet = insert N.seq sstate.includedSet ↔ Reproducible T P.seq incl excl) := by
  have hPm : P ∈ T := (List.mem_filter.mp hP).1
  have hPs : (T.at? P.seq).isSome := at?_isSome_iff.mpr ⟨P, hPm, rfl⟩
  have hPle := le_highestSeqno hPm
  obtain ⟨s₁, h₁, hJ⟩ := prepareSeqstate1_spec (T := T) hT hPs (SeqState.includedSet_new T.highestSeqno (Nat.lt_of_succ_lt hnew))
  have huntag := prepareSeqstate1_untagged (fun y => by simp [SeqState.new, OneState.initial]) h₁
  have htag := tagsListed_prepareSeqstate2 T incl excl huntag
  -- the recorded delta as a new key of the lists
  let N := newDelta T T.highestSeqno (prepareSeqstate2 T incl excl s₁) id P.seq incl excl
  have hseq : N.seq = T.highestSeqno + 1 := nextSeqno_eq (by omega)
  have hinc : {s | s ∈ N.included} = listedSet T incl := Set.ext fun y => mem_newDelta_included htag y
  have hexc : {s | s ∈ N.excluded} = listedSet T excl := Set.ext fun y => mem_newDelta_excluded htag y
  have hne : ∀ e ∈ T, e.seq ≠ N.seq := fun e he h => by
    have := le_highestSeqno he
    omega
  have hbelow : ∀ y, (T.at? y).isSome → y ≠ N.seq := by
    intro y hy
    obtain ⟨d, hd⟩ := Option.isSome_iff_exists.mp hy
    have := at?_le hd
    omega
  have hT' : (T.prepend N).Earlier := by
    refine earlier_prepend hT (by omega) hPs fun s hs => ?_
    simp only [List.mem_append] at hs
    rcases hs with (hs | hs) | hs
    · exact listedSet_known ((mem_newDelta_included htag s).mp hs)
    · exact listedSet_known ((mem_newDelta_excluded htag s).mp hs)
    · cases hs
  have hat : (T.prepend N).at? N.seq = some N := by rw [at?_prepend T N hne, if_pos rfl]
  have hNs : ((T.prepend N).at? N.seq).isSome := by rw [hat]; rfl
  obtain ⟨state, hst, hsol⟩ := prepareSeqstate1_spec hT' hNs (SeqState.includedSet_new (T.highestSeqno + 1) hnew)
  refine ⟨prepareSeqstate2 T incl excl s₁, N, state, by rw [prepareSeqstate, h₁]; rfl, rfl, hst, ?_⟩
  have hroots : (T.prepend N).ancestors N.seq = insert N.seq (T.ancestors P.seq) := by
    ext x
    rw [mem_ancestors_iff hat, Set.mem_insert_iff]
    exact or_congr_right (iff_of_eq (congrArg (x ∈ ·) (ancestors_prepend hT hne hPs
      (show P.seq < N.seq by omega))))
  have hfin : {k | Drawn (T.prepend N).lists.inc ((T.prepend N).ancestors N.seq) k}.Finite :=
    (Set.finite_le_nat N.seq).subset fun k hk => (drawn_known hT' hNs hk).1
  have hfresh : T.lists.Fresh N.seq := by
    intro z
    refine ⟨fun h => ?_, fun h => ?_, fun h => ?_⟩
    · exact hbelow _ (hT.lists (.inl h)).2 rfl
    · exact hbelow _ (hT.lists (.inr (.inl h))).2 rfl
    · exact hbelow _ (hT.lists (.inr (.inr h))).2 rfl
  have hroot : N.seq ∉ T.ancestors P.seq := fun h => by
    have := (hT.ancestors h fun _ => hPs).1
    omega
  have hrec := solves_record_iff (J := s₁.includedSet) hfresh hroot (fun h => hbelow _ (listedSet_known h) rfl)
    (fun h => hbelow _ (listedSet_known h) rfl) hJ (added_subset T incl excl) (removed_subset T incl excl)
    (Set.subset_union_left.trans (listed_subset T incl excl))
    (Set.subset_union_right.trans (listed_subset T incl excl))
  rw [← hinc, ← hexc, ← lists_prepend hne rfl, ← hroots, ← includedSet_prepareSeqstate2, hinc, hexc] at hrec
  constructor
  · intro h
    exact ⟨_, hJ, hrec.mp (h ▸ hsol)⟩
  · rintro ⟨J, hJ', hF⟩
    obtain rfl : s₁.includedSet = J :=
      hJ.unique hJ' ((Set.finite_le_nat P.seq).subset fun k hk => (drawn_known hT hPs hk).1) hT.ign_lt
    exact hsol.unique (hrec.mpr hF) hfin hT'.ign_lt

/-- Three deltas: 1.1, and the branches 1.1.1.1 and 1.1.2.1; the last one includes the other branch. -/
def branches : DeltaTable :=
  [⟨.D, ⟨1, 1, 2, 1⟩, 3, 1, [2], [], []⟩, ⟨.D, ⟨1, 1, 1, 1⟩, 2, 1, [], [], []⟩, ⟨.D, ⟨1, 1, 0, 0⟩, 1, 0, [], [], []⟩]

/-- The list `1.1.2.1`. -/
def secondBranch : SidList := [(⟨1, 1, 2, 1⟩, ⟨1, 1, 2, 1⟩)]

/-- 1.1 is edited with the second branch included. -/
theorem recorded_iff_sample : ∃ sstate N state,
    prepareSeqstate branches (.new 3 (by decide)) 1 secondBranch [] = .ok sstate ∧
      N = newDelta branches 3 sstate ⟨1, 2, 0, 0⟩ 1 secondBranch [] ∧
      prepareSeqstate1 (branches.prepend N) (.new 4 (by decide)) N.seq = .ok state ∧
      (state.includedSet = insert N.seq sstate.includedSet ↔ Reproducible branches 1 secondBranch []) :=
  recorded_iff (P := ⟨.D, ⟨1, 1, 0, 0⟩, 1, 0, [], [], []⟩) (by decide) (by decide) secondBranch [] ⟨1, 2, 0, 0⟩ (by decide)

/-- **An included delta brings along what it includes itself**: 1.1 is edited with the second branch included, which
includes the first one; the first branch is not in the version that is edited, but in the one that is recorded. -/
theorem include_drags_along : branches.Earlier ∧ ∃ sstate state,
    prepareSeqstate branches (.new 3 (by decide)) 1 secondBranch [] = .ok sstate ∧
      prepareSeqstate1 (branches.prepend (newDelta branches 3 sstate ⟨1, 2, 0, 0⟩ 1 secondBranch []))
        (.new 4 (by decide)) 4 = .ok state ∧
      state.includedSet ≠ insert 4 sstate.includedSet := by
  refine ⟨by decide, _, _, rfl, rfl, fun h => ?_⟩
  -- the number 2 is in the one and not in the other
  rcases (Set.ext_iff.mp h 2).mp rfl with h2 | h2
  · cases h2
  · cases h2

end CSSC.Table
