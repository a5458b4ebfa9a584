import CSSC.Table.FullDelta
import CSSC.Table.Reading

/-!
# The deltas of a version at a date

`get -c` asks for a version as it was at some date. The deltas that are newer are excluded after all the lists have
been applied. `prepareSeqstateAt` is `prepare_seqstate` with the cutoff date, and without a date it is the function of
`SeqPrep` (`prepareSeqstateAt_invalid`). The newer deltas are taken out, and nothing else happens
(`prepareSeqstate2At_included`).

That is not always the version of the latest delta by the date: what a newer delta excludes, ignores or includes by
its lists is not taken back otherwise (`cutoff_remembers`). **`cutoff_forgets_iff` says when it is.**
-/

namespace CSSC.Table

open CSSC.Lines CSSC.Body CSSC.Library.Selection CSSC.Library.Chain

/-- What the command line and the cutoff date say about one delta. -/
def nameDeltaAt (incl excl : SidList) (cutoff : SccsDate) (st : SeqState) (d : FullDelta) : Except Quit SeqState :=
  if incl.member d.id then .ok (st.setExplicitlyIncluded d.seq)
  else if excl.member d.id then .ok (st.setExplicitlyExcluded d.seq)
  else if cutoff.valid then do
    let newer ← d.date.greater cutoff
    if newer then .ok (st.setExcluded d.seq) else .ok st
  else .ok st

/-- `prepare_seqstate_2`. -/
def prepareSeqstate2At (F : FullTable) (incl excl : SidList) (cutoff : SccsDate) (st : SeqState) :
    Except Quit SeqState :=
  F.current.foldlM (nameDeltaAt incl excl cutoff) st

/-- `prepare_seqstate`. -/
def prepareSeqstateAt (F : FullTable) (st : SeqState) (seq : ℕ) (incl excl : SidList) (cutoff : SccsDate) :
    Except Quit SeqState := do
  let st ← prepareSeqstate1 F.table st seq
  prepareSeqstate2At F incl excl cutoff st

namespace FullTable

/-- The numbers of the current deltas newer than the date. -/
def newer (F : FullTable) (c : SccsDate) : Set ℕ := {k | ∃ d ∈ F.current, d.seq = k ∧ 0 < d.date.compare c}

/-- Dates do not decrease from a delta to one that has it as predecessor or on a list. -/
def Dated (F : FullTable) : Prop :=
  ∀ d ∈ F, ∀ e ∈ F, (e.seq = d.prevSeq ∨ e.seq ∈ d.included ++ d.excluded ++ d.ignored) → e.date.compare d.date ≤ 0

instance (F : FullTable) : Decidable F.Dated := inferInstanceAs (Decidable (∀ d ∈ F, _))

/-- `a` is the latest predecessor of `seq`, or `seq` itself, dated at or before `c`. -/
structure LatestBy (F : FullTable) (c : SccsDate) (seq a : ℕ) : Prop where
  /-- It is `seq` or one of its predecessors. -/
  mem : a ∈ F.table.line seq
  /-- It is dated at or before `c`. -/
  dated : ∃ d, F.at? a = some d ∧ d.date.compare c ≤ 0
  /-- What comes before it on the way down is newer. -/
  latest : ∀ b ∈ F.table.line seq, a ∈ F.table.line b → b ≠ a → ∀ d, F.at? b = some d → 0 < d.date.compare c

/-- The newer deltas that are part of the version `seq`, if the version `a` is what the others make. -/
def late (F : FullTable) (c : SccsDate) (seq a : ℕ) : Set ℕ :=
  {k | ∀ W, LateSelection F.table.reads (F.table.line seq) (F.table.version a) (F.newer c) W → k ∈ W}

end FullTable

open FullTable

/-- Without a cutoff date `prepare_seqstate_2` only looks at the command line. -/
theorem prepareSeqstateAt_invalid {F : FullTable} {cutoff : SccsDate} (hc : cutoff.valid = false) (st : SeqState)
    (seq : ℕ) (incl excl : SidList) :
    prepareSeqstateAt F st seq incl excl cutoff = prepareSeqstate F.table st seq incl excl := by
  have hstep : ∀ (l : List FullDelta) (st : SeqState), l.foldlM (nameDeltaAt incl excl cutoff) st =
      .ok ((l.map (·.toDelta)).foldl (nameDelta incl excl) st) := by
    intro l
    induction l with
    | nil => intro st; rfl
    | cons d l ih =>
      intro st
      have hd : nameDeltaAt incl excl cutoff st d = .ok (nameDelta incl excl st d.toDelta) := by
        unfold nameDeltaAt nameDelta
        rw [hc]
        split_ifs <;> first | rfl | contradiction
      rw [List.foldlM_cons, hd, ok_bind, ih]
      rfl
  unfold prepareSeqstateAt prepareSeqstate prepareSeqstate2At prepareSeqstate2
  rw [table_current]
  congr 1
  funext st
  exact hstep F.current st

/-- **The newer deltas are taken out**, and no others. -/
theorem prepareSeqstate2At_included {F : FullTable} {c : SccsDate} (hc : c.valid = true) {st st' : SeqState}
    (h : prepareSeqstate2At F [] [] c st = .ok st') : st'.includedSet = st.includedSet \ F.newer c := by
  have hloop : ∀ (l : List FullDelta) (st : SeqState), l.foldlM (nameDeltaAt [] [] c) st = .ok st' →
      st'.includedSet = st.includedSet \ {k | ∃ d ∈ l, d.seq = k ∧ 0 < d.date.compare c} := by
    intro l
    induction l with
    | nil =>
      intro st h
      rw [Except.ok.inj h]
      simp
    | cons d l ih =>
      intro st h
      rw [List.foldlM_cons] at h
      obtain ⟨s₁, h₁, h⟩ := bind_eq_ok.mp h
      rw [ih s₁ h]
      unfold nameDeltaAt at h₁
      rw [if_neg (by simp [SidList.member]), if_neg (by simp [SidList.member]), if_pos hc] at h₁
      obtain ⟨newer, hn, h₁⟩ := bind_eq_ok.mp h₁
      have hd : d.date.valid = true := by
        unfold SccsDate.greater at hn
        split at hn
        · rename_i hv
          simp only [Bool.and_eq_true] at hv
          exact hv.1
        · cases hn
      rw [SccsDate.greater_ok hd hc] at hn
      obtain rfl := Except.ok.inj hn
      by_cases hk : 0 < d.date.compare c
      · rw [if_pos (by simpa using hk)] at h₁
        rw [← Except.ok.inj h₁, includedSet_setExcluded]
        ext k
        simp only [Set.mem_sdiff, Set.mem_singleton_iff, Set.mem_ofPred_eq, List.exists_mem_cons_iff, hk, and_true,
          @eq_comm _ k d.seq, not_or, and_assoc]
      · rw [if_neg (by simpa using hk)] at h₁
        rw [← Except.ok.inj h₁]
        ext k
        simp [hk]
  exact hloop F.current st h

/-- **When the version with the newer deltas taken out is the version of the latest delta by the date.** -/
theorem cutoff_forgets_iff {F : FullTable} {c : SccsDate} (hc : c.valid = true) {seq a : ℕ}
    (ha : F.LatestBy c seq a) {st st₀ R Q : SeqState} (hst : st.includedSet = ∅) (hst₀ : st₀.includedSet = ∅)
    (hR : prepareSeqstateAt F st seq [] [] c = .ok R) (hQ : prepareSeqstate1 F.table st₀ a = .ok Q) :
    R.includedSet = Q.includedSet ↔
      Forgets F.table.reads (F.table.line seq) (F.table.line a) (F.table.version a) (F.newer c) (F.late c seq a) := by
  obtain ⟨s₁, h₁, h₂⟩ := bind_eq_ok.mp hR
  obtain ⟨hJ, -⟩ := prepareSeqstate1_solves hst h₁
  obtain ⟨hJ₀, hQv⟩ := prepareSeqstate1_solves hst₀ hQ
  obtain ⟨-, hprev⟩ := prev_of_prepareSeqstate1 h₁
  have hfin := drawn_finite hprev
  have hign := reads_ign_lt F.table
  obtain ⟨W, hW⟩ := exists_lateSelection (F.table.version a) (F.newer c) hfin hign
  have hlate : F.late c seq a = W := by
    ext k
    constructor
    · intro h
      exact h W hW
    · intro h W' hW'
      rwa [← hW.unique hW' hfin hign]
  rw [prepareSeqstate2At_included hc h₂, hlate, hQv]
  rw [hQv] at hJ₀
  exact diff_eq_iff hJ hJ₀ (fun _ hx => mem_chain_trans ha.mem hx) hfin hign hW

/-! ### A newer delta that is not forgotten -/

/-- Three versions, the newest of which excludes the oldest. -/
def regretted : FullTable := [trunkDelta 3 2 [] [1], trunkDelta 2 1 [] [], trunkDelta 1 0 [] []]

/-- The second version is the latest by the second day. -/
theorem regretted_latestBy : regretted.LatestBy (january 2) 3 2 := by
  have h3 : regretted.table.next 3 = some 2 := by decide
  have h2 : regretted.table.next 2 = some 1 := by decide
  have h1 : regretted.table.next 1 = some 0 := by decide
  have h0 : regretted.table.next 0 = none := by decide
  have hline : ∀ b, b ∈ regretted.table.line 3 ↔ b = 3 ∨ b = 2 ∨ b = 1 ∨ b = 0 := by
    intro b
    rw [DeltaTable.line, mem_chain_iff h3, mem_chain_iff h2, mem_chain_iff h1, chain_of_none h0,
      Set.mem_singleton_iff]
  refine ⟨(hline 2).mpr (.inr (.inl rfl)), ⟨trunkDelta 2 1 [] [], by decide, by decide⟩, ?_⟩
  intro b hb h2b hne d hd
  rcases (hline b).mp hb with rfl | rfl | rfl | rfl
  · obtain rfl := Option.some.inj ((show regretted.at? 3 = some (trunkDelta 3 2 [] [1]) by decide).symm.trans hd)
    decide
  · exact absurd rfl hne
  · rw [DeltaTable.line, mem_chain_iff h1, chain_of_none h0] at h2b
    exact absurd h2b (by simp)
  · rw [DeltaTable.line, chain_of_none h0] at h2b
    exact absurd h2b (by simp)

/-- The two versions: the first delta is in one of them. -/
theorem regretted_versions :
    ∃ R Q, prepareSeqstateAt regretted (.new 3 (by decide)) 3 [] [] (january 2) = .ok R ∧
      prepareSeqstate1 regretted.table (.new 3 (by decide)) 2 = .ok Q ∧ 1 ∉ R.includedSet ∧ 1 ∈ Q.includedSet := by
  refine ⟨_, _, rfl, rfl, ?_, ?_⟩
  · show ¬ _ = true
    decide
  · show _ = true
    decide

/-- **The version as it was on the second day lacks the first delta**, because of what was excluded on the third. -/
theorem cutoff_remembers :
    regretted.Dated ∧ regretted.Parsed ∧ trunkDelta 3 2 [] [1] ∈ regretted.current ∧ regretted.LatestBy (january 2) 3 2 ∧
      ∃ R Q, prepareSeqstateAt regretted (.new 3 (by decide)) 3 [] [] (january 2) = .ok R ∧
        prepareSeqstate1 regretted.table (.new 3 (by decide)) 2 = .ok Q ∧ R.includedSet ≠ Q.includedSet := by
  obtain ⟨R, Q, hR, hQ, h1, h2⟩ := regretted_versions
  refine ⟨by decide, ⟨by decide, by decide, by decide, by decide⟩, by decide, regretted_latestBy, R, Q, hR, hQ, ?_⟩
  intro h
  exact h1 (h ▸ h2)

/-- There the third delta is not forgotten. -/
theorem regretted_not_forgets :
    ¬ Forgets regretted.table.reads (regretted.table.line 3) (regretted.table.line 2) (regretted.table.version 2)
      (regretted.newer (january 2)) (regretted.late (january 2) 3 2) := by
  obtain ⟨R, Q, hR, hQ, h1, h2⟩ := regretted_versions
  intro h
  have hnew := SeqState.includedSet_new 3 (by decide)
  have heq := (cutoff_forgets_iff (by decide) regretted_latestBy hnew hnew hR hQ).mpr h
  exact h1 (heq ▸ h2)

end CSSC.Table
