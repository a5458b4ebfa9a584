import CSSC.Table.AddDelta
import CSSC.Table.Reading
import CSSC.Table.Rmdel

/-!
# What a check-in does to the versions

A new delta is put in front of the table. The old versions stay what they are, and what the new one consists of
follows from its predecessor and its lists.

The tables that the program makes are `Tidy`: everything refers to earlier current deltas, the numbers are distinct,
and only the first delta has no predecessor. A new delta and a removed one keep the table tidy (`Tidy.prepend`,
`Tidy.markRemoved`). `Grown T V ns` says that the deltas `ns` were put in front of `T`, and what their versions
consist of, as far as the old deltas go, is `V`.

**An old version consists of the same deltas as before** (`version_prepend`), and of current ones
(`Tidy.version_current`). What the new version consists of is said by `version_record`, if recording its lists is
faithful, and `addedDeltas_versions` says **what a check-in does to all the versions, with automatic deltas and
lists**.
-/

namespace CSSC.Table

open CSSC.Lines CSSC.Body CSSC.Library.Selection DeltaTable

/-! ### Tidy tables -/

/-- The tables that the program makes. -/
structure Tidy (T : DeltaTable) : Prop where
  /-- Predecessors and lists name earlier deltas. -/
  earlier : T.Earlier
  /-- No two deltas have the same number. -/
  nodup : (T.map Delta.seq).Nodup
  /-- No current delta refers to a removed one. -/
  settled : Settled T
  /-- Only the first delta has no predecessor. -/
  rooted : ∀ d ∈ T, d.prevSeq = 0 → d.seq = 1

/-- A table with one delta is tidy. -/
theorem tidy_singleton (d : Delta) (hD : d.type = .D) (hs : d.seq = 1) (hp : d.prevSeq = 0)
    (hl : d.included ++ d.excluded ++ d.ignored = []) : Tidy [d] where
  earlier := by
    intro e he
    obtain rfl := List.mem_singleton.mp he
    rw [hl]
    refine ⟨by omega, fun h => absurd hp h, by simp⟩
  nodup := by simp
  settled := by
    intro e _ f hf hr
    obtain rfl := List.mem_singleton.mp hf
    simp [Delta.removed, hD] at hr
  rooted e he _ := by
    obtain rfl := List.mem_singleton.mp he
    exact hs

section

variable {T : DeltaTable} {N d : Delta}

theorem current_of_type (h : d.type = .D) : d.removed = false := by simp [Delta.removed, h]

/-- A delta refers to earlier numbers only. -/
theorem DeltaTable.Earlier.refersTo_lt (hT : T.Earlier) (hd : d ∈ T) {s : ℕ} (hs : d.refersTo s = true) : s < d.seq := by
  obtain ⟨hprev, -, hlists⟩ := hT d hd
  simp only [Delta.refersTo, Bool.or_eq_true, decide_eq_true_eq, List.contains_iff_mem] at hs
  rcases hs with ((rfl | hs) | hs) | hs
  · exact hprev
  · exact (hlists s (by simp [hs])).1
  · exact (hlists s (by simp [hs])).1
  · exact (hlists s (by simp [hs])).1

theorem Tidy.at? (hT : Tidy T) (hd : d ∈ T) : T.at? d.seq = some d := at?_of_nodup hT.nodup hd

theorem Tidy.at?_isSome (hT : Tidy T) (hd : d ∈ T) : (T.at? d.seq).isSome := by
  rw [hT.at? hd]
  rfl

/-- What a current delta refers to is current, 0 apart. -/
theorem Tidy.current_of_refersTo (hT : Tidy T) (hd : d ∈ T.current) {s : ℕ} (hs : d.refersTo s = true) (h0 : s ≠ 0) :
    ∃ e ∈ T.current, e.seq = s := by
  obtain ⟨hm, -⟩ := mem_current.mp hd
  obtain ⟨-, hprev, hlists⟩ := hT.earlier d hm
  have hex : (T.at? s).isSome := by
    simp only [Delta.refersTo, Bool.or_eq_true, decide_eq_true_eq, List.contains_iff_mem] at hs
    rcases hs with ((rfl | hs) | hs) | hs
    · exact hprev h0
    · exact (hlists s (by simp [hs])).2
    · exact (hlists s (by simp [hs])).2
    · exact (hlists s (by simp [hs])).2
  obtain ⟨e, he, rfl⟩ := at?_isSome_iff.mp hex
  refine ⟨e, mem_current.mpr ⟨he, ?_⟩, rfl⟩
  by_contra hr
  rw [hT.settled d hd e he (by simpa using hr)] at hs
  cases hs

/-- **A new delta keeps the table tidy**, if it refers to current deltas. -/
theorem Tidy.prepend (hT : Tidy T) (hseq : T.highestSeqno < N.seq) (hD : N.type = .D)
    (hrefs : ∀ s, N.refersTo s = true → ∃ d ∈ T.current, d.seq = s) : Tidy (T.prepend N) where
  earlier := by
    have hsome : ∀ s, N.refersTo s = true → (T.at? s).isSome := by
      intro s hs
      obtain ⟨d, hd, rfl⟩ := hrefs s hs
      exact hT.at?_isSome (mem_current.mp hd).1
    refine earlier_prepend hT.earlier hseq (hsome _ (by simp [Delta.refersTo])) fun s hs => hsome s ?_
    simp only [List.mem_append] at hs
    rcases hs with (hs | hs) | hs <;> simp [Delta.refersTo, hs]
  nodup := by
    rw [DeltaTable.prepend, List.map_cons, List.nodup_cons]
    refine ⟨fun h => ?_, hT.nodup⟩
    obtain ⟨d, hd, he⟩ := List.mem_map.mp h
    have := le_highestSeqno hd
    omega
  settled := by
    intro d hd e he hr
    have heT : e ∈ T := by
      rcases List.mem_cons.mp he with rfl | he
      · rw [current_of_type hD] at hr
        cases hr
      · exact he
    obtain ⟨hdm, hdr⟩ := mem_current.mp hd
    rcases List.mem_cons.mp hdm with rfl | hdm
    · by_contra hrefs'
      obtain ⟨f, hf, hfe⟩ := hrefs e.seq (by simpa using hrefs')
      obtain ⟨hfm, hfr⟩ := mem_current.mp hf
      rw [List.inj_on_of_nodup_map hT.nodup hfm heT hfe, hr] at hfr
      cases hfr
    · exact hT.settled d (mem_current.mpr ⟨hdm, hdr⟩) e heT hr
  rooted := by
    intro d hd h0
    rcases List.mem_cons.mp hd with rfl | hd
    · obtain ⟨e, he, hs⟩ := hrefs 0 (by simp [Delta.refersTo, h0])
      have := hT.earlier.pos (mem_current.mp he).1
      omega
    · exact hT.rooted d hd h0

end

/-! ### Removing a delta -/

/-- `find` passes over a delta that it is not looking for. -/
theorem find_cons_of_not {id : Sid} {d : Delta} (h : ¬ (!d.removed && decide (d.id = id)) = true) (T : DeltaTable) :
    DeltaTable.find (d :: T) id = T.find id := by
  rw [find, find, current, current, List.filter_cons]
  split
  · rename_i hr
    rw [List.find?_cons_of_neg]
    intro hid
    exact h (by rw [hr, hid]; rfl)
  · rfl

/-- `find` stops at a current delta with the SID. -/
theorem find_cons_of {id : Sid} {d : Delta} (h : (!d.removed && decide (d.id = id)) = true) (T : DeltaTable) :
    DeltaTable.find (d :: T) id = some d := by
  obtain ⟨hr, hid⟩ := Bool.and_eq_true_iff.mp h
  rw [find, current, List.filter_cons, if_pos hr]
  exact List.find?_cons_of_pos hid

/-- What is left of the table when a delta is removed. -/
theorem mem_markRemoved {id : Sid} {T : DeltaTable} {d : Delta} (h : d ∈ markRemoved id T) :
    d ∈ T ∨ ∃ e ∈ T, DeltaTable.find T id = some e ∧ d = { e with type := .R } := by
  induction T with
  | nil => cases h
  | cons e T ih =>
    unfold markRemoved at h
    split at h
    · rename_i he
      rcases List.mem_cons.mp h with rfl | h
      · exact .inr ⟨e, List.mem_cons_self, find_cons_of he T, rfl⟩
      · exact .inl (List.mem_cons_of_mem e h)
    · rename_i he
      rcases List.mem_cons.mp h with rfl | h
      · exact .inl List.mem_cons_self
      · rcases ih h with h | ⟨f, hf, hfind, rfl⟩
        · exact .inl (List.mem_cons_of_mem e h)
        · exact .inr ⟨f, List.mem_cons_of_mem e hf, (find_cons_of_not he T).trans hfind, rfl⟩

theorem map_seq_markRemoved (id : Sid) (T : DeltaTable) : (markRemoved id T).map Delta.seq = T.map Delta.seq := by
  have h := congrArg (List.map Delta.seq) (markRemoved_untyped id T)
  simpa [Function.comp_def, Delta.untyped] using h

/-- The current deltas that are left were current before; with distinct numbers the removed one is not among them. -/
theorem mem_current_markRemoved {id : Sid} {T : DeltaTable} (hn : (T.map Delta.seq).Nodup) {d e : Delta}
    (hd : T.find id = some d) : e ∈ current (markRemoved id T) ↔ e ∈ T.current ∧ e ≠ d := by
  induction T with
  | nil => cases hd
  | cons f T ih =>
    rw [List.map_cons, List.nodup_cons] at hn
    unfold markRemoved
    split
    · rename_i hf
      obtain rfl : f = d := Option.some.inj ((find_cons_of hf T).symm.trans hd)
      have hnot : ∀ g ∈ T, g ≠ f := fun g hg h => hn.1 (List.mem_map.mpr ⟨g, hg, by rw [h]⟩)
      simp only [mem_current, List.mem_cons]
      constructor
      · rintro ⟨rfl | he, hr⟩
        · simp [Delta.removed] at hr
        · exact ⟨⟨.inr he, hr⟩, hnot e he⟩
      · rintro ⟨⟨rfl | he, hr⟩, hne⟩
        · exact absurd rfl hne
        · exact ⟨.inr he, hr⟩
    · rename_i hf
      have hfind : DeltaTable.find T id = some d := (find_cons_of_not hf T).symm.trans hd
      have hrest := ih hn.2 hfind
      simp only [mem_current] at hrest
      have hdT : d ∈ T := (mem_current.mp (List.mem_of_find?_eq_some hfind)).1
      have hfd : f ≠ d := fun h => hn.1 (List.mem_map.mpr ⟨d, hdT, by rw [h]⟩)
      simp only [mem_current, List.mem_cons, or_and_right, hrest]
      refine or_congr_left (iff_self_and.mpr ?_)
      rintro ⟨rfl, -⟩
      exact hfd

/-- **Removing a delta that no current delta refers to keeps the table tidy.** -/
theorem Tidy.markRemoved {T : DeltaTable} (hT : Tidy T) {id : Sid} {d : Delta} (hd : T.find id = some d)
    (href : ∀ e ∈ T.current, e.refersTo d.seq = false) : Tidy (Table.markRemoved id T) where
  earlier := by
    have hat : ∀ s, (DeltaTable.at? (Table.markRemoved id T) s).isSome = (T.at? s).isSome := by
      intro s
      have h := congrArg Option.isSome (congrArg (DeltaTable.at? · s) (markRemoved_untyped id T))
      simpa only [at?_untyped, Option.isSome_map] using h
    intro e he
    simp only [hat]
    rcases mem_markRemoved he with he | ⟨f, hf, -, rfl⟩
    · exact hT.earlier e he
    · exact hT.earlier f hf
  nodup := by
    rw [map_seq_markRemoved]
    exact hT.nodup
  settled := by
    intro e he f hf hr
    have hec := ((mem_current_markRemoved hT.nodup hd).mp he).1
    rcases mem_markRemoved hf with hf | ⟨g, -, hg, rfl⟩
    · exact hT.settled e hec f hf hr
    · obtain rfl := Option.some.inj (hd.symm.trans hg)
      exact href e hec
  rooted := by
    intro e he h0
    rcases mem_markRemoved he with he | ⟨f, hf, -, rfl⟩
    · exact hT.rooted e he h0
    · exact hT.rooted f hf h0

/-- Whatever is current goes back to the first delta: if no current delta refers to it, it is the only one. -/
theorem Tidy.first_current {T : DeltaTable} (hT : Tidy T) {d : Delta} (hd : d ∈ T) (h1 : d.seq = 1)
    (href : ∀ e ∈ T.current, e.refersTo d.seq = false) {e : Delta} (he : e ∈ T.current) : e = d := by
  induction hs : e.seq using Nat.strong_induction_on generalizing e with
  | _ s ih =>
    subst hs
    obtain ⟨hem, -⟩ := mem_current.mp he
    by_cases h0 : e.prevSeq = 0
    · exact List.inj_on_of_nodup_map hT.nodup hem hd ((hT.rooted e hem h0).trans h1.symm)
    · obtain ⟨f, hf, hfs⟩ := hT.current_of_refersTo he (s := e.prevSeq) (by simp [Delta.refersTo]) h0
      obtain rfl := ih f.seq (by rw [hfs]; exact (hT.earlier e hem).1) hf rfl
      have := href e he
      simp [Delta.refersTo, hfs] at this

/-! ### The old versions -/

/-- `prepare_seqstate_1` only looks at the deltas up to the one it is about. -/
theorem prepareSeqstate1_congr {T T' : DeltaTable} {seq : ℕ}
    (h : ∀ y ≤ seq, T'.deltaAtSeq y = T.deltaAtSeq y ∧ T'.deltaAtSeqExists y = T.deltaAtSeqExists y) (st : SeqState) :
    prepareSeqstate1 T' st seq = prepareSeqstate1 T st seq := by
  have hpred : ∀ fuel y st, predecessors T' seq fuel y st = predecessors T seq fuel y st := by
    intro fuel
    induction fuel with
    | zero => exact fun _ _ => rfl
    | succ fuel ih =>
      intro y st
      unfold predecessors
      split
      · rfl
      · rw [(h y (by omega)).1, (h y (by omega)).2]
        simp only [ih]
  have hlists : ∀ (list : Delta → List ℕ) (set : SeqState → ℕ → SeqState) (ys : List ℕ), (∀ y ∈ ys, y ≤ seq) → ∀ st,
      applyLists T' list set ys st = applyLists T list set ys st := by
    intro list set ys hys
    induction ys with
    | nil => exact fun _ => rfl
    | cons y ys ih =>
      intro st
      unfold applyLists
      rw [(h y (hys y List.mem_cons_self)).1]
      simp only [ih fun z hz => hys z (List.mem_cons_of_mem y hz)]
  have hup : ∀ y ∈ upTo seq, y ≤ seq := fun y hy => (mem_upTo.mp hy).2
  have hdown : ∀ y ∈ downFrom seq, y ≤ seq := fun y hy => (mem_downFrom.mp hy).2
  unfold prepareSeqstate1
  simp only [hpred, hlists _ _ _ hup, hlists _ _ _ hdown]

/-- A new delta in front does not change what is found below. -/
theorem deltaAtSeq_prepend {T : DeltaTable} {N : Delta} (hN : T.highestSeqno < N.seq) {y : ℕ}
    (hy : y ≤ T.highestSeqno) : (T.prepend N).deltaAtSeq y = T.deltaAtSeq y ∧
      (T.prepend N).deltaAtSeqExists y = T.deltaAtSeqExists y := by
  have hne : ∀ e ∈ T, e.seq ≠ N.seq := fun e he h => by
    have := le_highestSeqno he
    omega
  have hat : (T.prepend N).at? y = T.at? y := by rw [at?_prepend T N hne, if_neg (by omega)]
  have hrange : (0 < y ∧ y ≤ (T.prepend N).highestSeqno) ↔ (0 < y ∧ y ≤ T.highestSeqno) := by
    rw [highestSeqno_prepend]
    omega
  unfold deltaAtSeq deltaAtSeqExists
  simp only [hat, hrange, and_self]

/-- What a version consists of, by `prepare_seqstate_1` and by the lists. -/
theorem version_spec {T : DeltaTable} (hT : T.Earlier) {seq : ℕ} (hseq : (T.at? seq).isSome) {st : SeqState}
    (hst : st.includedSet = ∅) : ∃ st', prepareSeqstate1 T st seq = .ok st' ∧ st'.includedSet = T.version seq ∧
      Solves T.lists (T.ancestors seq) (T.version seq) := by
  obtain ⟨st', h, hsol⟩ := prepareSeqstate1_spec hT hseq hst
  have hv := (prepareSeqstate1_solves hst h).2
  exact ⟨st', h, hv, hv ▸ hsol⟩

/-- A version consists of earlier deltas that exist, and 0. -/
theorem version_le {T : DeltaTable} (hT : T.Earlier) {seq : ℕ} (hseq : (T.at? seq).isSome) {y : ℕ}
    (hy : y ∈ T.version seq) : y ≤ seq ∧ (y ≠ 0 → (T.at? y).isSome) := by
  obtain ⟨-, -, -, hsol⟩ := version_spec hT hseq (SeqState.includedSet_new 0 (by decide))
  exact drawn_known hT hseq ((hsol y).mp hy).1

/-- **An old version consists of the same deltas as before.** -/
theorem version_prepend {T : DeltaTable} (hT : T.Earlier) {N : Delta} (hN : T.highestSeqno < N.seq) {seq : ℕ}
    (hseq : (T.at? seq).isSome) : (T.prepend N).version seq = T.version seq := by
  have hempty := SeqState.includedSet_new 0 (by decide)
  obtain ⟨st', h, hv, -⟩ := version_spec hT hseq hempty
  obtain ⟨d, hd⟩ := Option.isSome_iff_exists.mp hseq
  have hle := at?_le hd
  rw [← hv]
  refine ((prepareSeqstate1_solves hempty ?_).2).symm
  rw [prepareSeqstate1_congr (fun y hy => deltaAtSeq_prepend hN (hy.trans hle)), h]

/-- **A version consists of current deltas**, and 0. -/
theorem Tidy.version_current {T : DeltaTable} (hT : Tidy T) {d : Delta} (hd : d ∈ T.current) {y : ℕ}
    (hy : y ∈ T.version d.seq) : y = 0 ∨ ∃ e ∈ T.current, e.seq = y := by
  let Q : ℕ → Prop := fun y => y = 0 ∨ ∃ e ∈ T.current, e.seq = y
  have hstep : ∀ y e, Q y → T.at? y = some e → ∀ s, e.refersTo s = true → Q s := by
    rintro y e (rfl | ⟨f, hf, rfl⟩) he s hs
    · rw [hT.earlier.at?_zero] at he
      cases he
    · obtain rfl := Option.some.inj ((hT.at? (mem_current.mp hf).1).symm.trans he)
      by_cases h0 : s = 0
      · exact .inl h0
      · exact .inr (hT.current_of_refersTo hf hs h0)
  have hempty := SeqState.includedSet_new 0 (by decide)
  obtain ⟨st', h, hv, -⟩ := version_spec hT.earlier (hT.at?_isSome (mem_current.mp hd).1) hempty
  refine prepareSeqstate1_inherit (Q := Q) (fun y e hQ he => hstep y e hQ he _ (by simp [Delta.refersTo]))
    (fun y e hQ he s hs => hstep y e hQ he s (by simp [Delta.refersTo, hs])) ?_ (.inr ⟨d, hd, rfl⟩) h y (hv ▸ hy)
  rw [hempty]
  exact fun _ h => h.elim

/-! ### The new version -/

/-- Without lists nothing can go wrong. -/
theorem faithful_empty {L : References ℕ} {roots J : Set ℕ} (hJ : Solves L roots J) :
    Faithful L roots J ∅ ∅ ∅ ∅ where
  once := by simp
  addedKept := by simp
  addedHeeded := by simp
  baseKept := by
    rintro k - ⟨z, hz, -⟩
    exact hz.inherit (P := fun _ => False) (fun _ h => h) fun _ _ h _ => h
  baseHeeded := by
    rintro k - ⟨z, hz, -⟩
    exact hz
  dragged := by
    intro k hk
    exact (hk.inherit (P := fun _ => False) (fun _ h => h) fun _ _ h _ => h).elim
  revived := by
    intro k hk hs hJk _
    by_contra hno
    simp only [Set.mem_empty_iff_false, Set.union_empty, Set.sdiff_empty, false_or, not_or] at hno
    exact hJk ((hJ k).mpr ⟨hk, hs, hno.2⟩)

/-- **What the new version consists of**, if recording its lists is faithful: itself, and the version of its
predecessor with `A` added and `X` taken away. -/
theorem version_record {T : DeltaTable} (hT : T.Earlier) {N : Delta} (hN : T.highestSeqno < N.seq)
    (hP : (T.at? N.prevSeq).isSome) (hign : N.ignored = []) (hknown : ∀ s ∈ N.included ++ N.excluded, (T.at? s).isSome)
    {A X : Set ℕ} (hA : A ⊆ {s | s ∈ N.included}) (hX : X ⊆ {s | s ∈ N.excluded})
    (hA' : {s | s ∈ N.included} ⊆ A ∪ X) (hX' : {s | s ∈ N.excluded} ⊆ A ∪ X)
    (hF : Faithful T.lists (T.ancestors N.prevSeq) (T.version N.prevSeq) A X {s | s ∈ N.included}
      {s | s ∈ N.excluded}) :
    (T.prepend N).version N.seq = insert N.seq (T.version N.prevSeq \ X ∪ A) := by
  have hempty := SeqState.includedSet_new 0 (by decide)
  have hne : ∀ e ∈ T, e.seq ≠ N.seq := fun e he h => by
    have := le_highestSeqno he
    omega
  have hbelow : ∀ y, (T.at? y).isSome → y < N.seq := by
    intro y hy
    obtain ⟨d, hd⟩ := Option.isSome_iff_exists.mp hy
    have := at?_le hd
    omega
  have hT' : (T.prepend N).Earlier := by
    refine earlier_prepend hT hN hP fun s hs => ?_
    rw [hign, List.append_nil] at hs
    exact hknown s hs
  have hat : (T.prepend N).at? N.seq = some N := by rw [at?_prepend T N hne, if_pos rfl]
  have hNs : ((T.prepend N).at? N.seq).isSome := by
    rw [hat]
    rfl
  obtain ⟨-, -, -, hJ⟩ := version_spec hT hP hempty
  obtain ⟨-, -, -, hsol⟩ := version_spec hT' hNs hempty
  have hroots : (T.prepend N).ancestors N.seq = insert N.seq (T.ancestors N.prevSeq) := by
    ext x
    rw [mem_ancestors_iff hat, Set.mem_insert_iff]
    exact or_congr_right (iff_of_eq (congrArg (x ∈ ·) (ancestors_prepend hT hne hP (hbelow _ hP))))
  have hfin : {k | Drawn (T.prepend N).lists.inc ((T.prepend N).ancestors N.seq) k}.Finite :=
    (Set.finite_le_nat N.seq).subset fun k hk => (drawn_known hT' hNs hk).1
  have hfresh : T.lists.Fresh N.seq := by
    intro z
    refine ⟨fun h => ?_, fun h => ?_, fun h => ?_⟩
    · exact lt_irrefl _ (hbelow _ (hT.lists (.inl h)).2)
    · exact lt_irrefl _ (hbelow _ (hT.lists (.inr (.inl h))).2)
    · exact lt_irrefl _ (hbelow _ (hT.lists (.inr (.inr h))).2)
  have hroot : N.seq ∉ T.ancestors N.prevSeq := fun h => by
    have := (hT.ancestors h fun _ => hP).1
    have := hbelow _ hP
    omega
  have hrec := (solves_record_iff hfresh hroot (fun h => lt_irrefl _ (hbelow _ (hknown _ (List.mem_append_left _ h))))
    (fun h => lt_irrefl _ (hbelow _ (hknown _ (List.mem_append_right _ h)))) hJ hA hX hA' hX').mpr hF
  rw [← lists_prepend hne hign, ← hroots] at hrec
  exact hsol.unique hrec hfin hT'.ign_lt

/-! ### The automatic deltas -/

/-- The deltas `ns` were put in front of `T`; of the deltas of `T` their versions contain those of `V`. -/
structure Grown (T : DeltaTable) (V : Set ℕ) (ns : List Delta) : Prop where
  /-- The table is tidy. -/
  tidy : Tidy (ns ++ T)
  /-- They are deltas with new numbers. -/
  newer : ∀ e ∈ ns, T.highestSeqno < e.seq ∧ e.type = .D
  /-- The old versions consist of the same deltas as before. -/
  old : ∀ d ∈ T, version (ns ++ T) d.seq = T.version d.seq
  /-- The new ones contain `V`. -/
  agree : ∀ e ∈ ns, ∀ y ≤ T.highestSeqno, (y ∈ version (ns ++ T) e.seq ↔ y ∈ V)

theorem Grown.nil {T : DeltaTable} (hT : Tidy T) (V : Set ℕ) : Grown T V [] where
  tidy := hT
  newer := by simp
  old _ _ := rfl
  agree := by simp

/-- One delta comes before the others. -/
theorem Grown.snoc {T : DeltaTable} {V : Set ℕ} {ns : List Delta} {e : Delta} (hT : Tidy T)
    (hnew : T.highestSeqno < e.seq ∧ e.type = .D) (hV : ∀ y ≤ T.highestSeqno, (y ∈ version (T.prepend e) e.seq ↔ y ∈ V))
    (h : Grown (T.prepend e) (version (T.prepend e) e.seq) ns) : Grown T V (ns ++ [e]) := by
  have hhigh : T.highestSeqno ≤ (T.prepend e).highestSeqno := le_max_right _ _
  have happ : ns ++ [e] ++ T = ns ++ T.prepend e := by simp [prepend]
  refine ⟨happ ▸ h.tidy, fun f hf => ?_, fun d hd => ?_, fun f hf y hy => ?_⟩
  · rcases List.mem_append.mp hf with hf | hf
    · exact ⟨hhigh.trans_lt (h.newer f hf).1, (h.newer f hf).2⟩
    · rw [List.mem_singleton.mp hf]
      exact hnew
  · rw [happ, h.old d (List.mem_cons_of_mem e hd), version_prepend hT.earlier hnew.1 (hT.at?_isSome hd)]
  · rw [happ]
    rcases List.mem_append.mp hf with hf | hf
    · exact (h.agree f hf y (hy.trans hhigh)).trans (hV y hy)
    · rw [List.mem_singleton.mp hf, h.old e List.mem_cons_self]
      exact hV y hy

theorem highestSeqno_append (ns : List Delta) (T : DeltaTable) :
    T.highestSeqno ≤ DeltaTable.highestSeqno (ns ++ T) := by
  induction ns with
  | nil => exact le_rfl
  | cons e ns ih => exact ih.trans (le_max_right _ _)

/-- The current deltas of a table that has grown. -/
theorem Grown.current {T : DeltaTable} {V : Set ℕ} {ns : List Delta} (h : Grown T V ns) :
    current (ns ++ T) = ns ++ T.current := by
  have hall : ns.filter (!·.removed) = ns :=
    List.filter_eq_self.mpr fun e he => by simp [current_of_type (h.newer e he).2]
  rw [DeltaTable.current, List.filter_append, hall]
  rfl

/-- An automatic delta has the version of its predecessor, and itself. -/
theorem version_nullDelta {T : DeltaTable} (hT : Tidy T) (id : Sid) {P : Delta} (hP : P ∈ T.current)
    (hroom : T.highestSeqno + 1 < 65536) : Tidy (T.prepend (nullDelta id T.nextSeqno P.seq)) ∧
      version (T.prepend (nullDelta id T.nextSeqno P.seq)) T.nextSeqno = insert T.nextSeqno (T.version P.seq) := by
  have hnext := nextSeqno_eq hroom
  have hN : T.highestSeqno < (nullDelta id T.nextSeqno P.seq).seq := by
    rw [nullDelta_seq]
    omega
  have hPs : (T.at? P.seq).isSome := hT.at?_isSome (mem_current.mp hP).1
  have hnone : {s | s ∈ (nullDelta id T.nextSeqno P.seq).included} = ∅ := Set.ext fun s => by simp [nullDelta]
  have hnone' : {s | s ∈ (nullDelta id T.nextSeqno P.seq).excluded} = ∅ := Set.ext fun s => by simp [nullDelta]
  obtain ⟨-, -, -, hJ⟩ := version_spec hT.earlier hPs (SeqState.includedSet_new 0 (by decide))
  constructor
  · refine hT.prepend hN rfl fun s hs => ⟨P, hP, ?_⟩
    simpa [Delta.refersTo, nullDelta, eq_comm] using hs
  · have h := version_record (A := ∅) (X := ∅) hT.earlier hN hPs rfl (by simp [nullDelta]) (Set.empty_subset _)
      (Set.empty_subset _) (by rw [hnone, Set.union_empty]) (by rw [hnone', Set.union_empty])
      (by rw [hnone, hnone']; exact faithful_empty hJ)
    rw [Set.sdiff_empty, Set.union_empty] at h
    exact h

/-- **The automatic deltas have the version that was gotten.** -/
theorem nullDeltaLoop_versions {hi lo : Int16} {escape pred' : ℕ} {id : Sid} {T T' : DeltaTable} (hT : Tidy T)
    {P : Delta} (hP : P ∈ T.current) (hroom : T.highestSeqno + (hi.toInt - lo.toInt).toNat < 65535)
    (h : nullDeltaLoop hi escape id lo T P.seq = .ok (T', pred')) :
    ∃ ns, T' = ns ++ T ∧ Grown T (T.version P.seq) ns ∧ ∃ P' ∈ current T', P'.seq = pred' ∧ (P' = P ∨ P' ∈ ns) := by
  have hstop : ∀ {T : DeltaTable} {P : Delta}, Tidy T → P ∈ T.current →
      (.ok (T, P.seq) : Except Quit (DeltaTable × ℕ)) = .ok (T', pred') →
      ∃ ns, T' = ns ++ T ∧ Grown T (T.version P.seq) ns ∧ ∃ P' ∈ current T', P'.seq = pred' ∧ (P' = P ∨ P' ∈ ns) := by
    intro T P hT hP h
    cases h
    exact ⟨[], rfl, .nil hT _, P, hP, rfl, .inl rfl⟩
  induction escape generalizing id lo T P with
  | zero =>
    rw [nullDeltaLoop] at h
    split at h
    · split at h <;> cases h
    · exact hstop hT hP h
  | succ escape ih =>
    rw [nullDeltaLoop] at h
    split at h
    · rename_i hlt
      have hsucc := toInt_succ hlt
      rw [Int16.lt_iff_toInt_lt] at hlt
      split at h
      · cases h
      · have hnext : T.nextSeqno = T.highestSeqno + 1 := nextSeqno_eq (by omega)
        obtain ⟨hT₁, hv⟩ := version_nullDelta hT (nullSid lo) hP (by omega)
        have hmem : nullDelta (nullSid lo) T.nextSeqno P.seq ∈
            current (T.prepend (nullDelta (nullSid lo) T.nextSeqno P.seq)) :=
          mem_current.mpr ⟨List.mem_cons_self, rfl⟩
        obtain ⟨ns, rfl, hg, P', hP', hs, hor⟩ := ih hT₁ hmem (by
          rw [highestSeqno_prepend, nullDelta_seq]
          omega) h
        refine ⟨ns ++ [nullDelta (nullSid lo) T.nextSeqno P.seq], by simp [prepend], ?_, P', hP', hs, .inr ?_⟩
        · refine hg.snoc hT ⟨by rw [nullDelta_seq]; omega, rfl⟩ fun y hy => ?_
          rw [nullDelta_seq, hv, Set.mem_insert_iff, or_iff_right (by omega)]
        · rcases hor with rfl | hor <;> simp_all
    · exact hstop hT hP h

/-- The predecessor of the new delta has the version that was gotten, too. -/
theorem nullDeltas_versions {nullFlag : Bool} {pred' : ℕ} {T T' : DeltaTable} {target : Sid} (hT : Tidy T) {P : Delta}
    (hP : P ∈ T.current) (hroom : T.highestSeqno + gap nullFlag P.id target < 65535)
    (h : nullDeltas nullFlag T P.id target P.seq = .ok (T', pred')) :
    ∃ ns, T' = ns ++ T ∧ Grown T (T.version P.seq) ns ∧ ∃ P' ∈ current T', P'.seq = pred' ∧ (P' = P ∨ P' ∈ ns) := by
  unfold nullDeltas at h
  cases nullFlag with
  | false =>
    cases h
    exact ⟨[], rfl, .nil hT _, P, hP, rfl, .inl rfl⟩
  | true =>
    rw [if_pos rfl] at h
    split at h
    · cases h
    · exact nullDeltaLoop_versions hT hP hroom h

/-! ### The new delta -/

/-- What is named about an old number does not depend on the automatic deltas. -/
theorem named_append {T : DeltaTable} {V : Set ℕ} {ns : List Delta} (h : Grown T V ns) (incl excl : SidList) {y : ℕ}
    (hy : y ≤ T.highestSeqno) : named (ns ++ T) incl excl y = named T incl excl y := by
  have hskip : ∀ (ds : List Delta) (acc : Option Bool), (∀ d ∈ ds, d.seq ≠ y) →
      ds.foldl (nameOne incl excl y) acc = acc := by
    intro ds
    induction ds with
    | nil => exact fun _ _ => rfl
    | cons d ds ih =>
      intro acc hds
      rw [List.foldl_cons, nameOne, if_neg (hds d List.mem_cons_self)]
      exact ih acc fun e he => hds e (List.mem_cons_of_mem d he)
  rw [named, h.current, List.foldl_append, hskip ns none fun d hd => by have := (h.newer d hd).1; omega]
  rfl

/-- What is tagged in the old table is listed in the new one. -/
theorem TagsListed.append {T : DeltaTable} {V : Set ℕ} {ns : List Delta} (h : Grown T V ns) {incl excl : SidList}
    {st : SeqState} (ht : TagsListed T incl excl st) : TagsListed (ns ++ T) incl excl st := by
  have hmono : ∀ l : SidList, listedSet T l ⊆ listedSet (ns ++ T) l := by
    intro l y hy
    obtain ⟨d, hd, hm, hs⟩ := listed_iff.mp hy
    exact listed_iff.mpr ⟨d, by rw [h.current]; exact List.mem_append_right ns hd, hm, hs⟩
  exact fun y hy => ⟨fun hi => hmono incl ((ht y hy).1 hi), fun he => hmono excl ((ht y hy).2 he)⟩

/-- The recorded lists are the numbers of the deltas that the p-file entry lists, whatever number the first loop stops
at. -/
theorem mem_newDelta {T : DeltaTable} {incl excl : SidList} {st : SeqState} (ht : TagsListed T incl excl st)
    (highest : ℕ) (id : Sid) (predecessor y : ℕ) :
    (y ∈ (newDelta T highest st id predecessor incl excl).included ↔ y ∈ listedSet T incl) ∧
      (y ∈ (newDelta T highest st id predecessor incl excl).excluded ↔ y ∈ listedSet T excl) := by
  have hlisted : ∀ {l : SidList}, y ∈ listedSet T l → y < T.highestSeqno + 1 := by
    intro l h
    obtain ⟨d, hd⟩ := Option.isSome_iff_exists.mp (listedSet_known h)
    exact Nat.lt_succ_of_le (at?_le hd)
  simp only [newDelta, seqSet, List.mem_filter, List.mem_range, Bool.or_eq_true]
  refine ⟨⟨?_, fun h => ⟨hlisted h, .inr h⟩⟩, ⟨?_, fun h => ⟨hlisted h, .inr h⟩⟩⟩
  · rintro ⟨-, h | h⟩
    · simp only [tagged, Bool.and_eq_true, decide_eq_true_eq] at h
      exact (ht y h.1.2).1 h.2
    · exact h
  · rintro ⟨-, h | h⟩
    · simp only [tagged, Bool.and_eq_true, decide_eq_true_eq] at h
      exact (ht y h.1.2).2 h.2.2
    · exact h

/-- What a check-in does to the versions. -/
structure Recorded (T : DeltaTable) (P : Delta) (incl excl : SidList) (ns : List Delta) (N : Delta) : Prop where
  /-- The automatic deltas have the version that was gotten. -/
  grown : Grown T (T.version P.seq) ns
  /-- The new delta comes last. -/
  newest : DeltaTable.highestSeqno (ns ++ T) < N.seq ∧ N.type = .D
  /-- The table is tidy. -/
  tidy : Tidy (N :: (ns ++ T))
  /-- The new version is itself and the version that was edited, as far as the old deltas go. -/
  version : ∀ y ≤ T.highestSeqno, (y ∈ DeltaTable.version (N :: (ns ++ T)) N.seq ↔
    y ∈ T.version P.seq \ removed T incl excl ∪ added T incl excl)
  /-- It contains itself. -/
  self : N.seq ∈ DeltaTable.version (N :: (ns ++ T)) N.seq

/-- **What a check-in does to all the versions**, when recording the lists is faithful in the table with the automatic
deltas. -/
theorem addedDeltas_versions {nullFlag : Bool} {T T' : DeltaTable} {st : SeqState} {it : EditLock} {P N : Delta}
    (hT : Tidy T) (hP : P ∈ T.current) (hst : TagsListed T it.incl it.excl st)
    (hroom : T.highestSeqno + gap nullFlag P.id it.delta < 65535)
    (hrep : ∀ T₁ pred, nullDeltas nullFlag T P.id it.delta P.seq = .ok (T₁, pred) →
      Reproducible T₁ pred it.incl it.excl)
    (h : addedDeltas nullFlag T st it P = .ok (T', N)) :
    ∃ ns, T' = ns ++ T ∧ N.seq = T.highestSeqno + gap nullFlag P.id it.delta + 1 ∧ N.id = it.delta ∧
      Recorded T P it.incl it.excl ns N := by
  obtain ⟨⟨T₁, pred⟩, hr, h⟩ := bind_eq_ok.mp h
  obtain ⟨ns, rfl, hg, P', hP', rfl, hor⟩ := nullDeltas_versions hT hP hroom hr
  obtain ⟨J, hJ, hF⟩ := hrep _ _ hr
  obtain ⟨rfl, hN⟩ := Prod.mk.inj (Except.ok.inj h)
  have hP's : (DeltaTable.at? (ns ++ T) P'.seq).isSome := hg.tidy.at?_isSome (mem_current.mp hP').1
  obtain ⟨-, -, -, hV⟩ := version_spec hg.tidy.earlier hP's (SeqState.includedSet_new 0 (by decide))
  obtain rfl : DeltaTable.version (ns ++ T) P'.seq = J := hV.unique hJ
    ((Set.finite_le_nat P'.seq).subset fun k hk => (drawn_known hg.tidy.earlier hP's hk).1) hg.tidy.earlier.ign_lt
  -- the recorded lists name current deltas, and nothing but what is added and taken away
  have hmem := fun y => mem_newDelta (TagsListed.append hg hst) T.highestSeqno it.delta P'.seq y
  rw [show newDelta (ns ++ T) T.highestSeqno st it.delta P'.seq it.incl it.excl = N from hN] at hmem
  have hinc : {s | s ∈ N.included} = listedSet (ns ++ T) it.incl := Set.ext fun y => (hmem y).1
  have hexc : {s | s ∈ N.excluded} = listedSet (ns ++ T) it.excl := Set.ext fun y => (hmem y).2
  obtain ⟨hid, hnext, hprev, htype, hign⟩ : N.id = it.delta ∧ N.seq = DeltaTable.nextSeqno (ns ++ T) ∧
      N.prevSeq = P'.seq ∧ N.type = .D ∧ N.ignored = [] := by
    rw [← hN]
    exact ⟨rfl, rfl, rfl, rfl, rfl⟩
  obtain ⟨hhigh, hseq⟩ : DeltaTable.highestSeqno (ns ++ T) < N.seq ∧
      N.seq = T.highestSeqno + gap nullFlag P.id it.delta + 1 := by
    obtain ⟨ns', hns', -, -, hnum⟩ := nullDeltas_spec hr
    obtain rfl := List.append_cancel_right hns'
    have := hnum (by omega)
    rw [hnext, nextSeqno_eq (by omega)]
    omega
  have hlists : ∀ {l : SidList} {s : ℕ}, s ∈ listedSet (ns ++ T) l → ∃ d ∈ current (ns ++ T), d.seq = s := by
    intro l s hs
    obtain ⟨d, hd, -, hds⟩ := listed_iff.mp hs
    exact ⟨d, hd, hds⟩
  have hv := version_record (N := N) (A := added (ns ++ T) it.incl it.excl) (X := removed (ns ++ T) it.incl it.excl)
    hg.tidy.earlier hhigh (hprev ▸ hP's) hign
    (fun s hs => by
      rcases List.mem_append.mp hs with hs | hs
      · exact listedSet_known ((hmem s).1.mp hs)
      · exact listedSet_known ((hmem s).2.mp hs))
    (hinc ▸ added_subset _ _ _) (hexc ▸ removed_subset _ _ _)
    (hinc ▸ Set.subset_union_left.trans (listed_subset _ _ _))
    (hexc ▸ Set.subset_union_right.trans (listed_subset _ _ _))
    (by rw [hinc, hexc, hprev]; exact hF)
  rw [DeltaTable.prepend, hprev] at hv
  refine ⟨ns, rfl, hseq, hid, hg, ⟨hhigh, htype⟩, hg.tidy.prepend hhigh htype fun s hs => ?_, fun y hy => ?_, ?_⟩
  · simp only [Delta.refersTo, Bool.or_eq_true, decide_eq_true_eq, List.contains_iff_mem, hprev, hign] at hs
    rcases hs with ((hs | hs) | hs) | hs
    · exact ⟨P', hP', hs⟩
    · exact hlists ((hmem s).1.mp hs)
    · exact hlists ((hmem s).2.mp hs)
    · cases hs
  · have hne : y ≠ N.seq := by
      have := highestSeqno_append ns T
      omega
    have hbase : y ∈ DeltaTable.version (ns ++ T) P'.seq ↔ y ∈ T.version P.seq := by
      rcases hor with rfl | hor
      · rw [hg.old P' (mem_current.mp hP).1]
      · exact hg.agree P' hor y hy
    have hnamed := named_append hg it.incl it.excl hy
    rw [hv, Set.mem_insert_iff, or_iff_right hne]
    simp only [Set.mem_union, Set.mem_sdiff, hbase, removed, added, Set.mem_ofPred_eq, hnamed]
  · rw [hv]
    exact Set.mem_insert _ _

/-! ### Without lists -/

/-- Empty lists name nothing. -/
theorem named_nil (T : DeltaTable) (y : ℕ) : named T [] [] y = none := by
  have h : ∀ ds : List Delta, ds.foldl (nameOne [] [] y) none = none := by
    intro ds
    induction ds with
    | nil => rfl
    | cons d ds ih =>
      rw [List.foldl_cons, nameOne]
      split
      · exact ih
      · exact ih
  exact h T.current

@[simp] theorem added_nil (T : DeltaTable) : added T [] [] = ∅ := Set.ext fun y => by simp [added, named_nil]
@[simp] theorem removed_nil (T : DeltaTable) : removed T [] [] = ∅ := Set.ext fun y => by simp [removed, named_nil]

/-- **Without lists recording is faithful.** -/
theorem reproducible_nil {T : DeltaTable} (hT : Tidy T) {P : Delta} (hP : P ∈ T.current) :
    Reproducible T P.seq [] [] := by
  have hnone : listedSet T [] = ∅ := by
    have h := listed_subset T [] []
    rw [added_nil, removed_nil, Set.union_self, Set.union_self] at h
    exact Set.subset_empty_iff.mp h
  obtain ⟨-, -, -, hJ⟩ :=
    version_spec hT.earlier (hT.at?_isSome (mem_current.mp hP).1) (SeqState.includedSet_new 0 (by decide))
  refine ⟨T.version P.seq, hJ, ?_⟩
  rw [added_nil, removed_nil, hnone]
  exact faithful_empty hJ

end CSSC.Table
