import CSSC.Table.Requested

/-!
# The indexes of the delta table

The deltas are kept in a vector. Beside it there are a map from sequence numbers to positions, the highest sequence
number, and the highest SID on the trunk. A new delta is put in front by building everything anew. All this is an
`StlDeltaList`, and a `TableOp` is a call of `add` or `prepend` of `cssc_delta_table`.

After any sequence of them **the indexes are those of the list, in the order of the file** (`indexed_runOps`), and
find what the table of the other modules finds (`deltaAtSeq_runOps`). The highest SID on the trunk may be wrong, since
a SID that is only a release may take its place (`Overtaken`); **the indexes are right after every sequence in which
that does not happen, and after no other** (`indexes_right_iff`).
-/

namespace CSSC.Table

open CSSC.Lines DeltaTable

/-! ### The model -/

/-- `stl_delta_list`. -/
structure StlDeltaList where
  /-- `high_seqno_`. -/
  highSeqno : ℕ
  /-- `high_release_`. -/
  highRelease : Sid
  /-- `items_`. -/
  items : List Delta
  /-- `seq_table_`. -/
  seqTable : ℕ → Option ℕ

namespace StlDeltaList

/-- `stl_delta_list()`. -/
def empty : StlDeltaList := ⟨0, ⟨0, 0, 0, 0⟩, [], fun _ => none⟩

/-- `add`. -/
def add (l : StlDeltaList) (d : Delta) : StlDeltaList where
  highSeqno := if l.highSeqno < d.seq then d.seq else l.highSeqno
  highRelease := updateHighest l.highRelease d
  items := l.items ++ [d]
  seqTable := Function.update l.seqTable d.seq (some l.items.length)

/-- `operator +=`. -/
def append (l other : StlDeltaList) : StlDeltaList := other.items.foldl add l

/-- `cssc_delta_table::prepend`. -/
def prepend (l : StlDeltaList) (d : Delta) : StlDeltaList := (empty.add d).append l

/-- `cssc_delta_table::delta_at_seq_exists`. -/
def deltaAtSeqExists (l : StlDeltaList) (seq : ℕ) : Except Quit Bool :=
  if 0 < seq ∧ seq ≤ l.highSeqno then .ok (l.seqTable seq).isSome else .error .assertion

/-- `cssc_delta_table::delta_at_seq`. -/
def deltaAtSeq (l : StlDeltaList) (seq : ℕ) : Except Quit Delta :=
  if 0 < seq ∧ seq ≤ l.highSeqno then
    match l.seqTable seq with
    | none => .error .assertion
    | some pos =>
      match l.items[pos]? with
      | none => .error .undefined
      | some d => .ok d
  else .error .assertion

end StlDeltaList

/-- What can be done to a delta table. -/
inductive TableOp where
  /-- `add`. -/
  | add (d : Delta)
  /-- `prepend`. -/
  | prepend (d : Delta)

namespace TableOp

/-- One operation. -/
def apply (l : StlDeltaList) : TableOp → StlDeltaList
  | add d => l.add d
  | prepend d => l.prepend d

/-- The delta that is stored. -/
def delta : TableOp → Delta
  | add d => d
  | prepend d => d

/-- The delta, if it is added. -/
def added? : TableOp → Option Delta
  | add d => some d
  | prepend _ => none

/-- The delta, if it is prepended. -/
def prepended? : TableOp → Option Delta
  | add _ => none
  | prepend d => some d

end TableOp

/-- The table after a sequence of operations. -/
def runOps (ops : List TableOp) : StlDeltaList := ops.foldl TableOp.apply .empty

/-- A delta on the trunk that is not removed. -/
def Delta.currentTrunk (d : Delta) : Bool := !d.removed && d.id.onTrunk

/-- `high` is the highest of the SIDs on the trunk, by release and level, or null if there is none. -/
structure HighestTrunk (T : List Delta) (high : Sid) : Prop where
  /-- It is one of them. -/
  mem : (∃ d ∈ T, d.currentTrunk = true) → ∃ d ∈ T, d.currentTrunk = true ∧ d.id = high
  /-- None is higher. -/
  greatest : ∀ d ∈ T, d.currentTrunk = true → TrunkLe d.id high
  /-- Without any it is `sid::null_sid()`. -/
  null : (∀ d ∈ T, ¬ d.currentTrunk = true) → high = ⟨0, 0, 0, 0⟩

/-- The deltas put in front, the last one first, and then those added at the end. -/
def inOrder (ops : List TableOp) : List Delta :=
  (ops.filterMap TableOp.prepended?).reverse ++ ops.filterMap TableOp.added?

/-- What the indexes should say after the operations. -/
structure IndexesRight (ops : List TableOp) (l : StlDeltaList) : Prop where
  /-- The deltas are in the order of the file. -/
  order : l.items = inOrder ops
  /-- A number is there when a delta with it was stored. -/
  exists_iff : ∀ seq, l.deltaAtSeqExists seq = .ok true ↔ ∃ op ∈ ops, op.delta.seq = seq
  /-- That delta is found. -/
  found : ∀ op ∈ ops, l.deltaAtSeq op.delta.seq = .ok op.delta
  /-- The highest number is the greatest of those stored. -/
  seqno : (∀ op ∈ ops, op.delta.seq ≤ l.highSeqno) ∧ ∀ n, (∀ op ∈ ops, op.delta.seq ≤ n) → l.highSeqno ≤ n
  /-- The highest SID on the trunk is right. -/
  release : HighestTrunk (ops.map TableOp.delta) l.highRelease

/-! ### The indexes are those of the list -/

/-- The indexes agree with the table as a list. -/
structure Indexed (l : StlDeltaList) : Prop where
  /-- The highest number. -/
  seqno : l.highSeqno = highestSeqno l.items
  /-- The highest SID on the trunk. -/
  release : l.highRelease = highestRelease l.items
  /-- The map gives the position of the last delta with a number. -/
  table : ∀ seq, (l.seqTable seq).map (l.items[·]?) = (at? l.items seq).map some

theorem highestSeqno_concat (T : List Delta) (d : Delta) : highestSeqno (T ++ [d]) = max (highestSeqno T) d.seq := by
  induction T with
  | nil => simp [highestSeqno]
  | cons e T ih =>
    rw [highestSeqno, highestSeqno] at ih
    rw [List.cons_append, highestSeqno, highestSeqno, List.foldr_cons, List.foldr_cons, ih]
    exact (max_assoc _ _ _).symm

theorem at?_concat (T : List Delta) (d : Delta) (seq : ℕ) :
    at? (T ++ [d]) seq = if seq = d.seq then some d else at? T seq := by
  rw [at?, at?, List.reverse_append, List.reverse_singleton, List.singleton_append, List.find?_cons]
  by_cases h : seq = d.seq
  · simp [h]
  · have h' : d.seq ≠ seq := fun e => h e.symm
    simp [h, h']

theorem indexed_empty : Indexed .empty := ⟨rfl, rfl, fun _ => rfl⟩

/-- **Adding keeps the indexes right.** -/
theorem Indexed.add {l : StlDeltaList} (h : Indexed l) (d : Delta) : Indexed (l.add d) where
  seqno := by
    rw [StlDeltaList.add, highestSeqno_concat, ← h.seqno]
    dsimp only
    split_ifs with hlt <;> omega
  release := by
    rw [StlDeltaList.add, highestRelease, List.foldl_append, ← highestRelease, ← h.release]
    rfl
  table := fun seq => by
    rw [StlDeltaList.add, at?_concat]
    by_cases hs : seq = d.seq
    · simp [hs]
    · have ht := h.table seq
      simp only [Function.update_of_ne hs, if_neg hs]
      rcases hp : l.seqTable seq with _ | pos
      · rw [← ht, hp]
        rfl
      · -- an old position stays where it is
        rw [hp] at ht
        rcases ha : at? l.items seq with _ | e
        · simp [ha] at ht
        · have hpos : l.items[pos]? = some e := by simpa [ha] using ht
          have hlt := (List.getElem?_eq_some_iff.mp hpos).1
          simp [List.getElem?_append_left hlt, hpos]

theorem Indexed.foldl {l : StlDeltaList} (h : Indexed l) (ds : List Delta) : Indexed (ds.foldl StlDeltaList.add l) := by
  induction ds generalizing l with
  | nil => exact h
  | cons d ds ih => exact ih (h.add d)

theorem foldl_add_items (l : StlDeltaList) (ds : List Delta) : (ds.foldl StlDeltaList.add l).items = l.items ++ ds := by
  induction ds generalizing l with
  | nil => simp
  | cons d ds ih => rw [List.foldl_cons, ih, StlDeltaList.add, List.append_assoc, List.singleton_append]

theorem prepend_items (l : StlDeltaList) (d : Delta) : (l.prepend d).items = d :: l.items :=
  foldl_add_items (StlDeltaList.empty.add d) l.items

/-- **So does putting a delta in front**, which builds them anew. -/
theorem Indexed.apply {l : StlDeltaList} (h : Indexed l) (op : TableOp) : Indexed (op.apply l) := by
  cases op with
  | add d => exact h.add d
  | prepend d => exact (indexed_empty.add d).foldl l.items

/-- **After any sequence of operations the indexes are those of the list**, and the list is in the order of the
file. -/
theorem indexed_runOps (ops : List TableOp) : Indexed (runOps ops) ∧ (runOps ops).items = inOrder ops := by
  rw [runOps, inOrder]
  induction ops using List.reverseRecOn with
  | nil => exact ⟨indexed_empty, rfl⟩
  | append_singleton ops op ih =>
    rw [List.foldl_append, List.foldl_cons, List.foldl_nil, List.filterMap_append, List.filterMap_append]
    refine ⟨ih.1.apply op, ?_⟩
    cases op with
    | add d =>
      rw [TableOp.apply, StlDeltaList.add, ih.2]
      simp [TableOp.prepended?, TableOp.added?]
    | prepend d =>
      rw [TableOp.apply, prepend_items, ih.2]
      simp [TableOp.prepended?, TableOp.added?]

/-- The lookups are those of the table as a list. -/
theorem Indexed.deltaAtSeq {l : StlDeltaList} (h : Indexed l) (seq : ℕ) :
    l.deltaAtSeq seq = DeltaTable.deltaAtSeq l.items seq ∧
      l.deltaAtSeqExists seq = DeltaTable.deltaAtSeqExists l.items seq := by
  have ht := h.table seq
  rw [StlDeltaList.deltaAtSeq, StlDeltaList.deltaAtSeqExists, DeltaTable.deltaAtSeq, DeltaTable.deltaAtSeqExists,
    h.seqno]
  rcases hp : l.seqTable seq with _ | pos <;> rcases ha : at? l.items seq with _ | e <;> rw [hp, ha] at ht
  · exact ⟨rfl, rfl⟩
  · simp at ht
  · simp at ht
  · have hpos : l.items[pos]? = some e := by simpa using ht
    simp [hpos]

/-- **The map finds what the other modules find in the list.** -/
theorem deltaAtSeq_runOps (ops : List TableOp) (seq : ℕ) :
    (runOps ops).deltaAtSeq seq = DeltaTable.deltaAtSeq (runOps ops).items seq ∧
      (runOps ops).deltaAtSeqExists seq = DeltaTable.deltaAtSeqExists (runOps ops).items seq :=
  (indexed_runOps ops).1.deltaAtSeq seq

/-! ### The highest SID on the trunk -/

/-- What can be the highest SID once there is one: a valid SID on no branch. -/
def Delta.Ranked (d : Delta) : Prop := d.removed = false ∧ d.id.valid = true ∧ d.id.branch = 0

/-- The deltas from the first current one on the trunk on. -/
def fromTrunk (T : List Delta) : List Delta := T.dropWhile fun d => !d.currentTrunk

/-- After a current delta on the trunk there is one that is not removed and whose SID is only a release, above the
SIDs of all current deltas on the trunk. -/
def Overtaken (T : List Delta) : Prop :=
  ∃ d ∈ fromTrunk T, d.Ranked ∧ d.id.level = 0 ∧ ∀ t ∈ T, t.currentTrunk = true → TrunkLe t.id d.id

theorem Delta.currentTrunk_iff {d : Delta} : d.currentTrunk = true ↔ d.Ranked ∧ d.id.level ≠ 0 := by
  simp only [currentTrunk, Ranked, Bool.and_eq_true, Bool.not_eq_true', Sid.onTrunk_iff]
  tauto

/-- The greatest of the SIDs that are compared. -/
structure Leads (high : Sid) (T : List Delta) : Prop where
  /-- It is the SID of a delta. -/
  mem : ∃ d ∈ T, d.Ranked ∧ d.id = high
  /-- None is greater. -/
  greatest : ∀ d ∈ T, d.Ranked → d.id.rank ≤ high.rank

/-- One more delta. -/
theorem Leads.add {high : Sid} {T : List Delta} (h : Leads high T) (d : Delta) :
    Leads (updateHighest high d) (T ++ [d]) := by
  obtain ⟨e, he, hr, rfl⟩ := h.mem
  have hold : (d.Ranked → d.id.rank ≤ e.id.rank) → Leads e.id (T ++ [d]) := fun hd =>
    ⟨⟨e, List.mem_append_left [d] he, hr, rfl⟩, fun x hx hxr => by
      rcases List.mem_append.mp hx with hx | hx
      · exact h.greatest x hx hxr
      · rw [List.mem_singleton.mp hx] at hxr ⊢
        exact hd hxr⟩
  rw [updateHighest]
  split_ifs with hrem hnull ht hg
  · exact hold fun hd => absurd hd.1 (by simp [hrem])
  · exact absurd hr.2.1 (Sid.isNull_iff.mp hnull)
  · exact absurd hr.2.1 (Sid.isNull_iff.mp hnull)
  · -- the new SID is greater
    obtain ⟨hv, hb, -⟩ := Sid.greater_high hr.2.2 hg
    have hd : d.Ranked := ⟨by simpa using hrem, hv, hb⟩
    have hlt : e.id.rank < d.id.rank := by
      rwa [Sid.greater_iff hv hr.2.1 hb hr.2.2, Sid.gte_iff, not_le] at hg
    refine ⟨⟨d, by simp, hd, rfl⟩, fun x hx hxr => ?_⟩
    rcases List.mem_append.mp hx with hx | hx
    · exact (h.greatest x hx hxr).trans hlt.le
    · rw [List.mem_singleton.mp hx]
  · refine hold fun hd => ?_
    rwa [Sid.greater_iff hd.2.1 hr.2.1 hd.2.2 hr.2.2, not_not, Sid.gte_iff] at hg

theorem Leads.foldl {high : Sid} {T : List Delta} (h : Leads high T) (ds : List Delta) :
    Leads (ds.foldl updateHighest high) (T ++ ds) := by
  induction ds generalizing high T with
  | nil => simpa using h
  | cons d ds ih => simpa using ih (h.add d)

/-- Without a current delta on the trunk the highest SID stays null. -/
theorem foldl_null {ds : List Delta} (h : ∀ d ∈ ds, ¬ d.currentTrunk = true) :
    ds.foldl updateHighest ⟨0, 0, 0, 0⟩ = ⟨0, 0, 0, 0⟩ := by
  induction ds with
  | nil => rfl
  | cons d ds ih =>
    have hd := h d (by simp)
    have hstep : updateHighest ⟨0, 0, 0, 0⟩ d = ⟨0, 0, 0, 0⟩ := by
      rw [updateHighest]
      split_ifs with hr hn ht
      · rfl
      · exact absurd (by simp [Delta.currentTrunk, hr, ht]) hd
      · rfl
      · exact absurd rfl hn
      · rfl
    rw [List.foldl_cons, hstep, ih fun e he => h e (List.mem_cons_of_mem d he)]

/-- **The highest SID is the greatest of those that come after the first current delta on the trunk**, or null. -/
theorem highestRelease_cases (T : List Delta) :
    (fromTrunk T = [] ∧ highestRelease T = ⟨0, 0, 0, 0⟩) ∨
      (∃ d ∈ T, d.currentTrunk = true) ∧ Leads (highestRelease T) (fromTrunk T) := by
  have hsplit : highestRelease T = (fromTrunk T).foldl updateHighest ⟨0, 0, 0, 0⟩ := by
    have hbefore : (T.takeWhile fun d => !d.currentTrunk).foldl updateHighest ⟨0, 0, 0, 0⟩ = ⟨0, 0, 0, 0⟩ :=
      foldl_null fun d hd => by simpa using List.mem_takeWhile_imp hd
    conv_lhs => rw [← List.takeWhile_append_dropWhile (p := fun d => !d.currentTrunk) (l := T)]
    rw [highestRelease, List.foldl_append, hbefore, fromTrunk]
  rcases hf : fromTrunk T with _ | ⟨t, rest⟩
  · exact .inl ⟨rfl, by rw [hsplit, hf]; rfl⟩
  · have ht : t.currentTrunk = true := by
      have := List.head?_dropWhile_not (fun d : Delta => !d.currentTrunk) T
      rw [← fromTrunk, hf] at this
      simpa using this
    have hmem : t ∈ T := (List.dropWhile_suffix _).subset (show t ∈ fromTrunk T by simp [hf])
    obtain ⟨hr, -⟩ := Delta.currentTrunk_iff.mp ht
    have hfirst : updateHighest ⟨0, 0, 0, 0⟩ t = t.id := by
      obtain ⟨hrem, htrunk⟩ := Bool.and_eq_true_iff.mp ht
      rw [updateHighest, if_neg (by simpa using hrem), if_pos (by decide), if_pos htrunk]
    have hlead : Leads t.id [t] := ⟨⟨t, by simp, hr, rfl⟩, fun x hx _ => by rw [List.mem_singleton.mp hx]⟩
    refine .inr ⟨⟨t, hmem, ht⟩, ?_⟩
    rw [hsplit, hf, List.foldl_cons, hfirst]
    exact hlead.foldl rest

/-- The current deltas on the trunk all come from the first one on. -/
theorem mem_fromTrunk {T : List Delta} {d : Delta} (hd : d ∈ T) (ht : d.currentTrunk = true) : d ∈ fromTrunk T := by
  rw [← List.takeWhile_append_dropWhile (p := fun d => !d.currentTrunk) (l := T)] at hd
  rcases List.mem_append.mp hd with h | h
  · exact absurd ht (by simpa using List.mem_takeWhile_imp h)
  · exact h

theorem trunkLe_of_rank {s t : Sid} (h : s.rank ≤ t.rank) : TrunkLe s t := by
  rcases Sid.rank_le_iff.mp h with h | ⟨h, h' | ⟨h', -⟩⟩
  · exact .inl h
  · exact .inr ⟨h, Int16.le_of_lt h'⟩
  · exact .inr ⟨h, h' ▸ Int16.le_refl _⟩

theorem TrunkLe.antisymm {s t : Sid} (h : TrunkLe s t) (h' : TrunkLe t s) : s.rel = t.rel ∧ s.level = t.level := by
  simp only [TrunkLe, Int16.lt_iff_toInt_lt, Int16.le_iff_toInt_le, ← Int16.toInt_inj] at h h' ⊢
  omega

/-- **The highest SID on the trunk is right unless a release overtakes it.** -/
theorem highestTrunk_iff (T : List Delta) : HighestTrunk T (highestRelease T) ↔ ¬ Overtaken T := by
  rcases highestRelease_cases T with ⟨hnil, hnull⟩ | ⟨⟨t, ht, htt⟩, hlead⟩
  · have hnone : ∀ d ∈ T, ¬ d.currentTrunk = true := fun d hd ht => by
      have := mem_fromTrunk hd ht
      simp [hnil] at this
    refine iff_of_true ⟨fun ⟨d, hd, ht⟩ => absurd ht (hnone d hd), fun d hd ht => absurd ht (hnone d hd),
      fun _ => hnull⟩ ?_
    rintro ⟨d, hd, -⟩
    simp [hnil] at hd
  · obtain ⟨e, he, her, heq⟩ := hlead.mem
    have hge : ∀ d ∈ T, d.currentTrunk = true → TrunkLe d.id (highestRelease T) := fun d hd ht =>
      trunkLe_of_rank (hlead.greatest d (mem_fromTrunk hd ht) (Delta.currentTrunk_iff.mp ht).1)
    by_cases hl : e.id.level = 0
    · -- the greatest one is a release
      refine iff_of_false (fun h => ?_) fun h => h ⟨e, he, her, hl, by rw [heq]; exact hge⟩
      obtain ⟨d, -, hdt, hd⟩ := h.mem ⟨t, ht, htt⟩
      exact (Delta.currentTrunk_iff.mp hdt).2 (by rw [hd, ← heq, hl])
    · have hmem : e ∈ T := (List.dropWhile_suffix _).subset he
      have hec : e.currentTrunk = true := Delta.currentTrunk_iff.mpr ⟨her, hl⟩
      refine iff_of_true ⟨fun _ => ⟨e, hmem, hec, heq⟩, hge, fun h => absurd htt (h t ht)⟩ ?_
      rintro ⟨d, hd, hdr, hd0, hall⟩
      -- a release that is above it would be the greatest
      have h1 := hall e hmem hec
      have h2 : TrunkLe d.id e.id := heq ▸ trunkLe_of_rank (hlead.greatest d hd hdr)
      exact hl ((h1.antisymm h2).2.trans hd0)

/-! ### All indexes -/

/-- The deltas that were stored are in the table, in another order. -/
theorem inOrder_perm (ops : List TableOp) : (inOrder ops).Perm (ops.map TableOp.delta) := by
  rw [inOrder]
  refine ((List.reverse_perm _).append_right _).trans ?_
  induction ops with
  | nil => exact .refl _
  | cons op ops ih =>
    cases op with
    | add d => exact List.perm_middle.trans (ih.cons d)
    | prepend d => exact ih.cons d

theorem mem_inOrder {ops : List TableOp} {d : Delta} : d ∈ inOrder ops ↔ ∃ op ∈ ops, op.delta = d := by
  rw [(inOrder_perm ops).mem_iff, List.mem_map]

theorem highestSeqno_le {T : List Delta} {n : ℕ} (h : ∀ d ∈ T, d.seq ≤ n) : highestSeqno T ≤ n := by
  induction T with
  | nil => exact Nat.zero_le n
  | cons d T ih => exact max_le (h d (by simp)) (ih fun e he => h e (List.mem_cons_of_mem d he))

/-- Only the deltas count, not their order. -/
theorem HighestTrunk.congr {S T : List Delta} (h : ∀ d, d ∈ S ↔ d ∈ T) (high : Sid) :
    HighestTrunk S high ↔ HighestTrunk T high := by
  have himp : ∀ {S T : List Delta}, (∀ d, d ∈ S ↔ d ∈ T) → HighestTrunk S high → HighestTrunk T high :=
    fun h hs => by
      refine ⟨fun ⟨d, hd, ht⟩ => ?_, fun d hd => hs.greatest d ((h d).mpr hd),
        fun hn => hs.null fun d hd => hn d ((h d).mp hd)⟩
      obtain ⟨e, he, het⟩ := hs.mem ⟨d, (h d).mpr hd, ht⟩
      exact ⟨e, (h e).mp he, het⟩
  exact ⟨himp h, himp fun d => (h d).symm⟩

/-- **The indexes are right after every sequence of operations in which no release overtakes the trunk**, and after
no other. -/
theorem indexes_right_iff {ops : List TableOp} (hpos : ∀ op ∈ ops, 0 < op.delta.seq)
    (hdist : (ops.map fun op => op.delta.seq).Nodup) :
    IndexesRight ops (runOps ops) ↔ ¬ Overtaken (inOrder ops) := by
  obtain ⟨hi, ho⟩ := indexed_runOps ops
  have hrel : HighestTrunk (ops.map TableOp.delta) (runOps ops).highRelease ↔ ¬ Overtaken (inOrder ops) := by
    rw [HighestTrunk.congr fun d => (inOrder_perm ops).symm.mem_iff, hi.release, ho, highestTrunk_iff]
  refine ⟨fun h => hrel.mp h.release, fun h => ?_⟩
  have hnodup : ((inOrder ops).map Delta.seq).Nodup := by
    rw [((inOrder_perm ops).map Delta.seq).nodup_iff, List.map_map]
    exact hdist
  have hfind : ∀ op ∈ ops, (runOps ops).deltaAtSeq op.delta.seq = .ok op.delta ∧
      (runOps ops).deltaAtSeqExists op.delta.seq = .ok true := by
    intro op hop
    have hin : op.delta ∈ inOrder ops := mem_inOrder.mpr ⟨op, hop, rfl⟩
    obtain ⟨h1, h2⟩ := hi.deltaAtSeq op.delta.seq
    rw [h1, h2, ho]
    exact deltaAtSeq_of_at? (at?_of_nodup hnodup hin) (hpos op hop)
  refine ⟨ho, fun seq => ⟨fun hseq => ?_, ?_⟩, fun op hop => (hfind op hop).1, ⟨fun op hop => ?_, fun n hn => ?_⟩,
    hrel.mpr h⟩
  · rw [(hi.deltaAtSeq seq).2, ho, DeltaTable.deltaAtSeqExists] at hseq
    split_ifs at hseq
    obtain ⟨d, hd, rfl⟩ := at?_isSome_iff.mp (Except.ok.inj hseq)
    obtain ⟨op, hop, rfl⟩ := mem_inOrder.mp hd
    exact ⟨op, hop, rfl⟩
  · rintro ⟨op, hop, rfl⟩
    exact (hfind op hop).2
  · rw [hi.seqno, ho]
    exact le_highestSeqno (mem_inOrder.mpr ⟨op, hop, rfl⟩)
  · rw [hi.seqno, ho]
    refine highestSeqno_le fun d hd => ?_
    obtain ⟨op, hop, rfl⟩ := mem_inOrder.mp hd
    exact hn op hop

/-- A delta with this SID and number. -/
def plainDelta (id : Sid) (seq : ℕ) : Delta := ⟨.D, id, seq, 0, [], [], []⟩

/-- The trunk, and a branch. -/
def trunkAndBranch : List TableOp :=
  [.add (plainDelta ⟨1, 1, 0, 0⟩ 1), .prepend (plainDelta ⟨1, 2, 0, 0⟩ 2), .prepend (plainDelta ⟨1, 1, 1, 1⟩ 3)]

theorem indexes_right_trunk : IndexesRight trunkAndBranch (runOps trunkAndBranch) :=
  (indexes_right_iff (by decide) (by decide)).mpr <| by
    rintro ⟨d, hd, -, h0, -⟩
    have hmem : d ∈ inOrder trunkAndBranch := (List.dropWhile_suffix _).subset hd
    simp only [inOrder, trunkAndBranch, TableOp.prepended?, TableOp.added?, List.filterMap_cons, List.filterMap_nil,
      List.reverse_cons, List.reverse_nil, List.nil_append, List.cons_append, List.mem_cons, List.not_mem_nil,
      or_false] at hmem
    rcases hmem with rfl | rfl | rfl <;> exact absurd h0 (by decide)

/-- A delta with the SID `2` after one with `1.1`. -/
theorem release_overtakes_trunk :
    (runOps [.add (plainDelta ⟨1, 1, 0, 0⟩ 1), .add (plainDelta ⟨2, 0, 0, 0⟩ 2)]).highRelease = ⟨2, 0, 0, 0⟩ ∧
      ¬ IndexesRight [.add (plainDelta ⟨1, 1, 0, 0⟩ 1), .add (plainDelta ⟨2, 0, 0, 0⟩ 2)]
        (runOps [.add (plainDelta ⟨1, 1, 0, 0⟩ 1), .add (plainDelta ⟨2, 0, 0, 0⟩ 2)]) := by
  refine ⟨rfl, fun h => ?_⟩
  obtain ⟨d, hd, ht, he⟩ := h.release.mem ⟨plainDelta ⟨1, 1, 0, 0⟩ 1, by decide, by decide⟩
  simp only [List.map_cons, List.map_nil, TableOp.delta, List.mem_cons, List.not_mem_nil, or_false] at hd
  rcases hd with rfl | rfl
  · exact absurd he (by decide)
  · exact absurd ht (by decide)

end CSSC.Table
