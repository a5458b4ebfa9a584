import CSSC.Table.Record

/-!
# The deltas that a check-in adds

`add_delta` puts the new delta in front of the table. With the flag for null deltas it first fills the releases
between the one that was gotten and the new one. Releases wrap around as those of the code do; `escape` is one less
than `infinite_loop_escape`.

**The automatic deltas stand in front of the table, and their SIDs are the first ones of the releases in between**
(`nullDeltas_spec`); `addedDeltas_spec` says what a check-in adds to the table in all.
-/

namespace CSSC.Table

open CSSC.Lines CSSC.Body DeltaTable

/-- `edit_lock`. -/
structure EditLock where
  /-- The SID that was gotten. -/
  got : Sid
  /-- The SID to be created. -/
  delta : Sid
  /-- The user. -/
  user : String
  /-- The `-i` list. -/
  incl : SidList
  /-- The `-x` list. -/
  excl : SidList
  deriving DecidableEq, Repr

/-- An automatic delta. -/
def nullDelta (id : Sid) (seq predecessor : ℕ) : Delta := ⟨.D, id, seq, predecessor, [], [], []⟩

/-- The SID of the automatic delta of a release. -/
def nullSid (r : Int16) : Sid := (Sid.ofRelease r).nextLevel

/-- The loop that makes null deltas: the table and the last sequence number. -/
def nullDeltaLoop (lastAutoRel : Int16) : ℕ → Sid → Int16 → DeltaTable → ℕ → Except Quit (DeltaTable × ℕ)
  | escape, id, nullRel, T, predecessor =>
    if nullRel < lastAutoRel then
      if id.valid = false then .error .assertion
      else
        match escape with
        | 0 => .error .assertion
        | escape + 1 =>
          nullDeltaLoop lastAutoRel escape (nullSid nullRel) (nullRel + 1)
            (T.prepend (nullDelta (nullSid nullRel) T.nextSeqno predecessor)) T.nextSeqno
    else .ok (T, predecessor)

/-- The null deltas of a check-in, if the flag is set. -/
def nullDeltas (nullFlag : Bool) (T : DeltaTable) (got : Sid) (target : Sid) (predecessor : ℕ) :
    Except Quit (DeltaTable × ℕ) :=
  if nullFlag then
    if got.valid = false then .error .assertion
    else nullDeltaLoop target.rel 9999 got (got.rel + 1) T predecessor
  else .ok (T, predecessor)

/-- What a check-in for the entry `it` adds, edited in the state `st` with `gotDelta` gotten: the table with the null
deltas, and the new delta, which is then put in front. -/
def addedDeltas (nullFlag : Bool) (T : DeltaTable) (st : SeqState) (it : EditLock) (gotDelta : Delta) :
    Except Quit (DeltaTable × Delta) := do
  let r ← nullDeltas nullFlag T gotDelta.id it.delta gotDelta.seq
  return (r.1, newDelta r.1 T.highestSeqno st it.delta r.2 it.incl it.excl)

/-- The number of null deltas that a check-in makes. -/
def gap (nullFlag : Bool) (got target : Sid) : ℕ :=
  if nullFlag then (target.rel.toInt - (got.rel + 1).toInt).toNat else 0

/-- The SIDs of the null deltas that a check-in makes. -/
def NullSid (nullFlag : Bool) (got target : Sid) (id : Sid) : Prop :=
  nullFlag = true ∧ ∃ r : Int16, got.rel + 1 ≤ r ∧ r < target.rel ∧ id = nullSid r

/-! ### What is added -/

@[simp] theorem nullSid_rel (r : Int16) : (nullSid r).rel = r := rfl
@[simp] theorem nullDelta_id (id : Sid) (seq predecessor : ℕ) : (nullDelta id seq predecessor).id = id := rfl
@[simp] theorem nullDelta_seq (id : Sid) (seq predecessor : ℕ) : (nullDelta id seq predecessor).seq = seq := rfl

/-- What the loop adds for the releases from `lo` up to but not including `hi`. -/
structure NullsFor (lo hi : Int16) (T : DeltaTable) (ns : List Delta) : Prop where
  /-- They are deltas, and have the first SIDs of these releases. -/
  ids : ∀ d ∈ ns, d.type = .D ∧ ∃ r, lo ≤ r ∧ r < hi ∧ d.id = nullSid r
  /-- Their SIDs are distinct. -/
  nodup : (ns.map Delta.id).Nodup
  /-- There is one for each release. -/
  length : ns.length = (hi.toInt - lo.toInt).toNat
  /-- As long as there are numbers left, they are numbered on. -/
  numbers : T.highestSeqno + ns.length ≤ 65535 → DeltaTable.highestSeqno (ns ++ T) = T.highestSeqno + ns.length

theorem nullsFor_nil {lo hi : Int16} (h : ¬ lo < hi) (T : DeltaTable) : NullsFor lo hi T [] where
  ids := by simp
  nodup := List.nodup_nil
  length := by
    rw [Int16.lt_iff_toInt_lt] at h
    rw [List.length_nil]
    omega
  numbers _ := rfl

/-- One more null delta comes before the others. -/
theorem NullsFor.snoc {lo hi : Int16} (hlt : lo < hi) {T : DeltaTable} {ns : List Delta} {predecessor : ℕ}
    (h : NullsFor (lo + 1) hi (T.prepend (nullDelta (nullSid lo) T.nextSeqno predecessor)) ns) :
    NullsFor lo hi T (ns ++ [nullDelta (nullSid lo) T.nextSeqno predecessor]) where
  ids := by
    have hsucc := toInt_succ hlt
    intro d hd
    rcases List.mem_append.mp hd with hd | hd
    · obtain ⟨ht, r, hr, hr', he⟩ := h.ids d hd
      refine ⟨ht, r, ?_, hr', he⟩
      rw [Int16.le_iff_toInt_le] at hr ⊢
      omega
    · rw [List.mem_singleton.mp hd]
      exact ⟨rfl, lo, Int16.le_refl lo, hlt, rfl⟩
  nodup := by
    have hsucc := toInt_succ hlt
    rw [List.map_append, List.nodup_append]
    refine ⟨h.nodup, by simp, ?_⟩
    intro a ha b hb e
    obtain ⟨d, hd, rfl⟩ := List.mem_map.mp ha
    obtain ⟨-, r, hr, -, he⟩ := h.ids d hd
    obtain rfl : b = nullSid lo := by simpa using hb
    have hrel : r = lo := by rw [← nullSid_rel r, ← he, e, nullSid_rel]
    rw [Int16.le_iff_toInt_le, hrel] at hr
    omega
  length := by
    have hsucc := toInt_succ hlt
    rw [Int16.lt_iff_toInt_lt] at hlt
    rw [List.length_append, h.length, List.length_singleton]
    omega
  numbers hle := by
    rw [List.length_append, List.length_singleton] at hle ⊢
    have hnext : T.nextSeqno = T.highestSeqno + 1 := nextSeqno_eq (by omega)
    have hhigh : (T.prepend (nullDelta (nullSid lo) T.nextSeqno predecessor)).highestSeqno = T.highestSeqno + 1 := by
      rw [highestSeqno_prepend, nullDelta_seq, hnext]
      omega
    have := h.numbers (by rw [hhigh]; omega)
    rw [hhigh] at this
    rw [List.append_assoc]
    exact this.trans (by omega)

/-- **The loop puts one null delta for each release in front of the table.** -/
theorem nullDeltaLoop_spec {hi lo : Int16} {escape predecessor pred' : ℕ} {id : Sid} {T T' : DeltaTable}
    (h : nullDeltaLoop hi escape id lo T predecessor = .ok (T', pred')) : ∃ ns, T' = ns ++ T ∧ NullsFor lo hi T ns := by
  induction escape generalizing id lo T predecessor with
  | zero =>
    rw [nullDeltaLoop] at h
    split at h
    · split at h <;> cases h
    · rename_i hlt
      cases h
      exact ⟨[], rfl, nullsFor_nil hlt _⟩
  | succ escape ih =>
    rw [nullDeltaLoop] at h
    split at h
    · rename_i hlt
      split at h
      · cases h
      · obtain ⟨ns, rfl, hns⟩ := ih h
        exact ⟨_, by simp [prepend], hns.snoc hlt⟩
    · rename_i hlt
      cases h
      exact ⟨[], rfl, nullsFor_nil hlt _⟩

/-- **The null deltas of a check-in**: there are `gap` of them, in front of the table. -/
theorem nullDeltas_spec {nullFlag : Bool} {T T' : DeltaTable} {got target : Sid} {predecessor pred' : ℕ}
    (h : nullDeltas nullFlag T got target predecessor = .ok (T', pred')) :
    ∃ ns : List Delta, T' = ns ++ T ∧ (∀ d ∈ ns, d.type = .D ∧ NullSid nullFlag got target d.id) ∧
      (ns.map Delta.id).Nodup ∧
      (T.highestSeqno + gap nullFlag got target ≤ 65535 →
        DeltaTable.highestSeqno (ns ++ T) = T.highestSeqno + gap nullFlag got target) := by
  unfold nullDeltas at h
  cases nullFlag with
  | false =>
    cases h
    exact ⟨[], rfl, by simp, by simp, fun _ => rfl⟩
  | true =>
    rw [if_pos rfl] at h
    split at h
    · cases h
    · obtain ⟨ns, rfl, hns⟩ := nullDeltaLoop_spec h
      refine ⟨ns, rfl, fun d hd => ⟨(hns.ids d hd).1, rfl, (hns.ids d hd).2⟩, hns.nodup, ?_⟩
      rw [gap, if_pos rfl, ← hns.length]
      exact hns.numbers

/-- **What a check-in adds**: null deltas in front of the table, and the new delta with the SID of the entry. -/
theorem addedDeltas_spec {nullFlag : Bool} {T T' : DeltaTable} {st : SeqState} {it : EditLock} {gotDelta d : Delta}
    (h : addedDeltas nullFlag T st it gotDelta = .ok (T', d)) :
    ∃ ns : List Delta, T' = ns ++ T ∧ d.id = it.delta ∧ d.type = .D ∧ d.seq = T'.nextSeqno ∧
      (∀ e ∈ ns, e.type = .D ∧ NullSid nullFlag gotDelta.id it.delta e.id) ∧ (ns.map Delta.id).Nodup ∧
      (T.highestSeqno + gap nullFlag gotDelta.id it.delta < 65535 →
        T'.highestSeqno < d.seq ∧ d.seq ≤ 65535 ∧ T.highestSeqno ≤ T'.highestSeqno) := by
  obtain ⟨⟨T₁, pred⟩, hr, h⟩ := bind_eq_ok.mp h
  obtain ⟨ns, rfl, hids, hnd, hnum⟩ := nullDeltas_spec hr
  cases h
  refine ⟨ns, rfl, rfl, rfl, rfl, hids, hnd, fun hlt => ?_⟩
  have hhigh := hnum (by omega)
  have hseq : DeltaTable.nextSeqno (ns ++ T) = T.highestSeqno + gap nullFlag gotDelta.id it.delta + 1 := by
    rw [nextSeqno_eq (by rw [hhigh]; omega), hhigh]
  simp only [newDelta]
  rw [hseq, hhigh]
  omega

end CSSC.Table
