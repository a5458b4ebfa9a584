import CSSC.Header.RoundTrip
import CSSC.Library.Counter
import CSSC.Table.AddDelta

/-!
# Sequence numbers near the limit

A sequence number has 16 bits, and a history file may use all of them. Several loops count such numbers up to a limit,
and a new delta gets the number after the highest.

`constructorLoop`, `decideLoop`, `exclusionLoop` and `taggedLoop` are the loops of `seq_state`, of
`decide_disposition`, of `prepare_seqstate_1` and of `sccs_file::get` that count upwards, with a counter that wraps
around. When the first three end, they compute what the rest of the development says they do (`constructorLoop_eq`,
`decideLoop_eq`, `exclusionLoop_eq`). **These loops and those downwards end exactly if the highest number is not the
last one** (`loopsEnd_iff`).

`add_delta` asks for the next number once for each null delta, and once for the new delta (`numberedTables`). In every
file that is accepted **the loops end and every number that is assigned is above all numbers in the table, exactly if
there are enough numbers left** (`numbers_iff`).
-/

namespace CSSC.Table

open CSSC.Lines CSSC.Body CSSC.Header CSSC.Library.Counter DeltaTable

/-! ### The loops -/

/-- The loop of the constructor of `seq_state`. -/
def constructorLoop (last fuel : ℕ) : Option (Except Quit (List OneState)) :=
  countUp 65536 last (fun _ states => .ok (states ++ [.initial])) fuel 0 []

/-- The loop of `decide_disposition`. -/
def decideLoop (states : ℕ → OneState) (last fuel : ℕ) : Option (Except Quit Highest) :=
  countUp 65536 last (fun s h => .ok (Highest.scan states h s)) fuel 0 ⟨0, 0, 0⟩

/-- One turn of the loops of `prepare_seqstate_1` that apply lists. -/
def applyAt (T : DeltaTable) (list : Delta → List ℕ) (set : SeqState → ℕ → SeqState) (y : ℕ) (st : SeqState) :
    Except Quit SeqState :=
  if (st.states y).included then do
    let d ← T.deltaAtSeq y
    applyList set y (list d) st
  else .ok st

/-- The loop of `prepare_seqstate_1` over exclusions. -/
def exclusionLoop (T : DeltaTable) (seq : ℕ) (st : SeqState) (fuel : ℕ) : Option (Except Quit SeqState) :=
  countUp 65536 seq (applyAt T Delta.excluded SeqState.setExcluded) fuel 1 st

/-- The loop of `prepare_seqstate_1` over inclusions. -/
def inclusionLoop (T : DeltaTable) (seq : ℕ) (st : SeqState) (fuel : ℕ) : Option (Except Quit SeqState) :=
  countDown (applyAt T Delta.included (·.setIncluded · true)) fuel seq st

/-- The loop of `prepare_seqstate_1` over what is ignored. -/
def ignoreLoop (T : DeltaTable) (seq : ℕ) (st : SeqState) (fuel : ℕ) : Option (Except Quit SeqState) :=
  countDown (applyAt T Delta.ignored SeqState.setIgnored) fuel seq st

/-- The loop at the end of `sccs_file::get` over the deltas that were named on the command line: those that are included,
and those that are excluded. -/
def taggedLoop (T : DeltaTable) (st : SeqState) (fuel : ℕ) : Option (Except Quit (List Sid × List Sid)) :=
  countUp 65536 T.highestSeqno
    (fun s r =>
      if (st.states s).isExplicit then do
        let d ← T.deltaAtSeq s
        return if (st.states s).included then (r.1 ++ [d.id], r.2)
          else if (st.states s).excluded then (r.1, r.2 ++ [d.id]) else r
      else .ok r)
    fuel 1 ([], [])

/-- The loops that a `get` of the delta `seq` runs through end. -/
structure LoopsEnd (T : DeltaTable) (seq : ℕ) : Prop where
  /-- A `seq_state` for the highest number is constructed. -/
  constructor : Ends (constructorLoop T.highestSeqno)
  /-- `decide_disposition` comes to its decision. -/
  decide : ∀ states, Ends (decideLoop states T.highestSeqno)
  /-- The predecessors come to an end, or are found to be wrong. -/
  predecessors : ∀ st, predecessors T seq (seq + 1) seq st ≠ .error .diverges
  /-- Inclusions are applied. -/
  inclusions : ∀ st, Ends (inclusionLoop T seq st)
  /-- Exclusions are applied. -/
  exclusions : ∀ st, Ends (exclusionLoop T seq st)
  /-- So is what is ignored. -/
  ignores : ∀ st, Ends (ignoreLoop T seq st)
  /-- The loops of `sccs_file::get` down from the delta end, whatever they do in a turn. -/
  get : ∀ {σ : Type} (body : ℕ → σ → Except Quit σ) (st : σ), Ends fun fuel => countDown body fuel seq st
  /-- So does the one up to the highest number. -/
  tagged : ∀ st, Ends (taggedLoop T st)

theorem foldlM_ok {σ α : Type} (f : σ → α → σ) (xs : List α) (st : σ) :
    xs.foldlM (fun st x => (.ok (f st x) : Except Quit σ)) st = .ok (xs.foldl f st) := by
  induction xs generalizing st with
  | nil => rfl
  | cons x xs ih => rw [List.foldlM_cons, ok_bind, ih, List.foldl_cons]

/-- The constructor fills the vector. -/
theorem constructorLoop_eq {last : ℕ} (h : last < 65535) :
    constructorLoop last (last + 2) = some (.ok (List.replicate (last + 1) .initial)) := by
  have hfill : ∀ (n s : ℕ) (states : List OneState),
      (List.range' s n).foldl (fun states _ => states ++ [OneState.initial]) states =
        states ++ List.replicate n .initial := by
    intro n
    induction n with
    | zero => simp
    | succ n ih =>
      intro s states
      rw [List.range'_succ, List.foldl_cons, ih, List.append_assoc]
      rfl
  rw [constructorLoop, ← Nat.sub_zero (last + 2), countUp_eq (by omega) _ (by omega), foldlM_ok, hfill]
  rfl

/-- `decide_disposition` computes the three maxima. -/
theorem decideLoop_eq (ss : SeqState) : decideLoop ss.states ss.last (ss.last + 2) = some (.ok ss.highest) := by
  have := ss.last_lt
  rw [decideLoop, ← Nat.sub_zero (ss.last + 2), countUp_eq (by omega) _ (by omega), foldlM_ok, SeqState.highest,
    List.range_eq_range', Nat.sub_zero]

theorem applyLists_eq (T : DeltaTable) (list : Delta → List ℕ) (set : SeqState → ℕ → SeqState) (ys : List ℕ)
    (st : SeqState) : applyLists T list set ys st = ys.foldlM (fun st y => applyAt T list set y st) st := by
  induction ys generalizing st with
  | nil => rfl
  | cons y ys ih =>
    rw [applyLists, List.foldlM_cons, applyAt]
    split
    · rcases T.deltaAtSeq y with e | d
      · rfl
      · rw [ok_bind, ok_bind]
        rcases applyList set y (list d) st with e | st'
        · rfl
        · exact ih st'
    · exact ih st

/-- Exclusions are applied upwards. -/
theorem exclusionLoop_eq (T : DeltaTable) {seq : ℕ} (h : seq < 65535) (st : SeqState) :
    exclusionLoop T seq st (seq + 1) = some (applyLists T Delta.excluded SeqState.setExcluded (upTo seq) st) := by
  rw [exclusionLoop, show seq + 1 = seq + 2 - 1 by omega, countUp_eq (by omega) _ (by omega), applyLists_eq, upTo,
    Nat.add_sub_cancel]

/-- Inclusions are applied downwards. -/
theorem inclusionLoop_eq (T : DeltaTable) (seq : ℕ) (st : SeqState) : inclusionLoop T seq st (seq + 1) =
    some (applyLists T Delta.included (·.setIncluded · true) (downFrom seq) st) := by
  rw [inclusionLoop, countDown_eq, applyLists_eq, downFrom, upTo]

/-- What is ignored is applied downwards. -/
theorem ignoreLoop_eq (T : DeltaTable) (seq : ℕ) (st : SeqState) : ignoreLoop T seq st (seq + 1) =
    some (applyLists T Delta.ignored SeqState.setIgnored (downFrom seq) st) := by
  rw [ignoreLoop, countDown_eq, applyLists_eq, downFrom, upTo]

/-- Every turn down the predecessors goes to a smaller number. -/
theorem predecessors_ends (T : DeltaTable) (seq : ℕ) {fuel y : ℕ} (h : y < fuel) (st : SeqState) :
    predecessors T seq fuel y st ≠ .error .diverges := by
  induction fuel generalizing y st with
  | zero => omega
  | succ fuel ih =>
    rw [predecessors]
    split_ifs with hy
    · simp
    · unfold deltaAtSeqExists deltaAtSeq
      split_ifs with hr
      · rcases T.at? y with _ | d
        · simp
        · simp only [Option.isSome_some, ok_bind, Bool.true_eq_false, if_false]
          split_ifs
          · simp
          · simp
          · exact ih (by omega) _
          · simp
      · simp

/-- **The loops end exactly if the highest number is not the last one.** -/
theorem loopsEnd_iff {T : DeltaTable} {seq : ℕ} (hseq : seq ≤ T.highestSeqno) (hT : T.highestSeqno ≤ 65535) :
    LoopsEnd T seq ↔ T.highestSeqno < 65535 := by
  constructor
  · intro h
    have := (countUp_ends_iff (by omega) (fun _ _ => ⟨_, rfl⟩) (Nat.zero_le _) []).mp h.constructor
    omega
  · intro h
    exact {
      constructor := ⟨_, _, constructorLoop_eq h⟩
      decide := fun states => (countUp_ends_iff (by omega) (fun _ _ => ⟨_, rfl⟩) (Nat.zero_le _) _).mpr (by omega)
      predecessors := predecessors_ends T seq (Nat.lt_succ_self seq)
      inclusions := fun st => ⟨_, _, inclusionLoop_eq T seq st⟩
      exclusions := fun st => ⟨_, _, exclusionLoop_eq T (by omega) st⟩
      ignores := fun st => ⟨_, _, ignoreLoop_eq T seq st⟩
      get := fun body st => countDown_ends body seq st
      tagged := fun st => ⟨_, _, countUp_eq (by omega) _ (by omega) _⟩ }

/-! ### The numbers that are assigned -/

/-- The tables for which the loop of null deltas and what follows it ask for the next number. -/
def nullTables (lastAutoRel : Int16) : ℕ → Sid → Int16 → DeltaTable → ℕ → List DeltaTable
  | escape, id, nullRel, T, predecessor =>
    if nullRel < lastAutoRel then
      if id.valid = false then []
      else
        match escape with
        | 0 => [T]  -- the number is assigned before the assertion fails
        | escape + 1 =>
          T :: nullTables lastAutoRel escape (nullSid nullRel) (nullRel + 1)
            (T.prepend (nullDelta (nullSid nullRel) T.nextSeqno predecessor)) T.nextSeqno
    else [T]

/-- The tables for which `add_delta` asks for the next number. -/
def numberedTables (nullFlag : Bool) (T : DeltaTable) (got target : Sid) (predecessor : ℕ) : List DeltaTable :=
  if nullFlag then
    if got.valid = false then [] else nullTables target.rel 9999 got (got.rel + 1) T predecessor
  else [T]

/-- How many numbers `add_delta` assigns: one for each null delta, of which 10000 are too many, and one for the
new delta. After the last release the loop goes on with one that is not valid. -/
def numbersNeeded (nullFlag : Bool) (got target : Sid) : ℕ :=
  if nullFlag = true ∧ got.rel ≠ 32767 then min (gap nullFlag got target + 1) 10000 else 1

/-- The next number is above all the numbers in the table. -/
def NextFresh (T : DeltaTable) : Prop := ∀ d ∈ T, d.seq < T.nextSeqno

theorem exists_highest {T : DeltaTable} (h : T ≠ []) : ∃ d ∈ T, d.seq = T.highestSeqno := by
  induction T with
  | nil => exact absurd rfl h
  | cons d T ih =>
    by_cases hT : T = []
    · subst hT
      exact ⟨d, List.mem_cons_self, (Nat.max_zero d.seq).symm⟩
    · obtain ⟨e, he, hseq⟩ := ih hT
      rcases le_total d.seq (DeltaTable.highestSeqno T) with hle | hle
      · exact ⟨e, List.mem_cons_of_mem d he, hseq.trans (max_eq_right hle).symm⟩
      · exact ⟨d, List.mem_cons_self, (max_eq_left hle).symm⟩

/-- **The next number is above all others exactly if the highest is not the last one.** -/
theorem nextFresh_iff {T : DeltaTable} (hne : T ≠ []) (hT : T.highestSeqno ≤ 65535) :
    NextFresh T ↔ T.highestSeqno < 65535 := by
  constructor
  · intro h
    by_contra hlt
    obtain ⟨d, hd, hseq⟩ := exists_highest hne
    have := h d hd
    rw [nextSeqno, show T.highestSeqno = 65535 by omega] at this
    omega
  · intro hlt d hd
    rw [nextSeqno_eq (by omega)]
    exact Nat.lt_succ_of_le (le_highestSeqno hd)

theorem forall_singleton_fresh_iff {T : DeltaTable} (hne : T ≠ []) (hT : T.highestSeqno ≤ 65535) :
    (∀ T' ∈ [T], NextFresh T') ↔ T.highestSeqno + [T].length ≤ 65535 := by
  rw [List.forall_mem_singleton, nextFresh_iff hne hT, List.length_singleton]
  omega

/-- The numbers of the null deltas and the last one are above all others exactly if there are enough left. -/
theorem nullTables_fresh_iff {hi lo : Int16} {escape predecessor : ℕ} {id : Sid} {T : DeltaTable} (hne : T ≠ [])
    (hT : T.highestSeqno ≤ 65535) : (∀ T' ∈ nullTables hi escape id lo T predecessor, NextFresh T') ↔
      T.highestSeqno + (nullTables hi escape id lo T predecessor).length ≤ 65535 := by
  induction escape generalizing id lo T predecessor with
  | zero =>
    rw [nullTables]
    split_ifs with hlt hv
    · simpa using hT
    · exact forall_singleton_fresh_iff hne hT
    · exact forall_singleton_fresh_iff hne hT
  | succ escape ih =>
    rw [nullTables]
    split_ifs with hlt hv
    · simpa using hT
    · rw [List.forall_mem_cons, nextFresh_iff hne hT, List.length_cons]
      by_cases hh : T.highestSeqno < 65535
      · have hnext : T.nextSeqno = T.highestSeqno + 1 := nextSeqno_eq (by omega)
        have hhigh : (T.prepend (nullDelta (nullSid lo) T.nextSeqno predecessor)).highestSeqno = T.highestSeqno + 1 := by
          rw [highestSeqno_prepend, nullDelta_seq, hnext]
          omega
        have hne' : T.prepend (nullDelta (nullSid lo) T.nextSeqno predecessor) ≠ [] := List.cons_ne_nil _ _
        rw [ih hne' (by rw [hhigh]; omega), hhigh]
        omega
      · omega
    · exact forall_singleton_fresh_iff hne hT

theorem length_nullTables {hi lo : Int16} {escape predecessor : ℕ} {id : Sid} {T : DeltaTable} (hid : id.valid = true)
    (hlo : 0 < lo) : (nullTables hi escape id lo T predecessor).length =
      min ((hi.toInt - lo.toInt).toNat + 1) (escape + 1) := by
  induction escape generalizing id lo T predecessor with
  | zero =>
    rw [nullTables]
    split_ifs with hlt hv
    · simp [hid] at hv
    · simp
    · simp
  | succ escape ih =>
    rw [nullTables]
    split_ifs with hlt hv
    · simp [hid] at hv
    · have hsucc := toInt_succ hlt
      have hpos : 0 < lo + 1 := by
        rw [Int16.lt_iff_toInt_lt] at hlo ⊢
        rw [hsucc]
        omega
      rw [List.length_cons, ih (show (nullSid lo).valid = true from decide_eq_true hlo) hpos, hsucc]
      rw [Int16.lt_iff_toInt_lt] at hlt
      omega
    · rw [Int16.lt_iff_toInt_lt] at hlt
      simp only [List.length_singleton]
      omega

/-- **As many numbers are assigned as are needed.** -/
theorem length_numberedTables (nullFlag : Bool) (T : DeltaTable) {got target : Sid} (hg : got.valid = true)
    (ht : target.valid = true) (predecessor : ℕ) :
    (numberedTables nullFlag T got target predecessor).length = numbersNeeded nullFlag got target := by
  unfold numberedTables numbersNeeded
  cases nullFlag with
  | false => rfl
  | true =>
    rw [if_pos rfl, if_neg (by simp [hg])]
    have hg' : 0 < got.rel := by simpa [Sid.valid] using hg
    have ht' : 0 < target.rel := by simpa [Sid.valid] using ht
    by_cases hmax : got.rel = 32767
    · -- the release after the last one is negative
      rw [if_neg (by simp [hmax]), hmax, show (32767 : Int16) + 1 = -32768 from rfl, nullTables]
      have h1 : (-32768 : Int16) < target.rel := Int16.lt_trans (by decide) ht'
      have h2 : ¬ target.rel ≤ (-32768 : Int16) + 1 := Int16.not_le.mpr (Int16.lt_trans (by decide) ht')
      rw [if_pos h1, if_neg (by simp [hg]), List.length_cons, nullTables, if_pos (Int16.not_le.mp h2),
        if_pos (by decide)]
      rfl
    · rw [if_pos ⟨rfl, hmax⟩, gap, if_pos rfl]
      have hlt : got.rel < 32767 := by
        rw [Int16.lt_iff_toInt_lt]
        have h1 := got.rel.toInt_lt
        have h2 : got.rel.toInt ≠ 32767 := fun e => hmax (Int16.toInt_inj.mp e)
        show got.rel.toInt < 32767
        omega
      have hpos : 0 < got.rel + 1 := by
        rw [Int16.lt_iff_toInt_lt, toInt_succ hlt]
        rw [Int16.lt_iff_toInt_lt] at hg'
        show (0 : ℤ) < _
        have : (0 : ℤ) < got.rel.toInt := hg'
        omega
      exact length_nullTables hg hpos

/-- **In every file that is accepted the loops end and every number that is assigned is above all numbers in the
table, exactly if there are enough numbers left.** -/
theorem numbers_iff {mode : OpenMode} {silent : Bool} {f : List UInt8} {o : Opened} {F : FullTable}
    (h : openFile mode silent f = .ok o) (hF : o.file.deltaTable = some F) {d : FullDelta} (hd : d ∈ F.current)
    (nullFlag : Bool) {target : Sid} (ht : target.valid = true) :
    (LoopsEnd F.table d.seq ∧ ∀ T ∈ numberedTables nullFlag F.table d.id target d.seq, NextFresh T) ↔
      F.table.highestSeqno + numbersNeeded nullFlag d.id target ≤ 65535 := by
  obtain ⟨-, hread, -⟩ := read_of_openFile h
  have hmem : d ∈ F := (List.mem_filter.mp hd).1
  have hmem' : d.toDelta ∈ F.table := List.mem_map_of_mem hmem
  have hne : F.table ≠ [] := List.ne_nil_of_mem hmem'
  have hid : d.id.valid = true := (hread F hF d hmem).id
  have hT : F.table.highestSeqno ≤ 65535 := by
    obtain ⟨e, he, hseq⟩ := exists_highest hne
    obtain ⟨e', he', rfl⟩ := List.mem_map.mp he
    rw [← hseq]
    exact (hread F hF e' he').seq.1
  have hpos : 1 ≤ numbersNeeded nullFlag d.id target := by
    unfold numbersNeeded
    split_ifs <;> omega
  have hfresh : (∀ T ∈ numberedTables nullFlag F.table d.id target d.seq, NextFresh T) ↔
      F.table.highestSeqno + numbersNeeded nullFlag d.id target ≤ 65535 := by
    rw [← length_numberedTables nullFlag F.table hid ht d.seq]
    unfold numberedTables
    rw [if_neg (show ¬ d.id.valid = false by simp [hid])]
    split_ifs
    · exact nullTables_fresh_iff hne hT
    · exact forall_singleton_fresh_iff hne hT
  rw [loopsEnd_iff (le_highestSeqno hmem') hT, hfresh]
  omega

/-- A file with one delta, and two null deltas on the way to release 4. -/
theorem numbers_iff_sample :
    (LoopsEnd (FullTable.table [trunkDelta 1 0 [] []]) 1 ∧
        ∀ T ∈ numberedTables true (FullTable.table [trunkDelta 1 0 [] []]) ⟨1, 1, 0, 0⟩ ⟨4, 1, 0, 0⟩ 1, NextFresh T) ↔
      (FullTable.table [trunkDelta 1 0 [] []]).highestSeqno + numbersNeeded true ⟨1, 1, 0, 0⟩ ⟨4, 1, 0, 0⟩ ≤ 65535 := by
  have ho : openFile .read true smallText = .ok ⟨smallFile, false, true⟩ := by decide +kernel
  exact numbers_iff ho rfl (d := trunkDelta 1 0 [] []) (by decide) true (by decide)

/-- The text of a file whose delta has the last number. -/
def lastNumberText : List UInt8 :=
  sumLine 0 ++ 10 :: printed (headerLines [{ trunkDelta 1 0 [] [] with seq := 65535 }] smallFile)

/-- **The constructor of `seq_state` does not come to an end** for a file that is accepted, and the number after
the highest is 0. -/
theorem numbers_run_out : ∃ o d, openFile .read true lastNumberText = .ok o ∧ o.file.deltaTable = some [d] ∧
    d ∈ FullTable.current [d] ∧ ¬ LoopsEnd (FullTable.table [d]) d.seq ∧
      ¬ ∀ T ∈ numberedTables false (FullTable.table [d]) d.id ⟨1, 2, 0, 0⟩ d.seq, NextFresh T := by
  let d : FullDelta := { trunkDelta 1 0 [] [] with seq := 65535 }
  let file : SccsFile := { smallFile with deltaTable := some [d] }
  have ho : openFile .read true lastNumberText = .ok ⟨file, false, true⟩ := by decide +kernel
  refine ⟨_, d, ho, rfl, by decide, fun h => ?_, fun h => ?_⟩
  · exact absurd ((@loopsEnd_iff (FullTable.table [d]) d.seq (by decide) (by decide)).mp h) (by decide)
  · exact absurd ((nextFresh_iff (T := FullTable.table [d]) (by decide) (by decide)).mp
      (h _ (List.mem_singleton_self _))) (by decide)

end CSSC.Table
