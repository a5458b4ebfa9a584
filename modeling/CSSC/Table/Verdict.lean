import CSSC.Table.Validate

/-!
# What the verdict of `val` means

A delta is good enough for `val` (`Accepted`), or it has a fault that `val` finds, or one that it cannot cope with
(`Crashes`). One turn of the loop tells these apart (`validateDelta_spec`), and the loop stops at the first delta that
is not good enough (`validateDeltas_spec`), so that it is known what `val` accepts (`validate_true_iff`).

A verdict in favour of a table is meant to say that it is `Sound`. It does say so for the tables whose `Unchecked`
part is in order, and `validate_sound_iff` tells when the verdict can be trusted. Whether a file that `val` accepts
can be read is another question: `get` needs numbers that go down (`Ordered`), which `val` does not look at
(`readable_of_validate_iff`).
-/

namespace CSSC.Table

open CSSC.Lines CSSC.Body CSSC.Library.Selection CSSC.Library.Chain DeltaTable

/-! ### What `validate` finds out -/

/-- What is good enough for `val` in a delta, `pre` being the current deltas before it. -/
structure Accepted (F : FullTable) (pre : List FullDelta) (d : FullDelta) : Prop where
  /-- The counts, the date and the user are in order. -/
  fields : fieldsOk d = true
  /-- The number is not 0. -/
  pos : d.seq ≠ 0
  /-- At most one delta before it has the number. -/
  count : (pre.filter (·.seq = d.seq)).length ≤ 1
  /-- Down the predecessors one comes to 0. -/
  line : 0 ∈ F.table.line d.seq
  /-- The predecessor exists. -/
  prev : d.prevSeq = 0 ∨ (F.at? d.prevSeq).isSome
  /-- The lists name no number above the highest. -/
  named : validateSeqLists F.table d.toDelta = true

/-- What `val` cannot cope with in a delta. -/
inductive Crashes (F : FullTable) (d : FullDelta) : Prop
  /-- A count, the date or the user is not in order, or the predecessor is above the highest number: this is reported
  with the SID. -/
  | reported : fieldsOk d = false ∨ F.table.highestSeqno < d.prevSeq → Crashes F d
  /-- The number is 0. -/
  | zero : d.seq = 0 → Crashes F d
  /-- Down the predecessors one comes to a number above the highest. -/
  | beyond {y} : F.table.EndsAt d.seq y → F.table.highestSeqno < y → Crashes F d
  /-- The predecessor is missing, while the delta found under the number of this one has another. -/
  | dangling : 0 ∈ F.table.line d.seq ∨ F.table.Loops d.seq → d.prevSeq ≠ 0 → F.at? d.prevSeq = none → Crashes F d
  /-- A list names a number above the highest, which is reported with the SID, too. -/
  | listed : 0 ∈ F.table.line d.seq ∨ F.table.Loops d.seq → validateSeqLists F.table d.toDelta = false → Crashes F d

/-- What the arrays tell after the deltas `pre`. -/
structure Scratch.Knows (F : FullTable) (pre : List FullDelta) (sc : Scratch) : Prop where
  /-- `seen_ever` counts the deltas. -/
  count : ∀ s, sc.seenEver s = (pre.filter (·.seq = s)).length
  /-- What is marked in `loopfree` leads down to 0. -/
  free : ∀ i, sc.loopfree i = true → 0 ∈ F.table.line i
  /-- `seen` is cleared. -/
  seen : sc.seen = fun _ => false

theorem Scratch.initial_knows (F : FullTable) : Scratch.initial.Knows F [] := by
  refine ⟨fun _ => rfl, fun i hi => ?_, rfl⟩
  cases hi

/-- What one turn reports. -/
inductive Judged (F : FullTable) (pre : List FullDelta) (d : FullDelta) : Except Quit (Bool × Scratch) → Prop
  /-- The delta is good enough. -/
  | accepted {sc} : Accepted F pre d → sc.Knows F (pre ++ [d]) → Judged F pre d (.ok (true, sc))
  /-- A fault is found. -/
  | rejected {sc} : ¬ Accepted F pre d → ¬ Crashes F d → Judged F pre d (.ok (false, sc))
  /-- A number is reported as missing. -/
  | missing : ¬ Accepted F pre d → ¬ Crashes F d → Judged F pre d (.error (.corrupt "missing seqno %u"))
  /-- The program does something else. -/
  | crashed {q} : ¬ Accepted F pre d → Crashes F d → (∀ msg, q ≠ .corrupt msg) → Judged F pre d (.error q)

section

variable {F : FullTable} {pre : List FullDelta} {d : FullDelta} {sc : Scratch}

theorem le_highest (h : d ∈ F) : d.seq ≤ F.table.highestSeqno := le_highestSeqno (FullTable.mem_table h)

/-- A way down that ends at 0, or never, ends nowhere else. -/
theorem not_endsAt_of_zero {T : DeltaTable} {s y : ℕ} (h : 0 ∈ T.line s) : ¬ T.EndsAt s y := by
  rintro ⟨hy, hy0, hnone⟩
  exact hy0 (end_unique h T.next_zero hy (next_of_none hnone)).symm

theorem not_endsAt_of_loops {T : DeltaTable} {s y : ℕ} (h : T.Loops s) : ¬ T.EndsAt s y := by
  rintro ⟨hy, -, hnone⟩
  exact h y hy (next_of_none hnone)

theorem endsAt_unique {T : DeltaTable} {s y z : ℕ} (hy : T.EndsAt s y) (hz : T.EndsAt s z) : y = z :=
  end_unique hy.1 (next_of_none hy.2.2) hz.1 (next_of_none hz.2.2)

theorem compareDates_of_prev (hF : F.Parsed) (hd : d ∈ F) (h : d.prevSeq = 0 ∨ (F.at? d.prevSeq).isSome) :
    compareDates F d = .ok () := by
  unfold compareDates
  by_cases h0 : d.prevSeq = 0
  · rw [if_pos h0]
  · obtain ⟨e, he⟩ := Option.isSome_iff_exists.mp (h.resolve_left h0)
    rw [if_neg h0, FullTable.deltaAtSeq_of_at? he (Nat.pos_of_ne_zero h0), ok_bind,
      SccsDate.greater_ok (hF.date e (FullTable.mem_of_at? he).1) (hF.date d hd)]
    rfl

theorem compareDates_of_none (h0 : d.prevSeq ≠ 0) (h : F.at? d.prevSeq = none) :
    compareDates F d = .error .assertion := by
  unfold compareDates
  rw [if_neg h0, FullTable.deltaAtSeq_of_none h, error_bind]

theorem prev_le_highest (h : d.prevSeq = 0 ∨ (F.at? d.prevSeq).isSome) : d.prevSeq ≤ F.table.highestSeqno := by
  rcases h with h | h
  · omega
  · obtain ⟨e, he⟩ := Option.isSome_iff_exists.mp h
    obtain ⟨hm, hs⟩ := FullTable.mem_of_at? he
    exact hs ▸ le_highest hm

/-- A delta whose way down and whose predecessor are known is coped with. -/
theorem not_crashes (hf : fieldsOk d = true) (h0 : d.seq ≠ 0) (hl : 0 ∈ F.table.line d.seq ∨ F.table.Loops d.seq)
    (hp : d.prevSeq = 0 ∨ (F.at? d.prevSeq).isSome) (hn : validateSeqLists F.table d.toDelta = true) :
    ¬ Crashes F d := by
  rintro ((h | h) | h | ⟨hy, -⟩ | ⟨-, hne, hnone⟩ | ⟨-, h⟩)
  · simp [hf] at h
  · exact absurd (prev_le_highest hp) (by omega)
  · exact h0 h
  · exact hl.elim (not_endsAt_of_zero · hy) (not_endsAt_of_loops · hy)
  · rcases hp with h | h
    · exact hne h
    · simp [hnone] at h
  · simp [hn] at h

theorem count_append {seenEver : ℕ → ℕ} (h : ∀ s, seenEver s = (pre.filter (·.seq = s)).length) (s : ℕ) :
    Function.update seenEver d.seq (seenEver d.seq + 1) s = ((pre ++ [d]).filter (·.seq = s)).length := by
  rw [List.filter_append, List.length_append]
  by_cases hs : s = d.seq
  · subst hs
    rw [Function.update_self, h]
    simp
  · have hne : ¬ d.seq = s := fun e => hs e.symm
    rw [Function.update_of_ne hs, h]
    simp [hne]

theorem reportSid_true : reportSid true = .ok () := rfl
theorem reportSid_false : reportSid false = .error .undefined := rfl

/-- What is reported after the way down ended at 0, or was found to go on for ever. -/
theorem judged_after (hF : F.Parsed) (hd : d ∈ F) (hsc : sc.Knows F pre) (hf : fieldsOk d = true) (h0 : d.seq ≠ 0)
    {ok : Bool} {loopfree : ℕ → Bool} (hl : 0 ∈ F.table.line d.seq ∨ F.table.Loops d.seq)
    (hok : ok = true ↔ 0 ∈ F.table.line d.seq) (hfree : ∀ i, loopfree i = true → 0 ∈ F.table.line i) :
    Judged F pre d (do
      let _ ← compareDates F d
      reportSid (validateSeqLists F.table d.toDelta)
      return (!decide (1 < sc.seenEver d.seq) && ok,
        ⟨Function.update sc.seenEver d.seq (sc.seenEver d.seq + 1), loopfree, fun _ => false⟩)) := by
  by_cases hp : d.prevSeq = 0 ∨ (F.at? d.prevSeq).isSome
  · rw [compareDates_of_prev hF hd hp, ok_bind]
    cases hn : validateSeqLists F.table d.toDelta with
    | false =>
      rw [reportSid_false, error_bind]
      exact .crashed (fun h => by simp [h.named] at hn) (.listed hl hn) (by simp)
    | true =>
      rw [reportSid_true, ok_bind]
      have hgood : (!decide (1 < sc.seenEver d.seq) && ok) = true ↔ Accepted F pre d := by
        simp only [Bool.and_eq_true, Bool.not_eq_true', decide_eq_false_iff_not, not_lt, hsc.count, hok]
        exact ⟨fun h => ⟨hf, h0, h.1, h.2, hp, hn⟩, fun h => ⟨h.count, h.line⟩⟩
      by_cases hacc : Accepted F pre d
      · rw [hgood.mpr hacc]
        exact .accepted hacc ⟨count_append hsc.count, hfree, rfl⟩
      · rw [Bool.eq_false_iff.mpr fun h => hacc (hgood.mp h)]
        exact .rejected hacc (not_crashes hf h0 hl hp hn)
  · rw [not_or, Option.isSome_iff_ne_none, not_not] at hp
    rw [compareDates_of_none hp.1 hp.2, error_bind]
    refine .crashed (fun h => ?_) (.dangling hl hp.1 hp.2) (by simp)
    rcases h.prev with h | h
    · exact hp.1 h
    · simp [hp.2] at h

/-- **One turn of the loop.** -/
theorem validateDelta_spec (hF : F.Parsed) (hd : d ∈ F) (hsc : sc.Knows F pre) :
    Judged F pre d (validateDelta F sc d) := by
  have hle : d.seq ≤ F.table.highestSeqno := le_highest hd
  unfold validateDelta
  -- what is reported before the way down is looked at
  cases hf : fieldsOk d with
  | false =>
    rw [reportSid_false, error_bind]
    exact .crashed (fun h => by simp [h.fields] at hf) (.reported (.inl hf)) (by simp)
  | true =>
  rw [reportSid_true, ok_bind]
  by_cases hple : d.prevSeq ≤ F.table.highestSeqno
  swap
  · have hnum : (decide (d.seq ≤ F.table.highestSeqno) && decide (d.prevSeq ≤ F.table.highestSeqno)) = false := by
      simp [hple]
    rw [hnum, reportSid_false, error_bind]
    exact .crashed (fun h => hple (prev_le_highest h.prev)) (.reported (.inr (by omega))) (by simp)
  have hnum : (decide (d.seq ≤ F.table.highestSeqno) && decide (d.prevSeq ≤ F.table.highestSeqno)) = true := by
    simp [hle, hple]
  rw [hnum, reportSid_true, ok_bind]
  by_cases h0 : d.seq = 0
  · rw [if_pos h0]
    exact .crashed (fun h => h.pos h0) (.zero h0) (by simp)
  obtain ⟨e, he⟩ := Option.isSome_iff_exists.mp (at?_isSome_iff.mpr ⟨d.toDelta, FullTable.mem_table hd, rfl⟩)
  have hes : e.seq = d.seq := (DeltaTable.mem_of_at? he).2
  dsimp only
  rw [if_neg h0, (DeltaTable.deltaAtSeq_of_at? he (Nat.pos_of_ne_zero h0)).1, ok_bind, hes, hsc.seen]
  have hcheck := checkLoopFree_spec (s := d.seq) hsc.free
  generalize checkLoopFree F.table d.seq sc.loopfree (fun _ => false) = r at hcheck
  cases hcheck with
  | free hzero hfree =>
    rw [ok_bind]
    exact judged_after hF hd hsc hf h0 (.inl hzero) (by simp [hzero]) hfree
  | loop hloops hfree =>
    rw [ok_bind]
    exact judged_after hF hd hsc hf h0 (.inr hloops) (by simpa using fun h => hloops 0 h F.table.next_zero) hfree
  | beyond hy hlt =>
    rw [error_bind]
    exact .crashed (fun h => not_endsAt_of_zero h.line hy) (.beyond hy hlt) (by simp)
  | missing hy hle' =>
    rw [error_bind]
    refine .missing (fun h => not_endsAt_of_zero h.line hy) ?_
    have hno : ¬ (0 ∈ F.table.line d.seq ∨ F.table.Loops d.seq) :=
      not_or.mpr ⟨fun h => not_endsAt_of_zero h hy, fun h => not_endsAt_of_loops h hy⟩
    rintro ((h | h) | h | ⟨hz, hlt⟩ | ⟨h, -⟩ | ⟨h, -⟩)
    · simp [hf] at h
    · omega
    · exact h0 h
    · rw [endsAt_unique hz hy] at hlt
      omega
    · exact hno h
    · exact hno h

end

/-! ### The whole of `validate` -/

section

variable (F : FullTable)

/-- All the deltas are good enough. -/
def AllAccepted (pre : List FullDelta) : List FullDelta → Prop
  | [] => True
  | d :: ds => Accepted F pre d ∧ AllAccepted (pre ++ [d]) ds

/-- The first delta that is not good enough has the property. -/
def FirstFault (P : FullDelta → Prop) (pre : List FullDelta) : List FullDelta → Prop
  | [] => False
  | d :: ds => (¬ Accepted F pre d ∧ P d) ∨ (Accepted F pre d ∧ FirstFault P (pre ++ [d]) ds)

variable {F} {pre ds : List FullDelta} {sc : Scratch} {P : FullDelta → Prop}

theorem FirstFault.not_allAccepted (h : FirstFault F P pre ds) : ¬ AllAccepted F pre ds := by
  induction ds generalizing pre with
  | nil => exact h.elim
  | cons d ds ih =>
    rintro ⟨hd, hds⟩
    rcases h with ⟨hn, -⟩ | ⟨-, h⟩
    · exact hn hd
    · exact ih h hds

/-- What the loop reports. -/
inductive Verdict (F : FullTable) (pre ds : List FullDelta) : Except Quit Bool → Prop
  /-- No fault is found. -/
  | good : AllAccepted F pre ds → Verdict F pre ds (.ok true)
  /-- A fault is found. -/
  | bad : FirstFault F (fun d => ¬ Crashes F d) pre ds → Verdict F pre ds (.ok false)
  /-- A number is reported as missing. -/
  | missing : FirstFault F (fun d => ¬ Crashes F d) pre ds → Verdict F pre ds (.error (.corrupt "missing seqno %u"))
  /-- The program does something else. -/
  | crashed {q} : FirstFault F (Crashes F) pre ds → (∀ msg, q ≠ .corrupt msg) → Verdict F pre ds (.error q)

/-- **The loop stops at the first fault.** -/
theorem validateDeltas_spec (hF : F.Parsed) (hds : ∀ d ∈ ds, d ∈ F) (hsc : sc.Knows F pre) :
    Verdict F pre ds (validateDeltas F ds sc) := by
  induction ds generalizing pre sc with
  | nil => exact .good trivial
  | cons d ds ih =>
    have hd := validateDelta_spec hF (hds d List.mem_cons_self) hsc
    rw [validateDeltas]
    generalize validateDelta F sc d = r at hd
    cases hd with
    | @accepted sc' hacc hsc' =>
      have hrest := ih (fun e he => hds e (List.mem_cons_of_mem d he)) hsc'
      rw [ok_bind]
      dsimp only
      rw [if_pos rfl]
      generalize validateDeltas F ds sc' = r at hrest
      cases hrest with
      | good h => exact .good ⟨hacc, h⟩
      | bad h => exact .bad (.inr ⟨hacc, h⟩)
      | missing h => exact .missing (.inr ⟨hacc, h⟩)
      | crashed h hq => exact .crashed (.inr ⟨hacc, h⟩) hq
    | rejected hacc hc => exact .bad (.inl ⟨hacc, hc⟩)
    | missing hacc hc => exact .missing (.inl ⟨hacc, hc⟩)
    | crashed hacc hc hq => exact .crashed (.inl ⟨hacc, hc⟩) hq

theorem validateDeltas_current (hF : F.Parsed) :
    Verdict F [] F.current (validateDeltas F F.current .initial) :=
  validateDeltas_spec hF (fun _ hd => FullTable.mem_of_mem_current hd) (Scratch.initial_knows F)

/-- **What `val` accepts.** -/
theorem validate_true_iff (hF : F.Parsed) (checksumOk : Bool) (users : List (List UInt8)) :
    validate checksumOk F users = .ok true ↔
      checksumOk = true ∧ AllAccepted F [] F.current ∧ users.all validUsername = true := by
  have h := validateDeltas_current hF
  unfold validate
  cases checksumOk with
  | false => simp [pure, Except.pure]
  | true =>
    rw [if_neg (by simp)]
    generalize validateDeltas F F.current .initial = r at h
    cases h with
    | good h =>
      rw [ok_bind, if_pos rfl]
      simp [pure, Except.pure, h]
    | bad h =>
      rw [ok_bind, if_neg (by simp)]
      simp [pure, Except.pure, h.not_allAccepted]
    | missing h => simp [h.not_allAccepted]
    | crashed h => simp [h.not_allAccepted]

/-! ### When the verdict can be trusted -/

/-- What a verdict in favour of a table is meant to say. -/
structure FullTable.Sound (F : FullTable) : Prop where
  /-- The current deltas have different numbers. -/
  distinct : (F.current.map (·.seq)).Nodup
  /-- Predecessors exist. -/
  prev : ∀ d ∈ F, d.prevSeq = 0 ∨ (F.at? d.prevSeq).isSome
  /-- Down the predecessors one comes to 0, and to no delta twice. -/
  line : ∀ d ∈ F, 0 ∈ F.table.line d.seq ∧ ∀ y ∈ F.table.line d.seq, ¬ Cyclic F.table.next y
  /-- What the lists name exists. -/
  lists : ∀ d ∈ F, ∀ s ∈ d.included ++ d.excluded ++ d.ignored, (F.at? s).isSome

theorem AllAccepted.forall (h : AllAccepted F pre ds) :
    ∀ d ∈ ds, fieldsOk d = true ∧ d.seq ≠ 0 ∧ 0 ∈ F.table.line d.seq ∧ (d.prevSeq = 0 ∨ (F.at? d.prevSeq).isSome) := by
  induction ds generalizing pre with
  | nil => simp
  | cons e ds ih =>
    intro d hd
    rcases List.mem_cons.mp hd with rfl | hd
    · exact ⟨h.1.fields, h.1.pos, h.1.line, h.1.prev⟩
    · exact ih h.2 d hd

end

/-- Two deltas, the second of which includes a number between theirs, which no delta has. -/
def unnamed : FullTable := [trunkDelta 3 1 [2] [], trunkDelta 1 0 [] []]

theorem unnamed_parsed : unnamed.Parsed := ⟨by decide, by decide, by decide, by decide⟩

theorem unnamed_accepted : validate true unnamed [] = .ok true := by decide +kernel

/-- `get` makes a `seq_state` for all the numbers and marks the deltas of the version. -/
def selectVersion (T : DeltaTable) (seq : ℕ) : Except Quit SeqState :=
  if h : T.highestSeqno < 65535 then prepareSeqstate1 T (.new T.highestSeqno h) seq else .error .diverges

/-- What `val` does not know of a version: that the predecessors and the lists name no later deltas, and that the
deltas drawn in exist. -/
structure DeltaTable.Ordered (T : DeltaTable) (seq : ℕ) : Prop where
  /-- Predecessors have smaller numbers. -/
  prev : ∀ y ∈ T.line seq, ∀ d, T.at? y = some d → y ≠ 0 → d.prevSeq < y
  /-- The deltas drawn in exist, and include no later ones. -/
  inc : ∀ y, Drawn T.reads.inc (T.line seq) y → y ≠ 0 → T.Names Delta.included y
  /-- They exclude no later ones. -/
  exc : ∀ y, Drawn T.reads.inc (T.line seq) y → y ≠ 0 → T.Names Delta.excluded y
  /-- The deltas of the version ignore no later ones. -/
  ign : ∀ y ∈ T.version seq, y ≠ 0 → T.Names Delta.ignored y

/-- A version is readable if its way down ends at 0 and it is ordered. -/
theorem readable_iff_ordered {T : DeltaTable} {seq : ℕ} (h0 : seq ≠ 0) (hl : 0 ∈ T.line seq) :
    T.Readable seq ↔ T.Ordered seq := by
  constructor
  · intro h
    refine ⟨fun y hy d hd hy0 => ?_, h.inc, h.exc, fun y hy hy0 => ?_⟩
    · obtain ⟨e, he, hlt⟩ := h.prev y hy hy0
      rwa [Option.some.inj (hd.symm.trans he)]
    · have hJ := swept₃_solves h.prev
      exact h.ign _ hJ y (hy _ hJ) hy0
  · intro h
    have hprev : ∀ y ∈ T.line seq, y ≠ 0 → ∃ d, T.at? y = some d ∧ d.prevSeq < y := by
      intro y hy hy0
      rcases hd : T.at? y with _ | d
      · exact absurd ⟨hy, hy0, hd⟩ (not_endsAt_of_zero hl)
      · exact ⟨d, rfl, h.prev y hy d hd hy0⟩
    refine ⟨Nat.pos_of_ne_zero h0, hprev, h.inc, h.exc, fun J hJ y hy hy0 => ?_⟩
    exact h.ign y (version_eq hprev hJ ▸ hy) hy0

/-- **When a file that `val` accepts can be read**: every version of it. -/
theorem readable_of_validate_iff {F : FullTable} (hF : F.Parsed) {users : List (List UInt8)}
    (hval : validate true F users = .ok true) :
    (∀ d ∈ F.current, ∃ st, selectVersion F.table d.seq = .ok st) ↔
      (F.current ≠ [] → F.table.highestSeqno < 65535) ∧ ∀ d ∈ F.current, F.table.Ordered d.seq := by
  obtain ⟨-, hacc, -⟩ := (validate_true_iff hF true users).mp hval
  have hone : ∀ d ∈ F.current, (∃ st, selectVersion F.table d.seq = .ok st) ↔
      F.table.highestSeqno < 65535 ∧ F.table.Ordered d.seq := by
    intro d hd
    obtain ⟨-, h0, hl, -⟩ := hacc.forall d hd
    rw [← readable_iff_ordered h0 hl]
    unfold selectVersion
    by_cases hh : F.table.highestSeqno < 65535
    · rw [dif_pos hh, and_iff_right hh]
      exact prepareSeqstate1_ok_iff (SeqState.includedSet_new _ hh)
    · simp [hh]
  constructor
  · intro h
    refine ⟨fun hne => ?_, fun d hd => ((hone d hd).mp (h d hd)).2⟩
    obtain ⟨d, hd⟩ := List.exists_mem_of_ne_nil _ hne
    exact ((hone d hd).mp (h d hd)).1
  · rintro ⟨hh, ho⟩ d hd
    exact (hone d hd).mpr ⟨hh (List.ne_nil_of_mem hd), ho d hd⟩

/-- Two deltas, the first of which has the second as its predecessor. -/
def backward : FullTable := [trunkDelta 2 0 [] [], trunkDelta 1 2 [] []]

/-- **`val` accepts files that `get` cannot read**: one fails an assertion, the other is reported as corrupt. -/
theorem val_accepts_unreadable :
    (unnamed.Parsed ∧ validate true unnamed [] = .ok true ∧ trunkDelta 3 1 [2] [] ∈ unnamed.current ∧
      selectVersion unnamed.table 3 = .error .assertion) ∧
    (backward.Parsed ∧ validate true backward [] = .ok true ∧ trunkDelta 1 2 [] [] ∈ backward.current ∧
      selectVersion backward.table 1 =
        .error (.corrupt "sequene number %u has invalid (subsequent) predecessor %u")) := by
  refine ⟨⟨unnamed_parsed, unnamed_accepted, by decide, rfl⟩, ⟨by decide, by decide, by decide, by decide⟩,
    by decide +kernel, by decide, rfl⟩

/-- Of the table whose list names no delta, not every version is ordered. -/
theorem unnamed_not_ordered : ¬ ((unnamed.current ≠ [] → unnamed.table.highestSeqno < 65535) ∧
    ∀ d ∈ unnamed.current, unnamed.table.Ordered d.seq) := by
  intro h
  obtain ⟨st, hst⟩ := (readable_of_validate_iff unnamed_parsed unnamed_accepted).mpr h (trunkDelta 3 1 [2] []) (by decide)
  cases hst

end CSSC.Table
