import CSSC.Header.RoundTrip
import CSSC.Library.Run
import CSSC.Table.DateFields

/-!
# `cdc`

`cdc` changes the MRs and the comments of a delta. MRs may be added and deleted; comments are only put in front of
those that are there. `cdcFile` is what is done for one file; the program that validates MRs is a parameter. A header
is opened, and then changed by any number of `admin` and `cdc` commands (`headerMachine`).

**However often they are run, nothing that a delta records is lost** (`recorded_of_leads`): its comments are kept,
each MR is still there or in the comments, and all else stays as it is (`table_of_leads`). The MRs are the words of
the argument and the comments its lines (`splitMrs_eq`, `splitComments_eq`), so that a header that is reached is sound
(`sound_of_reach`), and **`cdc` does not change whether a header comes back as it was written**
(`cdc_roundTrips_iff`).
-/

namespace CSSC.Header

open CSSC.Lines CSSC.Body CSSC.Table CSSC.Library.Decimal CSSC.Library.Run

/-! ### The arguments -/

/-- `delims` of `split_mrs`: blank, tab and newline. -/
def isDelim (c : UInt8) : Bool := c = 32 || c = 9 || c = 10

/-- `strtok(s, delims)`, until there is no token. Each round takes a character, so the length bounds the rounds. -/
def strtokLoop : ℕ → List UInt8 → Texts
  | 0, _ => []
  | fuel + 1, s =>
    let p := s.dropWhile isDelim
    if p = [] then []
    else p.takeWhile (!isDelim ·) :: strtokLoop fuel ((p.dropWhile (!isDelim ·)).drop 1)

/-- `split_mrs`. -/
def splitMrs (mrs : List UInt8) : Texts := strtokLoop (cstr mrs).length (cstr mrs)

/-- The loop of `split_comments`: `strchr(start, '\n')`. -/
def splitLoop : ℕ → List UInt8 → Texts
  | 0, _ => []
  | fuel + 1, start =>
    if 10 ∈ start then start.takeWhile (· ≠ 10) :: splitLoop fuel ((start.dropWhile (· ≠ 10)).drop 1)
    else if start = [] then [] else [start]

/-- `split_comments`. -/
def splitComments (comments : List UInt8) : Texts := splitLoop ((cstr comments).length + 1) (cstr comments)

/-! ### The delta -/

/-- `"*** LIST OF DELETED MRS ***"`. -/
def listOfDeleted : List UInt8 :=
  [42, 42, 42, 32, 76, 73, 83, 84, 32, 79, 70, 32, 68, 69, 76, 69, 84, 69, 68, 32, 77, 82, 83, 32, 42, 42, 42]

/-- `"*** CHANGED *** "`. -/
def changedText : List UInt8 := [42, 42, 42, 32, 67, 72, 65, 78, 71, 69, 68, 32, 42, 42, 42, 32]

/-- What `process_mrs` has made so far: `current`, `comments` and `deleted`. -/
structure Processed where
  current : Texts
  comments : Texts
  deleted : Bool
  deriving DecidableEq

/-- The loop of `process_mrs`. -/
def processLoop (toDelete : Texts) : Processed → Texts → Processed
  | st, [] => st
  | st, mr :: oldMrs =>
    if toDelete.contains mr then
      processLoop toDelete
        ⟨st.current, (if st.deleted then st.comments else st.comments ++ [listOfDeleted]) ++ [mr], true⟩ oldMrs
    else processLoop toDelete { st with current := st.current ++ [mr] } oldMrs

/-- `process_mrs`. -/
def processMrs (oldMrs toAdd toDelete : Texts) : Processed := processLoop toDelete ⟨toAdd, [], false⟩ oldMrs

/-- `yes_mrs`. -/
def yesMrs (mrUpdates : Texts) : Texts := mrUpdates.filter (·.head? ≠ some 33)

/-- `not_mrs`, the MRs after a `!`. -/
def notMrs (mrUpdates : Texts) : Texts := (mrUpdates.filter (·.head? = some 33)).map (·.drop 1)

/-- What `process_mrs` makes of the MRs of a delta, if there are updates. -/
def updatedMrs (mrUpdates : Texts) (d : FullDelta) : Processed :=
  if mrUpdates = [] then ⟨d.mrs, [], false⟩ else processMrs d.mrs (yesMrs mrUpdates) (notMrs mrUpdates)

/-- `changeline`. -/
def changeline (now : SccsDate) (user : List UInt8) : List UInt8 := changedText ++ now.asString ++ 32 :: user

/-- `newcomments`. -/
def newcomments (now : SccsDate) (user : List UInt8) (r : Processed) (commentUpdates : Texts) : Texts :=
  commentUpdates ++ (if r.deleted then r.comments else []) ++
    if commentUpdates ≠ [] then [changeline now user] else []

end CSSC.Header

namespace CSSC.Table

open CSSC.Header

/-- `cdc`, at a time and by a user. -/
def FullDelta.cdc (now : SccsDate) (user : List UInt8) (mrUpdates commentUpdates : Texts) (d : FullDelta) : FullDelta :=
  let r := updatedMrs mrUpdates d
  if r.deleted || commentUpdates ≠ [] then
    { d with mrs := r.current, comments := newcomments now user r commentUpdates ++ d.comments }
  else { d with mrs := r.current }

/-- The delta that `find` finds is changed. -/
def FullTable.changeFound (id : Sid) (f : FullDelta → FullDelta) : FullTable → Option FullTable
  | [] => none
  | d :: T => if !d.removed && d.id = id then some (f d :: T) else (changeFound id f T).map (d :: ·)

end CSSC.Table

namespace CSSC.Header

open CSSC.Lines CSSC.Body CSSC.Table CSSC.Library.Decimal CSSC.Library.Run

/-! ### The command -/

/-- The arguments of `cdc`, and when and by whom it is run. -/
structure CdcArgs where
  /-- `rid`. -/
  rid : Sid
  /-- `mrs`. -/
  mrs : List UInt8
  /-- `comments`. -/
  comments : List UInt8
  /-- `sccs_date::now()`. -/
  now : SccsDate
  /-- `get_user_name()`. -/
  user : List UInt8

/-- Runs a program with the g-file and the MRs; `true` if it does not accept them. -/
abbrev Checker := List UInt8 → Texts → Bool

/-- `check_mrs`. -/
def checkMrs (run : Checker) (prg : List UInt8) (mrs : Texts) : Bool := prg ≠ [] && run prg mrs

/-- What `main` asks of the MRs. -/
def mrsAllowed (run : Checker) (file : SccsFile) (mrList : Texts) : Except Quit Unit :=
  match mrList, file.flags.mrChecker with
  | [], none => .ok ()
  | [], some _ => .error (.failure "%s: MRs required.")
  | _ :: _, none => .error (.failure "%s: MRs are not allowed for this file (because its 'v' flag is not set).")
  | mr :: mrs, some prg =>
    if checkMrs run prg (mr :: mrs) then .error (.failure "%s: Invalid MR number%s -- validation failed..") else .ok ()

/-- What `main` does for one file, up to `update`. -/
def cdcFile (run : Checker) (args : CdcArgs) (file : SccsFile) : Except Quit SccsFile := do
  let mrList := splitMrs args.mrs
  mrsAllowed run file mrList
  match file.deltaTable with
  | none => .error .assertion
  | some T =>
    match T.changeFound args.rid (·.cdc args.now args.user mrList (splitComments args.comments)) with
    | none => .error (.failure "%s: Requested SID %s doesn't exist.")
    | some T' => return { file with deltaTable := some T' }

/-! ### Words and lines -/

variable {s t : List UInt8} {mrs comments old adds dels : Texts} {d d' : FullDelta} {T T' : FullTable}

/-- Delimiters in front of a text make no words. -/
theorem words_dropWhile (s : List UInt8) :
    ((s.dropWhile isDelim).splitOnP isDelim).filter (· ≠ []) = (s.splitOnP isDelim).filter (· ≠ []) := by
  induction s with
  | nil => rfl
  | cons c s ih =>
    cases hc : isDelim c with
    | true =>
      rw [List.dropWhile_cons_of_pos hc, ih, List.splitOnP_cons_eq_if_modifyHead, if_pos hc]
      rfl
    | false => rw [List.dropWhile_cons_of_neg (by simp [hc])]

/-- **The MRs are the words of the argument.** -/
theorem strtokLoop_eq {fuel : ℕ} (h : s.length ≤ fuel) :
    strtokLoop fuel s = (s.splitOnP isDelim).filter (· ≠ []) := by
  induction fuel generalizing s with
  | zero =>
    obtain rfl := List.eq_nil_of_length_eq_zero (Nat.le_zero.mp h)
    rfl
  | succ fuel ih =>
    rw [← words_dropWhile, strtokLoop]
    rcases hp : s.dropWhile isDelim with _ | ⟨c, p⟩
    · rfl
    · have hc : isDelim c = false := by
        have := List.head_dropWhile_not isDelim (l := s) (by rw [hp]; simp)
        simpa [hp] using this
      have hlen : p.length < s.length := by
        have := (List.dropWhile_suffix isDelim (l := s)).length_le
        rw [hp, List.length_cons] at this
        exact this
      have hw : ∀ x ∈ (c :: p).takeWhile (!isDelim ·), isDelim x = false := by
        intro x hx
        simpa using List.mem_takeWhile_imp hx
      have hne : (c :: p).takeWhile (!isDelim ·) ≠ [] := by simp [hc]
      have hsplit := List.takeWhile_append_dropWhile (p := (!isDelim ·)) (l := c :: p)
      simp only [reduceCtorEq, if_false]
      rcases hr : (c :: p).dropWhile (!isDelim ·) with _ | ⟨x, r⟩
      · rw [hr, List.append_nil] at hsplit
        rw [List.drop_nil, ih (Nat.zero_le _)]
        conv_rhs => rw [← hsplit]
        rw [List.splitOnP_eq_singleton hw]
        simp [hne]
      · have hx : isDelim x = true := by
          have := List.head_dropWhile_not (!isDelim ·) (l := c :: p) (by rw [hr]; simp)
          simpa [hr] using this
        have hrlen : r.length ≤ fuel := by
          have := congrArg List.length hsplit
          rw [hr, List.length_append, List.length_cons, List.length_cons] at this
          omega
        rw [hr] at hsplit
        rw [List.drop_succ_cons, List.drop_zero, ih hrlen]
        conv_rhs => rw [← hsplit]
        rw [List.splitOnP_append_cons_of_forall_mem hw x hx]
        simp [hne]

theorem splitMrs_eq (s : List UInt8) : splitMrs s = ((cstr s).splitOnP isDelim).filter (· ≠ []) :=
  strtokLoop_eq le_rfl

/-- The text up to the first newline is a line. -/
theorem readFileLoop_line (h : (10 : UInt8) ∉ t) (acc r : List UInt8) :
    readFileLoop acc (t ++ 10 :: r) = (acc ++ t) :: readFileLoop [] r := by
  induction t generalizing acc with
  | nil => simp [readFileLoop]
  | cons c t ih =>
    rw [List.mem_cons, not_or] at h
    rw [List.cons_append, readFileLoop, if_neg (Ne.symm h.1), ih h.2, List.append_assoc, List.singleton_append]

/-- So is the text after the last one, unless it is empty. -/
theorem readFileLoop_last (h : (10 : UInt8) ∉ t) (acc : List UInt8) :
    readFileLoop acc t = if acc ++ t = [] then [] else [acc ++ t] := by
  induction t generalizing acc with
  | nil => simp [readFileLoop]
  | cons c t ih =>
    rw [List.mem_cons, not_or] at h
    rw [readFileLoop, if_neg (Ne.symm h.1), ih h.2, List.append_assoc, List.singleton_append]

theorem splitLoop_eq {fuel : ℕ} (h : s.length < fuel) : splitLoop fuel s = readFileLines s := by
  induction fuel generalizing s with
  | zero => omega
  | succ fuel ih =>
    rw [splitLoop, readFileLines]
    split_ifs with hs hnil
    · obtain ⟨t, r, rfl, ht⟩ := List.eq_append_cons_of_mem hs
      have hall : ∀ x ∈ t, decide (x ≠ 10) = true := by
        intro x hx
        rw [decide_eq_true_eq]
        rintro rfl
        exact ht hx
      rw [List.length_append, List.length_cons] at h
      rw [readFileLoop_line ht, List.takeWhile_append_of_pos hall, List.dropWhile_append_of_pos hall]
      simp [ih (s := r) (by omega), readFileLines]
    · rw [hnil]
      rfl
    · rw [readFileLoop_last hs, List.nil_append, if_neg hnil]

/-- **The comments are the lines of the argument.** -/
theorem splitComments_eq (s : List UInt8) : splitComments s = readFileLines (cstr s) :=
  splitLoop_eq (Nat.lt_succ_self _)

/-! ### What becomes of a delta -/

/-- What `process_mrs` does from some point on. -/
theorem processLoop_eq (st : Processed) : processLoop dels st old =
    ⟨st.current ++ old.filter (· ∉ dels),
      st.comments ++ (if st.deleted || old.filter (· ∈ dels) = [] then [] else [listOfDeleted]) ++
        old.filter (· ∈ dels), st.deleted || old.filter (· ∈ dels) ≠ []⟩ := by
  induction old generalizing st with
  | nil =>
    obtain ⟨current, comments, deleted⟩ := st
    simp [processLoop]
  | cons mr old ih =>
    obtain ⟨current, comments, deleted⟩ := st
    rw [processLoop]
    by_cases hmr : mr ∈ dels
    · rw [if_pos (List.contains_iff_mem.mpr hmr), ih]
      cases deleted with
      | true => simp [hmr]
      | false => simp [hmr]
    · rw [if_neg (mt List.contains_iff_mem.mp hmr), ih]
      simp [hmr]

/-- What becomes of the MRs, and what is noted about it. -/
theorem updatedMrs_eq (mrs : Texts) (d : FullDelta) : updatedMrs mrs d =
    ⟨yesMrs mrs ++ d.mrs.filter (· ∉ notMrs mrs),
      (if d.mrs.filter (· ∈ notMrs mrs) = [] then [] else [listOfDeleted]) ++ d.mrs.filter (· ∈ notMrs mrs),
      d.mrs.filter (· ∈ notMrs mrs) ≠ []⟩ := by
  rw [updatedMrs]
  by_cases h : mrs = []
  · subst h
    simp [yesMrs, notMrs]
  · rw [if_neg h, processMrs, processLoop_eq]
    simp

/-- **The MRs afterwards**: those that are added, and those that are not deleted. -/
theorem cdc_mrs (now : SccsDate) (user : List UInt8) (mrs comments : Texts) (d : FullDelta) :
    (d.cdc now user mrs comments).mrs = yesMrs mrs ++ d.mrs.filter (· ∉ notMrs mrs) := by
  have h : (d.cdc now user mrs comments).mrs = (updatedMrs mrs d).current := by
    rw [FullDelta.cdc]
    split_ifs <;> rfl
  rw [h, updatedMrs_eq]

/-- **The comments afterwards**: the new ones, and those that were there. -/
theorem cdc_comments (now : SccsDate) (user : List UInt8) (mrs comments : Texts) (d : FullDelta) :
    (d.cdc now user mrs comments).comments = newcomments now user (updatedMrs mrs d) comments ++ d.comments := by
  rw [FullDelta.cdc]
  split_ifs with h
  · rfl
  · rw [Bool.or_eq_true, not_or] at h
    have hc : comments = [] := by simpa using h.2
    simp [newcomments, h.1, hc]

/-- An MR that is deleted is in the new comments. -/
theorem mem_newcomments (now : SccsDate) (user : List UInt8) (comments : Texts) {mr : List UInt8} (hm : mr ∈ d.mrs)
    (hn : mr ∈ notMrs mrs) : mr ∈ newcomments now user (updatedMrs mrs d) comments := by
  have hf : mr ∈ d.mrs.filter (· ∈ notMrs mrs) := List.mem_filter.mpr ⟨hm, by simpa using hn⟩
  have hne := List.ne_nil_of_mem hf
  rw [newcomments, updatedMrs_eq, if_pos (by simpa using hne)]
  exact List.mem_append_left _ (List.mem_append_right _ (List.mem_append_right _ hf))

/-- The new comments are those that were given, MRs of the delta and two texts. -/
theorem newcomments_cases {now : SccsDate} {user c : List UInt8}
    (h : c ∈ newcomments now user (updatedMrs mrs d) comments) :
    c ∈ comments ∨ c = listOfDeleted ∨ c ∈ d.mrs ∨ c = changeline now user := by
  rw [newcomments, updatedMrs_eq, List.mem_append, List.mem_append] at h
  rcases h with (h | h) | h
  · exact .inl h
  · by_cases hf : d.mrs.filter (· ∈ notMrs mrs) = []
    · simp [hf] at h
    · rw [if_pos (by simpa using hf), if_neg hf, List.singleton_append, List.mem_cons] at h
      rcases h with h | h
      · exact .inr (.inl h)
      · exact .inr (.inr (.inl (List.mem_of_mem_filter h)))
  · split_ifs at h
    · exact .inr (.inr (.inr (List.mem_singleton.mp h)))
    · cases h

/-- What is kept of the record of a delta. -/
structure Recorded (d d' : FullDelta) : Prop where
  /-- All else stays as it is. -/
  same : d' = { d with mrs := d'.mrs, comments := d'.comments }
  /-- Comments are only put in front. -/
  comments : d.comments <:+ d'.comments
  /-- An MR is still there, or it is in the comments. -/
  mrs : ∀ mr ∈ d.mrs, mr ∈ d'.mrs ∨ mr ∈ d'.comments

theorem Recorded.refl (d : FullDelta) : Recorded d d := ⟨rfl, List.suffix_rfl, fun _ h => .inl h⟩

theorem Recorded.trans {d'' : FullDelta} (h : Recorded d d') (h' : Recorded d' d'') : Recorded d d'' where
  same := by
    rw [h'.same, h.same]
  comments := h.comments.trans h'.comments
  mrs := fun mr hm => (h.mrs mr hm).elim (h'.mrs mr) fun hc => .inr (h'.comments.subset hc)

/-- **`cdc` keeps the record of a delta.** -/
theorem recorded_cdc (now : SccsDate) (user : List UInt8) (mrs comments : Texts) (d : FullDelta) :
    Recorded d (d.cdc now user mrs comments) where
  same := by
    rw [FullDelta.cdc]
    split_ifs <;> rfl
  comments := ⟨_, (cdc_comments now user mrs comments d).symm⟩
  mrs := by
    intro mr hm
    by_cases hn : mr ∈ notMrs mrs
    · rw [cdc_comments]
      exact .inr (List.mem_append_left _ (mem_newcomments now user comments hm hn))
    · rw [cdc_mrs]
      exact .inl (List.mem_append_right _ (List.mem_filter.mpr ⟨hm, by simpa using hn⟩))

/-! ### What becomes of a header -/

/-- One delta is changed, and the others stay as they are. -/
theorem changeFound_cases {id : Sid} {f : FullDelta → FullDelta} (h : T.changeFound id f = some T') :
    ∃ A d B, T = A ++ d :: B ∧ T' = A ++ f d :: B ∧ d.removed = false ∧ d.id = id ∧
      ∀ e ∈ A, e.removed = true ∨ e.id ≠ id := by
  induction T generalizing T' with
  | nil => cases h
  | cons d T ih =>
    rw [FullTable.changeFound] at h
    split_ifs at h with hd
    · rw [Bool.and_eq_true, Bool.not_eq_true', decide_eq_true_eq] at hd
      exact ⟨[], d, T, rfl, (Option.some.inj h).symm, hd.1, hd.2, by simp⟩
    · obtain ⟨T₁, hT₁, rfl⟩ := Option.map_eq_some_iff.mp h
      obtain ⟨A, e, B, rfl, rfl, hr, hid, hA⟩ := ih hT₁
      refine ⟨d :: A, e, B, rfl, rfl, hr, hid, List.forall_mem_cons.mpr ⟨?_, hA⟩⟩
      by_contra hn
      rw [not_or, not_not] at hn
      exact hd (by simp [hn.1, hn.2])

/-- Commands that change a header. -/
inductive HeaderCommand where
  /-- `admin`. -/
  | admin (args : AdminArgs)
  /-- `cdc`. -/
  | cdc (args : CdcArgs)

/-- What a command does. -/
inductive HeaderStep (run : Checker) : SccsFile → HeaderCommand → SccsFile → Prop where
  /-- `admin` changes the header. -/
  | admin {args : AdminArgs} {s s' : SccsFile} (h : Header.admin args s = .ok s') : HeaderStep run s (.admin args) s'
  /-- `cdc` changes a delta. -/
  | cdc {args : CdcArgs} {s s' : SccsFile} (h : cdcFile run args s = .ok s') : HeaderStep run s (.cdc args) s'

/-- A header that a file was opened with. -/
def WasOpened (s : SccsFile) : Prop :=
  ∃ mode silent f o, openFile mode silent f = .ok o ∧ o.editModeOk = true ∧ o.file = s ∧
    ∀ T, s.deltaTable = some T → ∀ d ∈ T, InRange d

/-- A history file is opened, and its header is changed by commands. -/
def headerMachine (run : Checker) : Machine SccsFile HeaderCommand where
  init := WasOpened
  step := HeaderStep run

/-- A user whose name can be part of a line. -/
def Named (_ : SccsFile) : HeaderCommand → Prop
  | .admin _ => True
  | .cdc args => Clean args.user

/-- Any command. -/
def Any (_ : SccsFile) (_ : HeaderCommand) : Prop := True

variable {run : Checker} {file file' : SccsFile} {args : CdcArgs} {c : HeaderCommand}

/-- **What `cdc` does for a file.** -/
theorem cdcFile_cases (h : cdcFile run args file = .ok file') : ∃ A d B, file.deltaTable = some (A ++ d :: B) ∧
    d.removed = false ∧ d.id = args.rid ∧
    file' = ⟨some (A ++ d.cdc args.now args.user (splitMrs args.mrs) (splitComments args.comments) :: B),
      file.users, file.flags, file.comments⟩ := by
  rw [cdcFile] at h
  obtain ⟨-, -, h⟩ := bind_eq_ok.mp h
  cases hT : file.deltaTable with
  | none => simp [hT] at h
  | some T =>
    simp only [hT] at h
    cases hT' : T.changeFound args.rid (·.cdc args.now args.user (splitMrs args.mrs) (splitComments args.comments)) with
    | none => simp [hT'] at h
    | some T' =>
      simp only [hT'] at h
      obtain ⟨A, d, B, rfl, rfl, hr, hid, -⟩ := changeFound_cases hT'
      exact ⟨A, d, B, rfl, hr, hid, (Except.ok.inj h).symm⟩

/-- `admin` leaves the deltas alone. -/
theorem admin_deltaTable {args : AdminArgs} (h : admin args file = .ok file') : file'.deltaTable = file.deltaTable := by
  unfold admin at h
  obtain ⟨comments, -, h⟩ := bind_eq_ok.mp h
  obtain ⟨g, -, h⟩ := bind_eq_ok.mp h
  obtain ⟨g', -, h⟩ := bind_eq_ok.mp h
  obtain rfl := Except.ok.inj h
  rfl

theorem forall₂_trans {T'' : FullTable} (h : List.Forall₂ Recorded T T') (h' : List.Forall₂ Recorded T' T'') :
    List.Forall₂ Recorded T T'' := by
  induction h generalizing T'' with
  | nil => exact h'
  | cons hd _ ih =>
    cases h' with
    | cons hd' h' => exact .cons (hd.trans hd') (ih h')

/-- The tables of two headers, delta by delta. -/
def RecordedAll (s s' : SccsFile) : Prop :=
  ∀ T, s.deltaTable = some T → ∃ T', s'.deltaTable = some T' ∧ List.Forall₂ Recorded T T'

/-- A command keeps the record. -/
theorem recorded_step (h : HeaderStep run file c file') : RecordedAll file file' := by
  intro T hT
  have hrefl : ∀ T : FullTable, List.Forall₂ Recorded T T := fun T => List.forall₂_same.mpr fun d _ => .refl d
  cases h with
  | admin ha => exact ⟨T, (admin_deltaTable ha).trans hT, hrefl T⟩
  | cdc hc =>
    obtain ⟨A, d, B, hT', -, -, rfl⟩ := cdcFile_cases hc
    obtain rfl := Option.some.inj (hT.symm.trans hT')
    exact ⟨_, rfl, List.rel_append (hrefl A) (.cons (recorded_cdc _ _ _ _ d) (hrefl B))⟩

/-- **However often `cdc` and `admin` are run, nothing that a delta records is lost.** -/
theorem recorded_of_leads (h : Leads (headerMachine run) Any file file') : RecordedAll file file' := by
  refine h.invariant (P := RecordedAll file) (fun s c s' hs _ hstep T hT => ?_) fun T hT => ?_
  · obtain ⟨T', hT', hr⟩ := hs T hT
    obtain ⟨T'', hT'', hr'⟩ := recorded_step hstep T' hT'
    exact ⟨T'', hT'', forall₂_trans hr hr'⟩
  · exact ⟨T, hT, List.forall₂_same.mpr fun d _ => .refl d⟩

/-- The deltas without their texts are the same, so every version is. -/
theorem table_of_leads (h : Leads (headerMachine run) Any file file') (hT : file.deltaTable = some T) :
    ∃ T', file'.deltaTable = some T' ∧ T'.table = T.table := by
  obtain ⟨T', hT', hr⟩ := recorded_of_leads h T hT
  refine ⟨T', hT', ?_⟩
  clear hT hT'
  induction hr with
  | nil => rfl
  | cons hd _ ih =>
    rw [FullTable.table, List.map_cons, hd.same]
    exact congrArg _ ih

/-! ### Headers that are reached -/

/-- A word has no delimiter. -/
theorem strtokLoop_chars {fuel : ℕ} {w : List UInt8} (h : w ∈ strtokLoop fuel s) :
    ∀ c ∈ w, c ∈ s ∧ isDelim c = false := by
  induction fuel generalizing s with
  | zero => cases h
  | succ fuel ih =>
    rw [strtokLoop] at h
    have hsub := (List.dropWhile_suffix isDelim (l := s)).subset
    split_ifs at h
    · cases h
    · rcases List.mem_cons.mp h with rfl | h
      · intro c hc
        exact ⟨hsub ((List.takeWhile_prefix _).subset hc), by simpa using List.mem_takeWhile_imp hc⟩
      · intro c hc
        obtain ⟨hm, hd⟩ := ih h c hc
        exact ⟨hsub ((List.dropWhile_suffix _).subset (List.mem_of_mem_drop hm)), hd⟩

/-- A comment has no newline. -/
theorem splitLoop_chars {fuel : ℕ} {l : List UInt8} (h : l ∈ splitLoop fuel s) : ∀ c ∈ l, c ∈ s ∧ c ≠ 10 := by
  induction fuel generalizing s with
  | zero => cases h
  | succ fuel ih =>
    rw [splitLoop] at h
    split_ifs at h with hs
    · rcases List.mem_cons.mp h with rfl | h
      · intro c hc
        exact ⟨(List.takeWhile_prefix _).subset hc, by simpa using List.mem_takeWhile_imp hc⟩
      · intro c hc
        obtain ⟨hm, hd⟩ := ih h c hc
        exact ⟨(List.dropWhile_suffix _).subset (List.mem_of_mem_drop hm), hd⟩
    · cases h
    · obtain rfl := List.mem_singleton.mp h
      exact fun c hc => ⟨hc, fun h10 => hs (h10 ▸ hc)⟩

theorem clean_splitMrs {w : List UInt8} (h : w ∈ splitMrs s) : Clean w := by
  intro c hc
  obtain ⟨hm, hd⟩ := strtokLoop_chars h c hc
  refine ⟨fun h0 => zero_not_mem_cstr s (h0 ▸ hm), ?_⟩
  rintro rfl
  exact absurd hd (by decide)

theorem clean_splitComments {l : List UInt8} (h : l ∈ splitComments s) : Clean l := by
  intro c hc
  obtain ⟨hm, hd⟩ := splitLoop_chars h c hc
  exact ⟨fun h0 => zero_not_mem_cstr s (h0 ▸ hm), hd⟩

theorem clean_twoDigits (n : ℤ) : Clean (twoDigits n) := by
  intro c hc
  rcases twoDigits_chars n c hc with rfl | hd
  · decide
  · exact clean_of_le (s := [c]) (by simpa using le_of_isDigit hd) c (by simp)

theorem clean_changeline {user : List UInt8} (now : SccsDate) (hu : Clean user) : Clean (changeline now user) := by
  have hnow : Clean now.asString := by
    simp only [SccsDate.asString, clean_append, clean_cons, clean_twoDigits]
    decide
  rw [changeline, clean_append, clean_append, clean_cons]
  exact ⟨⟨by simp [Clean, changedText], hnow⟩, by decide, hu⟩

/-- **A delta that was read is still like one.** -/
theorem read_cdc (now : SccsDate) {user : List UInt8} (hu : Clean user) (m c : List UInt8) (h : Read d) :
    Read (d.cdc now user (splitMrs m) (splitComments c)) := by
  have hmrs : ∀ s ∈ (d.cdc now user (splitMrs m) (splitComments c)).mrs, Clean s := by
    intro s hs
    rw [cdc_mrs] at hs
    rcases List.mem_append.mp hs with hs | hs
    · exact clean_splitMrs (List.mem_of_mem_filter hs)
    · exact h.mrs s (List.mem_of_mem_filter hs)
  have hcomments : ∀ s ∈ (d.cdc now user (splitMrs m) (splitComments c)).comments, Clean s := by
    intro s hs
    rw [cdc_comments] at hs
    rcases List.mem_append.mp hs with hs | hs
    · rcases newcomments_cases hs with hs | rfl | hs | rfl
      · exact clean_splitComments hs
      · simp [Clean, listOfDeleted]
      · exact h.mrs s hs
      · exact clean_changeline now hu
    · exact h.comments s hs
  rw [(recorded_cdc now user (splitMrs m) (splitComments c) d).same]
  exact ⟨h.id, h.date, h.user, h.seq, h.lists, h.present, hmrs, hcomments⟩

/-- **A header that is reached is sound.** -/
theorem sound_of_reach (h : Reach (headerMachine run) Named file) : file.Sound := by
  refine h.invariant (P := SccsFile.Sound) (fun s hs => ?_) fun s c s' hs hn hstep => ?_
  · obtain ⟨mode, silent, f, o, ho, -, rfl, hr⟩ := hs
    obtain ⟨hne, hT, hf, -⟩ := read_of_openFile ho
    exact ⟨hne, fun T hT' d hd => ⟨hT T hT' d hd, hr T hT' d hd⟩, hf⟩
  · cases hstep with
    | admin ha =>
      refine ⟨?_, ?_, sound_of_admin hs.flags ha⟩
      · rw [admin_deltaTable ha]
        exact hs.nonempty
      · rw [admin_deltaTable ha]
        exact hs.deltas
    | cdc hc =>
      obtain ⟨A, d, B, hT, -, -, rfl⟩ := cdcFile_cases hc
      refine ⟨by simp, fun T hT' e he => ?_, hs.flags⟩
      obtain rfl := Option.some.inj hT'
      rcases List.mem_append.mp he with he | he
      · exact hs.deltas _ hT e (List.mem_append_left _ he)
      · rcases List.mem_cons.mp he with rfl | he
        · obtain ⟨hread, hrange⟩ := hs.deltas _ hT d (by simp)
          refine ⟨read_cdc _ hn _ _ hread, ?_⟩
          rw [(recorded_cdc _ _ _ _ d).same]
          exact ⟨hrange.counts, hrange.year⟩
        · exact hs.deltas _ hT e (by simp [he])

/-- A delta is replaced by one with the same SID and the same lists. -/
theorem Survives.replace {A B : FullTable} {users comments : Texts} {flags : Flags}
    (h : Survives ⟨some (A ++ d :: B), users, flags, comments⟩) (hid : d'.id = d.id)
    (hl : ListsShown d → ListsShown d') : Survives ⟨some (A ++ d' :: B), users, flags, comments⟩ where
  table := by simp
  deltas := by
    intro T hT e he
    obtain rfl := Option.some.inj hT
    rcases List.mem_append.mp he with he | he
    · exact h.deltas _ rfl e (List.mem_append_left _ he)
    · rcases List.mem_cons.mp he with rfl | he
      · obtain ⟨hp, hs⟩ := h.deltas _ rfl d (by simp)
        exact ⟨hid ▸ hp, hl hs⟩
      · exact h.deltas _ rfl e (by simp [he])
  users := h.users
  comments := h.comments
  strings := h.strings
  defaultSid := h.defaultSid
  locked := h.locked
  letters := h.letters

/-- Whether a header survives does not depend on MRs and comments of deltas. -/
theorem survives_cdc_iff (hc : cdcFile run args file = .ok file') : Survives file' ↔ Survives file := by
  obtain ⟨A, d, B, hT, -, -, rfl⟩ := cdcFile_cases hc
  obtain ⟨table, users, flags, comments⟩ := file
  obtain rfl : table = some (A ++ d :: B) := hT
  have hsame := (recorded_cdc args.now args.user (splitMrs args.mrs) (splitComments args.comments) d).same
  constructor
  · refine fun h => h.replace ?_ ?_
    · rw [hsame]
    · rw [hsame]
      exact id
  · refine fun h => h.replace ?_ ?_
    · rw [hsame]
    · rw [hsame]
      exact id

/-- **`cdc` does not change whether a header comes back as it was written.** -/
theorem cdc_roundTrips_iff (h : Reach (headerMachine run) Named file) (hu : Clean args.user)
    (hc : cdcFile run args file = .ok file') : RoundTrips file' ↔ RoundTrips file := by
  have h' : Reach (headerMachine run) Named file' := .step (c := .cdc args) h hu (.cdc hc)
  rw [(sound_of_reach h').roundTrips_iff, (sound_of_reach h).roundTrips_iff, survives_cdc_iff hc]

/-! ### A run -/

/-- `cdc -r1.1 -m… -y…`, by `d`. -/
def sampleCdc (mrs comments : List UInt8) : CdcArgs := ⟨⟨1, 1, 0, 0⟩, mrs, comments, january 2, [100]⟩

/-- `admin -fv`. -/
def checkedArgs : AdminArgs := ⟨.keep, false, [[118]], [], [], []⟩

/-- The small file with these MRs and comments. -/
def changedFile (mrs comments : Texts) : SccsFile :=
  { smallFile with
    deltaTable := some [{ trunkDelta 1 0 [] [] with mrs := mrs, comments := comments }]
    flags := { Flags.initial with mrChecker := some [] } }

/-- An MR is added and deleted again. -/
theorem recorded_of_leads_sample : RecordedAll smallFile (changedFile [] [listOfDeleted, [97]]) := by
  have hadmin : admin checkedArgs smallFile = .ok (changedFile [] []) := by decide
  have hadd : cdcFile (fun _ _ => false) (sampleCdc [97] []) (changedFile [] []) = .ok (changedFile [[97]] []) := by
    decide
  have hdelete : cdcFile (fun _ _ => false) (sampleCdc [33, 97] []) (changedFile [[97]] []) =
      .ok (changedFile [] [listOfDeleted, [97]]) := by decide
  exact @recorded_of_leads (fun _ _ => false) _ _
    (.step (c := .cdc _)
      (.step (c := .cdc _) (.step (c := .admin _) .refl trivial (.admin hadmin)) trivial (.cdc hadd))
      trivial (.cdc hdelete))

/-- The small file gets a comment. -/
theorem cdc_roundTrips_iff_sample : ∃ file', cdcFile (fun _ _ => false) (sampleCdc [] [99]) smallFile = .ok file' ∧
    (RoundTrips file' ↔ RoundTrips smallFile) := by
  have ho : openFile .read true smallText = .ok ⟨smallFile, false, true⟩ := by decide +kernel
  have hreach : Reach (headerMachine fun _ _ => false) Named smallFile := by
    refine .start ⟨.read, true, smallText, _, ho, rfl, rfl, fun T hT d hd => ?_⟩
    obtain rfl := Option.some.inj hT
    obtain rfl := List.mem_singleton.mp hd
    exact ⟨by decide, by decide⟩
  have hc : cdcFile (fun _ _ => false) (sampleCdc [] [99]) smallFile =
      .ok ⟨some [{ trunkDelta 1 0 [] [] with comments := [[99], changeline (january 2) [100]] }], [], .initial, []⟩ := by
    decide +kernel
  exact ⟨_, hc, cdc_roundTrips_iff hreach (by simp [Clean, sampleCdc]) hc⟩

end CSSC.Header
