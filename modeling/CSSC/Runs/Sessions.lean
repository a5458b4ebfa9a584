import CSSC.Files.NextSid
import CSSC.Runs.History

/-!
# Editing sessions

Several users edit versions of one history file. `get -e` reserves a SID in the p-file, `delta` uses it up, `unget`
gives it back, and `rmdel` removes a delta. A `Project` is the history file, its flags, and the p-file. Each command
is done at once, or refused; the p-file and the history file are taken to be read back as they were written.

**As long as no automatic delta takes a SID that is in use, no SID is used twice, whatever the flags and the order of
the commands** (`distinct_of_reach`), since each command keeps the SIDs `Distinct`. Without that condition an
automatic delta may take a SID that another user has reserved (`null_delta_takes_sid`).
-/

namespace CSSC.Runs

open CSSC.Lines CSSC.Body CSSC.Table CSSC.Header CSSC.Files CSSC.Library.Run DeltaTable

/-- A history file with its p-file. -/
structure Project where
  /-- The history file. -/
  history : History
  /-- `flags`. -/
  flags : Flags
  /-- The locks of the p-file. -/
  locks : List Files.EditLock

/-- `find_status`; a lock is known by its position. -/
inductive FindStatus where
  /-- `FOUND`. -/
  | found (i : ℕ)
  /-- `NOT_FOUND`. -/
  | notFound
  /-- `AMBIGUOUS`. -/
  | ambiguous
  deriving DecidableEq, Repr

/-- `find_sid`: the lock of this user for the SID, or the only one if no SID is given. -/
def findSid (locks : List Files.EditLock) (user : List UInt8) (id : Sid) : FindStatus :=
  match locks.findIdxs fun e => e.user = user && (id.isNull || id = e.got || id = e.delta) with
  | [] => .notFound
  | [i] => .found i
  | _ => .ambiguous

/-- The entry that `add_delta` is called with. -/
def entryOf (e : Files.EditLock) : Table.EditLock :=
  ⟨e.got, e.delta, String.ofList (e.user.map fun c => Char.ofNat c.toNat), e.included, e.excluded⟩

/-- The commands of the users. -/
inductive SessionCommand where
  /-- `get -e`, with the options `-r`, `-t`, `-b`, `-i` and `-x`. -/
  | get (user : List UInt8) (authorised : Bool) (rid : Sid) (getTopDelta branch : Bool) (date : SccsDate)
      (included excluded : SidList)
  /-- `unget`. -/
  | unget (user : List UInt8) (rid : Sid)
  /-- `delta`. The lock and the flag for null deltas come from the files. -/
  | delta (user : List UInt8) (rid : Sid) (c : Checkin)
  /-- `rmdel`. -/
  | rmdel (id : Sid) (buf : Linebuf)

/-- What a command does, if it does anything. -/
inductive SessionStep (diff : List UInt8 → List UInt8 → List UInt8) : Project → SessionCommand → Project → Prop where
  /-- The command is refused. -/
  | refused {s : Project} {c : SessionCommand} : SessionStep diff s c s
  /-- `add_lock`. -/
  | get {s : Project} {user : List UInt8} {authorised : Bool} {rid retrieve next : Sid} {getTopDelta branch : Bool}
      {date : SccsDate} {included excluded : SidList} :
      selectForEdit s.history.table s.flags s.locks authorised rid getTopDelta branch = some (retrieve, .given next) →
      SessionStep diff s (.get user authorised rid getTopDelta branch date included excluded)
        { s with locks := s.locks ++ [⟨retrieve, next, user, date, included, excluded⟩] }
  /-- `delete_lock`. -/
  | unget {s : Project} {user : List UInt8} {rid : Sid} {i : ℕ} : findSid s.locks user rid = .found i →
      SessionStep diff s (.unget user rid) { s with locks := s.locks.eraseIdx i }
  /-- `add_delta`, and then `delete_lock`. -/
  | delta {s : Project} {user : List UInt8} {rid : Sid} {c : Checkin} {i : ℕ} {e : Files.EditLock} {h : History} :
      findSid s.locks user rid = .found i → s.locks[i]? = some e →
      addDelta diff s.history { c with lock := entryOf e, nullFlag := s.flags.nullDeltas } = .ok h →
      SessionStep diff s (.delta user rid c) { s with history := h, locks := s.locks.eraseIdx i }
  /-- `rmdel` of a delta that is not locked. -/
  | rmdel {s : Project} {id : Sid} {buf : Linebuf} {h : History} : findLocked s.locks id = none →
      Step diff s.history (.rmdel id buf) h → SessionStep diff s (.rmdel id buf) { s with history := h }

/-! ### What should hold -/

/-- No SID is used twice. -/
structure Distinct (s : Project) : Prop where
  /-- No two current deltas have the same SID. -/
  current : s.history.table.currentSids.Nodup
  /-- No two locks have reserved the same SID. -/
  reserved : (s.locks.map Files.EditLock.delta).Nodup
  /-- No current delta has a SID that is reserved. -/
  apart : ∀ e ∈ s.locks, e.delta ∉ s.history.table.currentSids

/-- No automatic delta takes a SID that is in use: the first SID of each release between the one that was gotten and the
new one is free. -/
def SessionCommand.Fine (s : Project) : SessionCommand → Prop
  | .delta user rid _ => s.flags.nullDeltas = true → ∀ i e, findSid s.locks user rid = .found i → s.locks[i]? = some e →
      ∀ r, e.got.rel + 1 ≤ r → r < e.delta.rel → Free s.history.table s.locks (nullSid r)
  | _ => True

/-- The machine of the commands. A run starts with distinct SIDs, and nothing is being edited. -/
def sessionMachine (diff : List UInt8 → List UInt8 → List UInt8) : Machine Project SessionCommand where
  init s := s.history.table.currentSids.Nodup ∧ s.locks = []
  step := SessionStep diff

/-! ### What each command keeps -/

/-- `get -e` reserves a free SID. -/
theorem Distinct.get {s : Project} (hs : Distinct s) {e : Files.EditLock} (hfree : Free s.history.table s.locks e.delta) :
    Distinct { s with locks := s.locks ++ [e] } where
  current := hs.current
  reserved := by
    rw [List.map_append, List.nodup_append]
    refine ⟨hs.reserved, by simp, ?_⟩
    rintro a ha b hb rfl
    obtain ⟨e', he', rfl⟩ := List.mem_map.mp ha
    exact hfree.2 e' he' (by simpa using hb)
  apart e' he' := by
    rcases List.mem_append.mp he' with he' | he'
    · exact hs.apart e' he'
    · rw [List.mem_singleton.mp he']
      exact hfree.1

/-- A lock is given up. -/
theorem Distinct.unget {s : Project} (hs : Distinct s) (i : ℕ) : Distinct { s with locks := s.locks.eraseIdx i } where
  current := hs.current
  reserved := hs.reserved.sublist ((List.eraseIdx_sublist s.locks i).map _)
  apart e he := hs.apart e (List.mem_of_mem_eraseIdx he)

theorem currentSids_markRemoved (id : Sid) (T : DeltaTable) :
    (currentSids (markRemoved id T)).Sublist T.currentSids := by
  refine List.Sublist.map _ ?_
  induction T with
  | nil => exact List.Sublist.refl _
  | cons d T ih =>
    unfold markRemoved
    split
    · rename_i hd
      have hr : d.removed = false := by simp_all
      rw [current, current, List.filter_cons, List.filter_cons, if_neg (by simp [Delta.removed]), if_pos (by simp [hr])]
      exact List.sublist_cons_self _ _
    · rw [current, current, List.filter_cons, List.filter_cons]
      split
      · exact ih.cons_cons d
      · exact ih

/-- Fewer deltas are current. -/
theorem Distinct.rmdel {s : Project} (hs : Distinct s) {h : History}
    (hsub : h.table.currentSids.Sublist s.history.table.currentSids) : Distinct { s with history := h } where
  current := hs.current.sublist hsub
  reserved := hs.reserved
  apart e he := fun hmem => hs.apart e he (hsub.subset hmem)

/-- What `delta` adds to the table. -/
theorem addDelta_table {diff : List UInt8 → List UInt8 → List UInt8} {h h' : History} {c : Checkin}
    (hrun : addDelta diff h c = .ok h') : ∃ ids : List Sid, h'.table.currentSids = c.lock.delta :: (ids ++ h.table.currentSids) ∧
      ids.Nodup ∧ ∀ id ∈ ids, NullSid c.nullFlag c.lock.got c.lock.delta id := by
  unfold addDelta at hrun
  split at hrun
  · cases hrun
  rename_i gotDelta hgot
  split at hrun
  swap
  · cases hrun
  obtain ⟨ss, -, hrun⟩ := bind_eq_ok.mp hrun
  obtain ⟨got, -, hrun⟩ := bind_eq_ok.mp hrun
  obtain ⟨⟨T', d⟩, hadd, hrun⟩ := bind_eq_ok.mp hrun
  obtain ⟨r, -, hrun⟩ := bind_eq_ok.mp hrun
  obtain rfl := Except.ok.inj hrun
  obtain ⟨ns, rfl, hid, htype, -, hns, hnd, -⟩ := addedDeltas_spec hadd
  rw [find_id hgot] at hns
  have hcur : ∀ {d : Delta}, d.type = .D → d.removed = false := fun {d} hd => by simp [Delta.removed, hd]
  refine ⟨ns.map Delta.id, ?_, hnd, fun id hmem => ?_⟩
  · have hall : ns.filter (!·.removed) = ns := List.filter_eq_self.mpr fun e he => by simp [hcur (hns e he).1]
    rw [currentSids, current, prepend, List.filter_cons, if_pos (by simp [hcur htype]), List.filter_append, hall,
      List.map_cons, List.map_append, hid]
    rfl
  · obtain ⟨e, he, rfl⟩ := List.mem_map.mp hmem
    exact (hns e he).2

/-- **`delta` uses up the SID of its lock**, and the automatic deltas take SIDs that are free. -/
theorem Distinct.delta {s : Project} (hs : Distinct s) {i : ℕ} {e : Files.EditLock} (he : s.locks[i]? = some e) {h : History}
    {ids : List Sid} (htable : h.table.currentSids = e.delta :: (ids ++ s.history.table.currentSids)) (hnd : ids.Nodup)
    (hrel : ∀ id ∈ ids, id ≠ e.delta) (hfree : ∀ id ∈ ids, Free s.history.table s.locks id) :
    Distinct { s with history := h, locks := s.locks.eraseIdx i } := by
  obtain ⟨hi, rfl⟩ := List.getElem?_eq_some_iff.mp he
  have hreserved := hs.reserved
  rw [← ((List.getElem_cons_eraseIdx_perm hi).map Files.EditLock.delta).nodup_iff, List.map_cons, List.nodup_cons] at hreserved
  have hcurrent : s.locks[i].delta ∉ s.history.table.currentSids := hs.apart _ (List.getElem_mem hi)
  refine ⟨?_, hreserved.2, fun e' he' => ?_⟩
  · show h.table.currentSids.Nodup
    rw [htable, List.nodup_cons, List.mem_append, List.nodup_append]
    refine ⟨not_or.mpr ⟨fun hmem => hrel _ hmem rfl, hcurrent⟩, hnd, hs.current, ?_⟩
    rintro a ha b hb rfl
    exact (hfree a ha).1 hb
  · show e'.delta ∉ h.table.currentSids
    have hmem := List.mem_of_mem_eraseIdx he'
    rw [htable, List.mem_cons, List.mem_append, not_or, not_or]
    refine ⟨fun heq => hreserved.1 (heq ▸ List.mem_map_of_mem he'), fun hid => ?_, hs.apart e' hmem⟩
    exact (hfree _ hid).2 e' hmem rfl

/-! ### Runs -/

/-- **As long as no automatic delta takes a SID that is in use, no SID is used twice.** -/
theorem distinct_of_reach {diff : List UInt8 → List UInt8 → List UInt8} {s : Project}
    (hr : Reach (sessionMachine diff) (fun s c => c.Fine s) s) : Distinct s := by
  refine hr.invariant ?_ ?_
  · rintro s ⟨hnd, hlocks⟩
    exact ⟨hnd, by simp [hlocks], by simp [hlocks]⟩
  · rintro s c s' hs hfine hstep
    cases hstep with
    | refused => exact hs
    | get hsel =>
      refine hs.get ?_
      unfold selectForEdit at hsel
      split at hsel
      · cases hsel
      · split at hsel
        · exact findNextSid_given (Prod.mk.inj (Option.some.inj hsel)).2
        · cases hsel
    | unget _ => exact hs.unget _
    | delta hfound he hrun =>
      obtain ⟨ids, htable, hnd, hnull⟩ := addDelta_table hrun
      refine hs.delta he htable hnd (fun id hid heq => ?_) fun id hid => ?_
      · obtain ⟨-, r, -, hlt, rfl⟩ := hnull id hid
        have hrel : r = _ := congrArg Sid.rel heq
        exact Int16.lt_irrefl (hrel ▸ hlt)
      · obtain ⟨hflag, r, hle, hlt, rfl⟩ := hnull id hid
        exact hfine hflag _ _ hfound he r hle hlt
    | rmdel _ hrun =>
      cases hrun with
      | rmdel hrm _ _ =>
        refine hs.rmdel ?_
        unfold Table.rmdel at hrm
        split at hrm
        · cases hrm
        · split at hrm
          · cases hrm
          · obtain ⟨out, -, hrm⟩ := bind_eq_ok.mp hrm
            obtain ⟨rfl, -⟩ := Prod.mk.inj (Except.ok.inj hrm)
            exact currentSids_markRemoved _ _

/-! ### A SID that is taken -/

/-- The history file of the sample, with joint edit and automatic deltas. -/
private def jointProject : Project :=
  ⟨sampleHistory, { Flags.initial with jointEdit := true, nullDeltas := true }, []⟩

/-- `get -e` with `-r` and a release. -/
private def getRelease (user : List UInt8) (r : Int16) : SessionCommand :=
  .get user true (.ofRelease r) false false ⟨0, 0, 0, 0, 0, 0⟩ [] []

/-- The lock that it adds. -/
private def lockOf (user : List UInt8) (next : Sid) : Files.EditLock :=
  ⟨⟨1, 1, 0, 0⟩, next, user, ⟨0, 0, 0, 0, 0, 0⟩, [], []⟩

/-- One user edits release 3 and checks in; the automatic delta is 2.1. -/
theorem distinct_of_reach_sample : ∃ h, h.table.currentSids = [⟨3, 1, 0, 0⟩, ⟨2, 1, 0, 0⟩, ⟨1, 1, 0, 0⟩] ∧
    Distinct ⟨h, jointProject.flags, []⟩ := by
  obtain ⟨h, hrun, htable⟩ : ∃ h, addDelta wholeDiff sampleHistory
      { sampleCheckin [98, 10] with lock := entryOf (lockOf [97] ⟨3, 1, 0, 0⟩), nullFlag := true } = .ok h ∧
      h.table.currentSids = [⟨3, 1, 0, 0⟩, ⟨2, 1, 0, 0⟩, ⟨1, 1, 0, 0⟩] := ⟨_, rfl, by decide⟩
  refine ⟨h, htable, @distinct_of_reach wholeDiff _ ?_⟩
  have hget : Reach (sessionMachine wholeDiff) (fun s c => c.Fine s)
      { jointProject with locks := [lockOf [97] ⟨3, 1, 0, 0⟩] } :=
    .step (.start ⟨by decide, rfl⟩) (c := getRelease [97] 3) trivial (.get (by decide))
  refine .step hget (c := .delta [97] .none (sampleCheckin [98, 10])) ?_ (.delta (i := 0) (by decide) rfl hrun)
  intro _ i e hfound he r hle hlt
  obtain rfl : i = 0 := (FindStatus.found.inj (hfound.symm.trans (by decide : _ = FindStatus.found 0)))
  obtain rfl := Option.some.inj he
  obtain rfl : r = 2 := by
    rw [Int16.le_iff_toInt_le] at hle
    rw [Int16.lt_iff_toInt_lt] at hlt
    rw [← Int16.toInt_inj]
    have h1 : ((1 : Int16) + 1).toInt = 2 := by decide
    have h2 : (3 : Int16).toInt = 3 := by decide
    simp only [lockOf, h1, h2] at hle hlt
    rw [show (2 : Int16).toInt = 2 by decide]
    omega
  exact sidInUse_eq_false_iff.mp (by decide)

/-- **An automatic delta takes the SID 2.1, which another user has reserved.** -/
theorem null_delta_takes_sid : NormalDiff wholeDiff ∧
    ¬ ∀ s, Reach (sessionMachine wholeDiff) (fun _ _ => True) s → Distinct s := by
  refine ⟨wholeDiff_normal, fun hall => ?_⟩
  obtain ⟨h, hrun, htable⟩ : ∃ h, addDelta wholeDiff sampleHistory
      { sampleCheckin [98, 10] with lock := entryOf (lockOf [97] ⟨4, 1, 0, 0⟩), nullFlag := true } = .ok h ∧
      h.table.currentSids = [⟨4, 1, 0, 0⟩, ⟨3, 1, 0, 0⟩, ⟨2, 1, 0, 0⟩, ⟨1, 1, 0, 0⟩] := ⟨_, rfl, by decide⟩
  have h1 : Reach (sessionMachine wholeDiff) (fun _ _ => True)
      { jointProject with locks := [lockOf [97] ⟨4, 1, 0, 0⟩] } :=
    .step (.start (s := jointProject) ⟨by decide, rfl⟩) (c := getRelease [97] 4) trivial (.get (by decide))
  have h2 : Reach (sessionMachine wholeDiff) (fun _ _ => True)
      { jointProject with locks := [lockOf [97] ⟨4, 1, 0, 0⟩, lockOf [98] ⟨2, 1, 0, 0⟩] } :=
    .step h1 (c := getRelease [98] 2) trivial (.get (by decide))
  have h3 : Reach (sessionMachine wholeDiff) (fun _ _ => True)
      ⟨h, jointProject.flags, [lockOf [98] ⟨2, 1, 0, 0⟩]⟩ :=
    .step h2 (c := .delta [97] .none (sampleCheckin [98, 10])) trivial (.delta (i := 0) (by decide) rfl hrun)
  refine (hall _ h3).apart (lockOf [98] ⟨2, 1, 0, 0⟩) (by simp) ?_
  show (⟨2, 1, 0, 0⟩ : Sid) ∈ h.table.currentSids
  rw [htable]
  decide

end CSSC.Runs
