import CSSC.Files.PFile
import CSSC.Header.Flags
import CSSC.Library.Search
import CSSC.Table.Requested

/-!
# The SID of the next delta

`get -e` chooses the SID that the new delta is to have, and reserves it in the p-file. A SID is in use if a current
delta has it or if it is reserved. The two loops of `find_next_sid` come back to where they began after 65536 turns;
what the function comes to is a `NextSid`, since it may fail the assertion at its end, or never end. `selectForEdit`
is the choice of both SIDs in `main` of `get`.

A SID that is returned is free (`findNextSid_given`). **A free SID is handed out, or the request is refused, exactly
if the request is fine** (`findNextSid_free_iff`): levels and branches are left, and a SID that a delta of the table
has had and that is passed over without a branch is free (`NextFine`).
-/

namespace CSSC.Files

open CSSC.Table CSSC.Header CSSC.Library.Search

/-- `find_to_be_created` finds a lock. -/
def isToBeCreated (pfile : List EditLock) (id : Sid) : Bool := pfile.any (·.delta = id)

/-- `find_locked`. -/
def findLocked (pfile : List EditLock) (id : Sid) : Option EditLock := pfile.find? (·.got = id)

/-- What `find_next_sid` comes to. -/
inductive NextSid where
  /-- It returns this SID. -/
  | given (next : Sid)
  /-- It returns this SID, and sets `*pfailed`. -/
  | failed (next : Sid)
  /-- The assertion at its end fails. -/
  | assertion
  /-- One of its loops does not end. -/
  | endless
  deriving DecidableEq, Repr

section
variable (T : DeltaTable) (flags : Flags) (pfile : List EditLock)

/-- `sid_in_use`. -/
def sidInUse (id : Sid) : Bool := (T.find id).isSome || isToBeCreated pfile id

/-- `flags.default_sid`. -/
def defaultSid : Sid := flags.defaultSid.getD .none

/-- The SID that `find_next_sid` goes by: the default one, if there is one. -/
def governing (requested : Sid) : Sid := if (defaultSid flags).isNull then requested else defaultSid flags

/-- The SID that follows the one requested, or the one gotten if the request is partial. -/
def following (requested got : Sid) : Sid := if requested.partialSid then got.next else requested.next

/-- The SID that is considered first. -/
def candidate (requested got : Sid) : Option Sid :=
  if requested.releaseOnly then firstFree (sidInUse T pfile) Sid.nextLevel 65536 requested.nextLevel
  else some (following requested got)

/-- `too_high`. -/
def tooHigh (requested : Sid) : Bool := requested.onTrunk && flags.ceiling.any (· < requested.rel)

/-- `branch_again`; `none` where `*pfailed` is set. -/
def branchAgain (requested next : Sid) : Option Bool :=
  match T.findAny next with
  | some d =>
    if !d.removed && !requested.partialSid then some true
    else some (sidInUse T pfile next && flags.jointEdit)
  | none =>
    if sidInUse T pfile next then
      if flags.jointEdit then some true else none
    else some false

/-- `not_trunk_top`. -/
def notTrunkTop (requested got : Sid) : Bool :=
  if requested.components < 3 then got.rel < T.highestRelease.rel else false

/-- The assertion at the end. -/
def finishNext (next : Sid) : NextSid := if sidInUse T pfile next then .assertion else .given next

/-- The loop that looks for an empty branch. -/
def branchLoop (next : Sid) : NextSid :=
  match firstFree (fun id => (T.find id).isSome || (flags.jointEdit && isToBeCreated pfile id)) Sid.nextBranch 65536 next with
  | some next => finishNext T pfile next
  | none => .endless

/-- `find_next_sid`. -/
def findNextSid (requested got : Sid) (wantBranch : Bool) : NextSid :=
  let requested := governing flags requested
  match candidate T pfile requested got with
  | none => .endless
  | some next =>
    if flags.branch = true ∧ wantBranch = true then
      branchLoop T flags pfile (if requested.components < 4 then got else next).nextBranch
    else
      match branchAgain T flags pfile requested next with
      | none => .failed next
      | some again =>
        if tooHigh flags requested = true ∨ again = true ∨ notTrunkTop T requested got = true then
          branchLoop T flags pfile got.nextBranch
        else finishNext T pfile next

/-- `test_locks`. -/
def testLocks (authorised : Bool) (got : Sid) : Bool :=
  if !authorised then false
  else if flags.allLocked || flags.floor.any (got.rel < ·) || flags.ceiling.any (· < got.rel) ||
    flags.locked.contains got.rel then false
  else (findLocked pfile got).isNone || flags.jointEdit

/-- `get -e`: the SID to retrieve, and what comes of the search for the new one. -/
def selectForEdit (authorised : Bool) (orgRid : Sid) (getTopDelta branch : Bool) : Option (Sid × NextSid) :=
  match findRequestedSid T (defaultSid flags) orgRid getTopDelta with
  | none => none
  | some retrieve =>
    if testLocks flags pfile authorised retrieve then
      let rid := if !orgRid.valid || (orgRid.releaseOnly && orgRid.rel = retrieve.rel) then retrieve else orgRid
      some (retrieve, findNextSid T flags pfile rid retrieve branch)
    else none

/-! ### What should be handed out -/

/-- No current delta has this SID, and it is not reserved. -/
def Free (id : Sid) : Prop := id ∉ T.currentSids ∧ ∀ e ∈ pfile, e.delta ≠ id

/-- The search ends, and either fails or returns a free SID. -/
def FreeOrRefused : NextSid → Prop
  | .given next => Free T pfile next
  | .failed _ => True
  | .assertion | .endless => False

/-! ### The requests that are fine -/

/-- The first delta of the branch that comes `n` branches after the next one. -/
def branchAt (base : Sid) (n : ℕ) : Sid := ⟨base.rel, base.level, base.branch + 1 + Int16.ofNat n, 1⟩

/-- Some level of the release is free. -/
def LevelLeft (rel : Int16) : Prop := ∃ level, Free T pfile ⟨rel, level, 0, 0⟩

/-- Some branch is free; without joint edit, the first one that no current delta begins. -/
def BranchLeft (base : Sid) : Prop :=
  ∃ n, Free T pfile (branchAt base n) ∧ (flags.jointEdit = false → ∀ m < n, branchAt base m ∈ T.currentSids)

/-- Without joint edit a SID that is reserved and that no delta has is refused. -/
def Refused (next : Sid) : Prop := flags.jointEdit = false ∧ T.findAny next = none ∧ ¬ Free T pfile next

/-- The first delta with the SID is current and the request is not partial, or the SID is in use under joint edit. -/
def Collides (requested next : Sid) : Prop :=
  (∃ d, T.findAny next = some d ∧ d.removed = false ∧ requested.partialSid = false) ∨
    flags.jointEdit = true ∧ ¬ Free T pfile next

/-- The new delta must begin a branch. -/
def MustBranch (requested got : Sid) : Prop :=
  tooHigh flags requested = true ∨ notTrunkTop T requested got = true ∨
    requested.releaseOnly = false ∧ Collides T flags pfile requested (following requested got)

/-- The requests for which a free SID can be found. -/
structure NextFine (requested got : Sid) (wantBranch : Bool) : Prop where
  /-- For a release, one of its levels is free. -/
  level : requested.releaseOnly = true → LevelLeft T pfile requested.rel
  /-- For a branch that is wanted, one is free. -/
  wanted : flags.branch = true ∧ wantBranch = true →
    BranchLeft T flags pfile (if requested.components < 4 then got else following requested got)
  /-- For a branch that has to be, one is free. -/
  forced : ¬ (flags.branch = true ∧ wantBranch = true) →
    (requested.releaseOnly = false → ¬ Refused T flags pfile (following requested got)) →
    MustBranch T flags pfile requested got → BranchLeft T flags pfile got
  /-- Otherwise the SID that follows is free, if a delta has had it. -/
  listed : ¬ (flags.branch = true ∧ wantBranch = true) → requested.releaseOnly = false →
    ¬ MustBranch T flags pfile requested got → (∃ d ∈ T, d.id = following requested got) →
    Free T pfile (following requested got)

end

variable {T : DeltaTable} {flags : Flags} {pfile : List EditLock}

/-! ### The loops -/

theorem find_isSome_iff {id : Sid} : (T.find id).isSome = true ↔ id ∈ T.currentSids := by
  rw [DeltaTable.find, List.find?_isSome, DeltaTable.currentSids, List.mem_map]
  simp

theorem sidInUse_eq_false_iff {id : Sid} : sidInUse T pfile id = false ↔ Free T pfile id := by
  rw [sidInUse, Bool.or_eq_false_iff, ← Bool.not_eq_true, find_isSome_iff, Free, isToBeCreated, List.any_eq_false]
  simp

theorem sidInUse_iff {id : Sid} : sidInUse T pfile id = true ↔ ¬ Free T pfile id := by
  rw [← sidInUse_eq_false_iff, Bool.not_eq_false]

theorem nextLevel_iterate (r l : Int16) (n : ℕ) : Sid.nextLevel^[n] ⟨r, l, 0, 0⟩ = ⟨r, l + Int16.ofNat n, 0, 0⟩ := by
  induction n with
  | zero => simp
  | succ n ih => rw [Function.iterate_succ_apply', ih, Sid.nextLevel, Int16.ofNat_add, Int16.add_assoc]; rfl

theorem nextBranch_iterate (base : Sid) (n : ℕ) : Sid.nextBranch^[n] base.nextBranch = branchAt base n := by
  induction n with
  | zero => simp [branchAt, Sid.nextBranch]
  | succ n ih =>
    rw [Function.iterate_succ_apply', ih, branchAt, branchAt, Sid.nextBranch, Int16.ofNat_add, ← Int16.add_assoc]
    rfl

theorem nextLevel_periodic (r l : Int16) : Function.IsPeriodicPt Sid.nextLevel 65536 ⟨r, l, 0, 0⟩ := by
  rw [Function.IsPeriodicPt, Function.IsFixedPt, nextLevel_iterate, show Int16.ofNat 65536 = 0 by decide, Int16.add_zero]

theorem nextBranch_periodic (base : Sid) : Function.IsPeriodicPt Sid.nextBranch 65536 base.nextBranch := by
  rw [Function.IsPeriodicPt, Function.IsFixedPt, nextBranch_iterate, branchAt, show Int16.ofNat 65536 = 0 by decide,
    Int16.add_zero]
  rfl

theorem exists_ofNat (x : Int16) : ∃ n, Int16.ofNat n = x :=
  ⟨x.toBitVec.toNat, by rw [Int16.ofNat_bitVecToNat, Int16.ofBitVec_toBitVec]⟩

/-- **The loop over the levels ends exactly if a level is left**, and what it finds is free. -/
theorem candidate_of_releaseOnly {requested got : Sid} (hr : requested.releaseOnly = true) :
    (candidate T pfile requested got = none ↔ ¬ LevelLeft T pfile requested.rel) ∧
      ∀ next, candidate T pfile requested got = some next → Free T pfile next := by
  rw [candidate, if_pos hr, Sid.nextLevel]
  refine ⟨?_, fun next h => sidInUse_eq_false_iff.mp (IsFirstFree.of_firstFree h).free⟩
  rw [firstFree_eq_none_iff (by decide) (nextLevel_periodic _ _)]
  constructor
  · rintro h ⟨level, hfree⟩
    obtain ⟨n, hn⟩ := exists_ofNat (level - (requested.level + 1))
    have hused := h n
    rw [nextLevel_iterate, hn, sidInUse_iff, Int16.add_comm, Int16.sub_add_cancel] at hused
    exact hused hfree
  · intro h n
    rw [nextLevel_iterate, sidInUse_iff]
    exact fun hfree => h ⟨_, hfree⟩

theorem finishNext_iff {next : Sid} : FreeOrRefused T pfile (finishNext T pfile next) ↔ Free T pfile next := by
  unfold finishNext
  split_ifs with hu
  · exact iff_of_false (fun h => h) (sidInUse_iff.mp hu)
  · rfl

/-- **The loop over the branches ends with a free one exactly if a branch is left.** -/
theorem branchLoop_iff {base : Sid} :
    FreeOrRefused T pfile (branchLoop T flags pfile base.nextBranch) ↔ BranchLeft T flags pfile base := by
  unfold branchLoop
  generalize hskip : (fun id => (T.find id).isSome || (flags.jointEdit && isToBeCreated pfile id)) = skip
  have hfree : ∀ {id}, Free T pfile id → skip id = false := fun {id} h => by
    have hu := sidInUse_eq_false_iff.mpr h
    rw [sidInUse, Bool.or_eq_false_iff] at hu
    simp [← hskip, hu.1, hu.2]
  have hjoint : flags.jointEdit = true → ∀ id, skip id = sidInUse T pfile id := fun h id => by simp [← hskip, h, sidInUse]
  have halone : flags.jointEdit = false → ∀ id, skip id = true ↔ id ∈ T.currentSids := fun h id => by
    simp [← hskip, h, find_isSome_iff]
  rcases hr : firstFree skip Sid.nextBranch 65536 base.nextBranch with _ | next
  · refine iff_of_false (fun h => h) ?_
    rintro ⟨n, hn, -⟩
    have hused := (firstFree_eq_none_iff (by decide) (nextBranch_periodic base)).mp hr n
    rw [nextBranch_iterate, hfree hn] at hused
    cases hused
  · rw [finishNext_iff]
    have hfirst := IsFirstFree.of_firstFree hr
    constructor
    · intro h
      obtain ⟨n, rfl, -, hbefore⟩ := hfirst
      rw [nextBranch_iterate] at h
      refine ⟨n, h, fun ha m hm => ?_⟩
      rw [← nextBranch_iterate, ← halone ha]
      exact hbefore m hm
    · rintro ⟨n, hn, hbefore⟩
      by_cases hj : flags.jointEdit = true
      · rw [← sidInUse_eq_false_iff, ← hjoint hj]
        exact hfirst.free
      · have ha : flags.jointEdit = false := by simpa using hj
        have hthis : IsFirstFree skip Sid.nextBranch base.nextBranch (branchAt base n) := by
          refine ⟨n, (nextBranch_iterate base n).symm, hfree hn, fun m hm => ?_⟩
          rw [nextBranch_iterate, halone ha]
          exact hbefore ha m hm
        rw [hfirst.unique hthis]
        exact hn

/-! ### The whole search -/

/-- **A SID that is returned is free.** -/
theorem findNextSid_given {requested got next : Sid} {wantBranch : Bool}
    (h : findNextSid T flags pfile requested got wantBranch = .given next) : Free T pfile next := by
  have hfinish : ∀ {s}, finishNext T pfile s = .given next → Free T pfile next := fun {s} hs => by
    unfold finishNext at hs
    split_ifs at hs with hu
    obtain rfl := NextSid.given.inj hs
    exact sidInUse_eq_false_iff.mp (by simpa using hu)
  have hloop : ∀ {s}, branchLoop T flags pfile s = .given next → Free T pfile next := fun {s} hs => by
    unfold branchLoop at hs
    split at hs
    · exact hfinish hs
    · cases hs
  simp only [findNextSid] at h
  split at h
  · cases h
  · split_ifs at h
    · exact hloop h
    · exact hloop h
    · split at h
      · cases h
      · split_ifs at h
        · exact hloop h
        · exact hfinish h

/-- What becomes of the candidate in the p-file and the table. -/
theorem branchAgain_eq (requested next : Sid) :
    (branchAgain T flags pfile requested next = none ↔ Refused T flags pfile next) ∧
      (branchAgain T flags pfile requested next = some true ↔ Collides T flags pfile requested next) := by
  unfold branchAgain Refused Collides
  rcases hd : T.findAny next with _ | d
  · by_cases hu : sidInUse T pfile next = true
    · have hf := sidInUse_iff.mp hu
      by_cases hj : flags.jointEdit = true <;> simp [hu, hf, hj]
    · have hf : Free T pfile next := sidInUse_eq_false_iff.mp (by simpa using hu)
      simp [hu, hf]
  · have hf : (sidInUse T pfile next && flags.jointEdit) = true ↔ flags.jointEdit = true ∧ ¬ Free T pfile next := by
      rw [Bool.and_eq_true, sidInUse_iff, and_comm]
    by_cases hr : d.removed = true <;> by_cases hp : requested.partialSid = true <;> simp [hr, hp, sidInUse_iff, and_comm]

/-- A free SID collides with nothing. -/
theorem Free.not_collides {requested next : Sid} (h : Free T pfile next) : ¬ Collides T flags pfile requested next := by
  rintro (⟨d, hd, hr, -⟩ | ⟨-, hu⟩)
  · have hid : d.id = next := by simpa using List.find?_some hd
    have hcur : d ∈ T.current := List.mem_filter.mpr ⟨List.mem_of_find?_eq_some hd, by simp [hr]⟩
    exact h.1 (hid ▸ List.mem_map_of_mem hcur)
  · exact hu h

/-- A SID that no delta has had is free, if it is not refused and does not collide: a lock would have been seen. -/
theorem free_of_unlisted {requested next : Sid} (hex : ¬ ∃ d ∈ T, d.id = next) (hnref : ¬ Refused T flags pfile next)
    (hcol : ¬ Collides T flags pfile requested next) : Free T pfile next := by
  by_contra hu
  have hany : T.findAny next = none := List.find?_eq_none.mpr fun d hd => by
    simpa using fun hid => hex ⟨d, hd, hid⟩
  by_cases hj : flags.jointEdit = true
  · exact hcol (.inr ⟨hj, hu⟩)
  · exact hnref ⟨by simpa using hj, hany, hu⟩

theorem components_of_releaseOnly {s : Sid} (h : s.releaseOnly = true) : s.components < 4 := by
  have hl : s.level = 0 := by
    simp only [Sid.releaseOnly, Bool.and_eq_true, decide_eq_true_eq] at h
    exact h.2
  unfold Sid.components
  split_ifs <;> simp_all

/-- What comes after the candidate, when no branch is wanted. -/
theorem unwanted_iff {requested got next : Sid} {again : Bool} (h : branchAgain T flags pfile requested next = some again) :
    FreeOrRefused T pfile (if tooHigh flags requested = true ∨ again = true ∨ notTrunkTop T requested got = true then
        branchLoop T flags pfile got.nextBranch else finishNext T pfile next) ↔
      (tooHigh flags requested = true ∨ notTrunkTop T requested got = true ∨ Collides T flags pfile requested next →
        BranchLeft T flags pfile got) ∧
      (¬ (tooHigh flags requested = true ∨ notTrunkTop T requested got = true ∨ Collides T flags pfile requested next) →
        Free T pfile next) := by
  have hagain : again = true ↔ Collides T flags pfile requested next := by
    rw [← (branchAgain_eq requested next).2, h, Option.some.injEq]
  have hmust : (tooHigh flags requested = true ∨ again = true ∨ notTrunkTop T requested got = true) ↔
      (tooHigh flags requested = true ∨ notTrunkTop T requested got = true ∨ Collides T flags pfile requested next) := by
    rw [hagain, or_comm (a := Collides T flags pfile requested next)]
  by_cases hm : tooHigh flags requested = true ∨ again = true ∨ notTrunkTop T requested got = true
  · rw [if_pos hm, branchLoop_iff]
    exact ⟨fun h => ⟨fun _ => h, fun h' => absurd (hmust.mp hm) h'⟩, fun h => h.1 (hmust.mp hm)⟩
  · rw [if_neg hm, finishNext_iff]
    exact ⟨fun h => ⟨fun h' => absurd (hmust.mpr h') hm, fun _ => h⟩, fun h => h.2 fun h' => hm (hmust.mpr h')⟩

/-- **A free SID is handed out, or the request is refused, exactly if the request is fine**: levels and branches are
left, and a SID that a delta of the table has had and that is passed over without a branch is free. -/
theorem findNextSid_free_iff (T : DeltaTable) (flags : Flags) (pfile : List EditLock) (requested got : Sid) (wantBranch : Bool) :
    FreeOrRefused T pfile (findNextSid T flags pfile requested got wantBranch) ↔
      NextFine T flags pfile (governing flags requested) got wantBranch := by
  simp only [findNextSid]
  generalize governing flags requested = q
  by_cases hr : q.releaseOnly = true
  · obtain ⟨hnone, hfree⟩ := @candidate_of_releaseOnly T pfile q got hr
    rcases hc : candidate T pfile q got with _ | next
    · exact iff_of_false (fun h => h) fun h => hnone.mp hc (h.level hr)
    · have hlevel : LevelLeft T pfile q.rel := by
        by_contra hl
        exact absurd (hc.symm.trans (hnone.mpr hl)) (by simp)
      have hf := hfree next hc
      by_cases hw : flags.branch = true ∧ wantBranch = true
      · have hcomp := components_of_releaseOnly hr
        simp only [if_pos hw, if_pos hcomp, branchLoop_iff]
        exact ⟨fun h => ⟨fun _ => hlevel, fun _ => by rwa [if_pos hcomp], fun hn => absurd hw hn, fun hn => absurd hw hn⟩,
          fun h => by simpa [hcomp] using h.wanted hw⟩
      · simp only [if_neg hw]
        rcases hb : branchAgain T flags pfile q next with _ | again
        · exact absurd hf ((branchAgain_eq q next).1.mp hb).2.2
        · rw [unwanted_iff hb]
          have hmust : (tooHigh flags q = true ∨ notTrunkTop T q got = true ∨ Collides T flags pfile q next) ↔
              MustBranch T flags pfile q got := by
            simp [MustBranch, hr, hf.not_collides]
          rw [hmust]
          exact ⟨fun h => ⟨fun _ => hlevel, fun h' => absurd h' hw, fun _ _ => h.1, fun _ hr' => by simp [hr] at hr'⟩,
            fun h => ⟨h.forced hw (by simp [hr]), fun _ => hf⟩⟩
  · have hr' : q.releaseOnly = false := by simpa using hr
    simp only [candidate, if_neg hr]
    generalize hnext : following q got = next
    by_cases hw : flags.branch = true ∧ wantBranch = true
    · simp only [if_pos hw, branchLoop_iff]
      exact ⟨fun h => ⟨fun h' => absurd h' hr, fun _ => hnext ▸ h, fun hn => absurd hw hn, fun hn => absurd hw hn⟩,
        fun h => hnext ▸ h.wanted hw⟩
    · simp only [if_neg hw]
      rcases hb : branchAgain T flags pfile q next with _ | again
      · have href := (branchAgain_eq q next).1.mp hb
        refine iff_of_true trivial ⟨fun h' => absurd h' hr, fun h' => absurd h' hw, fun _ h' => ?_, fun _ _ _ => ?_⟩
        · exact absurd (hnext.symm ▸ href) (h' hr')
        · rintro ⟨d, hd, hid⟩
          have hne := List.find?_eq_none.mp href.2.1 d hd
          simp [hid, hnext] at hne
      · rw [unwanted_iff hb]
        have hnref : ¬ Refused T flags pfile next := fun h => by
          rw [(branchAgain_eq q next).1.mpr h] at hb
          cases hb
        have hmust : (tooHigh flags q = true ∨ notTrunkTop T q got = true ∨ Collides T flags pfile q next) ↔
            MustBranch T flags pfile q got := by
          simp [MustBranch, hr', hnext]
        rw [hmust]
        refine ⟨fun h => ⟨fun h' => absurd h' hr, fun h' => absurd h' hw, fun _ _ => h.1,
          fun _ _ hm _ => hnext.symm ▸ h.2 hm⟩, fun h => ⟨h.forced hw fun _ => hnext.symm ▸ hnref, fun hm => ?_⟩⟩
        by_cases hex : ∃ d ∈ T, d.id = next
        · exact hnext ▸ h.listed hw hr' hm (hnext.symm ▸ hex)
        · exact free_of_unlisted hex hnref fun hcol => hm (hmust.mp (.inr (.inr hcol)))

/-! ### A SID that is in use -/

/-- A file with a trunk and a branch. -/
private def branching : DeltaTable :=
  [⟨.D, ⟨1, 2, 1, 1⟩, 3, 2, [], [], []⟩, ⟨.D, ⟨1, 2, 0, 0⟩, 2, 1, [], [], []⟩, ⟨.D, ⟨1, 1, 0, 0⟩, 1, 0, [], [], []⟩]

/-- The default SID is a branch, and 1.1 is asked for: the search chooses 1.2, which is in use. -/
theorem next_sid_in_use :
    ¬ ∀ (T : DeltaTable) (flags : Flags) (pfile : List EditLock) (requested got : Sid) (top wantBranch authorised : Bool),
      findRequestedSid T (defaultSid flags) requested top = some got → testLocks flags pfile authorised got = true →
      FreeOrRefused T pfile (findNextSid T flags pfile requested got wantBranch) := by
  intro h
  have hnext : findNextSid branching { Flags.initial with defaultSid := some ⟨1, 2, 1, 0⟩ } [] ⟨1, 1, 0, 0⟩ ⟨1, 1, 0, 0⟩ false =
      .assertion := by decide
  have hfound := h branching { Flags.initial with defaultSid := some ⟨1, 2, 1, 0⟩ } [] ⟨1, 1, 0, 0⟩ ⟨1, 1, 0, 0⟩ false false true
    (by decide) (by decide)
  rw [hnext] at hfound
  exact hfound

end CSSC.Files
