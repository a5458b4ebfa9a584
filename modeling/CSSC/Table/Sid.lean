import Mathlib.Data.List.Basic

/-!
# SIDs

A delta is named by a SID: release, level and, off the trunk, branch and sequence, of 16 bits each. The components of
the SIDs that follow wrap around as those of the code do. The order on SIDs (`comparable`, `gt`, `gte`) is partial:
SIDs of different branch numbers are not compared, and neither is one that is not valid. A `SidList` is a list of
ranges; `member` compares with both ends.
-/

namespace CSSC.Table

/-! ### Numbers of 16 bits -/

theorem toInt_succ {a b : Int16} (h : a < b) : (a + 1).toInt = a.toInt + 1 := by
  have hlt := Int16.lt_iff_toInt_lt.mp h
  have hb := b.toInt_lt
  have ha := a.le_toInt
  rw [Int16.toInt_add, show (1 : Int16).toInt = 1 from rfl, Int.bmod_eq_of_le] <;> omega

theorem toInt_pred {x : Int16} (h : 0 ≤ x) : (x - 1).toInt = x.toInt - 1 := by
  have h0 := Int16.le_iff_toInt_le.mp h
  have h1 := x.toInt_lt
  rw [show (0 : Int16).toInt = 0 from rfl] at h0
  rw [Int16.toInt_sub, show (1 : Int16).toInt = 1 from rfl, Int.bmod_eq_of_le] <;> omega

/-! ### SIDs -/

/-- `sid`. -/
structure Sid where
  /-- `rel_`. -/
  rel : Int16
  /-- `level_`. -/
  level : Int16
  /-- `branch_`. -/
  branch : Int16
  /-- `sequence_`. -/
  sequence : Int16
  deriving DecidableEq, Repr

namespace Sid

/-- `valid()`. -/
def valid (s : Sid) : Bool := 0 < s.rel

/-- `is_null()`. -/
def isNull (s : Sid) : Bool := s.rel ≤ 0

/-- `sid()`. -/
def none : Sid := ⟨-1, 0, 0, 0⟩

/-- `sid(release)`. -/
def ofRelease (r : Int16) : Sid := ⟨r, 0, 0, 0⟩

/-- `partial_sid()`. -/
def partialSid (s : Sid) : Bool := s.level = 0 || (s.branch ≠ 0 && s.sequence = 0)

/-- `release_only()`. -/
def releaseOnly (s : Sid) : Bool := s.rel ≠ 0 && s.level = 0

/-- `components()`. -/
def components (s : Sid) : ℕ :=
  if s.valid then
    if s.level ≠ 0 then
      if s.branch ≠ 0 then (if s.sequence ≠ 0 then 4 else 3) else 2
    else 1
  else 0

/-- `on_trunk()`. -/
def onTrunk (s : Sid) : Bool := s.components = 2

/-- `matches`: the first `nfields` components are the same. -/
def matches_ (s m : Sid) (nfields : ℕ) : Bool :=
  (nfields < 1 || s.rel = m.rel) && (nfields < 2 || s.level = m.level) &&
    (nfields < 3 || s.branch = m.branch) && (nfields < 4 || s.sequence = m.sequence)

/-- `operator++`. -/
def next (s : Sid) : Sid :=
  if s.branch ≠ 0 then { s with sequence := s.sequence + 1 }
  else if s.level ≠ 0 then { s with level := s.level + 1 }
  else { s with rel := s.rel + 1 }

/-- `operator--`. -/
def prev (s : Sid) : Sid :=
  if s.branch ≠ 0 then { s with sequence := s.sequence - 1 }
  else if s.level ≠ 0 then { s with level := s.level - 1 }
  else { s with rel := s.rel - 1 }

/-- `next_level()`. -/
def nextLevel (s : Sid) : Sid := ⟨s.rel, s.level + 1, 0, 0⟩

/-- `next_branch()`. -/
def nextBranch (s : Sid) : Sid := ⟨s.rel, s.level, s.branch + 1, 1⟩

/-- `comparable`. -/
def comparable (s id : Sid) : Bool :=
  if !s.valid || !id.valid then false
  else if s.branch ≠ id.branch then false
  else if s.branch ≠ 0 ∧ s.rel ≠ id.rel ∧ s.level ≠ id.level then false
  else true

/-- `gt`: the branch does not count. -/
def gt (s id : Sid) : Bool :=
  if id.rel < s.rel then true
  else if s.rel ≠ id.rel then false
  else if id.level < s.level then true
  else if s.level ≠ id.level then false
  else id.sequence < s.sequence

/-- `gte`: the branch does not count. -/
def gte (s id : Sid) : Bool :=
  if id.rel < s.rel then true
  else if s.rel ≠ id.rel then false
  else if id.level < s.level then true
  else if s.level ≠ id.level then false
  else id.sequence ≤ s.sequence

/-- `operator>`. -/
def greater (s id : Sid) : Bool := s.comparable id && s.gt id

/-- `operator>=`. -/
def greaterEq (s id : Sid) : Bool := s.comparable id && s.gte id

/-- `operator<`. -/
def lt (s id : Sid) : Bool := s.comparable id && !s.gte id

/-- `operator<=`. -/
def le (s id : Sid) : Bool := s.comparable id && !s.gt id

end Sid

/-- `sid_list`, a `range_list<sid>`: the ranges, each with its ends. -/
abbrev SidList := List (Sid × Sid)

/-- `member`. -/
def SidList.member (l : SidList) (id : Sid) : Bool := l.any fun r => r.1.le id && id.le r.2

end CSSC.Table
