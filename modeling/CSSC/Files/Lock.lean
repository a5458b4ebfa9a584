import CSSC.Library.Run
import Mathlib.Logic.Function.Basic
import Mathlib.Tactic.TypeStar

/-!
# The lock on a history file

A command that changes a history file holds a lock on it: a z-file that it creates and that nobody else can then
create. One `sccs_name` object serves for all the files of a command line. It counts the calls of `lock`, so that
locking may be nested.

## The model

`SccsName N` is the object and the z-files of the directory; `N` are the names of history files. The `file_lock`
object is known by the name whose z-file it made. How often `lock` returned success and `unlock` was called, and
whether the last operation was a `lock` that returned success, is recorded as well. If the z-file exists when a
`file_lock` is constructed, the program stops at an assertion, which ends the run, or the constructor throws
(`Creation`). Other processes do what they like to z-files of their own, and nothing is unlocked more often than it
was locked.

An operation is `Fine` if a nested `lock` finds the lock of its own file, a constructor that throws leaves no z-file,
and the `unlock` that would drop the lock is not called. **While every operation is fine, the lock is held when `lock`
says so, and no z-file is left when all is unlocked** (`held_of_reach`). Without that, `lock` returns success for a
file that has no z-file, and `unlock` leaves the z-file behind (`lock_lies`).
-/

namespace CSSC.Files

open CSSC.Library.Run

/-- Who created a z-file. -/
inductive Owner where
  /-- This process. -/
  | ours
  /-- Another process. -/
  | other
  deriving DecidableEq, Repr

/-- `sccs_name`, with the z-files. -/
structure SccsName (N : Type*) where
  /-- `sname_`; none before the first file. -/
  sname : Option N
  /-- `lock_cnt_`. -/
  lockCnt : ℤ
  /-- `lock_`: the name whose z-file the object stands for. -/
  lock : Option N
  /-- The z-files of the directory. -/
  zfile : N → Option Owner
  /-- How often `lock` returned success. -/
  locked : ℕ
  /-- How often `unlock` was called. -/
  unlocked : ℕ
  /-- The last operation was a `lock` that returned success. -/
  told : Bool

/-- How the constructor of `file_lock` ends. -/
inductive Creation where
  /-- The z-file is created. -/
  | made
  /-- It throws, and there is no z-file of this process. -/
  | thrown
  /-- It throws after the z-file was created, and fails to remove it. -/
  | thrownLate
  deriving DecidableEq, Repr

/-- The operations. -/
inductive Op (N : Type*) where
  /-- `sccs_file_iterator::next`: the next file name is assigned. -/
  | assign (n : N)
  /-- `lock()`. How the creation of the z-file ends matters only if one is created. -/
  | lock (c : Creation)
  /-- `unlock()`. -/
  | unlock
  /-- Another process creates its z-file. -/
  | otherLocks (n : N)
  /-- Another process removes its z-file. -/
  | otherUnlocks (n : N)

variable {N : Type*} [DecidableEq N]

namespace SccsName

/-- `sccs_name()`, in a directory that may hold z-files of others. -/
def initial (zfile : N → Option Owner) : SccsName N := ⟨none, 0, none, zfile, 0, 0, false⟩

/-- The z-files after a `file_lock` object is destroyed. -/
def dropLock (zfile : N → Option Owner) : Option N → N → Option Owner
  | none => zfile
  | some n => Function.update zfile n none

/-- One operation. -/
inductive Step : SccsName N → Op N → SccsName N → Prop
  /-- A name is assigned. Neither the lock nor the count changes. -/
  | assign {s : SccsName N} {n : N} : Step s (.assign n) { s with sname := some n, told := false }
  /-- `lock_cnt_++ == 0`, and the z-file is created. The object held before is destroyed. -/
  | lockMade {s : SccsName N} {n : N} : s.sname = some n → s.lockCnt = 0 → s.zfile n = none →
      Step s (.lock .made)
        { s with
          lockCnt := s.lockCnt + 1
          lock := some n
          zfile := dropLock (Function.update s.zfile n (some .ours)) s.lock
          locked := s.locked + 1
          told := true }
  /-- `lock_cnt_++ == 0`, and the constructor throws. -/
  | lockThrown {s : SccsName N} {n : N} : s.sname = some n → s.lockCnt = 0 →
      Step s (.lock .thrown) { s with lockCnt := s.lockCnt + 1, told := false }
  /-- `lock_cnt_++ == 0`, and the constructor throws without removing the z-file. -/
  | lockThrownLate {s : SccsName N} {n : N} : s.sname = some n → s.lockCnt = 0 → s.zfile n = none →
      Step s (.lock .thrownLate)
        { s with lockCnt := s.lockCnt + 1, zfile := Function.update s.zfile n (some .ours), told := false }
  /-- The count is not 0: `lock` only counts. -/
  | lockNested {s : SccsName N} {n : N} {c : Creation} : s.sname = some n → s.lockCnt ≠ 0 →
      Step s (.lock c) { s with lockCnt := s.lockCnt + 1, locked := s.locked + 1, told := true }
  /-- `--lock_cnt_ == 0`: `lock_.release()` gives the object up, but does not destroy it. -/
  | unlockLast {s : SccsName N} : s.unlocked < s.locked → s.lockCnt - 1 = 0 →
      Step s .unlock { s with lockCnt := s.lockCnt - 1, lock := none, unlocked := s.unlocked + 1, told := false }
  /-- The count stays above 0. -/
  | unlockNested {s : SccsName N} : s.unlocked < s.locked → s.lockCnt - 1 ≠ 0 →
      Step s .unlock { s with lockCnt := s.lockCnt - 1, unlocked := s.unlocked + 1, told := false }
  /-- Another process locks the file. -/
  | otherLocks {s : SccsName N} {n : N} : s.zfile n = none →
      Step s (.otherLocks n) { s with zfile := Function.update s.zfile n (some .other) }
  /-- Another process unlocks the file. -/
  | otherUnlocks {s : SccsName N} {n : N} : s.zfile n = some .other →
      Step s (.otherUnlocks n) { s with zfile := Function.update s.zfile n none }

/-- When `lock` has said so, the z-file of the name exists and is ours. -/
def Held (s : SccsName N) : Prop := s.told = true → ∃ n, s.sname = some n ∧ s.zfile n = some .ours

/-- When all is unlocked, no z-file of ours is left. -/
def Released (s : SccsName N) : Prop := s.locked = s.unlocked → ∀ n, s.zfile n ≠ some .ours

/-- What an operation must not do: lock a file under the lock of another or under none, leave a z-file behind in the
constructor, or drop the lock. -/
def Fine (s : SccsName N) : Op N → Prop
  | .assign _ => True
  | .lock c => if s.lockCnt = 0 then c ≠ .thrownLate else s.lock = s.sname
  | .unlock => s.lockCnt ≠ 1
  | .otherLocks _ => True
  | .otherUnlocks _ => True

/-- Either nothing was ever locked, or the lock is held and counted. -/
structure Inv (s : SccsName N) : Prop where
  /-- Before the first lock that is made. -/
  unlocked : s.lock = none → s.locked = 0 ∧ s.unlocked = 0 ∧ 0 ≤ s.lockCnt ∧ s.told = false ∧
    ∀ n, s.zfile n ≠ some .ours
  /-- After it. -/
  locked : ∀ n, s.lock = some n → s.zfile n = some .ours ∧ s.lockCnt = s.locked - s.unlocked ∧ 0 < s.lockCnt ∧
    (s.told = true → s.sname = some n)

end SccsName

open SccsName

/-- The object, from its construction on. -/
def lockMachine (N : Type*) [DecidableEq N] : Machine (SccsName N) (Op N) where
  init s := ∃ zfile : N → Option Owner, (∀ n, zfile n ≠ some .ours) ∧ s = .initial zfile
  step := Step

/-- A z-file of another process that comes or goes is none of ours. -/
theorem update_ours {zfile : N → Option Owner} {n : N} {o : Option Owner} (h : zfile n ≠ some .ours)
    (ho : o ≠ some .ours) (m : N) : Function.update zfile n o m = some .ours ↔ zfile m = some .ours := by
  by_cases hm : m = n
  · subst hm
    rw [Function.update_self]
    exact iff_of_false ho h
  · rw [Function.update_of_ne hm]

omit [DecidableEq N] in
/-- What others do to their z-files does not matter. -/
theorem SccsName.Inv.others {s : SccsName N} (hi : s.Inv) {zfile : N → Option Owner}
    (h : ∀ m, zfile m = some .ours ↔ s.zfile m = some .ours) : Inv { s with zfile := zfile } := by
  refine ⟨fun hl => ?_, fun m hm => ?_⟩
  · obtain ⟨h1, h2, h3, h4, h5⟩ := hi.unlocked hl
    exact ⟨h1, h2, h3, h4, fun m hm => h5 m ((h m).mp hm)⟩
  · obtain ⟨h1, h2, h3, h4⟩ := hi.locked m hm
    exact ⟨(h m).mpr h1, h2, h3, h4⟩

/-- **Every fine operation keeps the invariant.** -/
theorem inv_step {s s' : SccsName N} {op : Op N} (hi : s.Inv) (hf : s.Fine op) (h : Step s op s') : s'.Inv := by
  cases h with
  | assign =>
    refine ⟨fun h => ?_, fun m hm => ?_⟩
    · obtain ⟨h1, h2, h3, -, h5⟩ := hi.unlocked h
      exact ⟨h1, h2, h3, rfl, h5⟩
    · obtain ⟨h1, h2, h3, -⟩ := hi.locked m hm
      exact ⟨h1, h2, h3, fun ht => by cases ht⟩
  | @lockMade n hn h0 hz =>
    -- the count is 0, so no lock is held
    have hnone : s.lock = none := by
      rcases hl : s.lock with _ | m
      · rfl
      · have := (hi.locked m hl).2.2.1
        omega
    obtain ⟨h1, h2, -, -, -⟩ := hi.unlocked hnone
    refine ⟨fun h => (by cases h), fun m hm => ?_⟩
    obtain rfl := Option.some.inj hm
    refine ⟨?_, ?_, ?_, fun _ => hn⟩
    · show dropLock (Function.update s.zfile n (some .ours)) s.lock n = some .ours
      rw [hnone]
      exact Function.update_self ..
    · show s.lockCnt + 1 = ((s.locked + 1 : ℕ) : ℤ) - s.unlocked
      omega
    · show 0 < s.lockCnt + 1
      omega
  | lockThrown hn h0 =>
    refine ⟨fun h => ?_, fun m hm => ?_⟩
    · obtain ⟨h1, h2, h3, -, h5⟩ := hi.unlocked h
      exact ⟨h1, h2, by show 0 ≤ s.lockCnt + 1; omega, rfl, h5⟩
    · have := (hi.locked m hm).2.2.1
      omega
  | lockThrownLate hn h0 hz =>
    rw [Fine, if_pos h0] at hf
    exact absurd rfl hf
  | @lockNested n c hn h0 =>
    rw [Fine, if_neg h0, hn] at hf
    refine ⟨fun h => ?_, fun m hm => ?_⟩
    · have h : s.lock = none := h
      rw [hf] at h
      cases h
    · obtain ⟨h1, h2, h3, -⟩ := hi.locked m hm
      obtain rfl : n = m := Option.some.inj (hf.symm.trans hm)
      refine ⟨h1, ?_, ?_, fun _ => hn⟩
      · show s.lockCnt + 1 = ((s.locked + 1 : ℕ) : ℤ) - s.unlocked
        omega
      · show 0 < s.lockCnt + 1
        omega
  | unlockLast hlt h0 =>
    have hne : s.lockCnt ≠ 1 := hf
    omega
  | unlockNested hlt h0 =>
    refine ⟨fun h => ?_, fun m hm => ?_⟩
    · obtain ⟨h1, -⟩ := hi.unlocked h
      omega
    · obtain ⟨h1, h2, h3, -⟩ := hi.locked m hm
      refine ⟨h1, ?_, ?_, fun ht => by cases ht⟩
      · show s.lockCnt - 1 = (s.locked : ℤ) - ((s.unlocked + 1 : ℕ) : ℤ)
        omega
      · show 0 < s.lockCnt - 1
        omega
  | otherLocks hz => exact hi.others (update_ours (by simp [hz]) (by simp))
  | otherUnlocks hz => exact hi.others (update_ours (by simp [hz]) (by simp))

omit [DecidableEq N] in
theorem SccsName.Inv.held {s : SccsName N} (hi : s.Inv) : s.Held := by
  intro ht
  rcases hl : s.lock with _ | n
  · have := (hi.unlocked hl).2.2.2.1
    rw [ht] at this
    cases this
  · obtain ⟨h1, -, -, h4⟩ := hi.locked n hl
    exact ⟨n, h4 ht, h1⟩

omit [DecidableEq N] in
theorem SccsName.Inv.released {s : SccsName N} (hi : s.Inv) : s.Released := by
  intro he n
  rcases hl : s.lock with _ | m
  · exact (hi.unlocked hl).2.2.2.2 n
  · obtain ⟨-, h2, h3, -⟩ := hi.locked m hl
    omega

/-- **While every operation is fine, the lock is held when `lock` says so, and no z-file is left when all is
unlocked.** -/
theorem held_of_reach {s : SccsName N} (h : Reach (lockMachine N) Fine s) : s.Held ∧ s.Released := by
  have hi : s.Inv := by
    refine h.invariant ?_ fun s op s' hi hf hs => inv_step hi hf hs
    rintro s ⟨zfile, hz, rfl⟩
    exact ⟨fun _ => ⟨rfl, rfl, le_rfl, rfl, hz⟩, fun n hn => by cases hn⟩
  exact ⟨hi.held, hi.released⟩

/-! ### Two runs -/

/-- No z-files. -/
def noLocks : Bool → Option Owner := fun _ => none

/-- **`lock` returns success for a file without a z-file**, after the constructor has thrown for the file before it;
**and `unlock` leaves the z-file behind**. -/
theorem lock_lies :
    (∃ s : SccsName Bool, Reach (lockMachine Bool) (fun _ _ => True) s ∧ ¬ s.Held) ∧
    ∃ s : SccsName Bool, Reach (lockMachine Bool) (fun _ _ => True) s ∧ ¬ s.Released := by
  have h0 : Reach (lockMachine Bool) (fun _ _ => True) (.initial noLocks) :=
    .start ⟨noLocks, by simp [noLocks], rfl⟩
  have h1 := h0.step trivial (Step.assign (n := false))
  constructor
  · have h2 := h1.step trivial (Step.lockThrown rfl rfl)
    have h3 := h2.step trivial (Step.assign (n := true))
    have h4 := h3.step trivial (Step.lockNested (c := .made) rfl (by decide))
    refine ⟨_, h4, fun h => ?_⟩
    obtain ⟨n, hn, hz⟩ := h rfl
    cases hz
  · have h2 := h1.step trivial (Step.lockMade rfl rfl rfl)
    have h3 := h2.step trivial (Step.unlockLast (by decide) (by decide))
    refine ⟨_, h3, fun h => h rfl false rfl⟩

/-- A file that is locked twice, and unlocked once. -/
theorem held_twice : ∃ s : SccsName Bool, s.told = false ∧ s.locked = 2 ∧ s.unlocked = 1 ∧ s.Held ∧ s.Released := by
  have h0 : Reach (lockMachine Bool) Fine (.initial noLocks) := .start ⟨noLocks, by simp [noLocks], rfl⟩
  have h1 := Reach.step (c := Op.assign false) h0 trivial .assign
  have h2 := Reach.step (c := Op.lock .made) h1 (by simp [Fine, initial]) (.lockMade rfl rfl rfl)
  have h3 := Reach.step (c := Op.lock .made) h2 (by simp [Fine, initial]) (.lockNested rfl (by decide))
  have h4 := Reach.step (c := Op.unlock) h3 (by simp [Fine, initial]) (.unlockNested (by decide) (by decide))
  exact ⟨_, rfl, rfl, rfl, held_of_reach h4⟩

end CSSC.Files
