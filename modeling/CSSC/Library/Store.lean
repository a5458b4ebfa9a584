import Mathlib.Logic.Function.Basic
import Mathlib.Tactic.TypeStar

/-!
# A directory whose operations may fail

A directory maps names to what the files hold. A file is replaced by writing a temporary file, removing the old one
and renaming. An operation that fails leaves the directory as it was; `none` is a failure. Of `cleanup` and `moveAway`
nobody looks whether they work.

`Keeps d target temp old new` says that one of the two names still holds the old content or the new one. A target that
did not exist before counts as kept while it does not exist. **Removing the temporary file keeps a copy if and only if
the target is one, or the removal fails and the temporary file is one** (`keeps_cleanup_iff`).
-/

namespace CSSC.Library

/-- A directory. -/
abbrev Store (N C : Type*) := N → Option C

namespace Store

variable {N C : Type*} [DecidableEq N] {d d' : Store N C} {a b n : N} {c : C} {fails : Bool}

/-- A file is created, which must not exist before (`O_EXCL`). -/
def create (fails : Bool) (n : N) (c : C) (d : Store N C) : Option (Store N C) :=
  if fails = false ∧ d n = none then some (Function.update d n (some c)) else none

/-- What is written to an open file. -/
def write (n : N) (c : C) (d : Store N C) : Store N C := Function.update d n (some c)

/-- `remove`. -/
def remove (fails : Bool) (n : N) (d : Store N C) : Option (Store N C) :=
  if fails = false ∧ d n ≠ none then some (Function.update d n none) else none

/-- `rename`, which replaces a file of the new name. -/
def rename (fails : Bool) (a b : N) (d : Store N C) : Option (Store N C) :=
  if fails = false ∧ d a ≠ none then some (Function.update (Function.update d b (d a)) a none) else none

/-- A file is removed if that works. -/
def cleanup (fails : Bool) (n : N) (d : Store N C) : Store N C := (d.remove fails n).getD d

/-- A file is renamed if that works. -/
def moveAway (fails : Bool) (a b : N) (d : Store N C) : Store N C := (d.rename fails a b).getD d

/-- One of two names holds the old content or the new one. -/
def Keeps (target temp : N) (old : Option C) (new : C) (d : Store N C) : Prop :=
  d target = old ∨ d target = some new ∨ d temp = some new

/-! ### What the operations do -/

theorem some_if_eq_some {α : Type*} {p : Prop} [Decidable p] {x y : α} :
    (if p then some x else none) = some y ↔ p ∧ y = x := by
  rw [Option.ite_none_right_eq_some, Option.some.injEq, eq_comm (a := x)]

@[simp] theorem write_self : d.write n c n = some c := Function.update_self ..

theorem write_of_ne (h : a ≠ n) : d.write n c a = d a := Function.update_of_ne h ..

/-- What a file held before is forgotten. -/
theorem write_write {c' : C} : (d.write n c).write n c' = d.write n c' := Function.update_idem ..

theorem create_eq_some : d.create fails n c = some d' ↔ fails = false ∧ d n = none ∧ d' = d.write n c := by
  rw [create, some_if_eq_some, and_assoc]
  rfl

theorem create_eq_none : d.create fails n c = none ↔ ¬ (fails = false ∧ d n = none) := by
  rw [create]
  split
  · rename_i h
    exact iff_of_false (by simp) fun hn => hn h
  · rename_i h
    exact iff_of_true rfl h

theorem remove_eq_some :
    d.remove fails n = some d' ↔ fails = false ∧ d n ≠ none ∧ d' = Function.update d n none := by
  rw [remove, some_if_eq_some, and_assoc]

theorem rename_eq_some : d.rename fails a b = some d' ↔
    fails = false ∧ d a ≠ none ∧ d' = Function.update (Function.update d b (d a)) a none := by
  rw [rename, some_if_eq_some, and_assoc]

/-- The removal of a file that exists fails only if the call fails. -/
theorem remove_eq_none (h : d n ≠ none) : d.remove fails n = none ↔ fails = true := by
  rw [remove]
  split
  · rename_i hf
    simp [hf.1]
  · rename_i hf
    simpa [h] using hf

theorem rename_eq_none (h : d a ≠ none) : d.rename fails a b = none ↔ fails = true := by
  rw [rename]
  split
  · rename_i hf
    simp [hf.1]
  · rename_i hf
    simpa [h] using hf

theorem remove_self (h : d.remove fails n = some d') : d' n = none := by
  obtain ⟨-, -, rfl⟩ := remove_eq_some.mp h
  exact Function.update_self ..

theorem remove_of_ne (h : d.remove fails n = some d') (ha : a ≠ n) : d' a = d a := by
  obtain ⟨-, -, rfl⟩ := remove_eq_some.mp h
  exact Function.update_of_ne ha ..

theorem rename_target (h : d.rename fails a b = some d') (hab : b ≠ a) : d' b = d a := by
  obtain ⟨-, -, rfl⟩ := rename_eq_some.mp h
  rw [Function.update_of_ne hab, Function.update_self]

theorem rename_of_ne (h : d.rename fails a b = some d') (ha : n ≠ a) (hb : n ≠ b) : d' n = d n := by
  obtain ⟨-, -, rfl⟩ := rename_eq_some.mp h
  rw [Function.update_of_ne ha, Function.update_of_ne hb]

theorem cleanup_of_ne (h : a ≠ n) : d.cleanup fails n a = d a := by
  rw [cleanup]
  rcases hr : d.remove fails n with _ | d'
  · rfl
  · exact remove_of_ne hr h

/-- After a cleanup the file is there only if it could not be removed. -/
theorem cleanup_self : d.cleanup fails n n = if fails then d n else none := by
  rw [cleanup, remove]
  cases fails with
  | true => simp
  | false =>
    by_cases h : d n = none
    · simp [h]
    · simp [h]

theorem moveAway_of_ne (ha : n ≠ a) (hb : n ≠ b) : d.moveAway fails a b n = d n := by
  rw [moveAway]
  rcases hr : d.rename fails a b with _ | d'
  · rfl
  · exact rename_of_ne hr ha hb

/-- The file is still there only if it could not be renamed. -/
theorem moveAway_self : d.moveAway fails a b a = if fails then d a else none := by
  rw [moveAway, rename]
  cases fails with
  | true => simp
  | false =>
    by_cases h : d a = none
    · simp [h]
    · simp [h]

/-- **Removing the temporary file keeps a copy if and only if the target is one, or the removal fails and the
temporary file is one.** -/
theorem keeps_cleanup_iff {target temp : N} (hne : target ≠ temp) {old : Option C} {new : C} :
    (d.cleanup fails temp).Keeps target temp old new ↔
      (d target = old ∨ d target = some new) ∨ (fails = true ∧ d temp = some new) := by
  rw [Keeps, cleanup_of_ne hne, cleanup_self, or_assoc]
  cases fails <;> simp

end Store

end CSSC.Library
