import Mathlib.Data.List.Basic
import Mathlib.Tactic.TypeStar

/-!
# Walking along a path

A path is a list of names that is walked along from a directory. One name leads up again; some stand for the directory
itself. Links are not followed: a directory is the list of the names that lead to it. A path may be walked along in
two parts (`walk_append`), and **a walk that never goes up ends below the directory where it begins** (`prefix_walk`).
-/

namespace CSSC.Library.Paths

variable {N : Type*} [DecidableEq N] {up : N} {stays : N → Bool} {dir p q : List N}

/-- Where a walk from a directory ends. -/
def walk (up : N) (stays : N → Bool) : List N → List N → List N
  | dir, [] => dir
  | dir, n :: path =>
    if n = up then walk up stays dir.dropLast path
    else if stays n then walk up stays dir path
    else walk up stays (dir ++ [n]) path

/-- A path may be walked along in two parts. -/
theorem walk_append : walk up stays dir (p ++ q) = walk up stays (walk up stays dir p) q := by
  induction p generalizing dir with
  | nil => rfl
  | cons n p ih =>
    rw [List.cons_append, walk, walk]
    split_ifs
    · exact ih
    · exact ih
    · exact ih

/-- **A walk that never goes up ends below the directory where it begins.** -/
theorem prefix_walk (h : up ∉ p) : dir <+: walk up stays dir p := by
  induction p generalizing dir with
  | nil => exact List.prefix_rfl
  | cons n p ih =>
    rw [List.mem_cons, not_or] at h
    rw [walk, if_neg (Ne.symm h.1)]
    split_ifs
    · exact ih h.2
    · exact (List.prefix_append dir [n]).trans (ih h.2)

end CSSC.Library.Paths
