import Mathlib.Dynamics.PeriodicPts.Defs

/-!
# Searching for a free name

A loop takes one name after the other until it comes to one that is not used (`firstFree`, with a bound on the number
of its tests). What it finds is the first free name (`IsFirstFree.of_firstFree`). Where the names come back in a
cycle, the loop does not end if all of them are used: **on a cycle as many tests are enough as it has names**
(`firstFree_eq_none_iff`).
-/

namespace CSSC.Library.Search

variable {α : Type*}

/-- `while (used(a)) a = next(a);`. -/
def firstFree (used : α → Bool) (next : α → α) : ℕ → α → Option α
  | 0, _ => none
  | fuel + 1, a => if used a = true then firstFree used next fuel (next a) else some a

/-- The first free name from `a` on. -/
def IsFirstFree (used : α → Bool) (next : α → α) (a b : α) : Prop :=
  ∃ n, b = next^[n] a ∧ used b = false ∧ ∀ m < n, used (next^[m] a) = true

variable {used : α → Bool} {next : α → α} {a b : α} {fuel : ℕ}

theorem IsFirstFree.free (h : IsFirstFree used next a b) : used b = false := by
  obtain ⟨n, -, hb, -⟩ := h
  exact hb

/-- There is only one. -/
theorem IsFirstFree.unique {c : α} (hb : IsFirstFree used next a b) (hc : IsFirstFree used next a c) : b = c := by
  obtain ⟨n, rfl, hn, hln⟩ := hb
  obtain ⟨m, rfl, hm, hlm⟩ := hc
  rcases Nat.lt_trichotomy n m with h | rfl | h
  · exact absurd (hlm n h) (by simp [hn])
  · rfl
  · exact absurd (hln m h) (by simp [hm])

/-- What the loop finds is the first free name. -/
theorem IsFirstFree.of_firstFree (h : firstFree used next fuel a = some b) : IsFirstFree used next a b := by
  induction fuel generalizing a with
  | zero => cases h
  | succ fuel ih =>
    rw [firstFree] at h
    split_ifs at h with hu
    · obtain ⟨n, hb, hfree, hbefore⟩ := ih h
      refine ⟨n + 1, hb, hfree, fun m hm => ?_⟩
      rcases m with _ | m
      · exact hu
      · exact hbefore m (by omega)
    · obtain rfl := Option.some.inj h
      exact ⟨0, rfl, by simpa using hu, fun m hm => absurd hm (Nat.not_lt_zero m)⟩

/-- While the loop has not ended, it has come to no free name. -/
theorem used_of_firstFree_eq_none (h : firstFree used next fuel a = none) : ∀ n < fuel, used (next^[n] a) = true := by
  induction fuel generalizing a with
  | zero => exact fun n hn => absurd hn (Nat.not_lt_zero n)
  | succ fuel ih =>
    rw [firstFree] at h
    split_ifs at h with hu
    intro n hn
    rcases n with _ | n
    · exact hu
    · exact ih h n (by omega)

/-- **The loop does not end exactly if no name of the cycle is free.** -/
theorem firstFree_eq_none_iff (hpos : 0 < fuel) (hcycle : Function.IsPeriodicPt next fuel a) :
    firstFree used next fuel a = none ↔ ∀ n, used (next^[n] a) = true := by
  constructor
  · intro h n
    rw [← hcycle.iterate_mod_apply n]
    exact used_of_firstFree_eq_none h _ (Nat.mod_lt _ hpos)
  · intro h
    rcases hr : firstFree used next fuel a with _ | b
    · rfl
    · obtain ⟨n, rfl, hn, -⟩ := IsFirstFree.of_firstFree hr
      exact absurd (h n) (by simp [hn])

end CSSC.Library.Search
