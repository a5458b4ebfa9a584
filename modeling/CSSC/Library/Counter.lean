import Mathlib.Data.List.Range

/-!
# Loops over a machine counter

A counter of an unsigned machine type counts modulo the number of its values. A loop that goes on while the counter is
at most a limit does not end if the limit is the largest value.

`countUp m limit body` is the loop upwards, in a type of `m` values, and `countDown body` the loop down to 0; the
first argument of both bounds the number of tests. Loops that end are folds over the numbers they visit (`countUp_eq`,
`countDown_eq`). **The loop upwards ends exactly if the limit is not the largest value**, unless its body fails
(`countUp_ends_iff`), and the loop downwards ends (`countDown_ends`).
-/

namespace CSSC.Library.Counter

variable {σ ε : Type*}

/-- `for (s = start; s <= limit; ++s)`, where `s` is one of `m` values. -/
def countUp (m limit : ℕ) (body : ℕ → σ → Except ε σ) : ℕ → ℕ → σ → Option (Except ε σ)
  | 0, _, _ => none
  | fuel + 1, s, st =>
    if s ≤ limit then
      match body s st with
      | .error e => some (.error e)
      | .ok st' => countUp m limit body fuel ((s + 1) % m) st'
    else some (.ok st)

/-- `for (s = start; s > 0; --s)`. -/
def countDown (body : ℕ → σ → Except ε σ) : ℕ → ℕ → σ → Option (Except ε σ)
  | 0, _, _ => none
  | fuel + 1, s, st =>
    if 0 < s then
      match body s st with
      | .error e => some (.error e)
      | .ok st' => countDown body fuel (s - 1) st'
    else some (.ok st)

/-- Some number of tests is enough. -/
def Ends {α : Type*} (loop : ℕ → Option α) : Prop := ∃ fuel r, loop fuel = some r

/-- **A limit below the largest value is passed**: the loop is a fold. -/
theorem countUp_eq {m limit : ℕ} (hm : limit + 1 < m) (body : ℕ → σ → Except ε σ) {s : ℕ} (hs : s ≤ limit + 1) (st : σ) :
    countUp m limit body (limit + 2 - s) s st =
      some ((List.range' s (limit + 1 - s)).foldlM (fun st s => body s st) st) := by
  -- by induction on the numbers that are left
  obtain ⟨k, hk⟩ : ∃ k, k = limit + 1 - s := ⟨_, rfl⟩
  induction k generalizing s st with
  | zero =>
    rw [← hk, show limit + 2 - s = 0 + 1 by omega, countUp, if_neg (by omega)]
    rfl
  | succ k ih =>
    rw [← hk, show limit + 2 - s = (limit + 2 - (s + 1)) + 1 by omega, countUp, if_pos (by omega), List.range'_succ,
      List.foldlM_cons, Nat.mod_eq_of_lt (show s + 1 < m by omega)]
    rcases body s st with e | st'
    · rfl
    · rw [show k = limit + 1 - (s + 1) by omega]
      exact ih (by omega) st' (by omega)

/-- **The largest value is never passed.** -/
theorem countUp_eq_none {m limit : ℕ} (hm : limit + 1 = m) {body : ℕ → σ → Except ε σ}
    (hbody : ∀ s st, ∃ st', body s st = .ok st') (fuel : ℕ) {s : ℕ} (hs : s < m) (st : σ) :
    countUp m limit body fuel s st = none := by
  induction fuel generalizing s st with
  | zero => rfl
  | succ fuel ih =>
    obtain ⟨st', h⟩ := hbody s st
    rw [countUp, if_pos (by omega), h]
    exact ih (Nat.mod_lt _ (by omega)) st'

/-- **The loop upwards ends exactly if the limit is not the largest value.** -/
theorem countUp_ends_iff {m limit : ℕ} (hm : limit < m) {body : ℕ → σ → Except ε σ}
    (hbody : ∀ s st, ∃ st', body s st = .ok st') {s : ℕ} (hs : s ≤ limit) (st : σ) :
    Ends (fun fuel => countUp m limit body fuel s st) ↔ limit + 1 < m := by
  constructor
  · rintro ⟨fuel, r, h⟩
    by_contra hlt
    have hm' : limit + 1 = m := by omega
    exact absurd (h.symm.trans (countUp_eq_none hm' hbody fuel (by omega) st)) (by simp)
  · intro hlt
    exact ⟨limit + 2 - s, _, countUp_eq hlt body (by omega) st⟩

/-- The loop downwards is a fold. -/
theorem countDown_eq (body : ℕ → σ → Except ε σ) (s : ℕ) (st : σ) :
    countDown body (s + 1) s st = some ((List.range' 1 s).reverse.foldlM (fun st s => body s st) st) := by
  induction s generalizing st with
  | zero => rfl
  | succ s ih =>
    rw [countDown, if_pos (Nat.succ_pos s), List.range'_1_concat, List.reverse_append, List.reverse_singleton,
      List.singleton_append, List.foldlM_cons, Nat.add_comm 1 s]
    rcases body (s + 1) st with e | st'
    · rfl
    · exact ih st'

/-- **The loop downwards ends.** -/
theorem countDown_ends (body : ℕ → σ → Except ε σ) (s : ℕ) (st : σ) : Ends (fun fuel => countDown body fuel s st) :=
  ⟨s + 1, _, countDown_eq body s st⟩

end CSSC.Library.Counter
