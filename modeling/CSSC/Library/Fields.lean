import Mathlib.Data.List.Basic

/-!
# Fields between delimiters

A list is taken apart at a delimiter (`List.splitOn`) and put together again (`List.intercalate`). A reader who wants
only so many fields leaves the rest of the list as it is: `cut d n l` are the first `n` fields of `l`, and what is
left. Joined again they are the list (`cut_rejoin`, `cut_complete`), and `cut_zero`, `cut_append` and `cut_last` say
how a reader finds them from left to right.
-/

namespace CSSC.Library.Fields

variable {α : Type*} {d : α}

/-! ### Joining -/

/-- What is joined consists of the fields and the delimiter. -/
theorem mem_intercalate {a : α} {fs : List (List α)} (h : a ∈ [d].intercalate fs) : a = d ∨ ∃ f ∈ fs, a ∈ f := by
  induction fs with
  | nil => exact absurd h List.not_mem_nil
  | cons f fs ih =>
    by_cases hfs : fs = []
    · subst hfs
      exact .inr ⟨f, List.mem_cons_self, by simpa using h⟩
    · rw [List.intercalate_cons_of_ne_nil hfs, List.append_assoc, List.mem_append, List.singleton_append,
        List.mem_cons] at h
      rcases h with h | h | h
      · exact .inr ⟨f, List.mem_cons_self, h⟩
      · exact .inl h
      · exact (ih h).imp_right fun ⟨g, hg, ha⟩ => ⟨g, List.mem_cons_of_mem f hg, ha⟩

/-- The last fields can be joined first. -/
theorem intercalate_append (d : α) (fs : List (List α)) {gs : List (List α)} (hgs : gs ≠ []) :
    [d].intercalate (fs ++ [[d].intercalate gs]) = [d].intercalate (fs ++ gs) := by
  induction fs with
  | nil => rw [List.nil_append, List.nil_append, List.intercalate_singleton]
  | cons f fs ih =>
    rw [List.cons_append, List.cons_append, List.intercalate_cons_of_ne_nil (by simp),
      List.intercalate_cons_of_ne_nil (by simp [hgs]), ih]

/-! ### Taking apart -/

variable [BEq α]

/-- The first `n` fields of a list, and what is left of it. -/
def cut (d : α) (n : ℕ) (l : List α) : List (List α) × List α :=
  ((l.splitOn d).take n, [d].intercalate ((l.splitOn d).drop n))

/-- There is one field more than there are delimiters. -/
theorem length_splitOn (d : α) (l : List α) : (l.splitOn d).length = l.count d + 1 := by
  induction l with
  | nil => rfl
  | cons a l ih =>
    rw [List.splitOn_cons_eq_if_modifyHead, List.count_cons]
    split_ifs with h
    · rw [List.length_cons, ih]
    · rw [List.length_modifyHead, ih, Nat.add_zero]

theorem length_cut (d : α) (n : ℕ) (l : List α) : (cut d n l).1.length = min n (l.count d + 1) := by
  rw [cut, List.length_take, length_splitOn]

variable [LawfulBEq α]

/-- No field contains the delimiter. -/
theorem not_mem_of_mem_splitOn {l f : List α} (h : f ∈ l.splitOn d) : d ∉ f := by
  induction l generalizing f with
  | nil =>
    rw [List.splitOn_nil, List.mem_singleton] at h
    rw [h]
    exact List.not_mem_nil
  | cons a l ih =>
    rw [List.splitOn_cons_eq_if_modifyHead] at h
    split at h
    · rcases List.mem_cons.mp h with rfl | h
      · exact List.not_mem_nil
      · exact ih h
    · rename_i ha
      obtain ⟨p, ps, hps⟩ := List.exists_cons_of_ne_nil (List.splitOn_ne_nil d l)
      rw [hps, List.modifyHead_cons] at h
      rcases List.mem_cons.mp h with rfl | h
      · rw [List.mem_cons, not_or]
        refine ⟨fun hd => ha (by simp [hd]), ih (hps ▸ List.mem_cons_self)⟩
      · exact ih (hps ▸ List.mem_cons_of_mem p h)

/-- When fields are left, the rest of the list comes after one more delimiter. -/
theorem cut_rejoin {n : ℕ} {l : List α} (h : n ≤ l.count d) :
    [d].intercalate ((cut d n l).1 ++ [(cut d n l).2]) = l := by
  have hleft : (l.splitOn d).drop n ≠ [] := by
    rw [Ne, List.drop_eq_nil_iff, length_splitOn]
    omega
  rw [cut, intercalate_append d _ hleft, List.take_append_drop, List.intercalate_splitOn]

/-- Otherwise the fields are the list. -/
theorem cut_complete {n : ℕ} {l : List α} (h : l.count d < n) : [d].intercalate (cut d n l).1 = l := by
  have hlen : (l.splitOn d).length ≤ n := by
    rw [length_splitOn]
    omega
  rw [cut, List.take_of_length_le hlen, List.intercalate_splitOn]

/-! ### From left to right -/

theorem cut_zero (d : α) (l : List α) : cut d 0 l = ([], l) := by
  rw [cut, List.take_zero, List.drop_zero, List.intercalate_splitOn]

/-- A field and its delimiter. -/
theorem cut_append {f : List α} (h : d ∉ f) (n : ℕ) (l : List α) :
    cut d (n + 1) (f ++ d :: l) = (f :: (cut d n l).1, (cut d n l).2) := by
  rw [cut, List.splitOn_append_cons_self_of_not_mem h, List.take_succ_cons, List.drop_succ_cons]
  rfl

/-- The last field. -/
theorem cut_last {f : List α} (h : d ∉ f) (n : ℕ) : cut d (n + 1) f = ([f], []) := by
  rw [cut, List.splitOn_eq_singleton h, List.take_succ_cons, List.drop_succ_cons, List.take_nil, List.drop_nil,
    List.intercalate_nil]

example : cut 0 2 [1, 0, 0, 2, 0] = ([[1], []], [2, 0]) := by decide

end CSSC.Library.Fields
