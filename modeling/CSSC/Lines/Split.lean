import CSSC.Lines.Text

/-!
# Splitting a line into fields

`cssc_linebuf::split` cuts a line at a delimiter. `Args` is what it leaves, the pointers it assigned and its result;
the number that it returns counts no empty last field, although the pointer to that field is assigned. **Fields
without the delimiter, joined by it, are found again** (`split_intercalate`).
-/

namespace CSSC.Lines

/-- What `split` leaves in the array it is given, and what it returns. -/
structure Args where
  /-- The pointers assigned, from the first on. -/
  args : List (List UInt8)
  /-- The result. -/
  argc : ℕ
  deriving DecidableEq, Repr

/-- `cssc_linebuf::split`, for an array of `len` pointers. -/
def Linebuf.split : ℕ → UInt8 → List UInt8 → Args
  | 0, _, _ => ⟨[], 0⟩
  | len + 1, c, s =>
    if c ∈ s then
      -- the delimiter becomes the terminator of the field
      let r := split len c ((s.dropWhile (· ≠ c)).drop 1)
      ⟨s.takeWhile (· ≠ c) :: r.args, r.argc + 1⟩
    else ⟨[s], if s = [] then 0 else 1⟩

namespace Linebuf

theorem takeWhile_ne_append {c : UInt8} {x s : List UInt8} (h : c ∉ x) :
    (x ++ c :: s).takeWhile (· ≠ c) = x := by
  have hx : ∀ a ∈ x, decide (a ≠ c) = true := fun a ha => by simpa using fun e : a = c => h (e ▸ ha)
  rw [List.takeWhile_append_of_pos hx, List.takeWhile_cons_of_neg (by simp), List.append_nil]

theorem dropWhile_ne_append {c : UInt8} {x s : List UInt8} (h : c ∉ x) :
    (x ++ c :: s).dropWhile (· ≠ c) = c :: s := by
  have hx : ∀ a ∈ x, decide (a ≠ c) = true := fun a ha => by simpa using fun e : a = c => h (e ▸ ha)
  rw [List.dropWhile_append_of_pos hx, List.dropWhile_cons_of_neg (by simp)]

/-- A field and its delimiter are split off. -/
theorem split_append {c : UInt8} {x : List UInt8} (h : c ∉ x) (len : ℕ) (s : List UInt8) :
    split (len + 1) c (x ++ c :: s) = ⟨x :: (split len c s).args, (split len c s).argc + 1⟩ := by
  rw [split, if_pos (by simp), takeWhile_ne_append h, dropWhile_ne_append h]
  rfl

/-- The last field. -/
theorem split_last {c : UInt8} {x : List UInt8} (h : c ∉ x) (len : ℕ) :
    split (len + 1) c x = ⟨[x], if x = [] then 0 else 1⟩ := by
  rw [split, if_neg h]

/-- **Fields that do not contain the delimiter are found again.** The last one is counted if it is not empty. -/
theorem split_intercalate {c : UInt8} {len : ℕ} {xs : List (List UInt8)} {y : List UInt8}
    (hx : ∀ x ∈ xs, c ∉ x) (hy : c ∉ y) (hlen : xs.length < len) :
    split len c ([c].intercalate (xs ++ [y])) = ⟨xs ++ [y], xs.length + if y = [] then 0 else 1⟩ := by
  induction xs generalizing len with
  | nil =>
    obtain ⟨n, rfl⟩ := Nat.exists_eq_add_of_lt hlen
    rw [List.nil_append, List.intercalate_singleton, split_last hy, List.length_nil, Nat.zero_add]
  | cons x xs ih =>
    obtain ⟨n, rfl⟩ : ∃ n, len = n + 1 := ⟨len - 1, by rw [List.length_cons] at hlen; omega⟩
    have hxs : xs.length < n := by rw [List.length_cons] at hlen; omega
    rw [List.cons_append, List.intercalate_cons_of_ne_nil (by simp), List.append_assoc, List.singleton_append,
      split_append (hx x List.mem_cons_self), ih (fun z hz => hx z (List.mem_cons_of_mem x hz)) hxs]
    simp only [List.length_cons]
    rw [Nat.add_right_comm]

/-- Fields of which the last is not empty are all counted. -/
theorem split_fields {c : UInt8} {len : ℕ} {fs : List (List UInt8)} (hne : fs ≠ []) (hlast : fs.getLast hne ≠ [])
    (hfs : ∀ x ∈ fs, c ∉ x) (hlen : fs.length ≤ len) : split len c ([c].intercalate fs) = ⟨fs, fs.length⟩ := by
  have hpos := List.length_pos_of_ne_nil hne
  have hlt : fs.dropLast.length < len := by
    rw [List.length_dropLast]
    omega
  have h := split_intercalate (fun x hx => hfs x (List.mem_of_mem_dropLast hx)) (hfs _ (List.getLast_mem hne)) hlt
  rw [List.dropLast_concat_getLast hne, if_neg hlast, List.length_dropLast,
    Nat.sub_add_cancel hpos] at h
  exact h

example : split 7 32 [97, 32, 98, 32] = ⟨[[97], [98], []], 2⟩ := by decide

end Linebuf

end CSSC.Lines
