import CSSC.Library.Fields
import CSSC.Lines.Text

/-!
# Splitting a string

`split_string` appends the fields of a string to a vector and returns where it stopped. A flag says whether the last
field has been appended already; on the way to the first delimiter nothing is assigned to it. The variables of the
function are a `Splitter`, in which the flag has no value at first, and to read it then is undefined.

A turn of the loop, and the whole of it, leave what is to be returned as it was (`target_read`, `loop_spec`), so that
what is returned is the first fields and the rest, if a value is returned at all (`splitString_eq`). **When joining
gives the string back** is said by `rejoins_iff`.
-/

namespace CSSC.Lines

open CSSC.Library.Fields

/-- The limit if none is given: the largest `std::string::size_type`, which has 64 bits. -/
def noLimit : UInt64 := .ofNat (2 ^ 64 - 1)

/-- The variables of `split_string`. -/
structure Splitter where
  /-- `current`. -/
  current : List UInt8
  /-- `*output`. -/
  output : List (List UInt8)
  /-- `field_limit`. -/
  fieldLimit : UInt64
  /-- `empty`, if a value has been assigned to it. -/
  empty : Option Bool
  deriving DecidableEq, Repr

namespace Splitter

/-- `emit`. -/
def emit (v : Splitter) : Splitter :=
  { v with current := [], output := v.output ++ [v.current], fieldLimit := v.fieldLimit - 1 }

/-- What is done with a character. -/
def read (delimiter ch : UInt8) (v : Splitter) : Splitter :=
  if ch = delimiter then { v.emit with empty := some false }
  -- the flag keeps its value, or stays without one
  else { v with current := v.current ++ [ch] }

/-- The loop. A position in the string is the characters from it to `last`. -/
def loop (delimiter : UInt8) : List UInt8 → Splitter → List UInt8 × Splitter
  | [], v => if 0 < v.fieldLimit then ([], { v.emit with empty := some true }) else ([], v)
  | ch :: first, v =>
    if 0 < v.fieldLimit then
      if first = [] then ([], v.read delimiter ch) else loop delimiter first (v.read delimiter ch)
    else (ch :: first, v)

/-- What comes after the loop. -/
def finish : List UInt8 × Splitter → Except Quit (List UInt8 × List (List UInt8))
  | (first, v) =>
    if 0 < v.fieldLimit then
      match v.empty with
      | none => .error .undefined
      | some true => .ok (first, v.output)
      | some false => .ok (first, v.emit.output)
    else .ok (first, v.output)

end Splitter

open Splitter

/-- `split_string`: the position that is returned, and the vector. -/
def splitString (s : List UInt8) (delimiter : UInt8) (output : List (List UInt8)) (fieldLimit : UInt64) :
    Except Quit (List UInt8 × List (List UInt8)) :=
  finish (loop delimiter s ⟨[], output, fieldLimit, none⟩)

/-- Joining the fields that were appended gives the string back. -/
structure Rejoins (s : List UInt8) (delimiter : UInt8) (fieldLimit : UInt64) (fields : List (List UInt8))
    (rest : List UInt8) : Prop where
  /-- With as many delimiters as the limit says, the limit stops the scan. What was not read is joined to the fields. -/
  stopped : fieldLimit.toNat ≤ s.count delimiter → [delimiter].intercalate (fields ++ [rest]) = s
  /-- The scan comes to the end of the string. -/
  ended : s.count delimiter < fieldLimit.toNat → [delimiter].intercalate fields = s
  /-- Without a limit there is one field more than there are delimiters. No string is as long as the largest size. -/
  all : fieldLimit = noLimit → s.length < noLimit.toNat → fields.length = s.count delimiter + 1

namespace Splitter

variable {d : UInt8} {v : Splitter} {first : List UInt8}

theorem exists_toNat (h : 0 < v.fieldLimit) : ∃ n, v.fieldLimit.toNat = n + 1 ∧ v.emit.fieldLimit.toNat = n := by
  have hpos : 0 < v.fieldLimit.toNat := h
  have hle : (1 : UInt64) ≤ v.fieldLimit := h
  refine ⟨v.fieldLimit.toNat - 1, by omega, ?_⟩
  rw [emit, UInt64.toNat_sub_of_le _ _ hle]
  rfl

theorem not_pos : ¬ 0 < v.fieldLimit ↔ v.fieldLimit = 0 := by
  rw [UInt64.not_lt, UInt64.le_zero_iff]

/-! ### One turn -/

/-- What is to be returned, when this much has been done. -/
def target (d : UInt8) (r : List UInt8 × Splitter) : List UInt8 × List (List UInt8) :=
  ((cut d r.2.fieldLimit.toNat (r.2.current ++ r.1)).2,
    r.2.output ++ (cut d r.2.fieldLimit.toNat (r.2.current ++ r.1)).1)

/-- The variables are as they are before a turn. -/
structure Ready (d : UInt8) (v : Splitter) : Prop where
  /-- The field that has been begun does not contain the delimiter. -/
  current : d ∉ v.current
  /-- When there is no field left to append, none has been begun. -/
  stopped : v.fieldLimit = 0 → v.current = []

theorem Ready.read (hv : Ready d v) (hpos : 0 < v.fieldLimit) (ch : UInt8) : Ready d (v.read d ch) := by
  rw [Splitter.read]
  split_ifs with hc
  · exact ⟨List.not_mem_nil, fun _ => rfl⟩
  · refine ⟨?_, fun h => absurd h (UInt64.ne_of_lt hpos).symm⟩
    rw [List.mem_append, List.mem_singleton, not_or]
    exact ⟨hv.current, Ne.symm hc⟩

/-- A turn leaves what is to be returned as it was. -/
theorem target_read (hv : Ready d v) (hpos : 0 < v.fieldLimit) (ch : UInt8) (first : List UInt8) :
    target d (first, v.read d ch) = target d (ch :: first, v) := by
  rw [Splitter.read]
  split_ifs with hc
  · -- the field is complete
    subst hc
    obtain ⟨n, hn, hemit⟩ := exists_toNat hpos
    rw [target, target, hn, cut_append hv.current]
    simp only [hemit]
    simp [emit]
  · simp [target]

/-! ### The loop -/

/-- The loop stops when there is no field left to append, or at the end. -/
theorem loop_spec (hne : first ≠ []) (hv : Ready d v) :
    Ready d (loop d first v).2 ∧ target d (loop d first v) = target d (first, v) ∧
      ((loop d first v).2.fieldLimit = 0 ∨ (loop d first v).1 = []) := by
  induction first generalizing v with
  | nil => exact absurd rfl hne
  | cons ch first ih =>
    rw [loop]
    split_ifs with hpos hfirst
    · subst hfirst
      exact ⟨hv.read hpos ch, target_read hv hpos ch [], .inr rfl⟩
    · obtain ⟨hr, ht, hend⟩ := ih hfirst (hv.read hpos ch)
      exact ⟨hr, ht.trans (target_read hv hpos ch first), hend⟩
    · exact ⟨hv, rfl, .inl (not_pos.mp hpos)⟩

/-- After a delimiter the flag has a value. -/
theorem empty_loop (hne : first ≠ []) (hd : d ∈ first ∨ v.empty = some false)
    (hpos : 0 < (loop d first v).2.fieldLimit) : (loop d first v).2.empty = some false := by
  induction first generalizing v with
  | nil => exact absurd rfl hne
  | cons ch first ih =>
    have hread : d ∈ first ∨ (v.read d ch).empty = some false := by
      rw [Splitter.read]
      split_ifs with hc
      · exact .inr rfl
      · exact hd.imp_left fun h => (List.mem_cons.mp h).resolve_left (Ne.symm hc)
    rw [loop] at hpos ⊢
    split_ifs at hpos ⊢ with h hfirst
    · subst hfirst
      exact hread.resolve_left List.not_mem_nil
    · exact ih hfirst hread hpos
    · exact absurd hpos h

/-- Without a delimiter nothing is appended. -/
theorem loop_of_not_mem (hne : first ≠ []) (hd : d ∉ first) (hpos : 0 < v.fieldLimit) :
    loop d first v = ([], { v with current := v.current ++ first }) := by
  induction first generalizing v with
  | nil => exact absurd rfl hne
  | cons ch first ih =>
    rw [List.mem_cons, not_or] at hd
    have hread : v.read d ch = { v with current := v.current ++ [ch] } := if_neg (Ne.symm hd.1)
    have hpos' : 0 < (v.read d ch).fieldLimit := by rwa [hread]
    rw [loop, if_pos hpos]
    split_ifs with hfirst
    · rw [hread, hfirst]
    · rw [ih hfirst hd.2 hpos', hread]
      simp

/-! ### The end -/

/-- The last field is appended, if the limit allows it. -/
theorem finish_eq {r : List UInt8 × Splitter} (hr : Ready d r.2) (hend : r.2.fieldLimit = 0 ∨ r.1 = [])
    (hempty : 0 < r.2.fieldLimit → r.2.empty = some false) : finish r = .ok (target d r) := by
  obtain ⟨first, v⟩ := r
  by_cases hpos : 0 < v.fieldLimit
  · obtain rfl : first = [] := hend.resolve_left (UInt64.ne_of_lt hpos).symm
    obtain ⟨n, hn, -⟩ := exists_toNat hpos
    rw [finish, if_pos hpos, hempty hpos, target, hn, List.append_nil, cut_last hr.current]
    rfl
  · have hzero := not_pos.mp hpos
    rw [finish, if_neg hpos, target, hr.stopped hzero, hzero]
    simp [cut_zero]

end Splitter

/-! ### The function -/

/-- With the limit 0 nothing is read. -/
theorem splitString_zero (s : List UInt8) (d : UInt8) (output : List (List UInt8)) :
    splitString s d output 0 = .ok (s, output) := by
  cases s with
  | nil => rfl
  | cons ch s => rfl

/-- The empty string has one field, which is empty. -/
theorem splitString_nil (d : UInt8) (output : List (List UInt8)) {limit : UInt64} (hpos : 0 < limit) :
    splitString [] d output limit = .ok ([], output ++ [[]]) := by
  rw [splitString, loop, if_pos hpos, finish]
  split_ifs
  · rfl
  · rfl

/-- Where there is no delimiter, the flag is read before it has a value. -/
theorem splitString_of_not_mem {s : List UInt8} {d : UInt8} (output : List (List UInt8)) {limit : UInt64}
    (hs : s ≠ []) (hd : d ∉ s) (hpos : 0 < limit) : splitString s d output limit = .error .undefined := by
  rw [splitString, loop_of_not_mem hs hd hpos, finish, if_pos hpos]

/-- **The first fields are appended, and the rest is returned**, unless the flag is read too early. -/
theorem splitString_eq (s : List UInt8) (d : UInt8) (output : List (List UInt8)) (limit : UInt64) :
    splitString s d output limit =
      if limit = 0 ∨ s = [] ∨ d ∈ s then .ok ((cut d limit.toNat s).2, output ++ (cut d limit.toNat s).1)
      else .error .undefined := by
  by_cases hlimit : limit = 0
  · rw [if_pos (.inl hlimit), hlimit, splitString_zero, UInt64.toNat_zero, cut_zero, List.append_nil]
  have hpos : 0 < limit := UInt64.pos_iff_ne_zero.mpr hlimit
  by_cases hs : s = []
  · obtain ⟨n, hn⟩ := Nat.exists_eq_succ_of_ne_zero (Nat.ne_of_gt hpos : limit.toNat ≠ 0)
    rw [if_pos (.inr (.inl hs)), hs, splitString_nil d output hpos, hn, cut_last List.not_mem_nil]
  by_cases hd : d ∈ s
  · have hv : Ready d ⟨[], output, limit, none⟩ := ⟨List.not_mem_nil, fun _ => rfl⟩
    obtain ⟨hr, ht, hend⟩ := loop_spec hs hv
    rw [if_pos (.inr (.inr hd)), splitString, finish_eq hr hend (empty_loop hs (.inl hd)), ht]
    rfl
  · rw [if_neg (by simp [hlimit, hs, hd]), splitString_of_not_mem output hs hd hpos]

example : splitString [97, 58, 98, 58, 99] 58 [[1]] 2 = .ok ([99], [[1], [97], [98]]) := by decide

/-- Joining the fields that `cut` finds. -/
theorem rejoins_cut (s : List UInt8) (d : UInt8) (limit : UInt64) :
    Rejoins s d limit (cut d limit.toNat s).1 (cut d limit.toNat s).2 where
  stopped := cut_rejoin
  ended := cut_complete
  all := by
    rintro rfl hs
    have hcount : s.count d ≤ s.length := List.count_le_length
    rw [length_cut]
    omega

/-- For every string, delimiter, vector and limit: a value is returned, and joining the fields that were appended gives
the string back, exactly when the limit is 0, or the string is empty or contains the delimiter. -/
theorem rejoins_iff (s : List UInt8) (d : UInt8) (output : List (List UInt8)) (limit : UInt64) :
    (∃ rest fields, splitString s d output limit = .ok (rest, output ++ fields) ∧ Rejoins s d limit fields rest) ↔
      limit = 0 ∨ s = [] ∨ d ∈ s := by
  rw [splitString_eq]
  split_ifs with h
  · exact iff_of_true ⟨_, _, rfl, rejoins_cut s d limit⟩ h
  · refine iff_of_false ?_ h
    rintro ⟨rest, fields, he, -⟩
    cases he

/-- `hello` has no colon in it. -/
theorem undelimited_not_rejoined :
    ¬ ∃ rest fields, splitString [104, 101, 108, 108, 111] 58 [] noLimit = .ok (rest, [] ++ fields) ∧
      Rejoins [104, 101, 108, 108, 111] 58 noLimit fields rest := by
  rintro ⟨rest, fields, he, -⟩
  have h : splitString [104, 101, 108, 108, 111] 58 [] noLimit = .error .undefined := rfl
  rw [h] at he
  cases he

end CSSC.Lines
