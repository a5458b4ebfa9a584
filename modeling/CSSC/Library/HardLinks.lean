import Mathlib.Data.List.AList
import Mathlib.Data.Set.Card

/-!
# A directory of hard links

A directory has names for files. A file may have several names, and how many it has can be asked for. The names of a
file are what a protocol that makes and removes links is about: **the link count is the number of names**
(`nlinks_eq`), and a new name and the removal of a name change the names of one file and of no other
(`names_add_self`, `names_add_of_ne`, `names_unlink`, `names_unlink_of_ne`).
-/

namespace CSSC.Library

/-- A directory. -/
abbrev HardLinks (N F : Type*) := AList fun _ : N => F

namespace HardLinks

variable {N F : Type*} [DecidableEq N] {d : HardLinks N F} {m n : N} {f g : F}

/-- The file of a name. -/
def file (d : HardLinks N F) (n : N) : Option F := AList.lookup n d

/-- A new name for a file. -/
def add (d : HardLinks N F) (n : N) (f : F) : HardLinks N F := AList.insert n f d

/-- A name is removed, if it is there. -/
def unlink (d : HardLinks N F) (n : N) : HardLinks N F := AList.erase n d

/-- `st_nlink`. -/
def nlinks [DecidableEq F] (d : HardLinks N F) (f : F) : ℕ := (d.entries.filter fun e => e.2 = f).length

/-- The names of a file. -/
def names (d : HardLinks N F) (f : F) : Set N := {n | file d n = some f}

@[simp] theorem file_add_self : file (add d n f) n = some f := AList.lookup_insert d

theorem file_add_of_ne (h : m ≠ n) : file (add d n f) m = file d m := AList.lookup_insert_ne h

@[simp] theorem file_unlink_self : file (unlink d n) n = none := AList.lookup_erase n d

theorem file_unlink_of_ne (h : m ≠ n) : file (unlink d n) m = file d m := AList.lookup_erase_ne h

theorem mem_names : n ∈ names d f ↔ file d n = some f := Iff.rfl

/-- **The link count is the number of names.** -/
theorem nlinks_eq [DecidableEq F] (d : HardLinks N F) (f : F) : nlinks d f = (names d f).ncard := by
  have hnodup : ((d.entries.filter fun e => e.2 = f).map Sigma.fst).Nodup :=
    List.Nodup.sublist (List.filter_sublist.map _) d.nodupKeys
  have hset : names d f = ((d.entries.filter fun e => e.2 = f).map Sigma.fst).toFinset := by
    ext n
    rw [mem_names, file, ← Option.mem_def, AList.mem_lookup_iff, List.coe_toFinset, Set.mem_ofPred_eq, List.mem_map]
    constructor
    · intro h
      exact ⟨⟨n, f⟩, List.mem_filter.mpr ⟨h, by simp⟩, rfl⟩
    · rintro ⟨⟨n', g⟩, he, rfl⟩
      have hmem := List.mem_filter.mp he
      obtain rfl : g = f := of_decide_eq_true hmem.2
      exact hmem.1
  rw [hset, Set.ncard_coe_finset, List.toFinset_card_of_nodup hnodup, List.length_map]
  rfl

/-- A file gets a new name. -/
theorem names_add_self : names (add d n f) f = insert n (names d f) := by
  ext m
  rw [mem_names, Set.mem_insert_iff, mem_names]
  by_cases hm : m = n
  · simp [hm]
  · simp [file_add_of_ne hm, hm]

/-- A new name for one file is none for another. -/
theorem names_add_of_ne (hn : file d n = none) (hg : g ≠ f) : names (add d n g) f = names d f := by
  ext m
  rw [mem_names, mem_names]
  by_cases hm : m = n
  · subst hm
    simp [hn, hg]
  · rw [file_add_of_ne hm]

/-- A name is removed. -/
theorem names_unlink : names (unlink d n) f = names d f \ {n} := by
  ext m
  rw [mem_names, Set.mem_sdiff, mem_names, Set.mem_singleton_iff]
  by_cases hm : m = n
  · simp [hm]
  · simp [file_unlink_of_ne hm, hm]

/-- What is removed is not a name of the file. -/
theorem names_unlink_of_ne (hn : file d n ≠ some f) : names (unlink d n) f = names d f := by
  rw [names_unlink]
  exact Set.sdiff_singleton_eq_self hn

end HardLinks

end CSSC.Library
