import Mathlib.Data.Set.Insert
import Mathlib.Order.Basic
import Mathlib.Order.Bounds.Basic
import Mathlib.Logic.Function.Basic

/-!
# Weaves: many versions interleaved in one sequence

A *weave* stores every version of a document in one sequence of items. An item is a record of text, or a bracket:
`start c k` opens a region in which version `k` inserts (`ins`) or deletes (`del`) the text, and `fin k` closes it.
The regions of different keys need not nest. Each item carries the record it was read from, so that a weave can be
copied without loss.

## The model

`Open K` says which keys have an open region, and of which kind. With the included set `S`, a record read while `o` is
open is shown on behalf of `k` (`Shows S o k`) if `k` is an included insertion, and nothing above `k` is open except
deletions of keys outside `S`. How the items change what is open, when they may, and what is open after all of them is
said by `act`, `Legal` and `finish`. `select S o items` are the records shown, each with the key it is shown for.

Of the regions that count the uppermost one decides (`shows_iff_isGreatest`), so that at most one key shows a record
(`Shows.unique`). A region of a key outside `S` that is above everything open hides all, or nothing
(`owner_begin_hidden`, `owner_begin_del`), and there are the like rules for a key that is added to `S`. The operations
compose over `++` (`select_append`, `legal_append`).
-/

namespace CSSC.Library.Weave

/-- The two kinds of region: text that a key inserts, text that it deletes. -/
inductive Cmd where
  /-- The key inserts the text of the region. -/
  | ins
  /-- The key deletes the text of the region. -/
  | del
  deriving DecidableEq, Repr

/-- An item of a weave; `a` is the record it stands in. -/
inductive Item (K α : Type*) where
  /-- Open a region of kind `c` for `k`. -/
  | start (c : Cmd) (k : K) (a : α)
  /-- Close the region of `k`. -/
  | fin (k : K) (a : α)
  /-- A record of text. -/
  | text (a : α)
  deriving DecidableEq, Repr

/-- The open regions: the kind of each key's region, `none` when it has none. -/
abbrev Open (K : Type*) := K → Option Cmd

variable {K α : Type*}

namespace Item

/-- The record an item stands in. -/
def raw : Item K α → α
  | start _ _ a => a
  | fin _ a => a
  | text a => a

/-- The key a bracket is about. -/
def key? : Item K α → Option K
  | start _ k _ => some k
  | fin k _ => some k
  | text _ => none

@[simp] theorem key?_text (a : α) : (text a : Item K α).key? = none := rfl
@[simp] theorem key?_start (c : Cmd) (k : K) (a : α) : (start c k a).key? = some k := rfl
@[simp] theorem key?_fin (k : K) (a : α) : (fin k a).key? = some k := rfl
@[simp] theorem raw_text (a : α) : (text a : Item K α).raw = a := rfl
@[simp] theorem raw_start (c : Cmd) (k : K) (a : α) : (start c k a).raw = a := rfl
@[simp] theorem raw_fin (k : K) (a : α) : (fin k a).raw = a := rfl

end Item

/-! ### What is open -/

/-- A region is opened only while its key has none, and closed only while it has one. -/
def Admits (o : Open K) : Item K α → Prop
  | .start _ k _ => o k = none
  | .fin k _ => o k ≠ none
  | .text _ => True

@[simp] theorem admits_text (o : Open K) (a : α) : Admits o (.text a : Item K α) := trivial
@[simp] theorem admits_start (o : Open K) (c : Cmd) (k : K) (a : α) :
    Admits o (.start c k a) ↔ o k = none := Iff.rfl
@[simp] theorem admits_fin (o : Open K) (k : K) (a : α) : Admits o (.fin k a) ↔ o k ≠ none := Iff.rfl

variable [LinearOrder K]

/-- The open regions after an item. -/
def act (o : Open K) : Item K α → Open K
  | .start c k _ => Function.update o k (some c)
  | .fin k _ => Function.update o k none
  | .text _ => o

/-- Every bracket of the sequence is admitted where it stands. -/
def Legal (o : Open K) : List (Item K α) → Prop
  | [] => True
  | x :: r => Admits o x ∧ Legal (act o x) r

/-- The open regions after all items. -/
def finish (o : Open K) (items : List (Item K α)) : Open K := items.foldl act o

@[simp] theorem act_text (o : Open K) (a : α) : act o (.text a : Item K α) = o := rfl
@[simp] theorem act_start (o : Open K) (c : Cmd) (k : K) (a : α) :
    act o (.start c k a) = Function.update o k (some c) := rfl
@[simp] theorem act_fin (o : Open K) (k : K) (a : α) : act o (.fin k a) = Function.update o k none := rfl
@[simp] theorem legal_nil (o : Open K) : Legal o ([] : List (Item K α)) := trivial
@[simp] theorem legal_cons (o : Open K) (x : Item K α) (r : List (Item K α)) :
    Legal o (x :: r) ↔ Admits o x ∧ Legal (act o x) r := Iff.rfl
@[simp] theorem finish_nil (o : Open K) : finish o ([] : List (Item K α)) = o := rfl
@[simp] theorem finish_cons (o : Open K) (x : Item K α) (r : List (Item K α)) :
    finish o (x :: r) = finish (act o x) r := rfl

theorem finish_append (o : Open K) (xs ys : List (Item K α)) :
    finish o (xs ++ ys) = finish (finish o xs) ys := List.foldl_append ..

theorem legal_append (o : Open K) (xs ys : List (Item K α)) :
    Legal o (xs ++ ys) ↔ Legal o xs ∧ Legal (finish o xs) ys := by
  induction xs generalizing o with
  | nil => simp
  | cons x xs ih => simp [ih, and_assoc]

@[simp] theorem finish_texts (o : Open K) (gs : List α) :
    finish o (gs.map (Item.text : α → Item K α)) = o := by
  induction gs with
  | nil => rfl
  | cons g gs ih => simpa using ih

@[simp] theorem legal_texts (o : Open K) (gs : List α) :
    Legal o (gs.map (Item.text : α → Item K α)) := by
  induction gs with
  | nil => trivial
  | cons g gs ih => exact ⟨trivial, ih⟩

/-- An item leaves the regions of the other keys alone. -/
theorem act_of_key_ne (o : Open K) {x : Item K α} {n : K} (h : x.key? ≠ some n) : act o x n = o n := by
  cases x with
  | text a => rfl
  | start c k a => exact Function.update_of_ne (fun e => h (by simp [e])) _ _
  | fin k a => exact Function.update_of_ne (fun e => h (by simp [e])) _ _

/-- Setting the region of `n` commutes with an item about another key. -/
theorem act_update_comm (o : Open K) {x : Item K α} {n : K} (h : x.key? ≠ some n) (c : Option Cmd) :
    act (Function.update o n c) x = Function.update (act o x) n c := by
  cases x with
  | text a => rfl
  | start d k a => exact Function.update_comm (fun e => h (by simp [e])) _ _ _
  | fin k a => exact Function.update_comm (fun e => h (by simp [e])) _ _ _

theorem admits_update (o : Open K) {x : Item K α} {n : K} (h : x.key? ≠ some n) (c : Option Cmd) :
    Admits (Function.update o n c) x ↔ Admits o x := by
  cases x with
  | text a => rfl
  | start d k a =>
    have : k ≠ n := fun e => h (by simp [e])
    simp [Function.update_of_ne this]
  | fin k a =>
    have : k ≠ n := fun e => h (by simp [e])
    simp [Function.update_of_ne this]

/-! ### What is shown -/

/-- A record read while `o` is open is shown on behalf of `k`. -/
def Shows (S : Set K) (o : Open K) (k : K) : Prop :=
  o k = some .ins ∧ k ∈ S ∧ ∀ j, k < j → o j = none ∨ (o j = some .del ∧ j ∉ S)

/-- The region of `k` counts: it is an insertion, or a deletion by a key that is included. -/
def Counts (S : Set K) (o : Open K) (k : K) : Prop := o k = some .ins ∨ (o k = some .del ∧ k ∈ S)

/-- **Of the regions that count the uppermost one decides.** -/
theorem shows_iff_isGreatest {S : Set K} {o : Open K} {k : K} :
    Shows S o k ↔ IsGreatest {j | Counts S o j} k ∧ o k = some .ins ∧ k ∈ S := by
  constructor
  · rintro ⟨hk, hS, hup⟩
    refine ⟨⟨.inl hk, fun j hj => ?_⟩, hk, hS⟩
    by_contra hlt
    rcases hup j (not_le.mp hlt) with hn | ⟨hd, hjS⟩
    · rcases hj with h | ⟨h, -⟩ <;> simp [hn] at h
    · rcases hj with h | ⟨-, h⟩
      · simp [hd] at h
      · exact hjS h
  · rintro ⟨⟨-, hup⟩, hk, hS⟩
    refine ⟨hk, hS, fun j hj => ?_⟩
    have hj' : ¬ Counts S o j := fun h => absurd (hup h) (not_le.mpr hj)
    rcases hoj : o j with _ | _ | _
    · exact .inl rfl
    · exact absurd (.inl hoj) hj'
    · exact .inr ⟨rfl, fun h => hj' (.inr ⟨hoj, h⟩)⟩

/-- **At most one key shows a record.** -/
theorem Shows.unique {S : Set K} {o : Open K} {k k' : K} (h : Shows S o k) (h' : Shows S o k') :
    k = k' := by
  rcases lt_trichotomy k k' with hlt | he | hgt
  · rcases h.2.2 k' hlt with hn | ⟨hd, -⟩
    · exact absurd (h'.1.symm.trans hn) (by simp)
    · exact absurd (h'.1.symm.trans hd) (by simp)
  · exact he
  · rcases h'.2.2 k hgt with hn | ⟨hd, -⟩
    · exact absurd (h.1.symm.trans hn) (by simp)
    · exact absurd (h.1.symm.trans hd) (by simp)

open Classical in
/-- The key that shows a record read while `o` is open. -/
noncomputable def owner (S : Set K) (o : Open K) : Option K :=
  if h : ∃ k, Shows S o k then some h.choose else none

theorem owner_eq_some_iff {S : Set K} {o : Open K} {k : K} : owner S o = some k ↔ Shows S o k := by
  unfold owner
  split
  · rename_i h
    refine ⟨fun e => Option.some.inj e ▸ h.choose_spec, fun hk => ?_⟩
    rw [h.choose_spec.unique hk]
  · rename_i h
    exact ⟨fun e => absurd e (by simp), fun hk => absurd ⟨k, hk⟩ h⟩

theorem owner_eq_none_iff {S : Set K} {o : Open K} : owner S o = none ↔ ∀ k, ¬ Shows S o k := by
  refine ⟨fun h k hk => ?_, fun h => ?_⟩
  · rw [owner_eq_some_iff.mpr hk] at h
    exact absurd h (by simp)
  · rcases ho : owner S o with _ | k
    · rfl
    · exact absurd (owner_eq_some_iff.mp ho) (h k)

/-- Owners agree when the same keys show. -/
theorem owner_congr {S T : Set K} {o o' : Open K} (h : ∀ k, Shows S o k ↔ Shows T o' k) :
    owner S o = owner T o' := by
  rcases ho : owner T o' with _ | k
  · exact owner_eq_none_iff.mpr fun k hk => owner_eq_none_iff.mp ho k ((h k).mp hk)
  · exact owner_eq_some_iff.mpr ((h k).mpr (owner_eq_some_iff.mp ho))

/-- The records an item shows: the text itself, for the key that shows it. -/
noncomputable def emit (S : Set K) (o : Open K) : Item K α → List (K × α)
  | .text a => (owner S o).toList.map (·, a)
  | _ => []

/-- The records shown, in order, each with the key that shows it. -/
noncomputable def select (S : Set K) (o : Open K) : List (Item K α) → List (K × α)
  | [] => []
  | x :: r => emit S o x ++ select S (act o x) r

@[simp] theorem select_nil (S : Set K) (o : Open K) : select S o ([] : List (Item K α)) = [] := rfl
@[simp] theorem select_cons (S : Set K) (o : Open K) (x : Item K α) (r : List (Item K α)) :
    select S o (x :: r) = emit S o x ++ select S (act o x) r := rfl
@[simp] theorem emit_start (S : Set K) (o : Open K) (c : Cmd) (k : K) (a : α) :
    emit S o (.start c k a) = [] := rfl
@[simp] theorem emit_fin (S : Set K) (o : Open K) (k : K) (a : α) : emit S o (.fin k a) = [] := rfl

theorem emit_text_some {S : Set K} {o : Open K} {k : K} (h : owner S o = some k) (a : α) :
    emit S o (.text a) = [(k, a)] := by simp [emit, h]

theorem emit_text_none {S : Set K} {o : Open K} (h : owner S o = none) (a : α) :
    emit S o (.text a) = [] := by simp [emit, h]

/-- What an item shows depends on the set and the open regions only through the owner. -/
theorem emit_congr {S T : Set K} {o o' : Open K} (h : owner S o = owner T o') (x : Item K α) :
    emit S o x = emit T o' x := by
  cases x with
  | text a => simp [emit, h]
  | start c k a => rfl
  | fin k a => rfl

theorem select_append (S : Set K) (o : Open K) (xs ys : List (Item K α)) :
    select S o (xs ++ ys) = select S o xs ++ select S (finish o xs) ys := by
  induction xs generalizing o with
  | nil => simp
  | cons x xs ih => simp [ih]

theorem select_texts_some {S : Set K} {o : Open K} {k : K} (h : owner S o = some k) (gs : List α) :
    select S o (gs.map (Item.text : α → Item K α)) = gs.map (k, ·) := by
  induction gs with
  | nil => rfl
  | cons g gs ih => simp [emit_text_some h, ih]

theorem select_texts_none {S : Set K} {o : Open K} (h : owner S o = none) (gs : List α) :
    select S o (gs.map (Item.text : α → Item K α)) = [] := by
  induction gs with
  | nil => rfl
  | cons g gs ih => simp [emit_text_none h, ih]

/-! ### A key above everything open -/

/-- Nothing is open from `n` on. -/
def Top (n : K) (o : Open K) : Prop := ∀ k, n ≤ k → o k = none

theorem Top.self {n : K} {o : Open K} (h : Top n o) : o n = none := h n le_rfl

/-- Items about keys below `n` keep everything from `n` on closed. -/
theorem Top.act {n : K} {o : Open K} (h : Top n o) {x : Item K α} (hx : ∀ k, x.key? = some k → k < n) :
    Top n (act o x) := by
  intro k hk
  rw [act_of_key_ne o (fun e => absurd (hx k e) (not_lt.mpr hk))]
  exact h k hk

section

variable {S : Set K} {o : Open K} {n : K}

/-- An open insertion of a top key outside the set hides every record. -/
theorem owner_begin_hidden (ht : Top n o) (hn : n ∉ S) :
    owner S (Function.update o n (some .ins)) = none := by
  refine owner_eq_none_iff.mpr fun k hk => ?_
  rcases lt_trichotomy k n with hlt | rfl | hgt
  · rcases hk.2.2 n hlt with h | ⟨h, -⟩ <;> simp at h
  · exact hn hk.2.1
  · have := hk.1
    rw [Function.update_of_ne hgt.ne', ht k hgt.le] at this
    exact absurd this (by simp)

/-- An open deletion of a key outside the set changes nothing. -/
theorem owner_begin_del (ho : o n = none) (hn : n ∉ S) :
    owner S (Function.update o n (some .del)) = owner S o := by
  refine owner_congr fun k => ?_
  by_cases hkn : k = n
  · subst hkn
    simp [Shows, ho]
  · simp only [Shows, Function.update_of_ne hkn]
    refine and_congr_right fun _ => and_congr_right fun _ => forall_congr' fun j => ?_
    by_cases hjn : j = n
    · subst hjn
      simp [ho, hn]
    · rw [Function.update_of_ne hjn]

/-- An open insertion of a top key that is included shows every record for itself. -/
theorem owner_insert_ins (ht : Top n o) :
    owner (insert n S) (Function.update o n (some .ins)) = some n := by
  refine owner_eq_some_iff.mpr ⟨by simp, by simp, fun j hj => ?_⟩
  left
  rw [Function.update_of_ne hj.ne']
  exact ht j hj.le

/-- An open deletion of a top key that is included hides every record. -/
theorem owner_insert_del (ht : Top n o) :
    owner (insert n S) (Function.update o n (some .del)) = none := by
  refine owner_eq_none_iff.mpr fun k hk => ?_
  rcases lt_trichotomy k n with hlt | rfl | hgt
  · rcases hk.2.2 n hlt with h | ⟨-, h⟩
    · simp at h
    · simp at h
  · have := hk.1
    simp at this
  · have := hk.1
    rw [Function.update_of_ne hgt.ne', ht k hgt.le] at this
    exact absurd this (by simp)

/-- Including a key without a region changes nothing. -/
theorem owner_insert_of_none (ho : o n = none) : owner (insert n S) o = owner S o := by
  refine owner_congr fun k => ?_
  by_cases hkn : k = n
  · subst hkn
    simp [Shows, ho]
  · simp only [Shows, Set.mem_insert_iff, hkn, false_or]
    refine and_congr_right fun _ => and_congr_right fun _ => forall_congr' fun j => ?_
    by_cases hjn : j = n
    · subst hjn
      simp [ho]
    · simp [hjn]

end

end CSSC.Library.Weave
