import Mathlib.Data.Set.Insert
import Mathlib.Data.Set.Finite.Basic
import Mathlib.Data.Finset.Sort
import Mathlib.Order.Preorder.Finite

/-!
# Selecting versions by lists of earlier ones

Every version of a store may name earlier versions that it includes, excludes or ignores (`References K`). A selection
starts from some roots, draws in what is included, and leaves out what is excluded or ignored.

## The model

A key is drawn if it is a root or on the include list of a drawn key (`Drawn`), and struck if it is on the exclude
list of a drawn key, which counts even if it is left out itself (`Struck`). What is selected are the drawn keys that
are not struck, nor ignored by a selected one; `Solves L roots J` says that `J` is that. When keys ignore only earlier
ones, there is at most one selection (`Solves.unique`), and **three sweeps compute it**: includes downwards, excludes
upwards, ignores downwards (`solves_sweeps`).

A new key may be recorded with lists of its own. `solves_record_iff` says when its selection is the base selection
with `A` added and `X` taken away (`Faithful`), and `diff_eq_iff` when a selection from more roots, with some keys cut
from it, is the selection from fewer (`Forgets`).
-/

namespace CSSC.Library.Selection

variable {K : Type*}

/-- The lists of every key. -/
structure References (K : Type*) where
  /-- The keys a key includes. -/
  inc : K → Set K
  /-- The keys a key excludes. -/
  exc : K → Set K
  /-- The keys a key ignores. -/
  ign : K → Set K

/-- What the roots draw in by the include lists. -/
inductive Drawn (inc : K → Set K) (roots : Set K) : K → Prop
  /-- A root is drawn. -/
  | root {k} : k ∈ roots → Drawn inc roots k
  /-- What a drawn key includes is drawn. -/
  | list {z k} : Drawn inc roots z → k ∈ inc z → Drawn inc roots k

/-- On the exclude list of a drawn key. -/
def Struck (L : References K) (roots : Set K) (k : K) : Prop := ∃ z, Drawn L.inc roots z ∧ k ∈ L.exc z

/-- On the ignore list of a key of the set. -/
def Ignored (L : References K) (J : Set K) (k : K) : Prop := ∃ z ∈ J, k ∈ L.ign z

/-- `J` is the selection. -/
def Solves (L : References K) (roots J : Set K) : Prop :=
  ∀ k, k ∈ J ↔ Drawn L.inc roots k ∧ ¬ Struck L roots k ∧ ¬ Ignored L J k

/-! ### What is drawn -/

section

variable {inc inc' : K → Set K} {roots roots' : Set K} {k : K}

theorem Drawn.mono (h : Drawn inc roots k) (hr : roots ⊆ roots') : Drawn inc roots' k := by
  induction h with
  | root hk => exact .root (hr hk)
  | list _ hs ih => exact .list ih hs

/-- The roots may be split. -/
theorem drawn_union : Drawn inc (roots ∪ roots') k ↔ Drawn inc roots k ∨ Drawn inc roots' k := by
  constructor
  · intro h
    induction h with
    | root hk => exact hk.imp .root .root
    | list _ hs ih => exact ih.imp (.list · hs) (.list · hs)
  · rintro (h | h)
    · exact h.mono Set.subset_union_left
    · exact h.mono Set.subset_union_right

/-- A property of the roots that the lists pass on holds of all that is drawn. -/
theorem Drawn.inherit {P : K → Prop} (h : Drawn inc roots k) (hr : ∀ k ∈ roots, P k)
    (hi : ∀ z k, P z → k ∈ inc z → P k) : P k := by
  induction h with
  | root hk => exact hr _ hk
  | list _ hs ih => exact hi _ _ ih hs

end

/-! ### The selection is unique -/

/-- **There is at most one selection**, when finitely many keys are drawn and keys ignore only earlier ones. -/
theorem Solves.unique [LinearOrder K] {L : References K} {roots J J' : Set K} (h : Solves L roots J)
    (h' : Solves L roots J') (hfin : {k | Drawn L.inc roots k}.Finite) (hign : ∀ z, ∀ k ∈ L.ign z, k < z) :
    J = J' := by
  -- at the greatest key on which they differ, they ignore the same
  let D : Set K := {k | ¬ (k ∈ J ↔ k ∈ J')}
  have hD : D.Finite := hfin.subset fun k hk => by
    by_contra hd
    exact hk ⟨fun hj => absurd ((h k).mp hj).1 hd, fun hj => absurd ((h' k).mp hj).1 hd⟩
  rcases D.eq_empty_or_nonempty with hemp | hne
  · ext k
    by_contra hk
    exact Set.notMem_empty k (hemp ▸ hk)
  · exfalso
    obtain ⟨m, hm⟩ := hD.exists_maximal hne
    have habove : ∀ z, m < z → (z ∈ J ↔ z ∈ J') := by
      intro z hz
      by_contra hd
      exact absurd (hm.le_of_ge hd hz.le) (not_le.mpr hz)
    have hig : Ignored L J m ↔ Ignored L J' m := by
      constructor
      · rintro ⟨z, hz, hmz⟩
        exact ⟨z, (habove z (hign z m hmz)).mp hz, hmz⟩
      · rintro ⟨z, hz, hmz⟩
        exact ⟨z, (habove z (hign z m hmz)).mpr hz, hmz⟩
    exact hm.prop (by rw [h m, h' m, hig])

/-! ### Sweeps -/

open Classical in
/-- The turn of a key: its list is applied if the key is in the set. -/
noncomputable def turn (op : Set K → Set K → Set K) (f : K → Set K) (y : K) (I : Set K) : Set K :=
  if y ∈ I then op I (f y) else I

/-- Go over the keys and give each its turn. -/
noncomputable def sweep (op : Set K → Set K → Set K) (f : K → Set K) (ys : List K) (I : Set K) : Set K :=
  ys.foldl (fun I y => turn op f y I) I

theorem turn_of_mem {op : Set K → Set K → Set K} {f : K → Set K} {y : K} {I : Set K} (h : y ∈ I) :
    turn op f y I = op I (f y) := if_pos h

theorem turn_of_notMem {op : Set K → Set K → Set K} {f : K → Set K} {y : K} {I : Set K} (h : y ∉ I) :
    turn op f y I = I := if_neg h

theorem mem_turn_union {f : K → Set K} {y k : K} {I : Set K} :
    k ∈ turn (· ∪ ·) f y I ↔ k ∈ I ∨ (y ∈ I ∧ k ∈ f y) := by
  by_cases h : y ∈ I
  · simp [turn_of_mem h, h]
  · simp [turn_of_notMem h, h]

theorem mem_turn_diff {f : K → Set K} {y k : K} {I : Set K} :
    k ∈ turn (· \ ·) f y I ↔ k ∈ I ∧ (y ∈ I → k ∉ f y) := by
  by_cases h : y ∈ I
  · simp [turn_of_mem h, h]
  · simp [turn_of_notMem h, h]

@[simp] theorem sweep_nil (op : Set K → Set K → Set K) (f : K → Set K) (I : Set K) : sweep op f [] I = I := rfl
@[simp] theorem sweep_cons (op : Set K → Set K → Set K) (f : K → Set K) (y : K) (ys : List K) (I : Set K) :
    sweep op f (y :: ys) I = sweep op f ys (turn op f y I) := rfl

/-- What holds of every key whose turn comes: the first one has its turn at once, the others after it. -/
theorem forall_turns_cons {op : Set K → Set K → Set K} {f : K → Set K} {P : K → Prop} {y : K} {ys : List K} {I : Set K} :
    (∀ pre z post, y :: ys = pre ++ z :: post → z ∈ sweep op f pre I → P z) ↔
      (y ∈ I → P y) ∧ ∀ pre z post, ys = pre ++ z :: post → z ∈ sweep op f pre (turn op f y I) → P z := by
  constructor
  · intro h
    exact ⟨fun hy => h [] y ys rfl hy, fun pre z post he hz => h (y :: pre) z post (by rw [he]; rfl) hz⟩
  · rintro ⟨h1, h2⟩ pre z post he hz
    cases pre with
    | nil =>
      obtain ⟨rfl, rfl⟩ := List.cons.inj he
      exact h1 hz
    | cons x pre =>
      obtain ⟨rfl, rfl⟩ := List.cons.inj he
      exact h2 pre z post rfl hz

/-- The lists of the keys in `ys`. -/
def within (ys : List K) (f : K → Set K) (z : K) : Set K := {k | z ∈ ys ∧ k ∈ f z}

section

variable [LinearOrder K] {f : K → Set K}

/-- **A downward sweep draws in everything**, in one go. -/
theorem sweep_union {ys : List K} (hs : ys.Pairwise (· > ·)) (hf : ∀ z, ∀ k ∈ f z, k < z) (I : Set K) (k : K) :
    k ∈ sweep (· ∪ ·) f ys I ↔ Drawn (within ys f) I k := by
  induction ys generalizing I with
  | nil =>
    refine ⟨.root, fun h => ?_⟩
    induction h with
    | root hk => exact hk
    | list _ hk _ => exact absurd hk.1 (by simp)
  | cons y ys ih =>
    obtain ⟨hy, hys⟩ := List.pairwise_cons.mp hs
    rw [sweep_cons, ih hys]
    clear ih
    constructor
    · intro h
      induction h with
      | root hk =>
        rcases mem_turn_union.mp hk with hk | ⟨hyI, hk⟩
        · exact .root hk
        · exact .list (.root hyI) ⟨List.mem_cons_self, hk⟩
      | list _ hk ih => exact .list ih ⟨List.mem_cons_of_mem y hk.1, hk.2⟩
    · intro h
      induction h with
      | root hk => exact .root (mem_turn_union.mpr (.inl hk))
      | @list z k _ hk ih =>
        rcases List.mem_cons.mp hk.1 with rfl | hz
        · -- the key swept first is on no list that comes after it, so it was a root
          have hzI : z ∈ I := by
            cases ih with
            | root h =>
              rcases mem_turn_union.mp h with h | ⟨-, h⟩
              · exact h
              · exact absurd (hf _ _ h) (lt_irrefl _)
            | list _ h => exact absurd ((hf _ _ h.2).trans (hy _ h.1)) (lt_irrefl _)
          exact .root (mem_turn_union.mpr (.inr ⟨hzI, hk.2⟩))
        · exact .list ih ⟨hz, hk.2⟩

/-- An upward sweep takes away what any of the keys lists, also the keys taken away later. -/
theorem sweep_diff_up {ys : List K} (hs : ys.Pairwise (· < ·)) (hf : ∀ z, ∀ k ∈ f z, k < z) (I : Set K) (k : K) :
    k ∈ sweep (· \ ·) f ys I ↔ k ∈ I ∧ ∀ z ∈ ys, z ∈ I → k ∉ f z := by
  induction ys generalizing I with
  | nil => simp
  | cons y ys ih =>
    obtain ⟨hy, hys⟩ := List.pairwise_cons.mp hs
    have hlater : ∀ z ∈ ys, (z ∈ turn (· \ ·) f y I ↔ z ∈ I) := by
      intro z hz
      rw [mem_turn_diff]
      exact and_iff_left fun _ h => lt_asymm (hy z hz) (hf y z h)
    rw [sweep_cons, ih hys, mem_turn_diff, List.forall_mem_cons, and_assoc]
    exact and_congr_right fun _ => and_congr_right fun _ => forall₂_congr fun z hz => by rw [hlater z hz]

/-- A downward sweep takes away what the keys that stay list. -/
theorem sweep_diff_down {ys : List K} (hs : ys.Pairwise (· > ·)) (hf : ∀ z, ∀ k ∈ f z, k < z) (I : Set K) (k : K) :
    k ∈ sweep (· \ ·) f ys I ↔ k ∈ I ∧ ∀ z ∈ ys, z ∈ sweep (· \ ·) f ys I → k ∉ f z := by
  induction ys generalizing I k with
  | nil => simp
  | cons y ys ih =>
    obtain ⟨hy, hys⟩ := List.pairwise_cons.mp hs
    have hyJ : y ∈ sweep (· \ ·) f ys (turn (· \ ·) f y I) ↔ y ∈ I := by
      rw [ih hys, mem_turn_diff, and_assoc]
      refine and_iff_left ⟨fun _ h => lt_irrefl _ (hf y y h), fun z hz _ h => ?_⟩
      exact lt_asymm (hy z hz) (hf z y h)
    rw [sweep_cons, ih hys, mem_turn_diff, List.forall_mem_cons, hyJ, and_assoc]

/-- **Three sweeps compute the selection**, when all that is drawn is swept. -/
theorem solves_sweeps {L : References K} {roots : Set K} {down up : List K} (hd : down.Pairwise (· > ·))
    (hu : up.Pairwise (· < ·)) (hinc : ∀ z, ∀ k ∈ L.inc z, k < z) (hexc : ∀ z, ∀ k ∈ L.exc z, k < z)
    (hign : ∀ z, ∀ k ∈ L.ign z, k < z)
    (hall : ∀ k, Drawn L.inc roots k → (k ∈ down ∧ k ∈ up) ∨ (L.inc k = ∅ ∧ L.exc k = ∅ ∧ L.ign k = ∅)) :
    Solves L roots
      (sweep (· \ ·) L.ign down (sweep (· \ ·) L.exc up (sweep (· ∪ ·) L.inc down roots))) := by
  have hdrawn : ∀ k, Drawn (within down L.inc) roots k ↔ Drawn L.inc roots k := by
    intro k
    constructor
    · intro h
      induction h with
      | root hk => exact .root hk
      | list _ hk ih => exact .list ih hk.2
    · intro h
      induction h with
      | root hk => exact .root hk
      | @list z k hz hk ih =>
        rcases hall z hz with h | h
        · exact .list ih ⟨h.1, hk⟩
        · rw [h.1] at hk
          exact hk.elim
  have hstruck : ∀ k, k ∈ sweep (· \ ·) L.exc up (sweep (· ∪ ·) L.inc down roots) ↔
      Drawn L.inc roots k ∧ ¬ Struck L roots k := by
    intro k
    rw [sweep_diff_up hu hexc, sweep_union hd hinc, hdrawn]
    refine and_congr_right fun _ => ⟨?_, ?_⟩
    · rintro h ⟨z, hz, hk⟩
      rcases hall z hz with hz' | hz'
      · exact h z hz'.2 ((sweep_union hd hinc _ _).mpr ((hdrawn z).mpr hz)) hk
      · rw [hz'.2.1] at hk
        exact hk
    · intro h z _ hz hk
      exact h ⟨z, (hdrawn z).mp ((sweep_union hd hinc _ _).mp hz), hk⟩
  intro k
  rw [sweep_diff_down hd hign, hstruck, and_assoc]
  refine and_congr_right fun _ => and_congr_right fun _ => ⟨?_, ?_⟩
  · rintro h ⟨z, hz, hk⟩
    have hzd := ((hstruck z).mp ((sweep_diff_down hd hign _ _).mp hz).1).1
    rcases hall z hzd with hz' | hz'
    · exact h z hz'.1 hz hk
    · rw [hz'.2.2] at hk
      exact hk
  · intro h z _ hz hk
    exact h ⟨z, hz, hk⟩

end

/-! ### A new key -/

/-- A new key includes `A` and excludes `X`. -/
def References.record [DecidableEq K] (L : References K) (n : K) (A X : Set K) : References K where
  inc := Function.update L.inc n A
  exc := Function.update L.exc n X
  ign := Function.update L.ign n ∅

/-- No list names `n`. -/
def References.Fresh (L : References K) (n : K) : Prop := ∀ z, n ∉ L.inc z ∧ n ∉ L.exc z ∧ n ∉ L.ign z

/-- What makes the new key select the base selection with some keys added and others taken away. `A` and `X` are
the keys added and taken away, `A'` and `X'` the lists that are recorded. -/
structure Faithful (L : References K) (roots J A X A' X' : Set K) : Prop where
  /-- No key added is on the new exclude list. -/
  once : ∀ k ∈ A, k ∉ X'
  /-- No key added is excluded by a key that is drawn in. -/
  addedKept : ∀ k ∈ A, ¬ Struck L (roots ∪ A') k
  /-- No key added is ignored by one of the result. -/
  addedHeeded : ∀ k ∈ A, ¬ Ignored L (J \ X ∪ A) k
  /-- No key that stays is excluded by a key that the new list draws in. -/
  baseKept : ∀ k ∈ J \ X, ¬ Struck L A' k
  /-- No key that stays is ignored by a key added. -/
  baseHeeded : ∀ k ∈ J \ X, ¬ Ignored L A k
  /-- Whatever else the new list draws in is left out again. -/
  dragged : ∀ k, Drawn L.inc A' k → ¬ Drawn L.inc roots k → k ∉ A' →
    k ∈ X' ∨ Struck L (roots ∪ A') k ∨ Ignored L (J \ X ∪ A) k
  /-- Whatever the base selection leaves out because it is ignored is left out again. -/
  revived : ∀ k, Drawn L.inc roots k → ¬ Struck L roots k → k ∉ J → k ∉ A →
    k ∈ X' ∨ Struck L (roots ∪ A') k ∨ Ignored L (J \ X ∪ A) k

section

variable {L : References K} {n z : K} {roots J A X A' X' : Set K}

theorem struck_union {k : K} : Struck L (roots ∪ A') k ↔ Struck L roots k ∨ Struck L A' k := by
  simp only [Struck, drawn_union, or_and_right, exists_or]

theorem ignored_union {J' : Set K} {k : K} : Ignored L (J ∪ J') k ↔ Ignored L J k ∨ Ignored L J' k := by
  simp only [Ignored, Set.mem_union, or_and_right, exists_or]

/-- A fresh key is drawn only as a root. -/
theorem Drawn.ne_fresh {k : K} (h : Drawn L.inc roots k) (hn : L.Fresh n) (hr : n ∉ roots) : k ≠ n := by
  refine h.inherit (P := (· ≠ n)) (fun k hk e => hr (e ▸ hk)) ?_
  rintro z k - hk rfl
  exact (hn z).1 hk

/-- If the old keys satisfy the equation of the selection in terms of the old lists, the lists are faithful. -/
theorem faithful_of_forall (hn : L.Fresh n) (hr : n ∉ roots) (hA : n ∉ A') (hJ : Solves L roots J) (hAA : A ⊆ A')
    (hS : n ∉ J \ X ∪ A) (h : ∀ k, k ≠ n → (k ∈ J \ X ∪ A ↔
      Drawn L.inc (roots ∪ A') k ∧ ¬ (k ∈ X' ∨ Struck L (roots ∪ A') k) ∧ ¬ Ignored L (J \ X ∪ A) k)) :
    Faithful L roots J A X A' X' := by
  have hnu : n ∉ roots ∪ A' := fun h => h.elim hr hA
  have hne : ∀ k ∈ J \ X ∪ A, k ≠ n := fun k hk e => hS (e ▸ hk)
  have hsel : ∀ k ∈ J \ X ∪ A, k ∉ X' ∧ ¬ Struck L (roots ∪ A') k ∧ ¬ Ignored L (J \ X ∪ A) k := by
    intro k hk
    obtain ⟨-, h1, h2⟩ := (h k (hne k hk)).mp hk
    exact ⟨fun e => h1 (.inl e), fun e => h1 (.inr e), h2⟩
  have hout : ∀ k, k ≠ n → k ∉ J \ X ∪ A → Drawn L.inc (roots ∪ A') k →
      k ∈ X' ∨ Struck L (roots ∪ A') k ∨ Ignored L (J \ X ∪ A) k := by
    intro k hk hS hd
    by_contra hc
    simp only [not_or] at hc
    exact hS ((h k hk).mpr ⟨hd, fun e => e.elim hc.1 hc.2.1, hc.2.2⟩)
  refine ⟨fun k hk => (hsel k (.inr hk)).1, fun k hk => (hsel k (.inr hk)).2.1, fun k hk => (hsel k (.inr hk)).2.2,
    fun k hk e => (hsel k (.inl hk)).2.1 (struck_union.mpr (.inr e)),
    fun k hk e => (hsel k (.inl hk)).2.2 (ignored_union.mpr (.inr e)), ?_, ?_⟩
  · intro k hd hnr hkA
    have hdu : Drawn L.inc (roots ∪ A') k := drawn_union.mpr (.inr hd)
    refine hout k (hdu.ne_fresh hn hnu) ?_ hdu
    rintro (hk | hk)
    · exact hnr ((hJ k).mp hk.1).1
    · exact hkA (hAA hk)
  · intro k hd hns hkJ hkA
    have hdu : Drawn L.inc (roots ∪ A') k := drawn_union.mpr (.inl hd)
    refine hout k (hdu.ne_fresh hn hnu) ?_ hdu
    rintro (hk | hk)
    · exact hkJ hk.1
    · exact hkA hk

/-- If the lists are faithful, all keys satisfy it. -/
theorem Faithful.mem_iff (h : Faithful L roots J A X A' X') (hJ : Solves L roots J) (hAA : A ⊆ A') (hXX : X ⊆ X')
    (hA' : A' ⊆ A ∪ X) (hX' : X' ⊆ A ∪ X) (k : K) : k ∈ J \ X ∪ A ↔
      Drawn L.inc (roots ∪ A') k ∧ ¬ (k ∈ X' ∨ Struck L (roots ∪ A') k) ∧ ¬ Ignored L (J \ X ∪ A) k := by
  obtain ⟨once, addedKept, addedHeeded, baseKept, baseHeeded, dragged, revived⟩ := h
  constructor
  · rintro (⟨hkJ, hkX⟩ | hkA)
    · obtain ⟨hd, hns, hni⟩ := (hJ k).mp hkJ
      refine ⟨drawn_union.mpr (.inl hd), ?_, ?_⟩
      · rintro (hk | hk)
        · rcases hX' hk with hkA | hkX'
          · exact once k hkA hk
          · exact hkX hkX'
        · exact (struck_union.mp hk).elim hns (baseKept k ⟨hkJ, hkX⟩)
      · intro hk
        rcases ignored_union.mp hk with ⟨z, hz, hkz⟩ | hk
        · exact hni ⟨z, hz.1, hkz⟩
        · exact baseHeeded k ⟨hkJ, hkX⟩ hk
    · exact ⟨drawn_union.mpr (.inr (.root (hAA hkA))), fun e => e.elim (once k hkA) (addedKept k hkA),
        addedHeeded k hkA⟩
  · rintro ⟨hd, hns, hni⟩
    simp only [not_or] at hns
    by_contra hS
    simp only [Set.mem_union, Set.mem_sdiff, not_or, not_and, not_not] at hS
    have hkX : k ∉ X := fun hk => hns.1 (hXX hk)
    have hkJ : k ∉ J := fun hk => hkX (hS.1 hk)
    have hkA' : k ∉ A' := fun hk => (hA' hk).elim hS.2 hkX
    by_cases hdr : Drawn L.inc roots k
    · have hnr : ¬ Struck L roots k := fun hk => hns.2 (struck_union.mpr (.inl hk))
      rcases revived k hdr hnr hkJ hS.2 with h | h | h
      · exact hns.1 h
      · exact hns.2 h
      · exact hni h
    · rcases dragged k ((drawn_union.mp hd).resolve_left hdr) hdr hkA' with h | h | h
      · exact hns.1 h
      · exact hns.2 h
      · exact hni h

variable [DecidableEq K]

@[simp] theorem record_inc_self : (L.record n A X).inc n = A := Function.update_self ..
@[simp] theorem record_exc_self : (L.record n A X).exc n = X := Function.update_self ..
@[simp] theorem record_ign_self : (L.record n A X).ign n = ∅ := Function.update_self ..
theorem record_inc_of_ne (h : z ≠ n) : (L.record n A X).inc z = L.inc z := Function.update_of_ne h ..
theorem record_exc_of_ne (h : z ≠ n) : (L.record n A X).exc z = L.exc z := Function.update_of_ne h ..
theorem record_ign_of_ne (h : z ≠ n) : (L.record n A X).ign z = L.ign z := Function.update_of_ne h ..

/-- The new key draws in itself, what its roots draw in and what its list draws in. -/
theorem drawn_record {k : K} (hn : L.Fresh n) (hr : n ∉ roots) (hA : n ∉ A') :
    Drawn (L.record n A' X').inc (insert n roots) k ↔ k = n ∨ Drawn L.inc (roots ∪ A') k := by
  have hnu : n ∉ roots ∪ A' := fun h => h.elim hr hA
  constructor
  · intro h
    induction h with
    | root hk => exact hk.imp id fun hk => .root (.inl hk)
    | @list z k _ hk ih =>
      right
      rcases ih with rfl | hz
      · rw [record_inc_self] at hk
        exact .root (.inr hk)
      · rw [record_inc_of_ne (hz.ne_fresh hn hnu)] at hk
        exact .list hz hk
  · rintro (rfl | h)
    · exact .root (.inl rfl)
    · induction h with
      | root hk =>
        rcases hk with hk | hk
        · exact .root (.inr hk)
        · exact .list (.root (.inl rfl)) (by rwa [record_inc_self])
      | list hz hk ih => exact .list ih (by rwa [record_inc_of_ne (hz.ne_fresh hn hnu)])

theorem struck_record {k : K} (hn : L.Fresh n) (hr : n ∉ roots) (hA : n ∉ A') :
    Struck (L.record n A' X') (insert n roots) k ↔ k ∈ X' ∨ Struck L (roots ∪ A') k := by
  have hnu : n ∉ roots ∪ A' := fun h => h.elim hr hA
  constructor
  · rintro ⟨z, hz, hk⟩
    rcases (drawn_record hn hr hA).mp hz with rfl | hz'
    · rw [record_exc_self] at hk
      exact .inl hk
    · rw [record_exc_of_ne (hz'.ne_fresh hn hnu)] at hk
      exact .inr ⟨z, hz', hk⟩
  · rintro (hk | ⟨z, hz, hk⟩)
    · exact ⟨n, .root (.inl rfl), by rwa [record_exc_self]⟩
    · exact ⟨z, (drawn_record hn hr hA).mpr (.inr hz), by rwa [record_exc_of_ne (hz.ne_fresh hn hnu)]⟩

theorem ignored_record {k : K} (hJ : n ∉ J) :
    Ignored (L.record n A' X') (insert n J) k ↔ Ignored L J k := by
  constructor
  · rintro ⟨z, rfl | hz, hk⟩
    · rw [record_ign_self] at hk
      exact hk.elim
    · have hne : z ≠ n := fun e => hJ (e ▸ hz)
      rw [record_ign_of_ne hne] at hk
      exact ⟨z, hz, hk⟩
  · rintro ⟨z, hz, hk⟩
    have hne : z ≠ n := fun e => hJ (e ▸ hz)
    exact ⟨z, .inr hz, by rwa [record_ign_of_ne hne]⟩

/-- For the old keys, the equation of the selection in terms of the old lists; the new key satisfies its own. -/
theorem solves_record {S : Set K} (hn : L.Fresh n) (hr : n ∉ roots) (hA : n ∉ A') (hX : n ∉ X') (hS : n ∉ S) :
    Solves (L.record n A' X') (insert n roots) (insert n S) ↔ ∀ k, k ≠ n →
      (k ∈ S ↔ Drawn L.inc (roots ∪ A') k ∧ ¬ (k ∈ X' ∨ Struck L (roots ∪ A') k) ∧ ¬ Ignored L S k) := by
  constructor
  · intro h k hk
    have := h k
    rwa [drawn_record hn hr hA, struck_record hn hr hA, ignored_record hS, Set.mem_insert_iff,
      or_iff_right hk, or_iff_right hk] at this
  · intro h k
    rw [drawn_record hn hr hA, struck_record hn hr hA, ignored_record hS, Set.mem_insert_iff]
    by_cases hk : k = n
    · subst hk
      refine iff_of_true (.inl rfl) ⟨.inl rfl, ?_, ?_⟩
      · rintro (h | ⟨z, -, h⟩)
        · exact hX h
        · exact (hn z).2.1 h
      · rintro ⟨z, -, h⟩
        exact (hn z).2.2 h
    · rw [or_iff_right hk, or_iff_right hk]
      exact h k hk

/-- **The new key selects itself and the base selection with `A` added and `X` taken away exactly when the lists
are faithful.** The lists recorded name at least `A` and `X`, and nothing else. -/
theorem solves_record_iff (hn : L.Fresh n) (hr : n ∉ roots) (hA : n ∉ A') (hX : n ∉ X') (hJ : Solves L roots J)
    (hAA : A ⊆ A') (hXX : X ⊆ X') (hA' : A' ⊆ A ∪ X)
    (hX' : X' ⊆ A ∪ X) :
    Solves (L.record n A' X') (insert n roots) (insert n (J \ X ∪ A)) ↔ Faithful L roots J A X A' X' := by
  have hnJ : n ∉ J := fun h => ((hJ n).mp h).1.ne_fresh hn hr rfl
  have hnS : n ∉ J \ X ∪ A := fun h => h.elim (fun h => hnJ h.1) fun h => hA (hAA h)
  rw [solves_record hn hr hA hX hnS]
  exact ⟨faithful_of_forall hn hr hA hJ hAA hnS, fun h k _ => h.mem_iff hJ hAA hXX hA' hX' k⟩

end

/-! ### Fewer roots -/

/-- A sweep decides nothing about a key that no list names. -/
theorem sweep_frame {op : Set K → Set K → Set K} (hop : ∀ I J k, k ∉ J → (k ∈ op I J ↔ k ∈ I)) {f : K → Set K}
    {ys : List K} {k : K} (hk : ∀ z ∈ ys, k ∉ f z) (I : Set K) : k ∈ sweep op f ys I ↔ k ∈ I := by
  induction ys generalizing I with
  | nil => rfl
  | cons y ys ih =>
    rw [sweep_cons, ih fun z hz => hk z (List.mem_cons_of_mem y hz)]
    by_cases hy : y ∈ I
    · rw [turn_of_mem hy]
      exact hop I (f y) k (hk y List.mem_cons_self)
    · rw [turn_of_notMem hy]

theorem sweep_append (op : Set K → Set K → Set K) (f : K → Set K) (xs ys : List K) (I : Set K) :
    sweep op f (xs ++ ys) I = sweep op f ys (sweep op f xs I) := List.foldl_append ..

/-- The keys of `C` that are selected, if `J₀` is what is selected of the others. -/
def LateSelection (L : References K) (roots J₀ C W : Set K) : Prop :=
  ∀ k, k ∈ W ↔ k ∈ C ∧ Drawn L.inc roots k ∧ ¬ Struck L roots k ∧ ¬ Ignored L J₀ k ∧ ¬ Ignored L W k

/-- There is at most one late selection. -/
theorem LateSelection.unique [LinearOrder K] {L : References K} {roots J₀ C W W' : Set K}
    (h : LateSelection L roots J₀ C W) (h' : LateSelection L roots J₀ C W') (hfin : {k | Drawn L.inc roots k}.Finite)
    (hign : ∀ z, ∀ k ∈ L.ign z, k < z) : W = W' := by
  -- it is the selection by the ignore lists alone, from the keys that nothing else leaves out
  let L' : References K := ⟨fun _ => ∅, fun _ => ∅, L.ign⟩
  let roots' : Set K := {k | k ∈ C ∧ Drawn L.inc roots k ∧ ¬ Struck L roots k ∧ ¬ Ignored L J₀ k}
  have hdrawn : ∀ k, Drawn L'.inc roots' k ↔ k ∈ roots' := by
    intro k
    constructor
    · intro h
      cases h with
      | root hk => exact hk
      | list _ hk => exact hk.elim
    · exact .root
  have hsolve : ∀ W, LateSelection L roots J₀ C W → Solves L' roots' W := by
    intro W hW k
    have hns : ¬ Struck L' roots' k := by
      rintro ⟨_, _, hk⟩
      exact hk
    rw [hW k, hdrawn, and_iff_right hns]
    show _ ↔ (_ ∧ _ ∧ _ ∧ _) ∧ ¬ Ignored L W k
    tauto
  refine (hsolve W h).unique (hsolve W' h') (hfin.subset ?_) hign
  intro k hk
  exact ((hdrawn k).mp hk).2.1

/-- What makes a selection, with the keys `C` cut from it, forget the roots that a smaller selection `J₀` starts
without. `W` are the selected keys among those cut. -/
structure Forgets (L : References K) (roots roots₀ J₀ C W : Set K) : Prop where
  /-- No key of the smaller selection is cut. -/
  uncut : ∀ k ∈ J₀, k ∉ C
  /-- No key of the smaller selection is excluded. -/
  kept : ∀ k ∈ J₀, ¬ Struck L roots k
  /-- No key of the smaller selection is ignored by a key that is cut. -/
  heeded : ∀ k ∈ J₀, ¬ Ignored L W k
  /-- Whatever else the additional roots draw in is cut, or left out again. -/
  dragged : ∀ k, Drawn L.inc roots k → ¬ Drawn L.inc roots₀ k → k ∉ C →
    Struck L roots k ∨ Ignored L (W ∪ J₀) k

/-- The keys that are cut from a selection are the late selection, if `J₀` is what is left. -/
theorem lateSelection_inter {L : References K} {roots J J₀ C : Set K} (hJ : Solves L roots J) (h : J \ C = J₀) :
    LateSelection L roots J₀ C (J ∩ C) := by
  intro k
  rw [Set.mem_inter_iff, hJ k]
  have hig : Ignored L J k ↔ Ignored L J₀ k ∨ Ignored L (J ∩ C) k := by
    rw [← ignored_union, ← h, Set.sdiff_union_inter]
  rw [hig]
  tauto

/-- The two parts of a selection that forgets are a selection from all the roots. -/
theorem Forgets.solves {L : References K} {roots roots₀ J₀ C W : Set K} (h : Forgets L roots roots₀ J₀ C W)
    (hJ₀ : Solves L roots₀ J₀) (hr : roots₀ ⊆ roots) (hW : LateSelection L roots J₀ C W) : Solves L roots (W ∪ J₀) := by
  intro k
  rw [ignored_union, not_or]
  constructor
  · rintro (hk | hk)
    · obtain ⟨-, hd, hns, hi, hi'⟩ := (hW k).mp hk
      exact ⟨hd, hns, hi', hi⟩
    · obtain ⟨hd, -, hi⟩ := (hJ₀ k).mp hk
      exact ⟨hd.mono hr, h.kept k hk, h.heeded k hk, hi⟩
  · rintro ⟨hd, hns, hiW, hi⟩
    by_cases hC : k ∈ C
    · exact .inl ((hW k).mpr ⟨hC, hd, hns, hi, hiW⟩)
    · right
      by_cases hd₀ : Drawn L.inc roots₀ k
      · refine (hJ₀ k).mpr ⟨hd₀, ?_, hi⟩
        rintro ⟨z, hz, hk⟩
        exact hns ⟨z, hz.mono hr, hk⟩
      · rcases h.dragged k hd hd₀ hC with hs | hg
        · exact absurd hs hns
        · exact ((ignored_union.mp hg).elim hiW hi).elim

/-- **When a selection from more roots, with the keys `C` cut from it, is the selection from fewer.** -/
theorem diff_eq_iff [LinearOrder K] {L : References K} {roots roots₀ J J₀ C W : Set K} (hJ : Solves L roots J)
    (hJ₀ : Solves L roots₀ J₀) (hr : roots₀ ⊆ roots) (hfin : {k | Drawn L.inc roots k}.Finite)
    (hign : ∀ z, ∀ k ∈ L.ign z, k < z) (hW : LateSelection L roots J₀ C W) :
    J \ C = J₀ ↔ Forgets L roots roots₀ J₀ C W := by
  constructor
  · intro h
    have hJ₀J : ∀ k ∈ J₀, k ∈ J := fun k hk => (h.symm.subset hk).1
    have hJsplit : ∀ k ∈ J, k ∈ C ∨ k ∈ J₀ := by
      intro k hk
      by_cases hC : k ∈ C
      · exact .inl hC
      · exact .inr (h.subset ⟨hk, hC⟩)
    have hWJ : W = J ∩ C := hW.unique (lateSelection_inter hJ h) hfin hign
    refine ⟨fun k hk => (h.symm.subset hk).2, fun k hk => ((hJ k).mp (hJ₀J k hk)).2.1, ?_, ?_⟩
    · rintro k hk ⟨z, hz, hkz⟩
      rw [hWJ] at hz
      exact ((hJ k).mp (hJ₀J k hk)).2.2 ⟨z, hz.1, hkz⟩
    · intro k hd hnd hC
      by_contra hc
      rw [not_or] at hc
      have hk : k ∈ J := by
        refine (hJ k).mpr ⟨hd, hc.1, ?_⟩
        rintro ⟨z, hz, hkz⟩
        refine hc.2 ⟨z, ?_, hkz⟩
        rcases hJsplit z hz with hzC | hz₀
        · exact .inl (hWJ ▸ ⟨hz, hzC⟩)
        · exact .inr hz₀
      exact hnd ((hJ₀ k).mp (h.subset ⟨hk, hC⟩)).1
  · intro hF
    rw [hJ.unique (hF.solves hJ₀ hr hW) hfin hign]
    ext k
    constructor
    · rintro ⟨hk | hk, hC⟩
      · exact absurd ((hW k).mp hk).1 hC
      · exact hk
    · intro hk
      exact ⟨.inr hk, hF.uncut k hk⟩

/-- What is selected of the keys `C` exists, when finitely many keys are drawn. -/
theorem exists_lateSelection [LinearOrder K] {L : References K} {roots : Set K} (J₀ C : Set K)
    (hfin : {k | Drawn L.inc roots k}.Finite) (hign : ∀ z, ∀ k ∈ L.ign z, k < z) :
    ∃ W, LateSelection L roots J₀ C W := by
  classical
  -- a downward sweep over the keys drawn
  let ys : List K := hfin.toFinset.sort (· ≥ ·)
  have hys : ys.Pairwise (· > ·) := (Finset.sortedGT_sort _).pairwise
  have hmem : ∀ k, k ∈ ys ↔ Drawn L.inc roots k := by
    intro k
    simp [ys]
  let I : Set K := {k | k ∈ C ∧ Drawn L.inc roots k ∧ ¬ Struck L roots k ∧ ¬ Ignored L J₀ k}
  refine ⟨sweep (· \ ·) L.ign ys I, fun k => ?_⟩
  have hsub : ∀ z ∈ sweep (· \ ·) L.ign ys I, z ∈ ys := by
    intro z hz
    exact (hmem z).mpr ((sweep_diff_down hys hign I z).mp hz).1.2.1
  rw [sweep_diff_down hys hign]
  constructor
  · rintro ⟨⟨hC, hd, hns, hi⟩, hg⟩
    refine ⟨hC, hd, hns, hi, ?_⟩
    rintro ⟨z, hz, hk⟩
    exact hg z (hsub z hz) hz hk
  · rintro ⟨hC, hd, hns, hi, hg⟩
    exact ⟨⟨hC, hd, hns, hi⟩, fun z _ hz hk => hg ⟨z, hz, hk⟩⟩

end CSSC.Library.Selection
