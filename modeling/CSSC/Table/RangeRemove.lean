import CSSC.Library.RangePieces
import CSSC.Table.RangeLists

/-!
# Merging and removing lists of ranges

`merge` appends a copy of the other list and cleans. `remove` walks over the other list, and for each range of it over
this list, and changes the ranges in place. A range that is strictly inside splits: a new node for the part before it
takes the place of the first node of the list, and the range of the other list is moved behind the node that was
split. Both functions return the other list too, as they may change it.

For SIDs on the trunk with a level, or on one branch (`Kind`), merging gives the union. Removing gives the difference
exactly if what the ranges of the other list leave of each range of this one is right: nothing splits, something is
left, and nothing is left that should not be (`SidList.merge_remove_iff`). For lists in order, such as `clean` leaves
where no range ends with the largest number (`SidList.separated_of_clean`), that comes to conditions on two ranges at
a time (`SidList.leaves_iff_of_separated`). `1.2.1.7-1.2.1.14` without `1.2.1.10` is `1.2.1.7-1.2.1.9`
(`SidList.remove_loses_upper_part`).
-/

namespace CSSC.Table

open CSSC.Library.Ranges

namespace SidList

/-! ### The functions -/

/-- The first two tests of `remove`: `sp` is cut out of `dp` at its start, and at its end. -/
def cutNode (sp dp : Sid × Sid) : Sid × Sid :=
  (if sp.1.le dp.1 && sp.2.greaterEq dp.1 then sp.2.next else dp.1,
    if sp.2.greaterEq dp.2 && sp.1.le dp.2 then sp.1.prev else dp.2)

/-- The third test: `sp` is strictly inside. -/
def splits (sp dp : Sid × Sid) : Bool := sp.1.greater dp.1 && sp.2.lt dp.2

/-- The inner loop of `remove` over the nodes after the first one: `sp`, the first node and these nodes at its end. -/
def removeRest (sp head : Sid × Sid) : SidList → (Sid × Sid) × (Sid × Sid) × SidList
  | [] => (sp, head, [])
  | dp :: l =>
    let c := cutNode sp dp
    if splits sp c then
      -- the new node is linked to the second node, and becomes the first
      let r := removeRest (c.2.next, sp.2) (c.1, sp.1.prev) l
      (r.1, r.2.1, c :: r.2.2)
    else
      let r := removeRest sp head l
      (r.1, r.2.1, c :: r.2.2)

/-- The inner loop of `remove`. -/
def removePass (sp head : Sid × Sid) (tail : SidList) : (Sid × Sid) × (Sid × Sid) × SidList :=
  let c := cutNode sp head
  if splits sp c then removeRest (c.2.next, sp.2) (c.1, sp.1.prev) tail else removeRest sp c tail

/-- The outer loop of `remove`: the other list, the first node and the others. -/
def removeLoop (head : Sid × Sid) (tail : SidList) : SidList → SidList × (Sid × Sid) × SidList
  | [] => ([], head, tail)
  | sp :: list =>
    let r := removePass sp head tail
    let s := removeLoop r.2.1 r.2.2 list
    (r.1 :: s.1, s.2)

/-- `remove`: this list and the other one; `none` is a list that is not valid. -/
def remove : Option SidList → Option SidList → Option SidList × Option SidList
  | some (head :: tail), some (sp :: list) =>
    let r := removeLoop head tail (sp :: list)
    (clean (r.2.1 :: r.2.2), some r.1)
  | l, list => (l, list)

/-- `merge`: this list and the other one. -/
def merge : Option SidList → Option SidList → Option SidList × Option SidList
  | some l, some (sp :: list) => (clean (l ++ sp :: list), some (sp :: list))
  | l, list => (l, list)

/-! ### Kinds of SIDs -/

/-- SIDs on the trunk with a level, or SIDs on one branch. -/
inductive Kind
  /-- The trunk. -/
  | trunk
  /-- A branch. -/
  | branch (rel level branch : Int16)
  deriving DecidableEq, Repr

namespace Kind

/-- The SIDs of the kind. -/
def Has : Kind → Sid → Prop
  | trunk, s => 0 < s.rel ∧ 0 < s.level ∧ s.branch = 0 ∧ s.sequence = 0
  | branch r l b, s => (0 < s.rel ∧ 0 < s.level ∧ 0 < s.branch ∧ 0 < s.sequence) ∧ s.rel = r ∧ s.level = l ∧ s.branch = b

/-- The SIDs of the kind, and those that a step from them leads to. -/
def Near : Kind → Sid → Prop
  | trunk, s => 0 < s.rel ∧ s.branch = 0 ∧ s.sequence = 0
  | branch r l b, s => (0 < s.rel ∧ 0 < s.branch) ∧ s.rel = r ∧ s.level = l ∧ s.branch = b

/-- What the order on the kind compares. -/
def Lt : Kind → Sid → Sid → Prop
  | trunk, a, b => a.rel < b.rel ∨ a.rel = b.rel ∧ a.level < b.level
  | branch .., a, b => a.sequence < b.sequence

/-- The same, or less. -/
def Le : Kind → Sid → Sid → Prop
  | trunk, a, b => a.rel < b.rel ∨ a.rel = b.rel ∧ a.level ≤ b.level
  | branch .., a, b => a.sequence ≤ b.sequence

/-- One step up. -/
def up : Kind → Sid → Sid
  | trunk, s => { s with level := s.level + 1 }
  | branch .., s => { s with sequence := s.sequence + 1 }

/-- One step down. -/
def down : Kind → Sid → Sid
  | trunk, s => { s with level := s.level - 1 }
  | branch .., s => { s with sequence := s.sequence - 1 }

variable {k : Kind} {s : Sid}

theorem ne_zero_of_pos {x : Int16} (h : 0 < x) : x ≠ 0 := fun he => by
  rw [he] at h
  exact absurd h (by decide)

theorem Has.near (h : k.Has s) : k.Near s := by
  cases k with
  | trunk => exact ⟨h.1, h.2.2⟩
  | branch r l b => exact ⟨⟨h.1.1, h.1.2.2.1⟩, h.2⟩

theorem Has.plain (h : k.Has s) : s.Plain := by
  cases k with
  | trunk =>
    obtain ⟨h1, h2, h3, h4⟩ := h
    exact ⟨h1, Int16.le_of_lt h2, h3 ▸ Int16.le_refl _, h4 ▸ Int16.le_refl _, fun _ => h3, fun _ => h4⟩
  | branch r l b =>
    obtain ⟨⟨h1, h2, h3, h4⟩, -⟩ := h
    exact ⟨h1, Int16.le_of_lt h2, Int16.le_of_lt h3, Int16.le_of_lt h4, fun he => absurd he (ne_zero_of_pos h2),
      fun he => absurd he (ne_zero_of_pos h3)⟩

/-- A number that is positive after counting up was counted up without wrapping around. -/
theorem lt_succ_of_pos {x : Int16} (h : 0 < x + 1) : x < x + 1 := by
  by_cases hx : x < 32767
  · exact Sid.lt_succ_self hx
  · have hmax : x = 32767 := by
      rw [← Int16.toInt_inj]
      rw [Int16.lt_iff_toInt_lt] at hx
      have := x.toInt_lt
      rw [show (32767 : Int16).toInt = 32767 from rfl] at *
      omega
    rw [hmax] at h
    exact absurd h (by decide)

/-- The SID after one of the kind. -/
theorem Has.next_eq (h : k.Has s) : s.next = k.up s := by
  cases k with
  | trunk =>
    rw [Sid.next, if_neg (by rw [h.2.2.1]; decide), if_pos (ne_zero_of_pos h.2.1)]
    rfl
  | branch r l b =>
    rw [Sid.next, if_pos (ne_zero_of_pos h.1.2.2.1)]
    rfl

/-- The SID before one of the kind. -/
theorem Has.prev_eq (h : k.Has s) : s.prev = k.down s := by
  cases k with
  | trunk =>
    rw [Sid.prev, if_neg (by rw [h.2.2.1]; decide), if_pos (ne_zero_of_pos h.2.1)]
    rfl
  | branch r l b =>
    rw [Sid.prev, if_pos (ne_zero_of_pos h.1.2.2.1)]
    rfl

theorem comparable_of_near {a b : Sid} (ha : k.Near a) (hb : k.Near b) : a.comparable b = true := by
  rw [Sid.comparable_iff]
  cases k with
  | trunk => exact ⟨by simpa [Sid.valid] using ha.1, by simpa [Sid.valid] using hb.1, ha.2.1.trans hb.2.1.symm, .inl ha.2.1⟩
  | branch r l c =>
    exact ⟨by simpa [Sid.valid] using ha.1.1, by simpa [Sid.valid] using hb.1.1, ha.2.2.2.trans hb.2.2.2.symm,
      .inr (.inl (ha.2.1.trans hb.2.1.symm))⟩

/-- What is compared within a kind. -/
theorem rank_lt_iff_of_near {a b : Sid} (ha : k.Near a) (hb : k.Near b) : a.rank < b.rank ↔ k.Lt a b := by
  rw [Sid.rank_lt_iff]
  cases k with
  | trunk => simp [Lt, ha.2.2, hb.2.2]
  | branch r l c => simp [Lt, ha.2.1, hb.2.1, ha.2.2.1, hb.2.2.1]

theorem rank_le_iff_of_near {a b : Sid} (ha : k.Near a) (hb : k.Near b) : a.rank ≤ b.rank ↔ k.Le a b := by
  rw [Sid.rank_le_iff]
  cases k with
  | trunk =>
    simp only [Le, ha.2.2, hb.2.2, Int16.le_refl, and_true]
    rw [← Int16.le_iff_lt_or_eq]
  | branch r l c => simp [Le, ha.2.1, hb.2.1, ha.2.2.1, hb.2.2.1]

theorem Has.next_near (h : k.Has s) : k.Near s.next := by
  rw [h.next_eq]
  cases k with
  | trunk => exact ⟨h.1, h.2.2⟩
  | branch r l b => exact ⟨⟨h.1.1, h.1.2.2.1⟩, h.2⟩

theorem Has.prev_near (h : k.Has s) : k.Near s.prev := by
  rw [h.prev_eq]
  cases k with
  | trunk => exact ⟨h.1, h.2.2⟩
  | branch r l b => exact ⟨⟨h.1.1, h.1.2.2.1⟩, h.2⟩

/-- What counting down does to a number above another one. -/
theorem le_pred_of_lt {x y : Int16} (h0 : 0 < y) (h : x < y) : x ≤ y - 1 := by
  rw [Int16.le_iff_toInt_le, toInt_pred (Int16.le_of_lt h0)]
  rw [Int16.lt_iff_toInt_lt] at h
  omega

/-- What counting up does to a number below another one. -/
theorem succ_le_of_lt {x y : Int16} (h : x < y) : x + 1 ≤ y := by
  rw [Int16.le_iff_toInt_le, toInt_succ h]
  rw [Int16.lt_iff_toInt_lt] at h
  omega

/-- Nothing is between a SID of the kind and the one before. -/
theorem Has.le_prev {x b : Sid} (hb : k.Has b) (hx : k.Near x) (hlt : x.rank < b.rank) : x.rank ≤ b.prev.rank := by
  rw [rank_le_iff_of_near hx hb.prev_near, hb.prev_eq]
  rw [rank_lt_iff_of_near hx hb.near] at hlt
  cases k with
  | trunk => exact hlt.imp_right fun h => ⟨h.1, le_pred_of_lt hb.2.1 h.2⟩
  | branch r l c => exact le_pred_of_lt hb.1.2.2.2 hlt

/-- Nothing is between a SID of the kind and the one after. -/
theorem Has.next_le {a x : Sid} (ha : k.Has a) (hx : k.Near x) (hlt : a.rank < x.rank) : a.next.rank ≤ x.rank := by
  rw [rank_le_iff_of_near ha.next_near hx, ha.next_eq]
  rw [rank_lt_iff_of_near ha.near hx] at hlt
  cases k with
  | trunk => exact hlt.imp_right fun h => ⟨h.1, succ_le_of_lt h.2⟩
  | branch r l c => exact succ_le_of_lt hlt

/-- A step up that does not wrap around stays in the kind. -/
theorem Has.next_has {a : Sid} (ha : k.Has a) (hlt : a.rank < a.next.rank) : k.Has a.next := by
  rw [rank_lt_iff_of_near ha.near ha.next_near, ha.next_eq] at hlt
  rw [ha.next_eq]
  cases k with
  | trunk =>
    refine ⟨ha.1, ?_, ha.2.2⟩
    rcases hlt with h | h
    · exact absurd h Int16.lt_irrefl
    · exact Int16.lt_trans ha.2.1 h.2
  | branch r l c => exact ⟨⟨ha.1.1, ha.1.2.1, ha.1.2.2.1, Int16.lt_trans ha.1.2.2.2 hlt⟩, ha.2⟩

/-- A step up to a SID of the kind does not wrap around. -/
theorem lt_next_of_has {a : Sid} (h : k.Has a.next) : a.rank < a.next.rank := by
  rw [Sid.rank_lt_iff]
  unfold Sid.next at h ⊢
  split_ifs at h ⊢ with h0 h1
  · cases k with
    | trunk => exact absurd h.2.2.1 h0
    | branch r l c => exact .inr ⟨rfl, .inr ⟨rfl, lt_succ_of_pos h.1.2.2.2⟩⟩
  · cases k with
    | trunk => exact .inr ⟨rfl, .inl (lt_succ_of_pos h.2.1)⟩
    | branch r l c => exact absurd h0 (by simpa using ne_zero_of_pos h.1.2.2.1)
  · cases k with
    | trunk => exact absurd (not_not.mp h1) (ne_zero_of_pos h.2.1)
    | branch r l c => exact absurd h0 (by simpa using ne_zero_of_pos h.1.2.2.1)

/-- A step up is undone by a step down. -/
theorem Has.prev_next {a : Sid} (ha : k.Has a) : a.next.prev = a := by
  rw [ha.next_eq]
  cases k with
  | trunk =>
    have hne : a.level + 1 ≠ 0 := fun he => by
      have h1 : a.level = -1 := by
        rw [← Int16.add_sub_cancel a.level 1, he]
        rfl
      exact absurd (h1 ▸ ha.2.1 : (0 : Int16) < -1) (by decide)
    show Sid.prev { a with level := a.level + 1 } = a
    rw [Sid.prev, if_neg (by rw [ha.2.2.1]; decide), if_pos hne]
    simp [Int16.add_sub_cancel]
  | branch r l c =>
    show Sid.prev { a with sequence := a.sequence + 1 } = a
    rw [Sid.prev, if_pos (ne_zero_of_pos ha.1.2.2.1)]
    simp [Int16.add_sub_cancel]

/-- The number that a SID of the kind ends with. -/
def lastOf : Kind → Sid → Int16
  | trunk, s => s.level
  | branch .., s => s.sequence

/-- A step up that wraps around starts from the largest number. -/
theorem Has.max_of_wrap {a : Sid} (ha : k.Has a) (hwrap : a.next.rank ≤ a.rank) (x : Int16) : x ≤ k.lastOf a := by
  rw [rank_le_iff_of_near ha.next_near ha.near, ha.next_eq] at hwrap
  have hle : k.lastOf a + 1 ≤ k.lastOf a := by
    cases k with
    | trunk => exact hwrap.elim (fun h => absurd h Int16.lt_irrefl) And.right
    | branch r l c => exact hwrap
  by_contra hlt
  have hsucc := toInt_succ (Int16.not_le.mp hlt)
  rw [Int16.le_iff_toInt_le] at hle
  omega

/-- What comes after the largest number is below the positive ones. -/
theorem succ_max_lt {x y : Int16} (hmax : ∀ z, z ≤ x) (hy : 0 < y) : x + 1 < y := by
  have hx : x = 32767 := Int16.le_antisymm (Int16.le_iff_toInt_le.mpr (Int.le_of_lt_add_one x.toInt_lt)) (hmax 32767)
  rw [hx]
  exact Int16.lt_of_le_of_lt (by decide) hy

/-- **The SIDs of a kind are on a line.** -/
theorem line (k : Kind) : Line Sid.steps Sid.rank (fun a b => a.comparable b = true) k.Near k.Has where
  ranked := Sid.ranked
  cmp _ _ := comparable_of_near
  mem _ h := h.near
  next_mem _ h := h.next_near
  prev_mem _ h := h.prev_near
  prev_lt _ h := h.plain.prev_lt
  le_prev _ _ hx hb := hb.le_prev hx
  next_le _ _ ha hx := ha.next_le hx
  next_kind _ ha := ha.next_has
  lt_next _ h := lt_next_of_has h
  prev_next _ ha := ha.prev_next

/-- **The releases are blocks.** -/
theorem blocks (k : Kind) : Blocks Sid.steps Sid.rank k.Near k.Has fun s => s.rel.toInt where
  mono a b ha hb hle := by
    rw [rank_le_iff_of_near ha hb] at hle
    apply Int16.le_iff_toInt_le.mp
    cases k with
    | trunk => exact hle.elim Int16.le_of_lt fun h => h.1 ▸ Int16.le_refl _
    | branch r l c =>
      rw [ha.2.1, hb.2.1]
      exact Int16.le_refl _
  next a ha := by
    show a.next.rel.toInt = a.rel.toInt
    rw [ha.next_eq]
    cases k <;> rfl
  prev a ha := by
    show a.prev.rel.toInt = a.rel.toInt
    rw [ha.prev_eq]
    cases k <;> rfl
  top a b ha hwrap hb hle := by
    have hmax := ha.max_of_wrap hwrap
    rw [rank_le_iff_of_near hb ha.near]
    cases k with
    | trunk => exact (Int16.le_iff_lt_or_eq.mp (Int16.le_iff_toInt_le.mpr hle)).imp_right fun h => ⟨h, hmax b.level⟩
    | branch r l c => exact hmax b.sequence
  bottom a b ha hwrap hb hle := by
    show a.next.rank < b.rank
    have hmax := ha.max_of_wrap hwrap
    have hle := Int16.le_iff_lt_or_eq.mp (Int16.le_iff_toInt_le.mpr hle)
    rw [rank_lt_iff_of_near ha.next_near hb.near, ha.next_eq]
    cases k with
    | trunk => exact hle.imp_right fun h => ⟨h, succ_max_lt hmax hb.2.1⟩
    | branch r l c => exact succ_max_lt hmax hb.1.2.2.2
  ground a b ha hnot hb hle := by
    show a.prev.rank < b.rank
    have hnot : ¬ k.Has a.prev := hnot
    have hle := Int16.le_iff_lt_or_eq.mp (Int16.le_iff_toInt_le.mpr hle)
    rw [ha.prev_eq] at hnot
    rw [rank_lt_iff_of_near ha.prev_near hb.near, ha.prev_eq]
    cases k with
    | trunk =>
      have hlevel : ¬ 0 < a.level - 1 := fun h => hnot ⟨ha.1, h, ha.2.2⟩
      exact hle.imp_right fun h => ⟨h, Int16.lt_of_le_of_lt (Int16.not_lt.mp hlevel) hb.2.1⟩
    | branch r l c =>
      have hsequence : ¬ 0 < a.sequence - 1 := fun h => hnot ⟨⟨ha.1.1, ha.1.2.1, ha.1.2.2.1, h⟩, ha.2⟩
      exact Int16.lt_of_le_of_lt (Int16.not_lt.mp hsequence) hb.1.2.2.2

end Kind

/-! ### The walk -/

/-- What the walk over the nodes after the first one does: nothing splits, and each is cut; or the range of the other list
is moved behind a node that ends after it. -/
theorem removeRest_cases (sp head : Sid × Sid) (l : SidList) :
    ((∀ c ∈ l, splits sp (cutNode sp c) = false) ∧ removeRest sp head l = (sp, head, l.map (cutNode sp))) ∨
      (∃ c ∈ l, splits sp (cutNode sp c) = true) ∧ ∃ a, sp.2.lt a = true ∧ (removeRest sp head l).1 = (a.next, sp.2) := by
  induction l generalizing sp head with
  | nil => exact .inl ⟨by simp, rfl⟩
  | cons dp l ih =>
    rw [removeRest, List.exists_mem_cons_iff, List.forall_mem_cons]
    by_cases hs : splits sp (cutNode sp dp) = true
    · simp only [hs, if_true]
      have hlt : sp.2.lt (cutNode sp dp).2 = true := (Bool.and_eq_true_iff.mp hs).2
      refine .inr ⟨.inl trivial, ?_⟩
      rcases ih ((cutNode sp dp).2.next, sp.2) ((cutNode sp dp).1, sp.1.prev) with ⟨-, h⟩ | ⟨-, a, ha, h⟩
      · exact ⟨_, hlt, by rw [h]⟩
      · exact ⟨a, ha, h⟩
    · rw [Bool.not_eq_true] at hs
      simp only [hs, Bool.false_eq_true, if_false]
      rcases ih sp head with ⟨hall, h⟩ | ⟨hex, a, ha, h⟩
      · exact .inl ⟨⟨trivial, hall⟩, by rw [h]; rfl⟩
      · exact .inr ⟨.inr hex, a, ha, h⟩

/-- What the walk over all nodes does. -/
theorem removePass_cases (sp head : Sid × Sid) (tail : SidList) :
    ((∀ c ∈ head :: tail, splits sp (cutNode sp c) = false) ∧
        removePass sp head tail = (sp, cutNode sp head, tail.map (cutNode sp))) ∨
      (∃ c ∈ head :: tail, splits sp (cutNode sp c) = true) ∧
        ∃ a, sp.2.lt a = true ∧ (removePass sp head tail).1 = (a.next, sp.2) := by
  rw [removePass, List.exists_mem_cons_iff, List.forall_mem_cons]
  by_cases hs : splits sp (cutNode sp head) = true
  · simp only [hs, if_true]
    have hlt : sp.2.lt (cutNode sp head).2 = true := (Bool.and_eq_true_iff.mp hs).2
    refine .inr ⟨.inl trivial, ?_⟩
    rcases removeRest_cases ((cutNode sp head).2.next, sp.2) ((cutNode sp head).1, sp.1.prev) tail with
      ⟨-, h⟩ | ⟨-, a, ha, h⟩
    · exact ⟨_, hlt, by rw [h]⟩
    · exact ⟨a, ha, h⟩
  · rw [Bool.not_eq_true] at hs
    simp only [hs, Bool.false_eq_true, if_false]
    rcases removeRest_cases sp (cutNode sp head) tail with ⟨hall, h⟩ | ⟨hex, a, ha, h⟩
    · exact .inl ⟨⟨trivial, hall⟩, h⟩
    · exact .inr ⟨.inr hex, a, ha, h⟩

/-- If nothing splits, each range of the other list is cut out of each node, and the other list stays as it is. -/
theorem removeLoop_of_noSplit {list : SidList} {head : Sid × Sid} {tail : SidList}
    (h : ∀ d ∈ head :: tail, NoSplit Sid.steps list d) : removeLoop head tail list =
      (list, cutAll Sid.steps list head, tail.map (cutAll Sid.steps list)) := by
  induction list generalizing head tail with
  | nil =>
    rw [removeLoop, show cutAll Sid.steps [] = id from rfl, List.map_id]
    rfl
  | cons sp list ih =>
    rcases removePass_cases sp head tail with ⟨-, hpass⟩ | ⟨⟨c, hc, hs⟩, -⟩
    · rw [removeLoop, hpass]
      simp only
      rw [ih fun d hd => ?_, List.map_map]
      · rfl
      · rw [← List.map_cons] at hd
        obtain ⟨c, hc, rfl⟩ := List.mem_map.mp hd
        exact (h c hc).2
    · have hn : splits sp (cutNode sp c) = false := (h c hc).1
      rw [hn] at hs
      cases hs

/-- If the other list stays as it is, nothing has split. -/
theorem noSplit_of_removeLoop {k : Kind} {list : SidList} (hk : ∀ p ∈ list, k.Has p.1)
    (hle : ∀ p ∈ list, p.1.le p.2 = true) {head : Sid × Sid} {tail : SidList} (h : (removeLoop head tail list).1 = list) :
    ∀ d ∈ head :: tail, NoSplit Sid.steps list d := by
  induction list generalizing head tail with
  | nil => exact fun d _ => trivial
  | cons sp list ih =>
    rw [removeLoop] at h
    simp only [List.cons.injEq] at h
    rcases removePass_cases sp head tail with ⟨hall, hpass⟩ | ⟨-, a, ha, hpass⟩
    · rw [hpass] at h
      have hlist : ∀ d ∈ (head :: tail).map (cutNode sp), NoSplit Sid.steps list d :=
        ih (fun p hp => hk p (List.mem_cons_of_mem sp hp)) (fun p hp => hle p (List.mem_cons_of_mem sp hp)) h.2
      exact fun d hd => ⟨hall d hd, hlist _ (List.mem_map_of_mem hd)⟩
    · -- the range would have been moved
      have hfirst : a.next = sp.1 := by
        have := h.1
        rw [hpass] at this
        exact (Prod.ext_iff.mp this).1
      have h1 := k.line.lt_next a (show k.Has a.next from hfirst ▸ hk sp List.mem_cons_self)
      have h1 : a.rank < a.next.rank := h1
      rw [hfirst] at h1
      have h2 := (Sid.le_iff.mp (hle sp List.mem_cons_self)).2
      exact absurd ((h1.trans_le h2).trans (Sid.lt_iff.mp ha).2) (lt_irrefl _)

/-! ### What the functions compute -/

/-- Ranges of SIDs of the kind, none of which is empty. -/
structure OfKind (k : Kind) (l : SidList) : Prop where
  /-- No range is empty. -/
  ranges : ∀ r ∈ l, r.1.le r.2 = true
  /-- The ends are of the kind. -/
  ends : ∀ r ∈ l, k.Has r.1 ∧ k.Has r.2

/-- A valid list of SIDs of the kind: what `clean` leaves of ranges of such SIDs. -/
def ListOf (k : Kind) (l : SidList) : Prop := ∃ items, OfKind k items ∧ clean items = some l

/-- After merging, this list has the members of both, and the other one is unchanged. -/
def MergeIsUnion (k : Kind) (x y : SidList) : Prop :=
  ∃ m, merge (some x) (some y) = (some m, some y) ∧
    ∀ s, k.Has s → (m.member s = true ↔ x.member s = true ∨ y.member s = true)

/-- After removing, this list is valid and has the members that are not in the other one, which is unchanged. -/
def RemoveIsDifference (k : Kind) (x y : SidList) : Prop :=
  ∃ m, remove (some x) (some y) = (some m, some y) ∧
    ∀ s, k.Has s → (m.member s = true ↔ x.member s = true ∧ ¬ y.member s = true)

theorem member_eq (l : SidList) (s : Sid) : l.member s = Library.Ranges.member Sid.steps l s := rfl

/-- **Merging gives the union.** -/
theorem mergeIsUnion {k : Kind} {x y : SidList} (hx : OfKind k x) (hy : OfKind k y) : MergeIsUnion k x y := by
  cases y with
  | nil =>
    refine ⟨x, rfl, fun s _ => ?_⟩
    simp [member]
  | cons sp list =>
    have hle : ∀ r ∈ x ++ sp :: list, Sid.steps.le r.1 r.2 = true := fun r hr =>
      (List.mem_append.mp hr).elim (hx.ranges r) (hy.ranges r)
    have hon : ∀ r ∈ x ++ sp :: list, On k.Has r := fun r hr => (List.mem_append.mp hr).elim (hx.ends r) (hy.ends r)
    obtain ⟨m, hm⟩ := Option.isSome_iff_exists.mp (Library.Ranges.cleanLoop_isSome_iff.mpr hle)
    refine ⟨m, by rw [merge, clean_eq, Library.Ranges.clean, hm], fun s hs => ?_⟩
    have hmem := member_clean_iff Sid.ranked (grouped_of_lines Sid.ranked (k.line.onLines hon)) hle hm hs
    rw [member_eq, hmem, member_append]
    rfl

/-- The releases of a valid list go up. -/
theorem ListOf.forward {k : Kind} {l : SidList} (h : ListOf k l) : OfKind k l ∧ Forward (fun s : Sid => s.rel.toInt) l := by
  obtain ⟨items, hitems, hclean⟩ := h
  rw [clean_eq] at hclean
  obtain ⟨hl, hf⟩ := k.line.forward_cleanLoop k.blocks hitems.ends (by simp) .nil hclean
  refine ⟨⟨fun r hr => ?_, fun r hr => (hl r hr).1⟩, hf⟩
  exact (k.line.le_iff (hl r hr).1.1.near (hl r hr).1.2.near).mpr (hl r hr).2

/-- **Removing gives the difference if and only if what the ranges of the other list leave of each range is right.** -/
theorem removeIsDifference_iff {k : Kind} {x y : SidList} (hx : ListOf k x) (hy : ListOf k y) :
    RemoveIsDifference k x y ↔ ∀ d ∈ x, Leaves Sid.steps k.Has x y d := by
  obtain ⟨hx, hxf⟩ := hx.forward
  obtain ⟨hy, hyf⟩ := hy.forward
  cases x with
  | nil =>
    refine iff_of_true ⟨[], by cases y <;> rfl, fun s _ => ?_⟩ (by simp)
    simp [member]
  | cons head tail =>
    cases y with
    | nil =>
      refine iff_of_true ⟨head :: tail, rfl, fun s _ => ?_⟩ fun d hd => ⟨trivial, hx.ranges d hd, fun s _ hin => ?_⟩
      · simp [member]
      · exact ⟨member_iff.mpr ⟨d, hd, hin⟩, by simp [Library.Ranges.member]⟩
    | cons sp list =>
      constructor
      · rintro ⟨m, hm, hdiff⟩
        rw [remove] at hm
        obtain ⟨hclean, hlist⟩ := Prod.mk.inj hm
        have hn := noSplit_of_removeLoop (fun p hp => (hy.ends p hp).1) hy.ranges (Option.some.inj hlist)
        rw [removeLoop_of_noSplit hn] at hclean
        have hclean : clean ((head :: tail).map (cutAll Sid.steps (sp :: list))) = some m := hclean
        rw [clean_eq] at hclean
        exact k.line.leaves_of_difference hx.ends hy.ends hn hclean hdiff
      · intro h
        have hle : ∀ r ∈ (head :: tail).map (cutAll Sid.steps (sp :: list)), Sid.steps.le r.1 r.2 = true := fun r hr => by
          obtain ⟨d, hd, rfl⟩ := List.mem_map.mp hr
          exact (h d hd).le
        obtain ⟨m, hm⟩ := Option.isSome_iff_exists.mp (Library.Ranges.cleanLoop_isSome_iff.mpr hle)
        refine ⟨m, ?_, fun s hs => k.line.member_clean_of_leaves k.blocks hx.ends (fun d hd => ?_) hxf hy.ends hyf h hm hs⟩
        · rw [remove]
          simp only [removeLoop_of_noSplit fun d hd => (h d hd).noSplit]
          rw [← List.map_cons, clean_eq, Library.Ranges.clean, hm]
        · exact (Sid.le_iff.mp (hx.ranges d hd)).2

/-- **Merging gives the union. Removing gives the difference if and only if what the ranges of the other list leave of each
range of this one is right.** -/
theorem merge_remove_iff {k : Kind} {x y : SidList} (hx : ListOf k x) (hy : ListOf k y) :
    MergeIsUnion k x y ∧ (RemoveIsDifference k x y ↔ ∀ d ∈ x, Leaves Sid.steps k.Has x y d) :=
  ⟨mergeIsUnion hx.forward.1 hy.forward.1, removeIsDifference_iff hx hy⟩

/-- For lists in order that is so if each range of the other list can be cut out of it. -/
theorem leaves_iff_of_separated {k : Kind} {x y : SidList} (hx : OfKind k x) (hy : OfKind k y)
    (hsy : Separated Sid.steps y) {d : Sid × Sid} (hd : d ∈ x) :
    Leaves Sid.steps k.Has x y d ↔ ∀ p ∈ y, Line.Removable Sid.steps k.Has x y d p :=
  k.line.leaves_iff_removable hsy hy.ends (hx.ends d hd) hd (Sid.le_iff.mp (hx.ranges d hd)).2

/-- A range of SIDs without the largest number is not wrapped around. -/
theorem stepped_of_lt {k : Kind} {r : Sid × Sid} (h : k.Has r.1 ∧ k.Has r.2)
    (hmax : r.2.level < 32767 ∧ r.2.sequence < 32767) : Line.Stepped Sid.steps Sid.rank k.Has r := by
  refine ⟨h, ?_⟩
  show r.2.rank < r.2.next.rank
  rw [Kind.rank_lt_iff_of_near h.2.near h.2.next_near, h.2.next_eq]
  cases k with
  | trunk => exact .inr ⟨rfl, Sid.lt_succ_self hmax.1⟩
  | branch rel level branch => exact Sid.lt_succ_self hmax.2

/-- **A list that `clean` leaves is in order**, if no range ends with the largest number. -/
theorem separated_of_clean {k : Kind} {items l : SidList} (h : clean items = some l)
    (hk : ∀ r ∈ items, k.Has r.1 ∧ k.Has r.2) (hmax : ∀ r ∈ items, r.2.level < 32767 ∧ r.2.sequence < 32767) :
    OfKind k l ∧ Separated Sid.steps l := by
  rw [clean_eq] at h
  obtain ⟨hs, hl⟩ := k.line.separated_cleanLoop (fun r hr => stepped_of_lt (hk r hr) (hmax r hr)) (by simp)
    ⟨by simp, .nil⟩ h
  exact ⟨⟨hs.ranges, fun r hr => (hl r hr).1⟩, hs⟩

/-- `1.2.1.5-1.2.1.32767,1.2.1.7` and `1.2.1.5-1.2.1.6`: the second is merged into the first, and removed from it. -/
theorem merge_remove_of_overlap :
    MergeIsUnion (.branch 1 2 1) [(⟨1, 2, 1, 5⟩, ⟨1, 2, 1, 32767⟩), (⟨1, 2, 1, 7⟩, ⟨1, 2, 1, 7⟩)]
        [(⟨1, 2, 1, 5⟩, ⟨1, 2, 1, 6⟩)] ∧
      RemoveIsDifference (.branch 1 2 1) [(⟨1, 2, 1, 5⟩, ⟨1, 2, 1, 32767⟩), (⟨1, 2, 1, 7⟩, ⟨1, 2, 1, 7⟩)]
        [(⟨1, 2, 1, 5⟩, ⟨1, 2, 1, 6⟩)] := by
  have hkind : ∀ q : Int16, 0 < q → (Kind.branch 1 2 1).Has ⟨1, 2, 1, q⟩ := fun q hq =>
    ⟨⟨show (0 : Int16) < 1 by decide, show (0 : Int16) < 2 by decide, show (0 : Int16) < 1 by decide, hq⟩, rfl, rfl, rfl⟩
  have hx : OfKind (.branch 1 2 1) [(⟨1, 2, 1, 7⟩, ⟨1, 2, 1, 7⟩), (⟨1, 2, 1, 5⟩, ⟨1, 2, 1, 32767⟩)] :=
    ⟨by simp; decide, by simpa using ⟨hkind 7 (by decide), hkind 5 (by decide), hkind 32767 (by decide)⟩⟩
  have hy : OfKind (.branch 1 2 1) [(⟨1, 2, 1, 5⟩, ⟨1, 2, 1, 6⟩)] :=
    ⟨by simp; decide, by simpa using ⟨hkind 5 (by decide), hkind 6 (by decide)⟩⟩
  obtain ⟨hm, hr⟩ := @merge_remove_iff (.branch 1 2 1) [(⟨1, 2, 1, 5⟩, ⟨1, 2, 1, 32767⟩), (⟨1, 2, 1, 7⟩, ⟨1, 2, 1, 7⟩)]
    [(⟨1, 2, 1, 5⟩, ⟨1, 2, 1, 6⟩)] ⟨_, hx, by decide⟩ ⟨_, hy, by decide⟩
  have hsep : Separated Sid.steps [((⟨1, 2, 1, 5⟩ : Sid), (⟨1, 2, 1, 6⟩ : Sid))] := ⟨by simp; decide, by simp⟩
  refine ⟨hm, hr.mpr fun d hd => (leaves_iff_of_separated (ListOf.forward ⟨_, hx, by decide⟩).1 hy hsep hd).mpr ?_⟩
  simp only [List.mem_singleton, forall_eq]
  simp only [List.mem_cons, List.not_mem_nil, or_false] at hd
  rcases hd with rfl | rfl
  · exact ⟨by decide, by decide, fun _ h => absurd h (by decide)⟩
  · exact ⟨by decide, fun _ h => absurd h (by decide), fun _ h => absurd h (by decide)⟩

/-- `1.2.1.7-1.2.1.14` without `1.2.1.10`: the part behind is lost, and the other list is changed. -/
theorem remove_loses_upper_part :
    remove (some [(⟨1, 2, 1, 7⟩, ⟨1, 2, 1, 14⟩)]) (some [(⟨1, 2, 1, 10⟩, ⟨1, 2, 1, 10⟩)]) =
        (some [(⟨1, 2, 1, 7⟩, ⟨1, 2, 1, 9⟩)], some [(⟨1, 2, 1, 15⟩, ⟨1, 2, 1, 10⟩)]) ∧
      ¬ RemoveIsDifference (.branch 1 2 1) [(⟨1, 2, 1, 7⟩, ⟨1, 2, 1, 14⟩)] [(⟨1, 2, 1, 10⟩, ⟨1, 2, 1, 10⟩)] := by
  have hrun : remove (some [(⟨1, 2, 1, 7⟩, ⟨1, 2, 1, 14⟩)]) (some [(⟨1, 2, 1, 10⟩, ⟨1, 2, 1, 10⟩)]) =
      (some [(⟨1, 2, 1, 7⟩, ⟨1, 2, 1, 9⟩)], some [(⟨1, 2, 1, 15⟩, ⟨1, 2, 1, 10⟩)]) := by decide
  refine ⟨hrun, ?_⟩
  rintro ⟨m, hm, -⟩
  rw [hrun] at hm
  exact absurd (Prod.mk.inj hm).2 (by decide)

end SidList

end CSSC.Table
