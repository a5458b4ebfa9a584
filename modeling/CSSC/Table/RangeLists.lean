import CSSC.Library.Ranges
import CSSC.Table.Requested
import CSSC.Table.SidText

/-!
# What a list of ranges means

A list of ranges is written as items with commas between them. The constructor of `range_list<sid>` merges items that
overlap, and items that touch: where one begins with the SID after the end of the other. SIDs are only partly ordered,
and the SID after a release is the next release. So a merge may add SIDs that are in none of the items (`2,1.7` includes
1.8, and `1.7,2` does not: `SidList.release_swallows_level`), and where items run from one branch to another it may lose
some.

The comparisons of SIDs are those of a rank (`Sid.ranked`), so that the library's lists of ranges can be used: the items
mean their union, in whatever order they are written, if in no order a merge adds or loses anything
(`SidList.union_of_soundInAnyOrder`). For items whose ends are all comparable, and for ordinary items on the trunk or on
single branches, they mean it only then. Such ordinary items are merged soundly if nothing is missing between two items
on the trunk that may be merged (`SidList.groupable_of_ordinary`).

Only SIDs that the constructor from four numbers accepts count as members (`Sid.Proper`).
-/

namespace CSSC.Table

open CSSC.Library.Ranges

/-! ### SIDs as points -/

namespace Sid

/-- The operators of `sid`. -/
def steps : Steps Sid := ⟨le, lt, greater, greaterEq, next, prev⟩

theorem comparable_iff {a b : Sid} : a.comparable b = true ↔
    a.valid = true ∧ b.valid = true ∧ a.branch = b.branch ∧ (a.branch = 0 ∨ a.rel = b.rel ∨ a.level = b.level) := by
  unfold comparable
  split_ifs with h1 h2 h3
  · simp only [Bool.or_eq_true, Bool.not_eq_true'] at h1
    refine iff_of_false id fun h => ?_
    rcases h1 with h1 | h1
    · rw [h.1] at h1
      cases h1
    · rw [h.2.1] at h1
      cases h1
  · exact iff_of_false id fun h => h2 h.2.2.1
  · refine iff_of_false id fun h => ?_
    rcases h.2.2.2 with h | h | h
    · exact h3.1 h
    · exact h3.2.1 h
    · exact h3.2.2 h
  · simp only [Bool.or_eq_true, Bool.not_eq_true', not_or, Bool.not_eq_false] at h1
    refine iff_of_true rfl ⟨h1.1, h1.2, not_not.mp h2, ?_⟩
    by_contra hn
    rw [not_or, not_or] at hn
    exact h3 hn

theorem le_iff {a b : Sid} : a.le b = true ↔ a.comparable b = true ∧ a.rank ≤ b.rank := by
  rw [le, Bool.and_eq_true, Bool.not_eq_true', ← Bool.not_eq_true, gt_iff, not_lt]

theorem lt_iff {a b : Sid} : a.lt b = true ↔ a.comparable b = true ∧ a.rank < b.rank := by
  rw [lt, Bool.and_eq_true, Bool.not_eq_true', ← Bool.not_eq_true, gte_iff, not_le]

/-- What is comparable with both ends of a range is comparable with what is between them. -/
theorem comparable_between {a b c x : Sid} (hab : a.le b = true) (hac : a.comparable c = true)
    (hbc : b.comparable c = true) (hax : a.le x = true) (hxb : x.le b = true) : x.comparable c = true := by
  obtain ⟨hab, hle⟩ := le_iff.mp hab
  obtain ⟨hax, h1⟩ := le_iff.mp hax
  obtain ⟨hxb, h2⟩ := le_iff.mp hxb
  rw [comparable_iff] at *
  obtain ⟨-, hvx, hbr, hax'⟩ := hax
  obtain ⟨-, -, hbr', hxb'⟩ := hxb
  obtain ⟨-, hvc, hac', hac⟩ := hac
  obtain ⟨-, -, -, hbc⟩ := hbc
  obtain ⟨-, -, -, hab⟩ := hab
  refine ⟨hvx, hvc, hbr.symm.trans hac', ?_⟩
  rw [rank_le_iff] at h1 h2
  have hrel : a.rel = b.rel → x.rel = a.rel := fun h => by
    rcases h1 with h1 | ⟨h1, -⟩
    · rcases h2 with h2 | ⟨h2, -⟩
      · exact absurd (Int16.lt_trans h1 (h ▸ h2)) Int16.lt_irrefl
      · exact h2.trans h.symm
    · exact h1.symm
  have hlevel : a.rel = b.rel → a.level = b.level → x.level = a.level := fun h h' => by
    have hx := hrel h
    rcases h1 with h1 | ⟨-, h1 | ⟨h1, -⟩⟩
    · exact absurd (hx ▸ h1) Int16.lt_irrefl
    · rcases h2 with h2 | ⟨-, h2 | ⟨h2, -⟩⟩
      · exact absurd (hx ▸ h ▸ h2) Int16.lt_irrefl
      · exact absurd (Int16.lt_trans h1 (h' ▸ h2)) Int16.lt_irrefl
      · exact h2.trans h'.symm
    · exact h1.symm
  by_cases h0 : x.branch = 0
  · exact .inl h0
  · have h0a : a.branch ≠ 0 := fun h => h0 (hbr.symm.trans h)
    have h0b : b.branch ≠ 0 := fun h => h0 (hbr'.trans h)
    have hab := hab.resolve_left h0a
    have hac := hac.resolve_left h0a
    have hbc := hbc.resolve_left h0b
    have hax := hax'.resolve_left h0a
    have hxb := hxb'.resolve_left h0
    -- both ends share the release, or both share the level
    grind

theorem ranked : Ranked steps rank (fun a b => a.comparable b = true) where
  le_iff _ _ := le_iff
  lt_iff _ _ := lt_iff
  gt_iff a b := by
    show a.greater b = true ↔ _
    rw [greater, Bool.and_eq_true, gt_iff]
  ge_iff a b := by
    show a.greaterEq b = true ↔ _
    rw [greaterEq, Bool.and_eq_true, gte_iff]
  symm a b h := by
    rw [comparable_iff] at h ⊢
    obtain ⟨h1, h2, h3, h4⟩ := h
    exact ⟨h2, h1, h3.symm, h4.imp (fun h => h3 ▸ h) (Or.imp Eq.symm Eq.symm)⟩
  between _ _ _ _ := comparable_between

/-- What the constructor from four numbers asserts. -/
structure Proper (s : Sid) : Prop where
  /-- No branch or sequence without a level. -/
  level : s.level = 0 → s.branch = 0 ∧ s.sequence = 0
  /-- No sequence without a branch. -/
  branch : s.branch = 0 → s.sequence = 0

end Sid

namespace SidList

theorem mergeLoop_eq (sp : Sid × Sid) (l : SidList) : mergeLoop sp l = Library.Ranges.mergeLoop Sid.steps sp l := by
  induction l generalizing sp with
  | nil => rfl
  | cons dp l ih =>
    rw [mergeLoop, Library.Ranges.mergeLoop, ih]
    rfl

theorem cleanLoop_eq (new l : SidList) : cleanLoop new l = Library.Ranges.cleanLoop Sid.steps new l := by
  induction l generalizing new with
  | nil => rfl
  | cons sp l ih =>
    rw [cleanLoop, Library.Ranges.cleanLoop, ih, sortIn, Library.Ranges.sortIn, mergeLoop_eq]
    rfl

theorem clean_eq (l : SidList) : clean l = Library.Ranges.clean Sid.steps l := cleanLoop_eq [] l

/-! ### Items -/

/-- The ranges that are written in a string. -/
def itemsOf (list : List UInt8) : SidList := ((list.splitOn 44).filter (· ≠ [])).map itemRange

/-- What the constructor does: the items are cleaned from the last to the first. -/
theorem ofText_eq_some_iff {list : List UInt8} {l : SidList} : ofText list = .ok (some l) ↔
    (∀ item ∈ list.splitOn 44, item.length ≤ 63) ∧ clean (itemsOf list).reverse = some l := by
  unfold ofText
  by_cases h : list = []
  · subst h
    simp [itemsOf, clean, cleanLoop, eq_comm]
  · rw [if_neg h]
    simp only
    split_ifs with hlong
    · refine iff_of_false (by simp) fun h' => ?_
      obtain ⟨item, hitem, hlt⟩ := List.any_eq_true.mp hlong
      have := h'.1 item hitem
      simp only [decide_eq_true_eq] at hlt
      omega
    · have hshort : ∀ item ∈ list.splitOn 44, item.length ≤ 63 := fun item hitem => by
        by_contra hlt
        exact hlong (List.any_eq_true.mpr ⟨item, hitem, by simpa using hlt⟩)
      exact ⟨fun h' => ⟨hshort, Except.ok.inj h'⟩, fun h' => congrArg Except.ok h'.2⟩

theorem cleanLoop_isSome_iff (new l : SidList) : (cleanLoop new l).isSome = true ↔ ∀ r ∈ l, r.1.le r.2 = true := by
  rw [cleanLoop_eq]
  exact Library.Ranges.cleanLoop_isSome_iff

/-- In a string that is accepted no item is empty. -/
theorem le_of_ofText {list : List UInt8} {l : SidList} (h : ofText list = .ok (some l)) :
    ∀ r ∈ itemsOf list, r.1.le r.2 = true := by
  have hclean : cleanLoop [] (itemsOf list).reverse = some l := (ofText_eq_some_iff.mp h).2
  have hle := (cleanLoop_isSome_iff [] _).mp (by rw [hclean]; rfl)
  exact fun r hr => hle r (List.mem_reverse.mpr hr)

/-- The items mean their union, in whatever order they are written. -/
def UnionInAnyOrder (list : List UInt8) : Prop :=
  ∀ list' l', (itemsOf list').Perm (itemsOf list) → ofText list' = .ok (some l') →
    ∀ x : Sid, x.Proper → (l'.member x = true ↔ ∃ r ∈ itemsOf list, r.1.le x = true ∧ x.le r.2 = true)

/-- In no order does a merge add a SID that is in none of the items, or lose one that is in no other range. -/
def SoundInAnyOrder (items : SidList) : Prop :=
  ∀ order : SidList, order.Perm items → SoundClean Sid.steps Sid.Proper items [] order

/-- **Items that are merged soundly mean their union.** -/
theorem SoundInAnyOrder.unionInAnyOrder {list : List UInt8} (h : SoundInAnyOrder (itemsOf list)) :
    UnionInAnyOrder list := by
  intro list' l' hperm hl' x hx
  obtain ⟨-, hclean⟩ := ofText_eq_some_iff.mp hl'
  have horder : (itemsOf list').reverse.Perm (itemsOf list) := (List.reverse_perm _).trans hperm
  rw [clean_eq] at hclean
  refine ((h _ horder).member hx hclean ?_).trans member_iff
  rw [member_iff, member_iff, member_iff]
  simp [horder.mem_iff]

/-- The items fall into groups that are kept apart, and nothing is missing in a group. -/
def Groupable (items : SidList) : Prop :=
  ∃ (κ : Type) (grp : Sid × Sid → κ), Grouped Sid.steps Sid.rank (fun a b => a.comparable b = true) Sid.Proper items grp

/-- **Items that can be grouped are merged soundly.** -/
theorem Groupable.soundInAnyOrder {items : SidList} (h : Groupable items) (hle : ∀ r ∈ items, r.1.le r.2 = true) :
    SoundInAnyOrder items := by
  intro order hperm
  obtain ⟨κ, grp, hg⟩ := h
  exact hg.soundClean Sid.ranked (L := []) (fun r hr => ⟨hperm.mem_iff.mp hr, hle r (hperm.mem_iff.mp hr)⟩)
    ⟨by simp, .nil⟩

end SidList

/-! ### Ordinary items -/

namespace Sid

/-- A SID that is read back, without the largest number. -/
structure Ordinary (s : Sid) : Prop where
  /-- It is read back. -/
  plain : s.Plain
  /-- The release can be counted up. -/
  rel : s.rel < 32767
  /-- So can the level. -/
  level : s.level < 32767
  /-- So can the sequence. -/
  sequence : s.sequence < 32767

theorem valid_of_ordinary {s : Sid} (h : s.Ordinary) : s.valid = true := by
  simpa [Sid.valid] using h.plain.rel

theorem next_branch (s : Sid) : s.next.branch = s.branch := by
  unfold next
  split_ifs <;> rfl

theorem lt_succ_self {x : Int16} (h : x < 32767) : x < x + 1 := by
  rw [Int16.lt_iff_toInt_lt, toInt_succ h]
  omega

theorem pred_lt_self {x : Int16} (h : 0 ≤ x) : x - 1 < x := by
  rw [Int16.lt_iff_toInt_lt, toInt_pred h]
  omega

/-- The SID after an ordinary one is valid and greater. -/
theorem Ordinary.next {s : Sid} (h : s.Ordinary) : s.next.valid = true ∧ s.rank < s.next.rank := by
  have hv : s.valid = true := by simpa [valid] using h.plain.rel
  rw [rank_lt_iff]
  unfold Sid.next
  split_ifs
  · exact ⟨hv, .inr ⟨rfl, .inr ⟨rfl, lt_succ_self h.sequence⟩⟩⟩
  · exact ⟨hv, .inr ⟨rfl, .inl (lt_succ_self h.level)⟩⟩
  · refine ⟨?_, .inl (lt_succ_self h.rel)⟩
    have := Int16.lt_trans h.plain.rel (lt_succ_self h.rel)
    simpa [valid] using this

/-- The SID before a plain one is less. -/
theorem Plain.prev_lt {s : Sid} (h : s.Plain) : s.prev.rank < s.rank := by
  rw [rank_lt_iff]
  unfold Sid.prev
  split_ifs
  · exact .inr ⟨rfl, .inr ⟨rfl, pred_lt_self h.sequence⟩⟩
  · exact .inr ⟨rfl, .inl (pred_lt_self h.level)⟩
  · exact .inl (pred_lt_self (Int16.le_of_lt h.rel))

end Sid

namespace SidList

/-- A range on the trunk, or on one branch. -/
def Straight (r : Sid × Sid) : Prop := r.1.branch = 0 ∨ r.2.rel = r.1.rel ∧ r.2.level = r.1.level

/-- Ranges of ordinary SIDs, each on the trunk or on one branch. -/
structure OrdinaryItems (items : SidList) : Prop where
  /-- The ends. -/
  ends : ∀ r ∈ items, r.1.Ordinary ∧ r.2.Ordinary
  /-- The lines. -/
  straight : ∀ r ∈ items, Straight r

/-- The line that a range lies on. -/
def lineOf (r : Sid × Sid) : Int16 × Int16 × Int16 :=
  if r.1.branch = 0 then (0, 0, 0) else (r.1.rel, r.1.level, r.1.branch)

/-- Nothing is missing between two ranges on the trunk that may be merged. -/
structure TrunkFilled (items : SidList) : Prop where
  /-- The second begins no later than the SID after the end of the first. -/
  next : ∀ r ∈ items, ∀ r' ∈ items, r.1.branch = 0 → r'.1.le r.2.next = true →
    ∀ x : Sid, x.Proper → r.2.lt x = true → x.lt r'.1 = true → ∃ q ∈ items, q.1.le x = true ∧ x.le q.2 = true
  /-- The first does not end before the SID before the start of the second. -/
  prev : ∀ r ∈ items, ∀ r' ∈ items, r.1.branch = 0 → r'.1.branch = 0 → ¬ r.2.lt r'.1.prev = true →
    ∀ x : Sid, x.Proper → r.2.lt x = true → x.lt r'.1 = true → ∃ q ∈ items, q.1.le x = true ∧ x.le q.2 = true

theorem branch_eq_of_le {r : Sid × Sid} (h : r.1.le r.2 = true) : r.1.branch = r.2.branch :=
  (Sid.comparable_iff.mp (Sid.le_iff.mp h).1).2.2.1

theorem lineOf_eq_iff {r r' : Sid × Sid} : lineOf r = lineOf r' ↔
    r.1.branch = r'.1.branch ∧ (r.1.branch = 0 ∨ r.1.rel = r'.1.rel ∧ r.1.level = r'.1.level) := by
  unfold lineOf
  split_ifs with h h' h'
  · simp [h, h']
  · refine iff_of_false (fun he => h' ?_) fun he => h' (he.1 ▸ h)
    exact (Prod.mk.inj (Prod.mk.inj he).2).2.symm
  · refine iff_of_false (fun he => h ?_) fun he => h (he.1.trans h')
    exact (Prod.mk.inj (Prod.mk.inj he).2).2
  · simp only [Prod.mk.injEq, h, false_or]
    exact ⟨fun ⟨h1, h2, h3⟩ => ⟨h3, h1, h2⟩, fun ⟨h3, h1, h2⟩ => ⟨h1, h2, h3⟩⟩

/-- Both ends of a straight range on a branch are on that branch. -/
theorem Straight.last {r : Sid × Sid} (hs : Straight r) (hle : r.1.le r.2 = true) (h0 : r.1.branch ≠ 0) :
    r.2.rel = r.1.rel ∧ r.2.level = r.1.level ∧ r.2.branch = r.1.branch :=
  ⟨(hs.resolve_left h0).1, (hs.resolve_left h0).2, (branch_eq_of_le hle).symm⟩

/-- A SID between two of one branch is of that branch, and its sequence is between theirs. -/
theorem sequence_between {a b x : Sid} (hrel : a.rel = b.rel) (hlevel : a.level = b.level) (h1 : a.lt x = true)
    (h2 : x.lt b = true) : a.sequence < x.sequence ∧ x.sequence < b.sequence := by
  have h1 := Sid.rank_lt_iff.mp (Sid.lt_iff.mp h1).2
  have h2 := Sid.rank_lt_iff.mp (Sid.lt_iff.mp h2).2
  rw [← hrel, ← hlevel] at h2
  rcases h1 with h1 | ⟨h1, h1'⟩
  · rcases h2 with h2 | ⟨h2, -⟩
    · exact absurd (Int16.lt_trans h1 h2) Int16.lt_irrefl
    · exact absurd (h2 ▸ h1) Int16.lt_irrefl
  · rcases h2 with h2 | ⟨-, h2'⟩
    · exact absurd (h1 ▸ h2) Int16.lt_irrefl
    · rcases h1' with h1' | ⟨h1', h⟩
      · rcases h2' with h2' | ⟨h2', -⟩
        · exact absurd (Int16.lt_trans h1' h2') Int16.lt_irrefl
        · exact absurd (h2' ▸ h1') Int16.lt_irrefl
      · rcases h2' with h2' | ⟨-, h'⟩
        · exact absurd (h1' ▸ h2') Int16.lt_irrefl
        · exact ⟨h, h'⟩

/-- On a branch the SID after one comes right after it … -/
theorem nothing_after {r r' : Sid × Sid} (hr : r.2.Ordinary) (h0 : r.2.branch ≠ 0) (hrel : r.2.rel = r'.1.rel)
    (hlevel : r.2.level = r'.1.level) (hle : r'.1.le r.2.next = true) {x : Sid} (h1 : r.2.lt x = true)
    (h2 : x.lt r'.1 = true) : False := by
  obtain ⟨hs1, hs2⟩ := sequence_between hrel hlevel h1 h2
  have hle := Sid.rank_le_iff.mp (Sid.le_iff.mp hle).2
  rw [Sid.next, if_pos h0, hrel, hlevel] at hle
  rcases hle with hle | ⟨-, hle | ⟨-, hle⟩⟩
  · exact Int16.lt_irrefl hle
  · exact Int16.lt_irrefl hle
  · have hle : r'.1.sequence ≤ r.2.sequence + 1 := hle
    have hsucc := toInt_succ hr.sequence
    rw [Int16.le_iff_toInt_le] at hle
    rw [Int16.lt_iff_toInt_lt] at hs1 hs2
    omega

/-- … and the SID before one right before it. -/
theorem nothing_before {r r' : Sid × Sid} (hr : r.2.Ordinary) (hr' : r'.1.Ordinary) (hb : r.2.branch = r'.1.branch)
    (h0 : r.2.branch ≠ 0) (hrel : r.2.rel = r'.1.rel) (hlevel : r.2.level = r'.1.level)
    (hnot : ¬ r.2.lt r'.1.prev = true) {x : Sid} (h1 : r.2.lt x = true) (h2 : x.lt r'.1 = true) : False := by
  obtain ⟨hs1, hs2⟩ := sequence_between hrel hlevel h1 h2
  have hprev : r'.1.prev = { r'.1 with sequence := r'.1.sequence - 1 } := by
    rw [Sid.prev, if_pos (hb ▸ h0)]
  refine hnot (Sid.lt_iff.mpr ⟨Sid.comparable_iff.mpr ⟨?_, ?_, ?_, .inr (.inl ?_)⟩, Sid.rank_lt_iff.mpr ?_⟩)
  · simpa [Sid.valid] using hr.plain.rel
  · rw [hprev]
    simpa [Sid.valid] using hr'.plain.rel
  · rw [hprev, hb]
  · rw [hprev, hrel]
  · rw [hprev]
    refine .inr ⟨hrel, .inr ⟨hlevel, ?_⟩⟩
    have hpred := toInt_pred hr'.plain.sequence
    rw [Int16.lt_iff_toInt_lt] at hs1 hs2 ⊢
    show r.2.sequence.toInt < (r'.1.sequence - 1).toInt
    omega

/-- The ends of items on one line are comparable. -/
theorem OrdinaryItems.comparable {items : SidList} (ho : OrdinaryItems items) (hle : ∀ r ∈ items, r.1.le r.2 = true)
    {r r' : Sid × Sid} (hr : r ∈ items) (hr' : r' ∈ items) (hline : lineOf r = lineOf r') :
    r.1.comparable r'.1 = true ∧ r.1.comparable r'.2 = true ∧ r.2.comparable r'.2 = true := by
  obtain ⟨hb, hpos⟩ := lineOf_eq_iff.mp hline
  have hb2 := branch_eq_of_le (hle r hr)
  have hb2' := branch_eq_of_le (hle r' hr')
  obtain ⟨hv1, hv2⟩ := (ho.ends r hr).imp Sid.valid_of_ordinary Sid.valid_of_ordinary
  obtain ⟨hv1', hv2'⟩ := (ho.ends r' hr').imp Sid.valid_of_ordinary Sid.valid_of_ordinary
  simp only [Sid.comparable_iff]
  by_cases h0 : r.1.branch = 0
  · exact ⟨⟨hv1, hv1', hb, .inl h0⟩, ⟨hv1, hv2', hb.trans hb2', .inl h0⟩,
      ⟨hv2, hv2', hb2.symm.trans (hb.trans hb2'), .inl (hb2 ▸ h0)⟩⟩
  · obtain ⟨hrel, -⟩ := hpos.resolve_left h0
    obtain ⟨hr2, -, -⟩ := (ho.straight r hr).last (hle r hr) h0
    obtain ⟨hr2', -, -⟩ := (ho.straight r' hr').last (hle r' hr') (hb ▸ h0)
    exact ⟨⟨hv1, hv1', hb, .inr (.inl hrel)⟩, ⟨hv1, hv2', hb.trans hb2', .inr (.inl (hrel.trans hr2'.symm))⟩,
      ⟨hv2, hv2', hb2.symm.trans (hb.trans hb2'), .inr (.inl (hr2.trans (hrel.trans hr2'.symm)))⟩⟩

/-- If an item could be merged with one of another line, that line lies below. -/
theorem OrdinaryItems.below {items : SidList} (ho : OrdinaryItems items) (hle : ∀ r ∈ items, r.1.le r.2 = true)
    {r r' : Sid × Sid} (hr : r ∈ items) (hline : lineOf r ≠ lineOf r') (hnext : r'.1.le r.2.next = true) :
    Below Sid.steps items lineOf (lineOf r') (lineOf r) := by
  intro q hq q' hq' heq heq'
  have hrank := Sid.rank_le_iff.mp (Sid.le_iff.mp hnext).2
  obtain ⟨-, -, hb, hpos⟩ := Sid.comparable_iff.mp (Sid.le_iff.mp hnext).1
  rw [Sid.next_branch, ← branch_eq_of_le (hle r hr)] at hb
  by_cases h0 : r.1.branch = 0
  · exact absurd (lineOf_eq_iff.mpr ⟨hb.symm, .inl h0⟩) hline
  · obtain ⟨hr2, hl2, hb2⟩ := (ho.straight r hr).last (hle r hr) h0
    rw [Sid.next, if_pos (hb2 ▸ h0), hr2, hl2] at hrank hpos
    -- `q` is on the branch of `r'`, and `q'` on that of `r`
    obtain ⟨hqb, hq0⟩ := lineOf_eq_iff.mp heq
    obtain ⟨hqb', hq0'⟩ := lineOf_eq_iff.mp heq'
    have hbq : q.1.branch ≠ 0 := fun h => h0 ((hb.symm.trans hqb.symm).trans h)
    have hbq' : q'.1.branch ≠ 0 := fun h => h0 (hqb'.symm.trans h)
    obtain ⟨hqr, hql⟩ := hq0.resolve_left hbq
    obtain ⟨hqr', hql'⟩ := hq0'.resolve_left hbq'
    obtain ⟨hqr2, hql2, hqb2⟩ := (ho.straight q hq).last (hle q hq) hbq
    show q.2.lt q'.1.prev = true
    rw [Sid.prev, if_pos hbq']
    refine Sid.lt_iff.mpr ⟨Sid.comparable_iff.mpr ⟨Sid.valid_of_ordinary (ho.ends q hq).2, ?_, ?_, ?_⟩, Sid.rank_lt_iff.mpr ?_⟩
    · have hv : q'.1.valid = true := Sid.valid_of_ordinary (ho.ends q' hq').1
      exact hv
    · exact hqb2.trans (hqb.trans (hb.trans hqb'.symm))
    · refine .inr ((hpos.resolve_left (hb ▸ h0)).imp (fun h => ?_) fun h => ?_)
      · exact hqr2.trans (hqr.trans (h.trans hqr'.symm))
      · exact hql2.trans (hql.trans (h.trans hql'.symm))
    · rw [hqr2, hql2, hqr, hql, hqr', hql']
      rcases hrank with h | ⟨h, h' | ⟨h', -⟩⟩
      · exact .inl h
      · exact .inr ⟨h, .inl h'⟩
      · exact absurd (lineOf_eq_iff.mpr ⟨hb.symm, .inr ⟨h.symm, h'.symm⟩⟩) hline

/-- **Ordinary items lie on lines**, if nothing is missing on the trunk. -/
theorem onLines_of_ordinary {items : SidList} (hle : ∀ r ∈ items, r.1.le r.2 = true) (ho : OrdinaryItems items)
    (ht : TrunkFilled items) :
    OnLines Sid.steps Sid.rank (fun a b => a.comparable b = true) Sid.Proper items lineOf := by
  refine ⟨fun r hr r' hr' => ho.comparable hle hr hr', fun r hr r' hr' hline hnext x hx h1 h2 => ?_,
    fun r hr r' hr' hline hnot x hx h1 h2 => ?_, fun r hr r' _ => ho.below hle hr,
    fun r hr => (ho.ends r hr).1.plain.prev_lt.le⟩
  · obtain ⟨hb, hpos⟩ := lineOf_eq_iff.mp hline
    by_cases h0 : r.1.branch = 0
    · exact ht.next r hr r' hr' h0 hnext x hx h1 h2
    · obtain ⟨hrel, hlevel⟩ := hpos.resolve_left h0
      obtain ⟨hr2, hl2, hb2⟩ := (ho.straight r hr).last (hle r hr) h0
      exact (nothing_after (ho.ends r hr).2 (hb2 ▸ h0) (hr2.trans hrel) (hl2.trans hlevel) hnext h1 h2).elim
  · obtain ⟨hb, hpos⟩ := lineOf_eq_iff.mp hline
    by_cases h0 : r.1.branch = 0
    · exact ht.prev r hr r' hr' h0 (hb ▸ h0) hnot x hx h1 h2
    · obtain ⟨hrel, hlevel⟩ := hpos.resolve_left h0
      obtain ⟨hr2, hl2, hb2⟩ := (ho.straight r hr).last (hle r hr) h0
      exact (nothing_before (ho.ends r hr).2 (ho.ends r' hr').1 (hb2.trans hb) (hb2 ▸ h0) (hr2.trans hrel)
        (hl2.trans hlevel) hnot h1 h2).elim

/-- Ordinary items can be grouped, if nothing is missing on the trunk. -/
theorem groupable_of_ordinary {items : SidList} (hle : ∀ r ∈ items, r.1.le r.2 = true) (ho : OrdinaryItems items)
    (ht : TrunkFilled items) : Groupable items :=
  ⟨_, _, grouped_of_lines Sid.ranked (onLines_of_ordinary hle ho ht)⟩

/-! ### Other orders -/

/-- The items can be written so that they are sorted in in any order. -/
theorem exists_ordered {list : List UInt8} {l : SidList} (h : ofText list = .ok (some l)) {order : SidList}
    (horder : order.Perm (itemsOf list)) :
    ∃ list' l', (itemsOf list').reverse = order ∧ ofText list' = .ok (some l') := by
  obtain ⟨hshort, -⟩ := ofText_eq_some_iff.mp h
  -- the pieces of the string in that order
  have hmap : List.Forall₂ (fun r piece => r = itemRange piece) (itemsOf list) ((list.splitOn 44).filter (· ≠ [])) := by
    rw [itemsOf, List.forall₂_map_left_iff]
    exact List.forall₂_same.mpr fun _ _ => rfl
  obtain ⟨ps, hps, hperm⟩ : ∃ ps, List.Forall₂ (fun r piece => r = itemRange piece) order ps ∧
      ps.Perm ((list.splitOn 44).filter (· ≠ [])) := List.perm_comp_forall₂ horder hmap
  have hin : ∀ q ∈ ps.reverse, q ∈ list.splitOn 44 ∧ q ≠ [] := fun q hq => by
    have := hperm.mem_iff.mp (List.mem_reverse.mp hq)
    rw [List.mem_filter] at this
    simpa using this
  obtain rfl : ps.map itemRange = order := by
    rw [← List.forall₂_eq_eq_eq, List.forall₂_map_left_iff]
    exact (List.Forall₂.flip hps).imp fun _ _ hr => hr.symm
  by_cases hnil : ps = []
  · subst hnil
    exact ⟨[], [], rfl, rfl⟩
  · have hsplit : ([44].intercalate ps.reverse).splitOn 44 = ps.reverse :=
      List.splitOn_intercalate 44 (fun q hq => Library.Fields.not_mem_of_mem_splitOn (hin q hq).1) (by simpa using hnil)
    have hitems : (itemsOf ([44].intercalate ps.reverse)).reverse = ps.map itemRange := by
      rw [itemsOf, hsplit, List.filter_eq_self.mpr fun q hq => by simpa using (hin q hq).2, List.map_reverse,
        List.reverse_reverse]
    -- the same items are valid in any order
    obtain ⟨l', hl'⟩ := Option.isSome_iff_exists.mp ((cleanLoop_isSome_iff [] (ps.map itemRange)).mpr
      fun r hr => le_of_ofText h r (horder.mem_iff.mp hr))
    refine ⟨[44].intercalate ps.reverse, l', hitems, ofText_eq_some_iff.mpr ⟨fun item hitem => ?_, ?_⟩⟩
    · exact hshort item (hin item (hsplit ▸ hitem)).1
    · rw [hitems]
      exact hl'

/-- The ends of the items are all comparable. -/
def AllComparable (items : SidList) : Prop :=
  ∀ a b : Sid, (∃ r ∈ items, r.1 = a ∨ r.2 = a) → (∃ r ∈ items, r.1 = b ∨ r.2 = b) → a.comparable b = true

/-- **Items with ends that are all comparable are merged soundly if they mean their union.** -/
theorem UnionInAnyOrder.soundInAnyOrder {list : List UInt8} (hu : UnionInAnyOrder list) {l : SidList}
    (h : ofText list = .ok (some l)) (hc : AllComparable (itemsOf list)) : SoundInAnyOrder (itemsOf list) := by
  intro order horder
  obtain ⟨list', l', rfl, hl'⟩ := exists_ordered h horder
  have hperm : (itemsOf list').Perm (itemsOf list) := (List.reverse_perm _).symm.trans horder
  obtain ⟨-, hclean⟩ := ofText_eq_some_iff.mp hl'
  rw [clean_eq] at hclean
  refine Joins.soundClean (Sid.ranked.joins hc) (by simp) (fun r hr => ?_) hclean fun x hx hm => ?_
  · have hr : r ∈ itemsOf list := horder.mem_iff.mp hr
    exact ⟨⟨r, hr, .inl rfl⟩, r, hr, .inr rfl⟩
  · exact member_iff.mpr ((hu list' l' hperm hl' x hx).mp hm)

/-- A range of valid SIDs with the same branch number. -/
def OneBranch (r : Sid × Sid) : Prop := r.1.valid = true ∧ r.2.valid = true ∧ r.1.branch = r.2.branch

theorem oneBranch_of_le {r : Sid × Sid} (h : r.1.le r.2 = true) : OneBranch r := by
  obtain ⟨h1, h2, h3, -⟩ := Sid.comparable_iff.mp (Sid.le_iff.mp h).1
  exact ⟨h1, h2, h3⟩

/-- Two ranges on the trunk are merged into one that reaches from the lower start to the upper end. -/
theorem inRange_joined {sp dp : Sid × Sid} (hsp : OneBranch sp) (hdp : OneBranch dp) (hs0 : sp.2.branch = 0)
    (hd0 : dp.1.branch = 0) {x : Sid} (hvx : x.valid = true) (hx : x.branch = 0)
    (h1 : sp.1.rank ≤ x.rank ∨ dp.1.rank ≤ x.rank) (h2 : x.rank ≤ sp.2.rank ∨ x.rank ≤ dp.2.rank) :
    InRange Sid.steps (joined Sid.steps sp dp) x := by
  obtain ⟨hs1, hs2, hsb⟩ := hsp
  obtain ⟨hd1, hd2, hdb⟩ := hdp
  have hcmp : ∀ a b : Sid, a.valid = true ∧ a.branch = 0 → b.valid = true ∧ b.branch = 0 → a.comparable b = true :=
    fun a b ha hb => Sid.comparable_iff.mpr ⟨ha.1, hb.1, ha.2.trans hb.2.symm, .inl ha.2⟩
  exact Sid.ranked.inRange_joined hcmp ⟨⟨hs1, hsb.trans hs0⟩, hs2, hs0⟩ ⟨⟨hd1, hd0⟩, hd2, hdb.symm.trans hd0⟩ ⟨hvx, hx⟩
    h1 h2

/-- A SID of the trunk stays in a list while ranges are merged. -/
theorem joins_of_trunk {x : Sid} (hx : x.branch = 0) : Joins Sid.steps OneBranch x := by
  intro sp dp hsp hdp hle
  have hle : dp.1.le sp.2.next = true := hle
  have hb : dp.1.branch = sp.2.branch :=
    (Sid.comparable_iff.mp (Sid.le_iff.mp hle).1).2.2.1.trans (Sid.next_branch _)
  refine ⟨?_, fun hin => ?_⟩
  · obtain ⟨hs1, hs2, hsb⟩ := hsp
    obtain ⟨hd1, hd2, hdb⟩ := hdp
    rw [joined]
    split_ifs
    · exact ⟨hd1, hd2, hdb⟩
    · exact ⟨hd1, hs2, hb⟩
    · exact ⟨hs1, hd2, hsb.trans (hb.symm.trans hdb)⟩
    · exact ⟨hs1, hs2, hsb⟩
  · have h0 : sp.2.branch = 0 := by
      rcases hin with hin | hin
      · exact ((Sid.comparable_iff.mp (Sid.le_iff.mp hin.2).1).2.2.1.symm).trans hx
      · exact hb.symm.trans ((Sid.comparable_iff.mp (Sid.le_iff.mp hin.1).1).2.2.1.trans hx)
    have hvx : x.valid = true := by
      rcases hin with hin | hin <;> exact (Sid.comparable_iff.mp (Sid.le_iff.mp hin.2).1).1
    exact inRange_joined hsp hdp h0 (hb.trans h0) hvx hx
      (hin.imp (fun h => (Sid.le_iff.mp h.1).2) fun h => (Sid.le_iff.mp h.1).2)
      (hin.imp (fun h => (Sid.le_iff.mp h.2).2) fun h => (Sid.le_iff.mp h.2).2)

/-- What two items are merged into is in the list, if they are sorted in first. -/
theorem exists_member_of_joined {list : List UInt8} {l : SidList} (h : ofText list = .ok (some l)) {r r' : Sid × Sid}
    (hr : r ∈ itemsOf list) (hr' : r' ∈ itemsOf list) (hne : r ≠ r') (hpass : ¬ r.2.lt r'.1.prev = true)
    (htouch : r.1.le r'.2.next = true) {x : Sid} (hx0 : x.branch = 0)
    (hx : InRange Sid.steps (joined Sid.steps r' r) x) :
    ∃ list' l', (itemsOf list').Perm (itemsOf list) ∧ ofText list' = .ok (some l') ∧ l'.member x = true := by
  set rest := ((itemsOf list).erase r).erase r'
  have horder : (r :: r' :: rest).Perm (itemsOf list) :=
    ((List.perm_cons_erase ((List.mem_erase_of_ne hne.symm).mpr hr')).symm.cons r).trans (List.perm_cons_erase hr).symm
  obtain ⟨list', l', hrest, hl'⟩ := exists_ordered h horder
  have hperm : (itemsOf list').Perm (itemsOf list) := by
    rw [← hrest] at horder
    exact (List.reverse_perm _).symm.trans horder
  obtain ⟨-, hclean⟩ := ofText_eq_some_iff.mp hl'
  refine ⟨list', l', hperm, hl', ?_⟩
  have hle : ∀ q ∈ r :: r' :: rest, Sid.steps.le q.1 q.2 = true := fun q hq =>
    le_of_ofText hl' q (List.mem_reverse.mp (hrest ▸ hq))
  have hone : ∀ q ∈ r :: r' :: rest, OneBranch q := fun q hq => oneBranch_of_le (hle q hq)
  rw [hrest, clean_eq, Library.Ranges.clean, Library.Ranges.cleanLoop, if_pos (hle r (by simp)),
    Library.Ranges.cleanLoop, if_pos (hle r' (by simp))] at hclean
  have hj := joins_of_trunk hx0
  obtain ⟨hone₂, -⟩ := hj.sortIn (l := Library.Ranges.sortIn Sid.steps r []) (hone r' (by simp))
    (hj.sortIn (hone r (by simp)) (by simp)).1
  refine hj.cleanLoop (fun q hq => hone q (by simp [hq])) hone₂ hclean ?_
  rw [show Library.Ranges.sortIn Sid.steps r [] = [r] from rfl, sortIn_singleton hpass htouch]
  exact .inl (member_cons.mpr (.inl hx))

/-- **If ordinary items mean their union, nothing is missing on the trunk.** -/
theorem UnionInAnyOrder.trunkFilled {list : List UInt8} (hu : UnionInAnyOrder list) {l : SidList}
    (h : ofText list = .ok (some l)) (ho : OrdinaryItems (itemsOf list)) : TrunkFilled (itemsOf list) := by
  have hle := le_of_ofText h
  -- what lies between `r` and `r'`
  have hbetween : ∀ r ∈ itemsOf list, ∀ r' ∈ itemsOf list, ∀ x : Sid, r.2.lt x = true → x.lt r'.1 = true →
      x.valid = true ∧ x.branch = r.1.branch ∧ r'.1.branch = r.1.branch ∧ r.1.rank ≤ x.rank ∧ x.rank ≤ r'.2.rank ∧
        r.2.rank < r'.1.rank ∧ r ≠ r' := fun r hr r' hr' x h1 h2 => by
    obtain ⟨hc1, hk1⟩ := Sid.lt_iff.mp h1
    obtain ⟨hc2, hk2⟩ := Sid.lt_iff.mp h2
    have hr1 := (Sid.le_iff.mp (hle r hr)).2
    have hr1' := (Sid.le_iff.mp (hle r' hr')).2
    obtain ⟨-, hv, hb, -⟩ := Sid.comparable_iff.mp hc1
    obtain ⟨-, -, hb', -⟩ := Sid.comparable_iff.mp hc2
    have hb0 := branch_eq_of_le (hle r hr)
    refine ⟨hv, (hb0.trans hb).symm, (hb0.trans (hb.trans hb')).symm, hr1.trans hk1.le, hk2.le.trans hr1',
      hk1.trans hk2, fun he => ?_⟩
    subst he
    exact absurd (hr1.trans_lt (hk1.trans hk2)) (lt_irrefl _)
  have hfound : ∀ x : Sid, x.Proper → (∃ list' l', (itemsOf list').Perm (itemsOf list) ∧ ofText list' = .ok (some l') ∧
      l'.member x = true) → ∃ q ∈ itemsOf list, q.1.le x = true ∧ x.le q.2 = true :=
    fun x hx ⟨list', l', hperm, hl', hmem⟩ => (hu list' l' hperm hl' x hx).mp hmem
  constructor
  · intro r hr r' hr' h0 hnext x hx h1 h2
    obtain ⟨hv, hb, hb', hk1, hk2, hk, hne⟩ := hbetween r hr r' hr' x h1 h2
    refine hfound x hx (exists_member_of_joined h hr' hr hne.symm (fun hlt => ?_) hnext (hb.trans h0) ?_)
    · have hprev := (ho.ends r hr).1.plain.prev_lt
      have hlt := (Sid.lt_iff.mp hlt).2
      exact absurd ((hlt.trans hprev).trans_le (hk1.trans hk2)) (lt_irrefl _)
    · exact inRange_joined (oneBranch_of_le (hle r hr)) (oneBranch_of_le (hle r' hr'))
        ((branch_eq_of_le (hle r hr)).symm.trans h0) (hb'.trans h0) hv (hb.trans h0) (.inl hk1) (.inr hk2)
  · intro r hr r' hr' h0 h0' hnot x hx h1 h2
    obtain ⟨hv, hb, -, hk1, hk2, hk, hne⟩ := hbetween r hr r' hr' x h1 h2
    have h0'' : r'.2.branch = 0 := (branch_eq_of_le (hle r' hr')).symm.trans h0'
    refine hfound x hx (exists_member_of_joined h hr hr' hne hnot ?_ (hb.trans h0) ?_)
    · obtain ⟨hvn, hkn⟩ := (ho.ends r' hr').2.next
      refine Sid.le_iff.mpr ⟨Sid.comparable_iff.mpr ⟨(oneBranch_of_le (hle r hr)).1, hvn, ?_, .inl h0⟩, ?_⟩
      · rw [Sid.next_branch, h0, h0'']
      · exact (hk1.trans hk2).trans hkn.le
    · exact inRange_joined (oneBranch_of_le (hle r' hr')) (oneBranch_of_le (hle r hr)) h0'' h0 hv (hb.trans h0)
        (.inr hk1) (.inl hk2)

/-- **A list of ranges means the union of its items, in whatever order they are written, if in no order a merge adds or
loses anything**; and items with ends that are all comparable, and ordinary items on the trunk or on single branches, mean
it only then. -/
theorem union_of_soundInAnyOrder {list : List UInt8} {l : SidList} (h : ofText list = .ok (some l)) :
    (SoundInAnyOrder (itemsOf list) → UnionInAnyOrder list) ∧
      (AllComparable (itemsOf list) ∨ OrdinaryItems (itemsOf list) →
        UnionInAnyOrder list → SoundInAnyOrder (itemsOf list)) := by
  refine ⟨SoundInAnyOrder.unionInAnyOrder, fun hkind hu => ?_⟩
  have hle := le_of_ofText h
  rcases hkind with hc | ho
  · exact hu.soundInAnyOrder h hc
  · apply Groupable.soundInAnyOrder _ hle
    exact groupable_of_ordinary hle ho (hu.trunkFilled h ho)

/-- `1.2-1.4,1.2.1.1` means its union: there is only one item on the trunk. -/
theorem unionInAnyOrder_of_trunk_and_branch :
    UnionInAnyOrder [49, 46, 50, 45, 49, 46, 52, 44, 49, 46, 50, 46, 49, 46, 49] := by
  have hitems : itemsOf [49, 46, 50, 45, 49, 46, 52, 44, 49, 46, 50, 46, 49, 46, 49] =
      [(⟨1, 2, 0, 0⟩, ⟨1, 4, 0, 0⟩), (⟨1, 2, 1, 1⟩, ⟨1, 2, 1, 1⟩)] := by decide
  have hplain : ∀ s ∈ [(⟨1, 2, 0, 0⟩ : Sid), ⟨1, 4, 0, 0⟩, ⟨1, 2, 1, 1⟩], s.Ordinary := fun s hs => by
    simp only [List.mem_cons, List.not_mem_nil, or_false] at hs
    rcases hs with rfl | rfl | rfl <;> exact ⟨⟨by decide, by decide, by decide, by decide, by decide, by decide⟩,
      by decide, by decide, by decide⟩
  -- nothing is between two items on the trunk
  have hnone : ∀ r ∈ itemsOf [49, 46, 50, 45, 49, 46, 52, 44, 49, 46, 50, 46, 49, 46, 49],
      ∀ r' ∈ itemsOf [49, 46, 50, 45, 49, 46, 52, 44, 49, 46, 50, 46, 49, 46, 49], r.1.branch = 0 → ∀ x : Sid,
        r.2.lt x = true → x.lt r'.1 = true → False := fun r hr r' hr' h0 x h1 h2 => by
    obtain ⟨hc1, hk1⟩ := Sid.lt_iff.mp h1
    obtain ⟨hc2, hk2⟩ := Sid.lt_iff.mp h2
    have hb := (Sid.comparable_iff.mp hc1).2.2.1.trans (Sid.comparable_iff.mp hc2).2.2.1
    have hk := hk1.trans hk2
    rw [hitems] at hr hr'
    simp only [List.mem_cons, List.not_mem_nil, or_false] at hr hr'
    rcases hr with rfl | rfl <;> rcases hr' with rfl | rfl
    · rw [Sid.rank_lt_iff] at hk
      exact absurd hk (by decide)
    · exact absurd hb (by decide)
    · exact absurd h0 (by decide)
    · exact absurd h0 (by decide)
  have hle : ∀ r ∈ itemsOf [49, 46, 50, 45, 49, 46, 52, 44, 49, 46, 50, 46, 49, 46, 49], r.1.le r.2 = true := by
    rw [hitems]
    simp
    decide
  apply (@union_of_soundInAnyOrder _ [(⟨1, 2, 0, 0⟩, ⟨1, 4, 0, 0⟩), (⟨1, 2, 1, 1⟩, ⟨1, 2, 1, 1⟩)] (by decide)).1
  refine (groupable_of_ordinary hle ?_ ⟨fun r hr r' hr' h0 _ x _ h1 h2 => (hnone r hr r' hr' h0 x h1 h2).elim,
    fun r hr r' hr' h0 _ _ x _ h1 h2 => (hnone r hr r' hr' h0 x h1 h2).elim⟩).soundInAnyOrder hle
  · rw [hitems]
    refine ⟨fun r hr => ?_, fun r hr => ?_⟩
    · simp only [List.mem_cons, List.not_mem_nil, or_false] at hr
      rcases hr with rfl | rfl <;> exact ⟨hplain _ (by simp), hplain _ (by simp)⟩
    · simp only [List.mem_cons, List.not_mem_nil, or_false] at hr
      rcases hr with rfl | rfl
      · exact .inl rfl
      · exact .inr ⟨rfl, rfl⟩

/-- `2,1.7` includes 1.8, which is in none of the items, and which `1.7,2` does not include. -/
theorem release_swallows_level :
    (∃ l, ofText [50, 44, 49, 46, 55] = .ok (some l) ∧ l.member ⟨1, 8, 0, 0⟩ = true) ∧
      (∃ l, ofText [49, 46, 55, 44, 50] = .ok (some l) ∧ l.member ⟨1, 8, 0, 0⟩ = false) ∧
      ¬ ∃ r ∈ itemsOf [50, 44, 49, 46, 55], r.1.le ⟨1, 8, 0, 0⟩ = true ∧ Sid.le ⟨1, 8, 0, 0⟩ r.2 = true := by
  refine ⟨⟨_, rfl, by decide⟩, ⟨_, rfl, by decide⟩, by decide⟩

end SidList

end CSSC.Table
