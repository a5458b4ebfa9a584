import Mathlib.Data.List.Chain
import Mathlib.Data.List.TakeWhile
import Mathlib.Data.Set.Basic
import Mathlib.Order.Lattice

/-!
# Lists of ranges

A set of points is kept as a list of ranges. A range that is added passes the ranges that end before it, and is merged
with those that begin no later than the point after its end. The points need not all be comparable, and only the ends
of ranges are looked at, so that a merge may lose points, or add points that were in none of the ranges.

`SoundClean` says that no merge does so, as far as it matters: none adds a point that is in none of the ranges which
were there at first, and none loses a point that is in no other range. Then the list is the union of the ranges
(`SoundClean.member`). Where all ends are comparable nothing is ever lost, and there the converse holds
(`Joins.soundClean`). Ranges that fall into groups (`Grouped`), where each group covers everything between its ends
and no range of one group is merged with one of another, are merged soundly in any order (`Grouped.soundClean`); and
so are ranges on lines with nothing missing between those that are merged, which are groups (`grouped_of_lines`).
-/

namespace CSSC.Library.Ranges

variable {α ρ κ μ : Type*}

/-- Points that are compared, and stepped from. -/
structure Steps (α : Type*) where
  /-- `<=`. -/
  le : α → α → Bool
  /-- `<`. -/
  lt : α → α → Bool
  /-- `>`. -/
  gt : α → α → Bool
  /-- `>=`. -/
  ge : α → α → Bool
  /-- `++`. -/
  next : α → α
  /-- `--`. -/
  prev : α → α

section
variable (O : Steps α)

/-- `dp` merged into `sp`. -/
def joined (sp dp : α × α) : α × α :=
  (if O.lt dp.1 sp.1 then dp.1 else sp.1, if O.gt dp.2 sp.2 then dp.2 else sp.2)

/-- The ranges that `sp` overlaps or touches are merged into it. -/
def mergeLoop (sp : α × α) : List (α × α) → (α × α) × List (α × α)
  | [] => (sp, [])
  | dp :: l =>
    if O.le dp.1 (O.next sp.2) then
      mergeLoop (joined O sp dp) l
    else (sp, dp :: l)

/-- `sp` passes the ranges that end before it, and is merged with those that follow. -/
def sortIn (sp : α × α) (l : List (α × α)) : List (α × α) :=
  let m := mergeLoop O sp (l.dropWhile fun dp => O.lt dp.2 (O.prev sp.1))
  (l.takeWhile fun dp => O.lt dp.2 (O.prev sp.1)) ++ m.1 :: m.2

/-- One range after the other is sorted in; `none` if one of them is empty. -/
def cleanLoop (new : List (α × α)) : List (α × α) → Option (List (α × α))
  | [] => some new
  | sp :: l => if O.le sp.1 sp.2 then cleanLoop (sortIn O sp new) l else none

/-- A list of ranges in order. -/
def clean (l : List (α × α)) : Option (List (α × α)) := cleanLoop O [] l

/-- A point is in a range. -/
def InRange (r : α × α) (x : α) : Prop := O.le r.1 x = true ∧ O.le x r.2 = true

/-- A point is in one of the ranges. -/
def member (l : List (α × α)) (x : α) : Bool := l.any fun r => O.le r.1 x && O.le x r.2

end

variable {O : Steps α}

theorem member_iff {l : List (α × α)} {x : α} : member O l x = true ↔ ∃ r ∈ l, InRange O r x := by
  simp [member, InRange]

/-- The list is valid if no range is empty. -/
theorem cleanLoop_isSome_iff {new l : List (α × α)} :
    (cleanLoop O new l).isSome = true ↔ ∀ r ∈ l, O.le r.1 r.2 = true := by
  induction l generalizing new with
  | nil => simp [cleanLoop]
  | cons sp l ih =>
    rw [cleanLoop]
    split_ifs with h
    · simp [ih, h]
    · simp [h]

/-! ### Ranks -/

variable [LinearOrder ρ] {rank : α → ρ} {cmp : α → α → Prop}

/-- The comparisons are those of a rank, between points that are comparable. -/
structure Ranked (O : Steps α) (rank : α → ρ) (cmp : α → α → Prop) : Prop where
  /-- `<=`. -/
  le_iff : ∀ a b, O.le a b = true ↔ cmp a b ∧ rank a ≤ rank b
  /-- `<`. -/
  lt_iff : ∀ a b, O.lt a b = true ↔ cmp a b ∧ rank a < rank b
  /-- `>`. -/
  gt_iff : ∀ a b, O.gt a b = true ↔ cmp a b ∧ rank b < rank a
  /-- `>=`. -/
  ge_iff : ∀ a b, O.ge a b = true ↔ cmp a b ∧ rank b ≤ rank a
  /-- Both points are comparable, or none is. -/
  symm : ∀ a b, cmp a b → cmp b a
  /-- What is comparable with both ends of a range is comparable with what is between them. -/
  between : ∀ a b c x, O.le a b = true → cmp a c → cmp b c → O.le a x = true → O.le x b = true → cmp x c

/-- One range is part of another, by the ranks of the ends. -/
def Covers (rank : α → ρ) (e r : α × α) : Prop := rank e.1 ≤ rank r.1 ∧ rank r.2 ≤ rank e.2

theorem Covers.refl (r : α × α) : Covers rank r r := ⟨le_rfl, le_rfl⟩

theorem Covers.trans {a b c : α × α} (h : Covers rank a b) (h' : Covers rank b c) : Covers rank a c :=
  ⟨h.1.trans h'.1, h'.2.trans h.2⟩

/-- A range that is merged into another is part of the outcome, if the ends are comparable. -/
theorem Ranked.covers_merge (hO : Ranked O rank cmp) {sp dp : α × α} (h1 : cmp dp.1 sp.1) (h2 : cmp dp.2 sp.2) :
    Covers rank (joined O sp dp) sp ∧
      Covers rank (joined O sp dp) dp := by
  unfold Covers joined
  by_cases hlt : O.lt dp.1 sp.1 = true <;> by_cases hgt : O.gt dp.2 sp.2 = true
  all_goals
    simp only [hlt, hgt, if_true, if_false, Bool.false_eq_true]
    rw [hO.lt_iff] at hlt
    rw [hO.gt_iff] at hgt
  · exact ⟨⟨hlt.2.le, hgt.2.le⟩, le_rfl, le_rfl⟩
  · exact ⟨⟨hlt.2.le, le_rfl⟩, le_rfl, not_lt.mp fun h => hgt ⟨h2, h⟩⟩
  · exact ⟨⟨le_rfl, hgt.2.le⟩, not_lt.mp fun h => hlt ⟨h1, h⟩, le_rfl⟩
  · exact ⟨⟨le_rfl, le_rfl⟩, not_lt.mp fun h => hlt ⟨h1, h⟩, not_lt.mp fun h => hgt ⟨h2, h⟩⟩

/-- The ends of the merged range are ends of the two. -/
theorem joined_ends {C : α → Prop} {sp dp : α × α} (hsp : C sp.1 ∧ C sp.2) (hdp : C dp.1 ∧ C dp.2) :
    C (joined O sp dp).1 ∧ C (joined O sp dp).2 := by
  unfold joined
  split_ifs
  · exact hdp
  · exact ⟨hdp.1, hsp.2⟩
  · exact ⟨hsp.1, hdp.2⟩
  · exact hsp

/-- Of two ranges with comparable ends the merged one reaches from the lower start to the upper end. -/
theorem Ranked.inRange_joined (hO : Ranked O rank cmp) {C : α → Prop} (hC : ∀ a b, C a → C b → cmp a b) {sp dp : α × α}
    (hsp : C sp.1 ∧ C sp.2) (hdp : C dp.1 ∧ C dp.2) {x : α} (hx : C x) (h1 : rank sp.1 ≤ rank x ∨ rank dp.1 ≤ rank x)
    (h2 : rank x ≤ rank sp.2 ∨ rank x ≤ rank dp.2) : InRange O (joined O sp dp) x := by
  obtain ⟨hcs, hcd⟩ := hO.covers_merge (hC _ _ hdp.1 hsp.1) (hC _ _ hdp.2 hsp.2)
  have hends : C (joined O sp dp).1 ∧ C (joined O sp dp).2 := joined_ends hsp hdp
  refine ⟨(hO.le_iff _ _).mpr ⟨hC _ _ hends.1 hx, ?_⟩, (hO.le_iff _ _).mpr ⟨hC _ _ hx hends.2, ?_⟩⟩
  · exact h1.elim hcs.1.trans hcd.1.trans
  · exact h2.elim (·.trans hcs.2) (·.trans hcd.2)

/-! ### What stays in a list -/

/-- A range that is merged into another of the kind `Q` leaves one of that kind, and the point `x` stays in it. -/
def Joins (O : Steps α) (Q : α × α → Prop) (x : α) : Prop :=
  ∀ sp dp : α × α, Q sp → Q dp → O.le dp.1 (O.next sp.2) = true →
    Q (joined O sp dp) ∧
      (InRange O sp x ∨ InRange O dp x →
        InRange O (joined O sp dp) x)

section Joins
variable {Q : α × α → Prop} {x : α}

theorem member_cons {r : α × α} {l : List (α × α)} : member O (r :: l) x = true ↔ InRange O r x ∨ member O l x = true := by
  simp [member, InRange]

theorem member_append {l l' : List (α × α)} :
    member O (l ++ l') x = true ↔ member O l x = true ∨ member O l' x = true := by
  simp [member]

theorem Joins.mergeLoop (hj : Joins O Q x) {sp : α × α} (hsp : Q sp) {l : List (α × α)} (hl : ∀ r ∈ l, Q r) :
    (∀ r ∈ (Ranges.mergeLoop O sp l).1 :: (Ranges.mergeLoop O sp l).2, Q r) ∧ (member O (sp :: l) x = true →
      member O ((Ranges.mergeLoop O sp l).1 :: (Ranges.mergeLoop O sp l).2) x = true) := by
  induction l generalizing sp with
  | nil => exact ⟨by simpa [Ranges.mergeLoop] using hsp, id⟩
  | cons dp l ih =>
    rw [Ranges.mergeLoop]
    obtain ⟨hdp, hl⟩ := List.forall_mem_cons.mp hl
    by_cases hle : O.le dp.1 (O.next sp.2) = true
    · rw [if_pos hle]
      obtain ⟨hq, hin⟩ := hj sp dp hsp hdp hle
      obtain ⟨hall, hkeep⟩ := ih hq hl
      refine ⟨hall, fun hx => hkeep ?_⟩
      rw [member_cons, member_cons] at hx
      rw [member_cons]
      rcases hx with hx | hx | hx
      · exact .inl (hin (.inl hx))
      · exact .inl (hin (.inr hx))
      · exact .inr hx
    · rw [if_neg hle]
      exact ⟨List.forall_mem_cons.mpr ⟨hsp, List.forall_mem_cons.mpr ⟨hdp, hl⟩⟩, id⟩

theorem Joins.sortIn (hj : Joins O Q x) {sp : α × α} (hsp : Q sp) {l : List (α × α)} (hl : ∀ r ∈ l, Q r) :
    (∀ r ∈ Ranges.sortIn O sp l, Q r) ∧ (member O (sp :: l) x = true → member O (Ranges.sortIn O sp l) x = true) := by
  obtain ⟨hall, hkeep⟩ := hj.mergeLoop hsp (l := l.dropWhile fun dp => O.lt dp.2 (O.prev sp.1))
    fun r hr => hl r ((List.dropWhile_sublist _).mem hr)
  refine ⟨fun r hr => ?_, fun hx => ?_⟩
  · rcases List.mem_append.mp hr with hr | hr
    · exact hl r ((List.takeWhile_sublist _).mem hr)
    · exact hall r hr
  · rw [Ranges.sortIn, member_append]
    rw [member_cons, ← List.takeWhile_append_dropWhile (p := fun dp => O.lt dp.2 (O.prev sp.1)) (l := l),
      member_append] at hx
    rcases hx with hx | hx | hx
    · exact .inr (hkeep (member_cons.mpr (.inl hx)))
    · exact .inl hx
    · exact .inr (hkeep (member_cons.mpr (.inr hx)))

/-- A range that is not passed, and that is touched, is merged. -/
theorem sortIn_singleton {sp dp : α × α} (hpass : ¬ O.lt dp.2 (O.prev sp.1) = true)
    (htouch : O.le dp.1 (O.next sp.2) = true) : Ranges.sortIn O sp [dp] = [joined O sp dp] := by
  have hpass : O.lt dp.2 (O.prev sp.1) = false := Bool.eq_false_iff.mpr hpass
  rw [Ranges.sortIn, List.takeWhile_cons_of_neg (by simp [hpass]), List.dropWhile_cons_of_neg (by simp [hpass]),
    Ranges.mergeLoop, if_pos htouch]
  rfl

/-- A point that is in one of the ranges stays in the list. -/
theorem Joins.cleanLoop (hj : Joins O Q x) {rest new l : List (α × α)} (hrest : ∀ r ∈ rest, Q r) (hnew : ∀ r ∈ new, Q r)
    (h : Ranges.cleanLoop O new rest = some l) (hx : member O new x = true ∨ member O rest x = true) :
    member O l x = true := by
  induction rest generalizing new with
  | nil =>
    obtain rfl := Option.some.inj h
    exact hx.resolve_right (by simp [member])
  | cons sp rest ih =>
    rw [Ranges.cleanLoop] at h
    split_ifs at h
    obtain ⟨hsp, hrest⟩ := List.forall_mem_cons.mp hrest
    obtain ⟨hall, hkeep⟩ := hj.sortIn hsp hnew
    rw [member_cons] at hx
    refine ih hrest hall h ?_
    rcases hx with hx | hx | hx
    · exact .inl (hkeep (member_cons.mpr (.inr hx)))
    · exact .inl (hkeep (member_cons.mpr (.inl hx)))
    · exact .inr hx

end Joins

/-- Where all ends are comparable a merge loses nothing. -/
theorem Ranked.joins (hO : Ranked O rank cmp) {C : α → Prop} (hC : ∀ a b, C a → C b → cmp a b) (x : α) :
    Joins O (fun r => C r.1 ∧ C r.2) x := by
  intro sp dp hsp hdp _
  refine ⟨joined_ends hsp hdp, fun hin => ?_⟩
  have hcmp : ∀ r : α × α, C r.1 ∧ C r.2 → InRange O r x → ∀ c, C c → cmp x c := fun r hr hin c hc => by
    have hle := ((hO.le_iff _ _).mp hin.1).2.trans ((hO.le_iff _ _).mp hin.2).2
    exact hO.between r.1 r.2 c x ((hO.le_iff _ _).mpr ⟨hC _ _ hr.1 hr.2, hle⟩) (hC _ _ hr.1 hc) (hC _ _ hr.2 hc) hin.1 hin.2
  have hx : ∀ c, C c → cmp x c := hin.elim (hcmp sp hsp) (hcmp dp hdp)
  obtain ⟨hcs, hcd⟩ := hO.covers_merge (hC _ _ hdp.1 hsp.1) (hC _ _ hdp.2 hsp.2)
  have hends : C (joined O sp dp).1 ∧ C (joined O sp dp).2 := joined_ends hsp hdp
  refine ⟨(hO.le_iff _ _).mpr ⟨hO.symm _ _ (hx _ hends.1), ?_⟩, (hO.le_iff _ _).mpr ⟨hx _ hends.2, ?_⟩⟩
  · rcases hin with hin | hin
    · exact hcs.1.trans ((hO.le_iff _ _).mp hin.1).2
    · exact hcd.1.trans ((hO.le_iff _ _).mp hin.1).2
  · rcases hin with hin | hin
    · exact ((hO.le_iff _ _).mp hin.2).2.trans hcs.2
    · exact ((hO.le_iff _ _).mp hin.2).2.trans hcd.2

/-! ### Sound merges -/

section Sound
variable (O : Steps α) (P : α → Prop) (items : List (α × α))

/-- A merge that adds no point which is in none of the items, and loses none which is in no other range. -/
structure Sound (others : List (α × α)) (sp dp : α × α) : Prop where
  /-- What is added. -/
  adds : ∀ x, P x → InRange O (joined O sp dp) x → member O items x = true
  /-- What is lost. -/
  loses : ∀ x, P x → InRange O sp x ∨ InRange O dp x → InRange O (joined O sp dp) x ∨ member O others x = true

/-- All merges of `mergeLoop` are sound. -/
def SoundMerges (others : List (α × α)) (sp : α × α) : List (α × α) → Prop
  | [] => True
  | dp :: l => O.le dp.1 (O.next sp.2) = true → Sound O P items (others ++ l) sp dp ∧ SoundMerges others (joined O sp dp) l

/-- All merges of `cleanLoop` are sound. -/
def SoundClean (new : List (α × α)) : List (α × α) → Prop
  | [] => True
  | sp :: l =>
    SoundMerges O P items ((new.takeWhile fun dp => O.lt dp.2 (O.prev sp.1)) ++ l) sp
        (new.dropWhile fun dp => O.lt dp.2 (O.prev sp.1)) ∧
      SoundClean (sortIn O sp new) l

variable {O P items} {others : List (α × α)} {sp : α × α} {new rest l : List (α × α)}

/-- Sound merges keep the union. -/
theorem SoundMerges.member {x : α} (hx : P x) (h : SoundMerges O P items others sp l)
    (hU : Ranges.member O others x = true ∨ Ranges.member O (sp :: l) x = true ↔ Ranges.member O items x = true) :
    Ranges.member O others x = true ∨ Ranges.member O ((mergeLoop O sp l).1 :: (mergeLoop O sp l).2) x = true ↔
      Ranges.member O items x = true := by
  induction l generalizing sp with
  | nil => exact hU
  | cons dp l ih =>
    rw [mergeLoop]
    by_cases hle : O.le dp.1 (O.next sp.2) = true
    · obtain ⟨hs, hrest⟩ := h hle
      rw [if_pos hle]
      apply ih hrest
      rw [member_cons, member_cons] at hU
      rw [member_cons]
      constructor
      · rintro (ho | hj | hl)
        · exact hU.mp (.inl ho)
        · exact hs.adds x hx hj
        · exact hU.mp (.inr (.inr (.inr hl)))
      · intro hi
        have hkeep := hs.loses x hx
        rw [member_append] at hkeep
        rcases hU.mpr hi with ho | hsp | hdp | hl
        · exact .inl ho
        · exact (hkeep (.inl hsp)).elim (fun hj => .inr (.inl hj)) (Or.imp_right .inr)
        · exact (hkeep (.inr hdp)).elim (fun hj => .inr (.inl hj)) (Or.imp_right .inr)
        · exact .inr (.inr hl)
    · rw [if_neg hle]
      exact hU

/-- **If all merges are sound, the list is the union of the items.** -/
theorem SoundClean.member {x : α} (hx : P x) (h : SoundClean O P items new rest) (hc : cleanLoop O new rest = some l)
    (hU : Ranges.member O new x = true ∨ Ranges.member O rest x = true ↔ Ranges.member O items x = true) :
    Ranges.member O l x = true ↔ Ranges.member O items x = true := by
  induction rest generalizing new with
  | nil =>
    obtain rfl := Option.some.inj hc
    simpa [Ranges.member] using hU
  | cons sp rest ih =>
    rw [cleanLoop] at hc
    split_ifs at hc
    obtain ⟨hs, hrest⟩ := h
    apply ih hrest hc
    rw [← List.takeWhile_append_dropWhile (p := fun dp => O.lt dp.2 (O.prev sp.1)) (l := new), member_append,
      member_cons] at hU
    have hm := hs.member hx (by rw [member_append, member_cons]; tauto)
    rw [member_append] at hm
    rw [sortIn, member_append]
    tauto

variable {Q : α × α → Prop}

/-- Where nothing is lost, merges are sound if what they leave is part of the items. -/
theorem Joins.soundMerges (hj : ∀ x, Joins O Q x) (hsp : Q sp) (hl : ∀ r ∈ l, Q r)
    (hpart : ∀ x, P x → Ranges.member O ((Ranges.mergeLoop O sp l).1 :: (Ranges.mergeLoop O sp l).2) x = true →
      Ranges.member O items x = true) : SoundMerges O P items others sp l := by
  induction l generalizing sp with
  | nil => trivial
  | cons dp l ih =>
    intro hle
    obtain ⟨hdp, hl⟩ := List.forall_mem_cons.mp hl
    have hq : Q (joined O sp dp) := (hj sp.1 sp dp hsp hdp hle).1
    rw [Ranges.mergeLoop, if_pos hle] at hpart
    refine ⟨⟨fun x hx hin => hpart x hx ?_, fun x _ hin => .inl ((hj x sp dp hsp hdp hle).2 hin)⟩, ih hq hl hpart⟩
    exact ((hj x).mergeLoop hq hl).2 (member_cons.mpr (.inl hin))

/-- **Where nothing is lost, all merges are sound if the list is part of the items.** -/
theorem Joins.soundClean (hj : ∀ x, Joins O Q x) (hnew : ∀ r ∈ new, Q r) (hrest : ∀ r ∈ rest, Q r)
    (hc : Ranges.cleanLoop O new rest = some l)
    (hpart : ∀ x, P x → Ranges.member O l x = true → Ranges.member O items x = true) : SoundClean O P items new rest := by
  induction rest generalizing new with
  | nil => trivial
  | cons sp rest ih =>
    rw [Ranges.cleanLoop] at hc
    split_ifs at hc
    obtain ⟨hsp, hrest⟩ := List.forall_mem_cons.mp hrest
    have hsort : ∀ r ∈ Ranges.sortIn O sp new, Q r := ((hj sp.1).sortIn hsp hnew).1
    refine ⟨?_, ih hsort hrest hc⟩
    apply Joins.soundMerges hj hsp fun r hr => hnew r ((List.dropWhile_sublist _).mem hr)
    intro x hx hm
    exact hpart x hx ((hj x).cleanLoop hrest hsort hc (.inl (member_append.mpr (.inr hm))))

end Sound

/-! ### Groups -/

/-- All ranges of the group `k'` end before those of the group `k`, and before the point before. -/
def Below (O : Steps α) (items : List (α × α)) (grp : α × α → κ) (k' k : κ) : Prop :=
  ∀ q ∈ items, ∀ q' ∈ items, grp q = k' → grp q' = k → O.lt q.2 (O.prev q'.1) = true

/-- The ranges fall into groups that are kept apart. -/
structure Grouped (O : Steps α) (rank : α → ρ) (cmp : α → α → Prop) (P : α → Prop) (items : List (α × α))
    (grp : α × α → κ) : Prop where
  /-- The ends of a group are comparable. -/
  cmp : ∀ r ∈ items, ∀ r' ∈ items, grp r = grp r' → cmp r.1 r'.1 ∧ cmp r.1 r'.2 ∧ cmp r.2 r'.2
  /-- What is between the ends of a group is in one of the ranges. -/
  solid : ∀ r ∈ items, ∀ r' ∈ items, grp r = grp r' → ∀ x, P x → InRange O (r.1, r'.2) x →
    ∃ q ∈ items, InRange O q x
  /-- If a range could be merged with one of another group, it passes that whole group. -/
  apart : ∀ r ∈ items, ∀ r' ∈ items, grp r ≠ grp r' → O.le r'.1 (O.next r.2) = true →
    Below O items grp (grp r') (grp r)
  /-- The point before is not above. -/
  down : ∀ r ∈ items, rank (O.prev r.1) ≤ rank r.1

/-- A range that was merged from ranges of the group `k`. -/
structure Hull (rank : α → ρ) (items : List (α × α)) (grp : α × α → κ) (k : κ) (r : α × α) : Prop where
  /-- It begins as one of them does. -/
  first : ∃ a ∈ items, grp a = k ∧ r.1 = a.1
  /-- It ends as one of them does. -/
  last : ∃ b ∈ items, grp b = k ∧ r.2 = b.2
  /-- It is not empty. -/
  le : rank r.1 ≤ rank r.2

section Grouped
variable {P : α → Prop} {items : List (α × α)} {grp : α × α → κ}

theorem Hull.of_mem {r : α × α} (hr : r ∈ items) (h : rank r.1 ≤ rank r.2) : Hull rank items grp (grp r) r :=
  ⟨⟨r, hr, rfl, rfl⟩, ⟨r, hr, rfl, rfl⟩, h⟩

theorem Hull.comparable (hg : Grouped O rank cmp P items grp) {k : κ} {r r' : α × α} (h : Hull rank items grp k r)
    (h' : Hull rank items grp k r') : cmp r.1 r'.1 ∧ cmp r.1 r'.2 ∧ cmp r.2 r'.2 := by
  obtain ⟨a, ha, hka, he1⟩ := h.first
  obtain ⟨b, hb, hkb, he2⟩ := h.last
  obtain ⟨a', ha', hka', he1'⟩ := h'.first
  obtain ⟨b', hb', hkb', he2'⟩ := h'.last
  rw [he1, he2, he1', he2']
  exact ⟨(hg.cmp a ha a' ha' (hka.trans hka'.symm)).1, (hg.cmp a ha b' hb' (hka.trans hkb'.symm)).2.1,
    (hg.cmp b hb b' hb' (hkb.trans hkb'.symm)).2.2⟩

/-- Two ranges of a group are merged into one of the group. -/
theorem Hull.merge (hO : Ranked O rank cmp) (hg : Grouped O rank cmp P items grp) {k : κ} {sp dp : α × α}
    (hs : Hull rank items grp k sp) (hd : Hull rank items grp k dp) :
    Hull rank items grp k (joined O sp dp) := by
  obtain ⟨h1, -, h2⟩ := hd.comparable hg hs
  obtain ⟨hc, -⟩ := hO.covers_merge h1 h2
  refine ⟨?_, ?_, (hc.1.trans hs.le).trans hc.2⟩
  · rw [joined]
    dsimp only
    split
    · exact hd.first
    · exact hs.first
  · rw [joined]
    dsimp only
    split
    · exact hd.last
    · exact hs.last

/-- A list of ranges with their groups: no range stands before a range of another group that is below its own. -/
structure Labelled (O : Steps α) (rank : α → ρ) (items : List (α × α)) (grp : α × α → κ) (L : List (κ × (α × α))) :
    Prop where
  /-- Each range was merged from ranges of its group. -/
  hull : ∀ e ∈ L, Hull rank items grp e.1 e.2
  /-- Of two neighbours the group of the second is not below that of the first. -/
  chain : L.IsChain fun e e' => e.1 ≠ e'.1 → ¬ Below O items grp e'.1 e.1

/-- Merging ranges of one group is sound. -/
theorem Hull.sound (hO : Ranked O rank cmp) (hg : Grouped O rank cmp P items grp) {k : κ} {sp dp : α × α}
    (hs : Hull rank items grp k sp) (hd : Hull rank items grp k dp) (hle : O.le dp.1 (O.next sp.2) = true)
    (others : List (α × α)) : Sound O P items others sp dp where
  adds x hx hin := by
    obtain ⟨⟨a, ha, hka, h1⟩, ⟨b, hb, hkb, h2⟩, -⟩ := hs.merge hO hg hd
    exact member_iff.mpr (hg.solid a ha b hb (hka.trans hkb.symm) x hx ⟨h1 ▸ hin.1, h2 ▸ hin.2⟩)
  loses x _ hin := by
    have hends : ∀ c c', (∃ r, Hull rank items grp k r ∧ (r.1 = c ∨ r.2 = c)) →
        (∃ r, Hull rank items grp k r ∧ (r.1 = c' ∨ r.2 = c')) → cmp c c' := by
      rintro c c' ⟨r, hr, hc⟩ ⟨r', hr', hc'⟩
      obtain ⟨h11, h12, h22⟩ := hr.comparable hg hr'
      obtain ⟨-, h21, -⟩ := hr'.comparable hg hr
      rcases hc with rfl | rfl <;> rcases hc' with rfl | rfl
      · exact h11
      · exact h12
      · exact hO.symm _ _ h21
      · exact h22
    exact .inl ((hO.joins hends x sp dp ⟨⟨sp, hs, .inl rfl⟩, sp, hs, .inr rfl⟩ ⟨⟨dp, hd, .inl rfl⟩, dp, hd, .inr rfl⟩
      hle).2 hin)

/-- What merging does: only ranges of the same group are merged. -/
theorem mergeLoop_spec (hO : Ranked O rank cmp) (hg : Grouped O rank cmp P items grp) {k : κ} {sp : α × α}
    (hsp : Hull rank items grp k sp) {L : List (κ × (α × α))} (hL : Labelled O rank items grp L)
    (hhead : ∀ e ∈ L.head?, k ≠ e.1 → ¬ Below O items grp e.1 k) (others : List (α × α)) :
    SoundMerges O P items others sp (L.map Prod.snd) ∧
      ∃ sp' L', mergeLoop O sp (L.map Prod.snd) = (sp', L'.map Prod.snd) ∧ Hull rank items grp k sp' ∧
        Labelled O rank items grp L' ∧ ∀ e ∈ L'.head?, k ≠ e.1 → ¬ Below O items grp e.1 k := by
  induction L generalizing sp with
  | nil => exact ⟨trivial, sp, [], rfl, hsp, hL, by simp⟩
  | cons e L ih =>
    rw [List.map_cons, mergeLoop]
    by_cases hle : O.le e.2.1 (O.next sp.2) = true
    · rw [if_pos hle]
      have he := hL.hull e List.mem_cons_self
      -- a range of another group would have been passed
      obtain rfl : k = e.1 := by
        by_contra hne
        obtain ⟨b, hb, hkb, hsp2⟩ := hsp.last
        obtain ⟨a, ha, hka, he1⟩ := he.first
        rw [hsp2, he1] at hle
        have hbelow := hg.apart b hb a ha (by rw [hkb, hka]; exact hne) hle
        rw [hka, hkb] at hbelow
        exact hhead e rfl hne hbelow
      have hL' : Labelled O rank items grp L := ⟨fun x hx => hL.hull x (List.mem_cons_of_mem e hx), hL.chain.tail⟩
      obtain ⟨hs, hrest⟩ := ih (hsp.merge hO hg he) hL' (List.isChain_cons.mp hL.chain).1
      exact ⟨fun _ => ⟨hsp.sound hO hg he hle _, hs⟩, hrest⟩
    · rw [if_neg hle]
      exact ⟨fun hle' => absurd hle' hle, sp, e :: L, rfl, hsp, hL, hhead⟩

/-- What sorting a range in does. -/
theorem sortIn_spec (hO : Ranked O rank cmp) (hg : Grouped O rank cmp P items grp) {s : α × α} (hs : s ∈ items)
    (hle : rank s.1 ≤ rank s.2) {L : List (κ × (α × α))} (hL : Labelled O rank items grp L) (others : List (α × α)) :
    SoundMerges O P items others s ((L.map Prod.snd).dropWhile fun dp => O.lt dp.2 (O.prev s.1)) ∧
      ∃ L', sortIn O s (L.map Prod.snd) = L'.map Prod.snd ∧ Labelled O rank items grp L' := by
  set p : κ × (α × α) → Bool := fun e => O.lt e.2.2 (O.prev s.1) with hp
  obtain ⟨before, after, hsplit, hbefore, hafter⟩ : ∃ before after, L = before ++ after ∧ before = L.takeWhile p ∧
      after = L.dropWhile p := ⟨_, _, (List.takeWhile_append_dropWhile).symm, rfl, rfl⟩
  have hpassed : ∀ e ∈ before, O.lt e.2.2 (O.prev s.1) = true := fun e he => by
    rw [hbefore] at he
    exact (List.mem_takeWhile_imp he : p e = true)
  have hnot : ∀ e ∈ after.head?, ¬ O.lt e.2.2 (O.prev s.1) = true := fun e he => by
    rw [hafter] at he
    have := List.head?_dropWhile_not p L
    rw [he] at this
    simpa [hp] using this
  have hchain := hL.chain
  rw [hsplit, List.isChain_append] at hchain
  have hL' : Labelled O rank items grp after :=
    ⟨fun e he => hL.hull e (hsplit ▸ List.mem_append_right _ he), hchain.2.1⟩
  -- the first range that is not passed is not of a group below
  have hhead : ∀ e ∈ after.head?, grp s ≠ e.1 → ¬ Below O items grp e.1 (grp s) := fun e he _ hbelow => by
    obtain ⟨b, hb, hkb, he2⟩ := (hL'.hull e (List.mem_of_mem_head? he)).last
    exact hnot e he (he2 ▸ hbelow b hb s hs hkb rfl)
  have htake : (L.map Prod.snd).takeWhile (fun dp => O.lt dp.2 (O.prev s.1)) = before.map Prod.snd := by
    rw [List.takeWhile_map, hbefore]
    rfl
  have hdrop : (L.map Prod.snd).dropWhile (fun dp => O.lt dp.2 (O.prev s.1)) = after.map Prod.snd := by
    rw [List.dropWhile_map, hafter]
    rfl
  obtain ⟨hsound, sp', L', hm, hh, hl, hhd⟩ := mergeLoop_spec hO hg (Hull.of_mem hs hle) hL' hhead others
  rw [hdrop]
  refine ⟨hsound, before ++ (grp s, sp') :: L', ?_, ?_, ?_⟩
  · rw [sortIn, htake, hdrop, hm, List.map_append, List.map_cons]
  · intro e he
    rcases List.mem_append.mp he with he | he
    · exact hL.hull e (hsplit ▸ List.mem_append_left _ he)
    · rcases List.mem_cons.mp he with rfl | he
      · exact hh
      · exact hl.hull e he
  · rw [List.isChain_append]
    refine ⟨hchain.1, List.isChain_cons.mpr ⟨fun e he hne => hhd e he hne, hl.chain⟩, fun e he e' he' hne hbelow => ?_⟩
    -- what is passed is below the new range
    obtain rfl : (grp s, sp') = e' := by simpa using he'
    have hmem := List.mem_of_mem_getLast? he
    have hull := hL.hull e (hsplit ▸ List.mem_append_left _ hmem)
    obtain ⟨a, ha, hka, he1⟩ := hull.first
    have h1 := ((hO.lt_iff _ _).mp (hpassed e hmem)).2
    have h2 := ((hO.lt_iff _ _).mp (hbelow s hs a ha rfl hka)).2
    rw [← he1] at h2
    have h3 := hg.down a ha
    rw [← he1] at h3
    exact absurd (((((h1.trans_le (hg.down s hs)).trans_le hle).trans h2).trans_le h3).trans_le hull.le) (lt_irrefl _)

/-- **Ranges that are grouped are merged soundly**, in whatever order they are sorted in. -/
theorem Grouped.soundClean (hO : Ranked O rank cmp) (hg : Grouped O rank cmp P items grp) {rest : List (α × α)}
    (hrest : ∀ r ∈ rest, r ∈ items ∧ O.le r.1 r.2 = true) {L : List (κ × (α × α))} (hL : Labelled O rank items grp L) :
    SoundClean O P items (L.map Prod.snd) rest := by
  induction rest generalizing L with
  | nil => trivial
  | cons s rest ih =>
    obtain ⟨⟨hs, hle⟩, hrest⟩ := List.forall_mem_cons.mp hrest
    obtain ⟨hsound, L', hsort, hL'⟩ := sortIn_spec hO hg hs ((hO.le_iff _ _).mp hle).2 hL _
    refine ⟨hsound, ?_⟩
    rw [hsort]
    exact ih hrest hL'

/-- **A list of ranges that are grouped is the union of them**, in whatever order they are sorted in. -/
theorem member_clean_iff (hO : Ranked O rank cmp) (hg : Grouped O rank cmp P items grp)
    (hle : ∀ r ∈ items, O.le r.1 r.2 = true) {l : List (α × α)} (h : clean O items = some l) {x : α} (hx : P x) :
    member O l x = true ↔ member O items x = true := by
  refine SoundClean.member hx (hg.soundClean hO (L := []) (fun r hr => ⟨hr, hle r hr⟩) ⟨by simp, .nil⟩) h ?_
  simp [member]

end Grouped

/-! ### Lines -/

/-- The ranges lie on lines, and nothing is missing between two of them that may be merged. -/
structure OnLines (O : Steps α) (rank : α → ρ) (cmp : α → α → Prop) (P : α → Prop) (items : List (α × α))
    (line : α × α → μ) : Prop where
  /-- The ends on one line are comparable. -/
  cmp : ∀ r ∈ items, ∀ r' ∈ items, line r = line r' → cmp r.1 r'.1 ∧ cmp r.1 r'.2 ∧ cmp r.2 r'.2
  /-- The second begins no later than the point after the end of the first. -/
  next : ∀ r ∈ items, ∀ r' ∈ items, line r = line r' → O.le r'.1 (O.next r.2) = true →
    ∀ x, P x → O.lt r.2 x = true → O.lt x r'.1 = true → ∃ q ∈ items, InRange O q x
  /-- The first does not end before the point before the start of the second. -/
  prev : ∀ r ∈ items, ∀ r' ∈ items, line r = line r' → ¬ O.lt r.2 (O.prev r'.1) = true →
    ∀ x, P x → O.lt r.2 x = true → O.lt x r'.1 = true → ∃ q ∈ items, InRange O q x
  /-- If a range could be merged with one of another line, it passes that whole line. -/
  apart : ∀ r ∈ items, ∀ r' ∈ items, line r ≠ line r' → O.le r'.1 (O.next r.2) = true →
    Below O items line (line r') (line r)
  /-- The point before is not above. -/
  down : ∀ r ∈ items, rank (O.prev r.1) ≤ rank r.1

section OnLines
variable {P : α → Prop} {items : List (α × α)} {line : α × α → μ}

/-- The points of the line that are in no range and come before the start of `r`. -/
def missing (O : Steps α) (rank : α → ρ) (cmp : α → α → Prop) (P : α → Prop) (items : List (α × α)) (line : α × α → μ)
    (r : α × α) : Set α :=
  {x | P x ∧ (∀ q ∈ items, line q = line r → cmp q.1 x ∧ cmp q.2 x) ∧ (¬ ∃ q ∈ items, InRange O q x) ∧ rank x < rank r.1}

/-- A point that is in no range and does not come before the start of `r` comes after its end. -/
theorem after_of_not_missing (hO : Ranked O rank cmp) {r r' : α × α} (hr : r ∈ items) (hline : line r' = line r) {x : α}
    (hx : x ∈ missing O rank cmp P items line r') (h : x ∉ missing O rank cmp P items line r) :
    rank r.1 ≤ rank x ∧ O.lt r.2 x = true := by
  obtain ⟨hP, hcmp, hfree, -⟩ := hx
  have hcmp' : ∀ q ∈ items, line q = line r → cmp q.1 x ∧ cmp q.2 x := fun q hq hqr => hcmp q hq (hqr.trans hline.symm)
  have h1 : rank r.1 ≤ rank x := not_lt.mp fun hlt => h ⟨hP, hcmp', hfree, hlt⟩
  refine ⟨h1, (hO.lt_iff _ _).mpr ⟨(hcmp' r hr rfl).2, not_le.mp fun h2 => hfree ⟨r, hr, ?_, ?_⟩⟩⟩
  · exact (hO.le_iff _ _).mpr ⟨(hcmp' r hr rfl).1, h1⟩
  · exact (hO.le_iff _ _).mpr ⟨hO.symm _ _ (hcmp' r hr rfl).2, h2⟩

/-- **Ranges on lines are grouped**: those with nothing missing between them are together. -/
theorem grouped_of_lines (hO : Ranked O rank cmp) (h : OnLines O rank cmp P items line) :
    Grouped O rank cmp P items fun r => (line r, missing O rank cmp P items line r) where
  cmp r hr r' hr' heq := h.cmp r hr r' hr' (Prod.mk.inj heq).1
  solid r hr r' hr' heq x hx hin := by
    obtain ⟨hline, hmiss⟩ := Prod.mk.inj heq
    by_contra hfree
    have h1 := (hO.le_iff _ _).mp hin.1
    have h2 := (hO.le_iff _ _).mp hin.2
    have hle : O.le r.1 r'.2 = true := (hO.le_iff _ _).mpr ⟨(h.cmp r hr r' hr' hline).2.1, h1.2.trans h2.2⟩
    have hcmp : ∀ q ∈ items, line q = line r' → cmp q.1 x ∧ cmp q.2 x := fun q hq hq' => by
      obtain ⟨hr1, hr2, -⟩ := h.cmp r hr q hq (hline.trans hq'.symm)
      obtain ⟨-, hq2, hq22⟩ := h.cmp q hq r' hr' hq'
      exact ⟨hO.symm _ _ (hO.between _ _ q.1 x hle hr1 (hO.symm _ _ hq2) hin.1 hin.2),
        hO.symm _ _ (hO.between _ _ q.2 x hle hr2 (hO.symm _ _ hq22) hin.1 hin.2)⟩
    -- the point does not come before the start of `r`, so it does not come before that of `r'`
    have hnot : x ∉ missing O rank cmp P items line r' := fun hmem => by
      rw [← hmiss] at hmem
      exact absurd hmem.2.2.2 (not_lt.mpr h1.2)
    refine hfree ⟨r', hr', (hO.le_iff _ _).mpr ⟨(hcmp r' hr' rfl).1, ?_⟩, hin.2⟩
    exact not_lt.mp fun hlt => hnot ⟨hx, hcmp, hfree, hlt⟩
  apart r hr r' hr' hne hle := by
    by_cases hline : line r = line r'
    · have hmiss : missing O rank cmp P items line r ≠ missing O rank cmp P items line r' := fun heq =>
        hne (Prod.ext hline heq)
      obtain ⟨x, hx⟩ : ∃ x, ¬ (x ∈ missing O rank cmp P items line r ↔ x ∈ missing O rank cmp P items line r') := by
        by_contra hall
        exact hmiss (Set.ext fun x => by_contra fun hx => hall ⟨x, hx⟩)
      by_cases hxr : x ∈ missing O rank cmp P items line r
      · -- it is missing between the group of `r'` and that of `r`
        have hxr' : x ∉ missing O rank cmp P items line r' := fun hxr' => hx (iff_of_true hxr hxr')
        intro q hq q' hq' heq heq'
        obtain ⟨hlq, hmq⟩ := Prod.mk.inj heq
        obtain ⟨hlq', hmq'⟩ := Prod.mk.inj heq'
        have hxq' : x ∈ missing O rank cmp P items line q' := hmq' ▸ hxr
        have hxq : x ∉ missing O rank cmp P items line q := hmq ▸ hxr'
        have hsame : line q = line q' := hlq.trans (hline.symm.trans hlq'.symm)
        obtain ⟨-, hafter⟩ := after_of_not_missing hO hq hsame.symm hxq' hxq
        obtain ⟨hP, hcmp, hfree, hlt⟩ := hxq'
        by_contra hnot
        refine hfree (h.prev q hq q' hq' hsame hnot x hP hafter ((hO.lt_iff _ _).mpr ⟨?_, hlt⟩))
        exact hO.symm _ _ (hcmp q' hq' rfl).1
      · -- it is missing between `r` and `r'`
        have hxr' : x ∈ missing O rank cmp P items line r' := by_contra fun hxr' => hx (iff_of_false hxr hxr')
        obtain ⟨-, hafter⟩ := after_of_not_missing hO hr hline.symm hxr' hxr
        obtain ⟨hP, hcmp, hfree, hlt⟩ := hxr'
        refine absurd (h.next r hr r' hr' hline hle x hP hafter ((hO.lt_iff _ _).mpr ⟨?_, hlt⟩)) hfree
        exact hO.symm _ _ (hcmp r' hr' rfl).1
    · intro q hq q' hq' heq heq'
      exact h.apart r hr r' hr' hline hle q hq q' hq' (Prod.mk.inj heq).1 (Prod.mk.inj heq').1
  down := h.down

end OnLines

end CSSC.Library.Ranges
