import CSSC.Library.Ranges

/-!
# Cutting ranges out of ranges

On a line all points are comparable. A range is cut out of another one at its start, at its end, or as a whole. What
is left is one range; after a cut of the whole it is an empty one, unless the steps wrap around. A range that lies
strictly inside would leave two.

The ends of ranges are points of a kind, such as those that can be written; a step from one may lead to a point of the
line that is not of the kind. Ranges in order, with something between them, are `Separated`. Cutting such ranges out
leaves the difference (`Line.difference_of_cuttable`), if none is strictly inside or covers the other, and no step
wraps around; `Line.cutAll_of_covers` tells what is left of a range that is covered. A list that was cleaned is
separated, if no step wraps around (`Line.separated_cleanLoop`).
-/

namespace CSSC.Library.Ranges

variable {α ρ : Type*} {O : Steps α} [LinearOrder ρ] {rank : α → ρ} {cmp : α → α → Prop} {Lin K : α → Prop}

/-! ### Lines -/

/-- Points that are all comparable, and the points of a kind among them. -/
structure Line (O : Steps α) (rank : α → ρ) (cmp : α → α → Prop) (Lin K : α → Prop) : Prop where
  /-- The comparisons are those of a rank. -/
  ranked : Ranked O rank cmp
  /-- Points on the line are comparable. -/
  cmp : ∀ a b, Lin a → Lin b → cmp a b
  /-- The points of the kind are on the line. -/
  mem : ∀ a, K a → Lin a
  /-- So are the points after them … -/
  next_mem : ∀ a, K a → Lin (O.next a)
  /-- … and the points before them. -/
  prev_mem : ∀ a, K a → Lin (O.prev a)
  /-- A step down goes down. -/
  prev_lt : ∀ a, K a → rank (O.prev a) < rank a
  /-- Nothing is between a point and the one before. -/
  le_prev : ∀ x b, Lin x → K b → rank x < rank b → rank x ≤ rank (O.prev b)
  /-- Nothing is between a point and the one after. -/
  next_le : ∀ a x, K a → Lin x → rank a < rank x → rank (O.next a) ≤ rank x
  /-- A step up that does not wrap around leads to a point of the kind. -/
  next_kind : ∀ a, K a → rank a < rank (O.next a) → K (O.next a)
  /-- A step up to a point of the kind does not wrap around. -/
  lt_next : ∀ a, K (O.next a) → rank a < rank (O.next a)
  /-- A step up is undone by a step down. -/
  prev_next : ∀ a, K a → O.prev (O.next a) = a

/-- A range with ends on the line. -/
def On (Lin : α → Prop) (r : α × α) : Prop := Lin r.1 ∧ Lin r.2

namespace Line

theorem le_iff (hL : Line O rank cmp Lin K) {a b : α} (ha : Lin a) (hb : Lin b) :
    O.le a b = true ↔ rank a ≤ rank b := by
  rw [hL.ranked.le_iff]
  exact and_iff_right (hL.cmp a b ha hb)

theorem lt_iff (hL : Line O rank cmp Lin K) {a b : α} (ha : Lin a) (hb : Lin b) :
    O.lt a b = true ↔ rank a < rank b := by
  rw [hL.ranked.lt_iff]
  exact and_iff_right (hL.cmp a b ha hb)

theorem gt_iff (hL : Line O rank cmp Lin K) {a b : α} (ha : Lin a) (hb : Lin b) :
    O.gt a b = true ↔ rank b < rank a := by
  rw [hL.ranked.gt_iff]
  exact and_iff_right (hL.cmp a b ha hb)

theorem ge_iff (hL : Line O rank cmp Lin K) {a b : α} (ha : Lin a) (hb : Lin b) :
    O.ge a b = true ↔ rank b ≤ rank a := by
  rw [hL.ranked.ge_iff]
  exact and_iff_right (hL.cmp a b ha hb)

theorem inRange_iff (hL : Line O rank cmp Lin K) {r : α × α} (hr : On Lin r) {x : α} (hx : Lin x) :
    InRange O r x ↔ rank r.1 ≤ rank x ∧ rank x ≤ rank r.2 := by
  rw [InRange, hL.le_iff hr.1 hx, hL.le_iff hx hr.2]

theorem on (hL : Line O rank cmp Lin K) {r : α × α} (hr : On K r) : On Lin r := ⟨hL.mem _ hr.1, hL.mem _ hr.2⟩

/-- **Ranges on a line lie on lines**, and nothing is missing between two that may be merged. -/
theorem onLines (hL : Line O rank cmp Lin K) {items : List (α × α)} (h : ∀ r ∈ items, On K r) :
    OnLines O rank cmp K items fun _ => () where
  cmp r hr r' hr' _ := by
    have h1 := hL.on (h r hr)
    have h2 := hL.on (h r' hr')
    exact ⟨hL.cmp _ _ h1.1 h2.1, hL.cmp _ _ h1.1 h2.2, hL.cmp _ _ h1.2 h2.2⟩
  next r hr r' hr' _ hnext x hx h1 h2 := by
    have hk1 := ((hL.ranked.lt_iff _ _).mp h1).2
    have hk2 := ((hL.ranked.lt_iff _ _).mp h2).2
    have hk := ((hL.ranked.le_iff _ _).mp hnext).2
    exact absurd ((hk.trans (hL.next_le _ _ (h r hr).2 (hL.mem x hx) hk1)).trans_lt hk2) (lt_irrefl _)
  prev r hr r' hr' _ hnot x hx h1 h2 := by
    have hk1 := ((hL.ranked.lt_iff _ _).mp h1).2
    have hk2 := ((hL.ranked.lt_iff _ _).mp h2).2
    have hk := hL.le_prev _ _ (hL.mem x hx) (h r' hr').1 hk2
    exact absurd ((hL.lt_iff (hL.on (h r hr)).2 (hL.prev_mem _ (h r' hr').1)).mpr (hk1.trans_le hk)) hnot
  apart r _ r' _ hne := absurd rfl hne
  down r hr := (hL.prev_lt _ (h r hr).1).le

/-- Merging keeps all points. -/
theorem joins (hL : Line O rank cmp Lin K) (x : α) : Joins O (On Lin) x := hL.ranked.joins hL.cmp x

end Line

/-! ### Cuts -/

section
variable (O : Steps α)

/-- `sp` is cut out of `dp` where it overlaps the start, and where it overlaps the end. -/
def cut (sp dp : α × α) : α × α :=
  (if O.le sp.1 dp.1 && O.ge sp.2 dp.1 then O.next sp.2 else dp.1,
    if O.ge sp.2 dp.2 && O.le sp.1 dp.2 then O.prev sp.1 else dp.2)

/-- `sp` is strictly inside `dp`. -/
def inside (sp dp : α × α) : Bool := O.gt sp.1 dp.1 && O.lt sp.2 dp.2

/-- One range after the other is cut out. -/
def cutAll (y : List (α × α)) (c : α × α) : α × α := y.foldl (fun c p => cut O p c) c

/-- No range is strictly inside what the ranges before it leave. -/
def NoSplit : List (α × α) → α × α → Prop
  | [], _ => True
  | p :: y, c => inside O p (cut O p c) = false ∧ NoSplit y (cut O p c)

/-- Ranges in order, each of which passes those before it. -/
structure Separated (l : List (α × α)) : Prop where
  /-- Ranges are not empty. -/
  ranges : ∀ r ∈ l, O.le r.1 r.2 = true
  /-- Each ends before the point before the start of the later ones. -/
  apart : l.Pairwise fun r q => O.lt r.2 (O.prev q.1) = true

end

theorem Separated.tail {p : α × α} {y : List (α × α)} (hy : Separated O (p :: y)) : Separated O y :=
  ⟨fun r hr => hy.ranges r (List.mem_cons_of_mem p hr), (List.pairwise_cons.mp hy.apart).2⟩

namespace Line

section Cut
variable {p c : α × α}

theorem cut_first (hL : Line O rank cmp Lin K) (hp : On K p) (hc : On Lin c) :
    (cut O p c).1 = if rank p.1 ≤ rank c.1 ∧ rank c.1 ≤ rank p.2 then O.next p.2 else c.1 := by
  have hp := hL.on hp
  simp only [cut, Bool.and_eq_true, hL.le_iff hp.1 hc.1, hL.ge_iff hp.2 hc.1]

theorem cut_second (hL : Line O rank cmp Lin K) (hp : On K p) (hc : On Lin c) :
    (cut O p c).2 = if rank c.2 ≤ rank p.2 ∧ rank p.1 ≤ rank c.2 then O.prev p.1 else c.2 := by
  have hp := hL.on hp
  simp only [cut, Bool.and_eq_true, hL.le_iff hp.1 hc.2, hL.ge_iff hp.2 hc.2]

theorem cut_mem (hL : Line O rank cmp Lin K) (hp : On K p) (hc : On Lin c) : On Lin (cut O p c) := by
  unfold On
  rw [hL.cut_first hp hc, hL.cut_second hp hc]
  split_ifs
  · exact ⟨hL.next_mem _ hp.2, hL.prev_mem _ hp.1⟩
  · exact ⟨hL.next_mem _ hp.2, hc.2⟩
  · exact ⟨hc.1, hL.prev_mem _ hp.1⟩
  · exact hc

theorem cutAll_mem (hL : Line O rank cmp Lin K) {y : List (α × α)} (hy : ∀ p ∈ y, On K p) (hc : On Lin c) :
    On Lin (cutAll O y c) := by
  induction y generalizing c with
  | nil => exact hc
  | cons p y ih =>
    exact ih (fun q hq => hy q (List.mem_cons_of_mem p hq)) (hL.cut_mem (hy p List.mem_cons_self) hc)

theorem inside_iff (hL : Line O rank cmp Lin K) (hp : On K p) (hc : On Lin c) :
    inside O p c = true ↔ rank c.1 < rank p.1 ∧ rank p.2 < rank c.2 := by
  have hp := hL.on hp
  rw [inside, Bool.and_eq_true, hL.gt_iff hp.1 hc.1, hL.lt_iff hp.2 hc.2]

/-- A range above is not cut out. -/
theorem cut_of_above (hL : Line O rank cmp Lin K) (hp : On K p) (hc : On Lin c) (h1 : rank c.1 < rank p.1)
    (h2 : rank c.2 < rank p.1) : cut O p c = c := by
  refine Prod.ext ?_ ?_
  · rw [hL.cut_first hp hc, if_neg fun h => absurd h1 (not_lt.mpr h.1)]
  · rw [hL.cut_second hp hc, if_neg fun h => absurd h2 (not_lt.mpr h.2)]

/-- A range below is not cut out. -/
theorem cut_of_below (hL : Line O rank cmp Lin K) (hp : On K p) (hc : On Lin c) (h1 : rank p.2 < rank c.1)
    (h2 : rank p.2 < rank c.2) : cut O p c = c := by
  refine Prod.ext ?_ ?_
  · rw [hL.cut_first hp hc, if_neg fun h => absurd h1 (not_lt.mpr h.2)]
  · rw [hL.cut_second hp hc, if_neg fun h => absurd h2 (not_lt.mpr h.1)]

/-- A range that is strictly inside is not cut out. -/
theorem cut_of_inside (hL : Line O rank cmp Lin K) (hp : On K p) (hc : On Lin c) (h1 : rank c.1 < rank p.1)
    (h2 : rank p.2 < rank c.2) : cut O p c = c := by
  refine Prod.ext ?_ ?_
  · rw [hL.cut_first hp hc, if_neg fun h => absurd h1 (not_lt.mpr h.1)]
  · rw [hL.cut_second hp hc, if_neg fun h => absurd h2 (not_lt.mpr h.1)]

/-- A range that overlaps the start. -/
theorem cut_of_start (hL : Line O rank cmp Lin K) (hp : On K p) (hc : On Lin c) (h1 : rank p.1 ≤ rank c.1)
    (h2 : rank c.1 ≤ rank p.2) (h3 : rank p.2 < rank c.2) : cut O p c = (O.next p.2, c.2) := by
  refine Prod.ext ?_ ?_
  · rw [hL.cut_first hp hc, if_pos ⟨h1, h2⟩]
  · rw [hL.cut_second hp hc, if_neg fun h => absurd h3 (not_lt.mpr h.1)]

/-- A range that overlaps the end. -/
theorem cut_of_end (hL : Line O rank cmp Lin K) (hp : On K p) (hc : On Lin c) (h1 : rank c.1 < rank p.1)
    (h2 : rank p.1 ≤ rank c.2) (h3 : rank c.2 ≤ rank p.2) : cut O p c = (c.1, O.prev p.1) := by
  refine Prod.ext ?_ ?_
  · rw [hL.cut_first hp hc, if_neg fun h => absurd h1 (not_lt.mpr h.1)]
  · rw [hL.cut_second hp hc, if_pos ⟨h3, h2⟩]

/-- A range that covers the other. -/
theorem cut_of_covers (hL : Line O rank cmp Lin K) (hp : On K p) (hc : On Lin c) (hle : rank c.1 ≤ rank c.2)
    (h : Covers rank p c) : cut O p c = (O.next p.2, O.prev p.1) := by
  refine Prod.ext ?_ ?_
  · rw [hL.cut_first hp hc, if_pos ⟨h.1, hle.trans h.2⟩]
  · rw [hL.cut_second hp hc, if_pos ⟨h.2, h.1.trans hle⟩]

end Cut

/-! ### One range after the other -/

section CutAll
variable {y : List (α × α)} {c : α × α}

/-- Of ranges in order the first is below the others. -/
theorem lt_of_separated (hL : Line O rank cmp Lin K) {p : α × α} (hy : Separated O (p :: y)) (hk : ∀ r ∈ p :: y, On K r) :
    ∀ q ∈ y, rank p.2 < rank (O.prev q.1) ∧ rank p.2 < rank q.1 := fun q hq => by
  have h := ((hL.ranked.lt_iff _ _).mp ((List.pairwise_cons.mp hy.apart).1 q hq)).2
  exact ⟨h, h.trans (hL.prev_lt _ (hk q (List.mem_cons_of_mem p hq)).1)⟩

/-- Ranges above are not cut out. -/
theorem cutAll_of_above (hL : Line O rank cmp Lin K) (hk : ∀ r ∈ y, On K r) (hle : ∀ r ∈ y, rank r.1 ≤ rank r.2)
    (hc : On Lin c) (h : ∀ q ∈ y, rank c.1 < rank q.1 ∧ rank c.2 < rank q.1) : NoSplit O y c ∧ cutAll O y c = c := by
  induction y with
  | nil => exact ⟨trivial, rfl⟩
  | cons p y ih =>
    obtain ⟨h1, h2⟩ := h p List.mem_cons_self
    have hp := hk p List.mem_cons_self
    have hcut := hL.cut_of_above hp hc h1 h2
    obtain ⟨hn, ha⟩ := ih (fun r hr => hk r (List.mem_cons_of_mem p hr)) (fun r hr => hle r (List.mem_cons_of_mem p hr))
      fun q hq => h q (List.mem_cons_of_mem p hq)
    refine ⟨⟨?_, hcut.symm ▸ hn⟩, ?_⟩
    · rw [hcut, ← Bool.not_eq_true, hL.inside_iff hp hc]
      exact fun hin => absurd (hin.2.trans h2) (not_lt.mpr (hle p List.mem_cons_self))
    · rw [cutAll, List.foldl_cons, hcut]
      exact ha

/-- **What is left of a range that is covered**: from the point after the other to the point before it. -/
theorem cutAll_of_covers (hL : Line O rank cmp Lin K) (hy : Separated O y) (hk : ∀ r ∈ y, On K r) (hc : On Lin c)
    (hle : rank c.1 ≤ rank c.2) {p : α × α} (hp : p ∈ y) (hcov : Covers rank p c) :
    NoSplit O y c ∧ cutAll O y c = (O.next p.2, O.prev p.1) := by
  induction y with
  | nil => exact absurd hp List.not_mem_nil
  | cons q y ih =>
    have hk' : ∀ r ∈ y, On K r := fun r hr => hk r (List.mem_cons_of_mem q hr)
    have hq := hk q List.mem_cons_self
    have hqle : rank q.1 ≤ rank q.2 := ((hL.ranked.le_iff _ _).mp (hy.ranges q List.mem_cons_self)).2
    rcases List.mem_cons.mp hp with rfl | hp
    · have hcut := hL.cut_of_covers hq hc hle hcov
      have habove := hL.lt_of_separated hy hk
      -- the later ranges are above
      obtain ⟨hn, ha⟩ := hL.cutAll_of_above hk' (fun r hr => ((hL.ranked.le_iff _ _).mp (hy.tail.ranges r hr)).2)
        (hcut ▸ hL.cut_mem hq hc) fun r hr =>
          ⟨(hL.next_le _ _ hq.2 (hL.prev_mem _ (hk' r hr).1) (habove r hr).1).trans_lt (hL.prev_lt _ (hk' r hr).1),
            (hL.prev_lt _ hq.1).trans (hqle.trans_lt (habove r hr).2)⟩
      refine ⟨⟨?_, hcut.symm ▸ hn⟩, ?_⟩
      · rw [← Bool.not_eq_true, hL.inside_iff hq (hL.cut_mem hq hc), hcut]
        exact fun hin => absurd (hin.2.trans (hL.prev_lt _ hq.1)) (not_lt.mpr hqle)
      · rw [cutAll, List.foldl_cons, hcut]
        exact ha
    · have hbelow := (hL.lt_of_separated hy hk p hp).2
      have h1 : rank q.2 < rank c.1 := hbelow.trans_le hcov.1
      have hcut := hL.cut_of_below hq hc h1 (h1.trans_le hle)
      obtain ⟨hn, ha⟩ := ih hy.tail hk' hp
      refine ⟨⟨?_, hcut.symm ▸ hn⟩, ?_⟩
      · rw [hcut, ← Bool.not_eq_true, hL.inside_iff hq hc]
        exact fun hin => absurd (h1.trans hin.1) (not_lt.mpr hqle)
      · rw [cutAll, List.foldl_cons, hcut]
        exact ha

/-- `p` is apart from `c`, or can be cut out of it at one of its ends. -/
structure Cuttable (O : Steps α) (rank : α → ρ) (p c : α × α) : Prop where
  /-- The range is not strictly inside. -/
  inside : ¬ (rank c.1 < rank p.1 ∧ rank p.2 < rank c.2)
  /-- It does not cover the other. -/
  covers : ¬ Covers rank p c
  /-- If it overlaps the start, the point after its end is above. -/
  start : rank p.1 ≤ rank c.1 → rank c.1 ≤ rank p.2 → rank p.2 < rank c.2 → rank p.2 < rank (O.next p.2)

/-- What is left is a part of the range, and is the difference. -/
structure Difference (O : Steps α) (rank : α → ρ) (Lin K : α → Prop) (y : List (α × α)) (c : α × α) : Prop where
  /-- No range is strictly inside. -/
  noSplit : NoSplit O y c
  /-- The ends are on the line … -/
  on : On Lin (cutAll O y c)
  /-- … and the start is of the kind. -/
  kind : K (cutAll O y c).1
  /-- Something is left. -/
  le : rank (cutAll O y c).1 ≤ rank (cutAll O y c).2
  /-- It is a part. -/
  part : Covers rank c (cutAll O y c)
  /-- It is the difference. -/
  inRange : ∀ x, Lin x → (InRange O (cutAll O y c) x ↔ InRange O c x ∧ ¬ ∃ p ∈ y, InRange O p x)

/-- One cut, and those after it. -/
theorem Difference.cons {p : α × α} (h₁ : Difference O rank Lin K [p] c) (h : Difference O rank Lin K y (cut O p c)) :
    Difference O rank Lin K (p :: y) c where
  noSplit := ⟨h₁.noSplit.1, h.noSplit⟩
  on := h.on
  kind := h.kind
  le := h.le
  part := h₁.part.trans h.part
  inRange x hx := by
    have h₂ : InRange O (cut O p c) x ↔ InRange O c x ∧ ¬ InRange O p x := by
      simpa [cutAll] using h₁.inRange x hx
    rw [List.exists_mem_cons_iff, not_or, ← and_assoc, ← h₂]
    exact h.inRange x hx

/-- One cut leaves the difference. -/
theorem difference_singleton (hL : Line O rank cmp Lin K) {p : α × α} (hp : On K p) (hple : rank p.1 ≤ rank p.2)
    (hc : K c.1) (hc' : Lin c.2) (hle : rank c.1 ≤ rank c.2) (h : Cuttable O rank p c) :
    Difference O rank Lin K [p] c := by
  have hpL := hL.on hp
  have hon : On Lin c := ⟨hL.mem _ hc, hc'⟩
  have hon' := hL.cut_mem hp hon
  obtain ⟨hins, hcov, hstart⟩ := h
  -- in terms of ranks
  suffices hr : ¬ (rank (cut O p c).1 < rank p.1 ∧ rank p.2 < rank (cut O p c).2) ∧ K (cut O p c).1 ∧
      rank (cut O p c).1 ≤ rank (cut O p c).2 ∧ Covers rank c (cut O p c) ∧ ∀ x, Lin x →
        (rank (cut O p c).1 ≤ rank x ∧ rank x ≤ rank (cut O p c).2 ↔
          (rank c.1 ≤ rank x ∧ rank x ≤ rank c.2) ∧ ¬ (rank p.1 ≤ rank x ∧ rank x ≤ rank p.2)) by
    refine ⟨⟨?_, trivial⟩, hon', hr.2.1, hr.2.2.1, hr.2.2.2.1, fun x hx => ?_⟩
    · rw [← Bool.not_eq_true, hL.inside_iff hp hon']
      exact hr.1
    · have hx' := hr.2.2.2.2 x hx
      rw [← hL.inRange_iff hon' hx, ← hL.inRange_iff hon hx, ← hL.inRange_iff hpL hx] at hx'
      simpa [cutAll] using hx'
  rcases lt_or_ge (rank p.2) (rank c.1) with hbelow | h1
  · rw [hL.cut_of_below hp hon hbelow (hbelow.trans_le hle)]
    exact ⟨hins, hc, hle, .refl c, fun x _ =>
      (and_iff_left_of_imp fun hin hpx => absurd (hbelow.trans_le hin.1) (not_lt.mpr hpx.2)).symm⟩
  rcases lt_or_ge (rank c.2) (rank p.1) with hover | h2
  · rw [hL.cut_of_above hp hon (hle.trans_lt hover) hover]
    exact ⟨hins, hc, hle, .refl c, fun x _ =>
      (and_iff_left_of_imp fun hin hpx => absurd (hin.2.trans_lt hover) (not_lt.mpr hpx.1)).symm⟩
  rcases le_or_gt (rank p.1) (rank c.1) with hs | hs
  · -- the range overlaps the start
    have he : rank p.2 < rank c.2 := not_le.mp fun he => hcov ⟨hs, he⟩
    have hup := hstart hs h1 he
    rw [hL.cut_of_start hp hon hs h1 he]
    refine ⟨fun hin => absurd (hup.trans hin.1) (not_lt.mpr hple), hL.next_kind _ hp.2 hup, hL.next_le _ _ hp.2 hc' he,
      ⟨h1.trans hup.le, le_rfl⟩, fun x hx => ⟨fun ⟨hx1, hx2⟩ => ?_, fun ⟨⟨hx1, hx2⟩, hpx⟩ => ?_⟩⟩
    · exact ⟨⟨h1.trans (hup.le.trans hx1), hx2⟩, fun hpx => absurd (hup.trans_le hx1) (not_lt.mpr hpx.2)⟩
    · exact ⟨hL.next_le _ _ hp.2 hx (not_le.mp fun hx3 => hpx ⟨hs.trans hx1, hx3⟩), hx2⟩
  · -- the range overlaps the end
    have he : rank c.2 ≤ rank p.2 := not_lt.mp fun he => hins ⟨hs, he⟩
    have hdown := hL.prev_lt _ hp.1
    rw [hL.cut_of_end hp hon hs h2 he]
    refine ⟨fun hin => absurd (hin.2.trans hdown) (not_lt.mpr hple), hc, hL.le_prev _ _ hon.1 hp.1 hs,
      ⟨le_rfl, hdown.le.trans h2⟩, fun x hx => ⟨fun ⟨hx1, hx2⟩ => ?_, fun ⟨⟨hx1, hx2⟩, hpx⟩ => ?_⟩⟩
    · exact ⟨⟨hx1, hx2.trans (hdown.le.trans h2)⟩, fun hpx => absurd (hx2.trans_lt hdown) (not_lt.mpr hpx.1)⟩
    · exact ⟨hx1, hL.le_prev _ _ hx hp.1 (not_le.mp fun hx3 => hpx ⟨hx3, hx2.trans he⟩)⟩

/-- A range above the one that was cut out can still be cut. -/
theorem Cuttable.cut (hL : Line O rank cmp Lin K) {p q : α × α} (hp : On K p) (hq : On K q) (hqle : rank q.1 ≤ rank q.2)
    (hon : On Lin c) (hbelow : rank p.2 < rank (O.prev q.1)) (h₁ : Difference O rank Lin K [p] c)
    (h : Cuttable O rank q c) : Cuttable O rank q (Ranges.cut O p c) := by
  have hpart : Covers rank c (Ranges.cut O p c) := h₁.part
  have hle : rank (Ranges.cut O p c).1 ≤ rank (Ranges.cut O p c).2 := h₁.le
  have hq1 := hL.prev_lt _ hq.1
  -- the ends that were cut are below `q`
  have hstart : (Ranges.cut O p c).1 = c.1 ∨ rank (Ranges.cut O p c).1 < rank q.1 := by
    rw [hL.cut_first hp hon]
    split_ifs
    · exact .inr ((hL.next_le _ _ hp.2 (hL.prev_mem _ hq.1) hbelow).trans_lt hq1)
    · exact .inl rfl
  have hend : (Ranges.cut O p c).2 = c.2 ∨ rank (Ranges.cut O p c).2 < rank q.1 := by
    rw [hL.cut_second hp hon]
    split_ifs with hin
    · exact .inr ((hL.prev_lt _ hp.1).trans_le (hin.2.trans (hin.1.trans (hbelow.trans hq1).le)))
    · exact .inl rfl
  refine ⟨fun hin => ?_, fun hcov => ?_, fun hs1 hs2 hs3 => ?_⟩
  · rcases hend with he | he
    · refine h.inside ⟨hpart.1.trans_lt hin.1, he ▸ hin.2⟩
    · exact absurd (hin.2.trans he) (not_lt.mpr hqle)
  · rcases hstart with hs | hs
    · rcases hend with he | he
      · exact h.covers ⟨hs ▸ hcov.1, he ▸ hcov.2⟩
      · exact absurd (he.trans_le hcov.1) (not_lt.mpr hle)
    · exact absurd hs (not_lt.mpr hcov.1)
  · rcases hstart with hs | hs
    · rw [hs] at hs1 hs2
      exact h.start hs1 hs2 (hs3.trans_le hpart.2)
    · exact absurd hs (not_lt.mpr hs1)

/-- **Cutting leaves the difference**, if each range is at one of the ends or apart. -/
theorem difference_of_cuttable (hL : Line O rank cmp Lin K) (hy : Separated O y) (hk : ∀ r ∈ y, On K r) (hc : K c.1)
    (hc' : Lin c.2) (hle : rank c.1 ≤ rank c.2) (h : ∀ p ∈ y, Cuttable O rank p c) : Difference O rank Lin K y c := by
  induction y generalizing c with
  | nil => exact ⟨trivial, ⟨hL.mem _ hc, hc'⟩, hc, hle, .refl c, fun x _ => by simp [cutAll]⟩
  | cons p y ih =>
    have hp := hk p List.mem_cons_self
    have hple : ∀ q ∈ p :: y, rank q.1 ≤ rank q.2 := fun q hq => ((hL.ranked.le_iff _ _).mp (hy.ranges q hq)).2
    have h₁ := hL.difference_singleton hp (hple p List.mem_cons_self) hc hc' hle (h p List.mem_cons_self)
    refine .cons h₁ (ih hy.tail (fun r hr => hk r (List.mem_cons_of_mem p hr)) h₁.kind h₁.on.2 h₁.le fun q hq => ?_)
    have hq' := List.mem_cons_of_mem p hq
    exact Cuttable.cut hL hp (hk q hq') (hple q hq') ⟨hL.mem _ hc, hc'⟩ (hL.lt_of_separated hy hk q hq).1 h₁ (h q hq')

/-- If nothing splits, no range is strictly inside. -/
theorem not_inside_of_noSplit (hL : Line O rank cmp Lin K) (hy : Separated O y) (hk : ∀ r ∈ y, On K r) (hc : On Lin c)
    (h : NoSplit O y c) {p : α × α} (hp : p ∈ y) : ¬ (rank c.1 < rank p.1 ∧ rank p.2 < rank c.2) := by
  induction y generalizing c with
  | nil => exact absurd hp List.not_mem_nil
  | cons q y ih =>
    rintro ⟨h1, h2⟩
    have hk' : ∀ r ∈ y, On K r := fun r hr => hk r (List.mem_cons_of_mem q hr)
    have hq := hk q List.mem_cons_self
    obtain ⟨hn, h⟩ := h
    rcases List.mem_cons.mp hp with rfl | hp
    · rw [hL.cut_of_inside hq hc h1 h2, ← Bool.not_eq_true, hL.inside_iff hq hc] at hn
      exact hn ⟨h1, h2⟩
    · have habove := hL.lt_of_separated hy hk p hp
      have hple : rank p.1 ≤ rank p.2 := ((hL.ranked.le_iff _ _).mp (hy.tail.ranges p hp)).2
      refine ih hy.tail hk' (hL.cut_mem hq hc) h hp ⟨?_, ?_⟩
      · rw [hL.cut_first hq hc]
        split_ifs
        · exact (hL.next_le _ _ hq.2 (hL.prev_mem _ (hk' p hp).1) habove.1).trans_lt (hL.prev_lt _ (hk' p hp).1)
        · exact h1
      · have hqc : rank q.2 < rank c.2 := habove.2.trans (hple.trans_lt h2)
        rw [hL.cut_second hq hc, if_neg fun hin => absurd hqc (not_lt.mpr hin.1)]
        exact h2

/-- A point stays in what is left, if the ranges that are cut out are above the next point. -/
theorem cutAll_keeps (hL : Line O rank cmp Lin K) {x : α} (hy : ∀ r ∈ y, On K r ∧ rank x < rank (O.prev r.1))
    (hc : On Lin c) (h1 : rank c.1 ≤ rank x) (h2 : rank x ≤ rank c.2) :
    rank (cutAll O y c).1 ≤ rank x ∧ rank x ≤ rank (cutAll O y c).2 := by
  induction y generalizing c with
  | nil => exact ⟨h1, h2⟩
  | cons r y ih =>
    obtain ⟨hr, hlt⟩ := hy r List.mem_cons_self
    rw [cutAll, List.foldl_cons]
    refine ih (fun r' hr' => hy r' (List.mem_cons_of_mem r hr')) (hL.cut_mem hr hc) ?_ ?_
    · rw [hL.cut_first hr hc, if_neg fun hin => ?_]
      · exact h1
      · exact absurd ((hlt.trans (hL.prev_lt _ hr.1)).trans_le hin.1) (not_lt.mpr h1)
    · rw [hL.cut_second hr hc]
      split_ifs
      · exact hlt.le
      · exact h2

/-- The end of a range that overlaps the start stays in what is left, if the step after it wraps around. -/
theorem end_mem_of_wrap (hL : Line O rank cmp Lin K) (hy : Separated O y) (hk : ∀ r ∈ y, On K r) (hc : On Lin c)
    {p : α × α} (hp : p ∈ y) (h1 : rank p.1 ≤ rank c.1) (h2 : rank c.1 ≤ rank p.2) (h3 : rank p.2 < rank c.2)
    (hwrap : rank (O.next p.2) ≤ rank p.2) : rank (cutAll O y c).1 ≤ rank p.2 ∧ rank p.2 ≤ rank (cutAll O y c).2 := by
  induction y generalizing c with
  | nil => exact absurd hp List.not_mem_nil
  | cons q y ih =>
    have hk' : ∀ r ∈ y, On K r := fun r hr => hk r (List.mem_cons_of_mem q hr)
    have hq := hk q List.mem_cons_self
    have habove := hL.lt_of_separated hy hk
    rw [cutAll, List.foldl_cons]
    rcases List.mem_cons.mp hp with rfl | hp
    · rw [hL.cut_of_start hq hc h1 h2 h3]
      exact hL.cutAll_keeps (fun r hr => ⟨hk' r hr, (habove r hr).1⟩) ⟨hL.next_mem _ hq.2, hc.2⟩ hwrap h3.le
    · have hbelow := (habove p hp).2.trans_le h1
      rw [hL.cut_of_below hq hc hbelow (hbelow.trans_le (h2.trans h3.le))]
      exact ih hy.tail hk' hc hp h1 h2 h3

end CutAll

/-! ### Cleaning -/

/-- A range of the kind, after whose end the step does not wrap around. -/
def Stepped (O : Steps α) (rank : α → ρ) (K : α → Prop) (r : α × α) : Prop := On K r ∧ rank r.2 < rank (O.next r.2)

/-- What merging into a separated list does. -/
theorem mergeLoop_separated (hL : Line O rank cmp Lin K) {sp : α × α} (hsp : Stepped O rank K sp)
    (hle : rank sp.1 ≤ rank sp.2) {l : List (α × α)} (hl : ∀ r ∈ l, Stepped O rank K r) (hs : Separated O l) :
    ∃ sp' l', mergeLoop O sp l = (sp', l') ∧ Stepped O rank K sp' ∧ rank sp'.1 ≤ rank sp'.2 ∧ Separated O l' ∧
      l' ⊆ l ∧ (∀ r ∈ l', rank sp'.2 < rank (O.prev r.1)) ∧ (sp'.1 = sp.1 ∨ ∃ dp ∈ l, sp'.1 = dp.1) := by
  induction l generalizing sp with
  | nil => exact ⟨sp, [], rfl, hsp, hle, hs, List.Subset.refl _, by simp, .inl rfl⟩
  | cons dp l ih =>
    rw [mergeLoop]
    have hdp := hl dp List.mem_cons_self
    have hl' : ∀ r ∈ l, Stepped O rank K r := fun r hr => hl r (List.mem_cons_of_mem dp hr)
    have hspL := hL.on hsp.1
    have hdpL := hL.on hdp.1
    by_cases htouch : O.le dp.1 (O.next sp.2) = true
    · rw [if_pos htouch]
      obtain ⟨hcs, hcd⟩ := hL.ranked.covers_merge (hL.cmp _ _ hdpL.1 hspL.1) (hL.cmp _ _ hdpL.2 hspL.2)
      have hj : Stepped O rank K (joined O sp dp) ∧
          ((joined O sp dp).1 = sp.1 ∨ (joined O sp dp).1 = dp.1) := by
        unfold joined Stepped On
        split_ifs
        · exact ⟨⟨hdp.1, hdp.2⟩, .inr rfl⟩
        · exact ⟨⟨⟨hdp.1.1, hsp.1.2⟩, hsp.2⟩, .inr rfl⟩
        · exact ⟨⟨⟨hsp.1.1, hdp.1.2⟩, hdp.2⟩, .inl rfl⟩
        · exact ⟨⟨hsp.1, hsp.2⟩, .inl rfl⟩
      obtain ⟨sp', l', hm, h1, h2, h3, h4, h5, h6⟩ := ih hj.1 ((hcs.1.trans hle).trans hcs.2) hl' hs.tail
      refine ⟨sp', l', hm, h1, h2, h3, List.subset_cons_of_subset dp h4, h5, ?_⟩
      rcases h6 with h6 | ⟨e, he, h6⟩
      · rcases hj.2 with h7 | h7
        · exact .inl (h6.trans h7)
        · exact .inr ⟨dp, List.mem_cons_self, h6.trans h7⟩
      · exact .inr ⟨e, List.mem_cons_of_mem dp he, h6⟩
    · rw [if_neg htouch]
      rw [hL.le_iff hdpL.1 (hL.next_mem _ hsp.1.2), not_le] at htouch
      have hfirst := hsp.2.trans_le (hL.le_prev _ _ (hL.next_mem _ hsp.1.2) hdp.1.1 htouch)
      refine ⟨sp, dp :: l, rfl, hsp, hle, hs, List.Subset.refl _, fun r hr => ?_, .inl rfl⟩
      rcases List.mem_cons.mp hr with rfl | hr
      · exact hfirst
      · have hdple := ((hL.ranked.le_iff _ _).mp (hs.ranges dp List.mem_cons_self)).2
        have hlt := (hL.lt_of_separated hs (fun r hr => (hl r hr).1) r hr).1
        exact ((hfirst.trans (hL.prev_lt _ hdp.1.1)).trans_le hdple).trans hlt

/-- Sorting in keeps a list separated, if no step after an end wraps around. -/
theorem sortIn_separated (hL : Line O rank cmp Lin K) {sp : α × α} (hsp : Stepped O rank K sp)
    (hle : rank sp.1 ≤ rank sp.2) {l : List (α × α)} (hl : ∀ r ∈ l, Stepped O rank K r) (hs : Separated O l) :
    Separated O (sortIn O sp l) ∧ ∀ r ∈ sortIn O sp l, Stepped O rank K r := by
  set p : α × α → Bool := fun dp => O.lt dp.2 (O.prev sp.1) with hp
  have hsplit := List.takeWhile_append_dropWhile (p := p) (l := l)
  have hapart := hs.apart
  rw [← hsplit, List.pairwise_append] at hapart
  have hbefore : ∀ r ∈ l.takeWhile p, r ∈ l ∧ rank r.2 < rank (O.prev sp.1) := fun r hr =>
    ⟨(List.takeWhile_sublist p).mem hr, ((hL.ranked.lt_iff _ _).mp (List.mem_takeWhile_imp hr : p r = true)).2⟩
  have hafter : ∀ r ∈ l.dropWhile p, r ∈ l := fun r hr => (List.dropWhile_sublist p).mem hr
  obtain ⟨sp', l', hm, h1, h2, h3, h4, h5, h6⟩ := hL.mergeLoop_separated hsp hle (fun r hr => hl r (hafter r hr))
    ⟨fun r hr => hs.ranges r (hafter r hr), hapart.2.1⟩
  have hsort : sortIn O sp l = l.takeWhile p ++ sp' :: l' := by rw [sortIn, hm]
  have hstep : ∀ r ∈ sortIn O sp l, Stepped O rank K r := fun r hr => by
    rw [hsort, List.mem_append, List.mem_cons] at hr
    rcases hr with hr | rfl | hr
    · exact hl r (hbefore r hr).1
    · exact h1
    · exact hl r (hafter r (h4 hr))
  have hsp' := hL.on h1.1
  refine ⟨⟨fun r hr => ?_, ?_⟩, hstep⟩
  · rw [hsort, List.mem_append, List.mem_cons] at hr
    rcases hr with hr | rfl | hr
    · exact hs.ranges r (hbefore r hr).1
    · exact (hL.le_iff hsp'.1 hsp'.2).mpr h2
    · exact h3.ranges r hr
  · rw [hsort, List.pairwise_append, List.pairwise_cons]
    refine ⟨hapart.1, ⟨fun r hr => ?_, h3.apart⟩, fun r hr q hq => ?_⟩
    · exact (hL.lt_iff hsp'.2 (hL.prev_mem _ (hl r (hafter r (h4 hr))).1.1)).mpr (h5 r hr)
    · rcases List.mem_cons.mp hq with rfl | hq
      · -- what was passed ends before the start of what was merged
        rcases h6 with h6 | ⟨dp, hdp, h6⟩
        · rw [h6]
          exact (List.mem_takeWhile_imp hr : p r = true)
        · rw [h6]
          exact hapart.2.2 r hr dp hdp
      · exact hapart.2.2 r hr q (h4 hq)

/-- **A cleaned list is separated**, if no step after an end wraps around. -/
theorem separated_cleanLoop (hL : Line O rank cmp Lin K) {new rest l : List (α × α)}
    (hrest : ∀ r ∈ rest, Stepped O rank K r) (hnew : ∀ r ∈ new, Stepped O rank K r) (hs : Separated O new)
    (h : cleanLoop O new rest = some l) : Separated O l ∧ ∀ r ∈ l, Stepped O rank K r := by
  induction rest generalizing new with
  | nil =>
    obtain rfl := Option.some.inj h
    exact ⟨hs, hnew⟩
  | cons sp rest ih =>
    rw [cleanLoop] at h
    split_ifs at h with hle
    obtain ⟨hs', hnew'⟩ :=
      hL.sortIn_separated (hrest sp List.mem_cons_self) ((hL.ranked.le_iff _ _).mp hle).2 hnew hs
    exact ih (fun r hr => hrest r (List.mem_cons_of_mem sp hr)) hnew' hs' h

end Line

end CSSC.Library.Ranges
