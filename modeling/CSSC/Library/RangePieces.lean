import CSSC.Library.RangeCuts

/-!
# What is left of a list of ranges

Ranges are cut out of every range of a list, and the list is cleaned again. What is left of a range may begin with a
step that wrapped around, or end in front of the points of the kind; such ends may pass ranges, and be merged with
ranges, that they are nowhere near. The line comes in blocks (`Blocks`): a step that wraps around leads to the bottom
of its block. If the list goes forward through the blocks, cleaning adds nothing to what is left all the same
(`Pieces.cleanLoop`), and what is left is the difference exactly if it is that of each range by itself
(`Line.member_clean_of_leaves`, `Line.leaves_of_difference`).

A list that is cleaned goes forward (`Line.forward_cleanLoop`). For lists that are separated besides, what is left of
a range can be told from the ranges that are cut out one by one (`Line.leaves_iff_removable`).
-/

namespace CSSC.Library.Ranges

variable {α ρ β : Type*} {O : Steps α} [LinearOrder ρ] [LinearOrder β] {rank : α → ρ} {cmp : α → α → Prop}
  {Lin K : α → Prop} {blk : α → β}

/-! ### Blocks -/

/-- A line in blocks. -/
structure Blocks (O : Steps α) (rank : α → ρ) (Lin K : α → Prop) (blk : α → β) : Prop where
  /-- The blocks are in order. -/
  mono : ∀ a b, Lin a → Lin b → rank a ≤ rank b → blk a ≤ blk b
  /-- A step up stays in the block … -/
  next : ∀ a, K a → blk (O.next a) = blk a
  /-- … and so does a step down. -/
  prev : ∀ a, K a → blk (O.prev a) = blk a
  /-- A step up wraps around at the top of a block … -/
  top : ∀ a b, K a → rank (O.next a) ≤ rank a → Lin b → blk b ≤ blk a → rank b ≤ rank a
  /-- … to a point below those of the kind. -/
  bottom : ∀ a b, K a → rank (O.next a) ≤ rank a → K b → blk a ≤ blk b → rank (O.next a) < rank b
  /-- So does a step down that leaves the kind. -/
  ground : ∀ a b, K a → ¬ K (O.prev a) → K b → blk a ≤ blk b → rank (O.prev a) < rank b

/-- No range ends in a later block than one that begins after it in the list. -/
def Forward (blk : α → β) (l : List (α × α)) : Prop := l.Pairwise fun r q => blk r.2 ≤ blk q.1

namespace Line

section Left
variable {y : List (α × α)} {c : α × α}

/-- The end of what is left: only points that are cut out come after it. -/
theorem left_second (hL : Line O rank cmp Lin K) (hy : ∀ p ∈ y, On K p) (hc : On Lin c) :
    rank (cutAll O y c).2 ≤ rank c.2 ∧
      ∀ s, Lin s → rank (cutAll O y c).2 < rank s → rank s ≤ rank c.2 → member O y s = true := by
  induction y generalizing c with
  | nil => exact ⟨le_rfl, fun s _ h1 h2 => absurd (h1.trans_le h2) (lt_irrefl _)⟩
  | cons p y ih =>
    obtain ⟨hp, hy⟩ := List.forall_mem_cons.mp hy
    have hcut : rank (cut O p c).2 ≤ rank c.2 ∧
        ∀ s, Lin s → rank (cut O p c).2 < rank s → rank s ≤ rank c.2 → InRange O p s := by
      rw [hL.cut_second hp hc]
      split_ifs with h
      · refine ⟨(hL.prev_lt _ hp.1).le.trans h.2, fun s hs h1 h2 => (hL.inRange_iff (hL.on hp) hs).mpr ⟨?_, h2.trans h.1⟩⟩
        by_contra hlt
        exact absurd (hL.le_prev s p.1 hs hp.1 (not_le.mp hlt)) (not_le.mpr h1)
      · exact ⟨le_rfl, fun s _ h1 h2 => absurd (h1.trans_le h2) (lt_irrefl _)⟩
    obtain ⟨hle, hout⟩ := ih hy (hL.cut_mem hp hc)
    refine ⟨hle.trans hcut.1, fun s hs h1 h2 => member_cons.mpr ?_⟩
    rcases le_or_gt (rank s) (rank (cut O p c).2) with h3 | h3
    · exact .inr (hout s hs h1 h3)
    · exact .inl (hcut.2 s hs h3 h2)

/-- The end of what is left was there, or is in front of a range. -/
theorem left_second_cases (hL : Line O rank cmp Lin K) (hy : ∀ p ∈ y, On K p) (hc : On Lin c) :
    (cutAll O y c).2 = c.2 ∨ ∃ p ∈ y, (cutAll O y c).2 = O.prev p.1 := by
  induction y generalizing c with
  | nil => exact .inl rfl
  | cons p y ih =>
    obtain ⟨hp, hy⟩ := List.forall_mem_cons.mp hy
    rcases ih hy (hL.cut_mem hp hc) with h | ⟨q, hq, h⟩
    · have hcut := hL.cut_second hp hc
      split_ifs at hcut
      · exact .inr ⟨p, List.mem_cons_self, h.trans hcut⟩
      · exact .inl (h.trans hcut)
    · exact .inr ⟨q, List.mem_cons_of_mem p hq, h⟩

/-- Nothing is cut off at the start by ranges that begin after it. -/
theorem left_first_of_above (hL : Line O rank cmp Lin K) (hy : ∀ p ∈ y, On K p ∧ rank c.1 < rank p.1) (hc : On Lin c) :
    (cutAll O y c).1 = c.1 := by
  induction y generalizing c with
  | nil => rfl
  | cons p y ih =>
    obtain ⟨⟨hp, hlt⟩, hy⟩ := List.forall_mem_cons.mp hy
    have hfirst : (cut O p c).1 = c.1 := by
      rw [hL.cut_first hp hc, if_neg fun h => absurd h.1 (not_le.mpr hlt)]
    rw [cutAll, List.foldl_cons, ← hfirst]
    apply ih _ (hL.cut_mem hp hc)
    rw [hfirst]
    exact hy

/-- The start of what is left: only points that are cut out come before it, even if the last step wrapped around. -/
theorem left_first (hL : Line O rank cmp Lin K) (hB : Blocks O rank Lin K blk) (hy : ∀ p ∈ y, On K p)
    (hf : Forward blk y) (hc : On Lin c) :
    (cutAll O y c).1 = c.1 ∨ ∃ p ∈ y, (cutAll O y c).1 = O.next p.2 ∧ rank c.1 ≤ rank p.2 ∧
      ∀ s, Lin s → rank c.1 ≤ rank s → rank s ≤ rank p.2 → member O y s = true := by
  induction y generalizing c with
  | nil => exact .inl rfl
  | cons p y ih =>
    obtain ⟨hp, hy⟩ := List.forall_mem_cons.mp hy
    obtain ⟨hfp, hf⟩ := List.pairwise_cons.mp hf
    have hmem := hL.cut_mem hp hc
    rw [cutAll, List.foldl_cons]
    by_cases hin : rank p.1 ≤ rank c.1 ∧ rank c.1 ≤ rank p.2
    · have hfirst : (cut O p c).1 = O.next p.2 := by rw [hL.cut_first hp hc, if_pos hin]
      have hout : ∀ s, Lin s → rank c.1 ≤ rank s → rank s ≤ rank p.2 → member O (p :: y) s = true := fun s hs h1 h2 =>
        member_cons.mpr (.inl ((hL.inRange_iff (hL.on hp) hs).mpr ⟨hin.1.trans h1, h2⟩))
      rcases lt_or_ge (rank p.2) (rank (O.next p.2)) with hup | hwrap
      · rcases ih hy hf hmem with h | ⟨q, hq, h, h1, h2⟩
        · exact .inr ⟨p, List.mem_cons_self, h.trans hfirst, hin.2, hout⟩
        · rw [hfirst] at h1 h2
          refine .inr ⟨q, List.mem_cons_of_mem p hq, h, hin.2.trans (hup.le.trans h1), fun s hs h3 h4 => ?_⟩
          rcases le_or_gt (rank s) (rank p.2) with h5 | h5
          · exact hout s hs h3 h5
          · exact member_cons.mpr (.inr (h2 s hs (hL.next_le _ _ hp.2 hs h5) h4))
      · -- the later ranges are above the bottom of the block
        refine .inr ⟨p, List.mem_cons_self, Eq.trans ?_ hfirst, hin.2, hout⟩
        apply hL.left_first_of_above _ hmem
        rw [hfirst]
        exact fun q hq => ⟨hy q hq, hB.bottom _ _ hp.2 hwrap (hy q hq).1 (hfp q hq)⟩
    · have hfirst : (cut O p c).1 = c.1 := by rw [hL.cut_first hp hc, if_neg hin]
      rcases ih hy hf hmem with h | ⟨q, hq, h, h1, h2⟩
      · exact .inl (h.trans hfirst)
      · rw [hfirst] at h1 h2
        exact .inr ⟨q, List.mem_cons_of_mem p hq, h, h1, fun s hs h3 h4 => member_cons.mpr (.inr (h2 s hs h3 h4))⟩

/-- What is not cut out is left. -/
theorem left_keeps (hL : Line O rank cmp Lin K) (hy : ∀ p ∈ y, On K p) (hc : On Lin c) {s : α} (hs : Lin s)
    (h1 : rank c.1 ≤ rank s) (h2 : rank s ≤ rank c.2) (hout : ¬ member O y s = true) :
    rank (cutAll O y c).1 ≤ rank s ∧ rank s ≤ rank (cutAll O y c).2 := by
  induction y generalizing c with
  | nil => exact ⟨h1, h2⟩
  | cons p y ih =>
    obtain ⟨hp, hy⟩ := List.forall_mem_cons.mp hy
    rw [member_cons, not_or, hL.inRange_iff (hL.on hp) hs] at hout
    rw [cutAll, List.foldl_cons]
    apply ih hy (hL.cut_mem hp hc) _ _ hout.2
    · rw [hL.cut_first hp hc]
      split_ifs with h
      · exact hL.next_le _ _ hp.2 hs (not_le.mp fun h3 => hout.1 ⟨h.1.trans h1, h3⟩)
      · exact h1
    · rw [hL.cut_second hp hc]
      split_ifs with h
      · exact hL.le_prev _ _ hs hp.1 (not_le.mp fun h3 => hout.1 ⟨h3, h2.trans h.1⟩)
      · exact h2

end Left

end Line

/-! ### Pieces -/

/-- A point that a piece begins with: one of the kind, or one that a step up wrapped around to. -/
def First (O : Steps α) (rank : α → ρ) (K : α → Prop) (a : α) : Prop :=
  K a ∨ ∃ t, K t ∧ a = O.next t ∧ rank (O.next t) ≤ rank t

/-- A point that a piece ends with: one of the kind, or one that a step down from the kind led to. -/
def Last (O : Steps α) (K : α → Prop) (a : α) : Prop := K a ∨ ∃ t, K t ∧ a = O.prev t ∧ ¬ K (O.prev t)

/-- A range whose points of the kind are all in `S`. -/
structure Piece (O : Steps α) (rank : α → ρ) (Lin K S : α → Prop) (r : α × α) : Prop where
  /-- The ends are on the line. -/
  on : On Lin r
  /-- The start. -/
  first : First O rank K r.1
  /-- The end. -/
  last : Last O K r.2
  /-- It is not empty. -/
  le : rank r.1 ≤ rank r.2
  /-- It is a part of `S`. -/
  part : ∀ s, K s → rank r.1 ≤ rank s → rank s ≤ rank r.2 → S s

/-- If the piece begins where a step wrapped around, it has all points of `S` in its block. -/
def Low (rank : α → ρ) (K S : α → Prop) (blk : α → β) (r : α × α) : Prop :=
  ¬ K r.1 → ∀ s, S s → blk s = blk r.1 → rank s ≤ rank r.2

/-- Pieces of which only parts of `S` can be missing between one and an earlier one. -/
structure Pieces (O : Steps α) (rank : α → ρ) (Lin K S : α → Prop) (l : List (α × α)) : Prop where
  /-- They are pieces. -/
  piece : ∀ r ∈ l, Piece O rank Lin K S r
  /-- What comes after the later and before the earlier one is in `S`. -/
  pair : l.Pairwise fun r q => ∀ s, K s → rank q.2 < rank s → rank s < rank r.1 → S s

section Pieces
variable {S : α → Prop} {sp dp d : α × α} {new rest l m : List (α × α)}

/-- What comes before the start of a piece comes before the point before it, or is that point. -/
theorem First.le_prev (hL : Line O rank cmp Lin K) {a s : α} (ha : First O rank K a) (hs : Lin s)
    (hlt : rank s < rank a) : rank s ≤ rank (O.prev a) := by
  rcases ha with ha | ⟨t, ht, rfl, hwrap⟩
  · exact hL.le_prev _ _ hs ha hlt
  · rw [hL.prev_next _ ht]
    exact (hlt.trans_le hwrap).le

/-- **Two pieces are merged into a piece**, if what is missing between them is in `S`. -/
theorem Piece.merge (hL : Line O rank cmp Lin K) (hsp : Piece O rank Lin K S sp) (hdp : Piece O rank Lin K S dp)
    (hleft : ∀ s, K s → rank dp.2 < rank s → rank s < rank sp.1 → S s)
    (hright : ∀ s, K s → rank sp.2 < rank s → rank s < rank dp.1 → S s) : Piece O rank Lin K S (joined O sp dp) := by
  obtain ⟨hcs, -⟩ := hL.ranked.covers_merge (hL.cmp _ _ hdp.on.1 hsp.on.1) (hL.cmp _ _ hdp.on.2 hsp.on.2)
  have hfirst : (joined O sp dp).1 = dp.1 ∨ (joined O sp dp).1 = sp.1 := by
    unfold joined
    split_ifs <;> simp
  have hlast : (joined O sp dp).2 = dp.2 ∨ (joined O sp dp).2 = sp.2 := by
    unfold joined
    split_ifs <;> simp
  refine ⟨joined_ends hsp.on hdp.on, ?_, ?_, (hcs.1.trans hsp.le).trans hcs.2, fun s hs h1 h2 => ?_⟩
  · rcases hfirst with h | h
    · exact h ▸ hdp.first
    · exact h ▸ hsp.first
  · rcases hlast with h | h
    · exact h ▸ hdp.last
    · exact h ▸ hsp.last
  · rcases lt_or_ge (rank s) (rank sp.1) with h3 | h3
    · -- before `sp`
      have hd1 : rank dp.1 ≤ rank s := by
        rcases hfirst with h | h
        · exact h ▸ h1
        · exact absurd h3 (not_lt.mpr (h ▸ h1))
      rcases le_or_gt (rank s) (rank dp.2) with h4 | h4
      · exact hdp.part s hs hd1 h4
      · exact hleft s hs h4 h3
    · rcases le_or_gt (rank s) (rank sp.2) with h4 | h4
      · exact hsp.part s hs h3 h4
      · -- after `sp`
        have hd2 : rank s ≤ rank dp.2 := by
          rcases hlast with h | h
          · exact h ▸ h2
          · exact absurd h4 (not_lt.mpr (h ▸ h2))
        rcases le_or_gt (rank dp.1) (rank s) with h5 | h5
        · exact hdp.part s hs h5 hd2
        · exact hright s hs h4 h5

/-- **Nothing is missing behind a range that was merged from a piece**, if it touches one that lies in no later block than
the piece begins in. -/
theorem Piece.no_gap (hL : Line O rank cmp Lin K) (hB : Blocks O rank Lin K blk) (hd : Piece O rank Lin K S d)
    (hlow : Low rank K S blk d) (hsp : Piece O rank Lin K S sp) (hge : rank d.2 ≤ rank sp.2)
    (hdp : Piece O rank Lin K S dp) (hblk : blk dp.2 ≤ blk d.1) (hle : rank dp.1 ≤ rank (O.next sp.2)) {s : α} (hs : K s)
    (h1 : rank sp.2 < rank s) : ¬ rank s < rank dp.1 := by
  intro h2
  rcases hsp.last with hk | ⟨t, ht, hspt, hprev⟩
  · exact absurd (h2.trans_le hle) (not_lt.mpr (hL.next_le _ _ hk (hL.mem s hs) h1))
  · -- everything lies in one block
    have hsL := hL.mem s hs
    have hd12 : blk d.1 ≤ blk d.2 := hB.mono _ _ hd.on.1 hd.on.2 hd.le
    have hdsp : blk d.2 ≤ blk sp.2 := hB.mono _ _ hd.on.2 hsp.on.2 hge
    have hsps : blk sp.2 ≤ blk s := hB.mono _ _ hsp.on.2 hsL h1.le
    have hsdp : blk s ≤ blk dp.1 := hB.mono _ _ hsL hdp.on.1 h2.le
    have hdp12 : blk dp.1 ≤ blk dp.2 := hB.mono _ _ hdp.on.1 hdp.on.2 hdp.le
    have ht' : blk sp.2 = blk t := hspt ▸ hB.prev t ht
    have hdk : ¬ K d.1 := fun hdk => by
      have hground := hB.ground t d.1 ht hprev hdk (ht' ▸ hsps.trans (hsdp.trans (hdp12.trans hblk)))
      rw [← hspt] at hground
      exact absurd hground (not_lt.mpr (hd.le.trans hge))
    have hdpk : K dp.1 := by
      rcases hdp.first with hk | ⟨u, hu, hdpu, hwrap⟩
      · exact hk
      · have hublk : blk u ≤ blk s := by
          rw [← hB.next u hu, ← hdpu]
          exact hdp12.trans (hblk.trans (hd12.trans (hdsp.trans hsps)))
        have hbottom := hB.bottom u s hu hwrap hs hublk
        rw [← hdpu] at hbottom
        exact absurd hbottom h2.not_gt
    have hlast := hlow hdk dp.1 (hdp.part dp.1 hdpk le_rfl hdp.le)
      (le_antisymm (hdp12.trans hblk) (hd12.trans (hdsp.trans (hsps.trans hsdp))))
    exact absurd ((h1.trans h2).trans_le hlast) (not_lt.mpr hge)

/-- What merging does to pieces. -/
theorem mergeLoop_pieces (hL : Line O rank cmp Lin K) (hB : Blocks O rank Lin K blk) (hd : Piece O rank Lin K S d)
    (hlow : Low rank K S blk d) (hsp : Piece O rank Lin K S sp) (hge : rank d.2 ≤ rank sp.2)
    (hl : ∀ q ∈ l, Piece O rank Lin K S q ∧ blk q.2 ≤ blk d.1 ∧
      ∀ s, K s → rank q.2 < rank s → rank s < rank sp.1 → S s) :
    ∃ sp' l', mergeLoop O sp l = (sp', l') ∧ Piece O rank Lin K S sp' ∧ rank sp'.1 ≤ rank sp.1 ∧ rank d.2 ≤ rank sp'.2 ∧
      l'.Sublist l ∧ (sp'.2 = sp.2 ∨ ∃ q ∈ l, sp'.2 = q.2) := by
  induction l generalizing sp with
  | nil => exact ⟨sp, [], rfl, hsp, le_rfl, hge, .slnil, .inl rfl⟩
  | cons dp l ih =>
    obtain ⟨⟨hdp, hblk, hleft⟩, hl⟩ := List.forall_mem_cons.mp hl
    rw [mergeLoop]
    by_cases htouch : O.le dp.1 (O.next sp.2) = true
    · rw [if_pos htouch]
      have hle := ((hL.ranked.le_iff _ _).mp htouch).2
      obtain ⟨hcs, -⟩ := hL.ranked.covers_merge (hL.cmp _ _ hdp.on.1 hsp.on.1) (hL.cmp _ _ hdp.on.2 hsp.on.2)
      have hmerged : Piece O rank Lin K S (joined O sp dp) := hsp.merge hL hdp hleft fun s hs h1 h2 =>
        absurd h2 (Piece.no_gap hL hB hd hlow hsp hge hdp hblk hle hs h1)
      obtain ⟨sp', l', hm, hsp', hfirst, hge', hsub, hlast⟩ := ih hmerged (hge.trans hcs.2) fun q hq =>
        ⟨(hl q hq).1, (hl q hq).2.1, fun s hs h1 h2 => (hl q hq).2.2 s hs h1 (h2.trans_le hcs.1)⟩
      refine ⟨sp', l', hm, hsp', hfirst.trans hcs.1, hge', hsub.cons dp, ?_⟩
      rcases hlast with h | ⟨q, hq, h⟩
      · have hends : (joined O sp dp).2 = dp.2 ∨ (joined O sp dp).2 = sp.2 := by
          unfold joined
          split_ifs <;> simp
        rcases hends with h' | h'
        · exact .inr ⟨dp, List.mem_cons_self, h.trans h'⟩
        · exact .inl (h.trans h')
      · exact .inr ⟨q, List.mem_cons_of_mem dp hq, h⟩
    · rw [if_neg htouch]
      exact ⟨sp, dp :: l, rfl, hsp, le_rfl, hge, .refl _, .inl rfl⟩

/-- The point before the start of a piece is on the line. -/
theorem First.prev_mem (hL : Line O rank cmp Lin K) {a : α} (ha : First O rank K a) : Lin (O.prev a) := by
  rcases ha with ha | ⟨t, ht, rfl, -⟩
  · exact hL.prev_mem _ ha
  · rw [hL.prev_next _ ht]
    exact hL.mem _ ht

/-- What a piece does not pass leaves nothing missing in front of it. -/
theorem Pieces.left (hL : Line O rank cmp Lin K) (hl : Pieces O rank Lin K S l) (hd : Piece O rank Lin K S d)
    (hhead : ∀ q ∈ l.head?, ¬ O.lt q.2 (O.prev d.1) = true) :
    ∀ q ∈ l, ∀ s, K s → rank q.2 < rank s → rank s < rank d.1 → S s := by
  intro q hq s hs h1 h2
  cases l with
  | nil => exact absurd hq List.not_mem_nil
  | cons q₀ l =>
    have hq₀ := hl.piece q₀ List.mem_cons_self
    have hnot := hhead q₀ rfl
    rw [hL.lt_iff hq₀.on.2 (hd.first.prev_mem hL), not_lt] at hnot
    have hs₀ : rank s ≤ rank q₀.2 := (hd.first.le_prev hL (hL.mem s hs) h2).trans hnot
    rcases List.mem_cons.mp hq with rfl | hq
    · exact absurd h1 (not_lt.mpr hs₀)
    · rcases lt_or_ge (rank s) (rank q₀.1) with h3 | h3
      · exact (List.pairwise_cons.mp hl.pair).1 q hq s hs h1 h3
      · exact hq₀.part s hs h3 hs₀

/-- Nothing is missing behind what was merged from a piece, in front of one that it passed. -/
theorem Piece.no_gap_of_passed (hL : Line O rank cmp Lin K) (hB : Blocks O rank Lin K blk) (hd : Piece O rank Lin K S d)
    (hlow : Low rank K S blk d) {r : α × α} (hr : Piece O rank Lin K S r) (hpass : O.lt r.2 (O.prev d.1) = true)
    {a s : α} (hge : rank d.2 ≤ rank a) (hs : K s) (h1 : rank a < rank s) : ¬ rank s < rank r.1 := by
  intro h2
  have hpass := ((hL.ranked.lt_iff _ _).mp hpass).2
  have hds : rank d.1 < rank s := (hd.le.trans hge).trans_lt h1
  by_cases hdk : K d.1
  · exact absurd (((hds.trans h2).trans_le hr.le).trans (hpass.trans (hL.prev_lt _ hdk))) (lt_irrefl _)
  · rcases hd.first with hk | ⟨t, ht, hdt, hwrap⟩
    · exact hdk hk
    · -- `r` lies in the block of `d`
      rw [hdt, hL.prev_next _ ht] at hpass
      have hblk : blk d.1 = blk t := hdt ▸ hB.next t ht
      have hds' : blk d.1 ≤ blk s := hB.mono _ _ hd.on.1 (hL.mem s hs) hds.le
      have hsr : blk s ≤ blk r.1 := hB.mono _ _ (hL.mem s hs) hr.on.1 h2.le
      have hrt : blk r.1 ≤ blk t := hB.mono _ _ hr.on.1 (hL.mem t ht) (hr.le.trans hpass.le)
      have hrk : K r.1 := by
        rcases hr.first with hk | ⟨u, hu, hru, hwrap'⟩
        · exact hk
        · have hublk : blk u ≤ blk s := by
            rw [← hB.next u hu, ← hru]
            exact hrt.trans (hblk ▸ hds')
          have hbottom := hB.bottom u s hu hwrap' hs hublk
          rw [← hru] at hbottom
          exact absurd hbottom h2.not_gt
      have hlast := hlow hdk r.1 (hr.part r.1 hrk le_rfl hr.le) (le_antisymm (hrt.trans hblk.ge) (hds'.trans hsr))
      exact absurd ((h1.trans h2).trans_le hlast) (not_lt.mpr hge)

/-- What sorting a piece in does. -/
theorem Pieces.sortIn (hL : Line O rank cmp Lin K) (hB : Blocks O rank Lin K blk) (hnew : Pieces O rank Lin K S new)
    (hd : Piece O rank Lin K S d) (hlow : Low rank K S blk d) (hf : ∀ r ∈ new, blk r.2 ≤ blk d.1) :
    Pieces O rank Lin K S (Ranges.sortIn O d new) ∧ ∀ r ∈ Ranges.sortIn O d new, r.2 = d.2 ∨ ∃ q ∈ new, r.2 = q.2 := by
  set p : α × α → Bool := fun dp => O.lt dp.2 (O.prev d.1) with hp
  have hbefore : ∀ r ∈ new.takeWhile p, r ∈ new ∧ p r = true := fun r hr =>
    ⟨(List.takeWhile_sublist p).mem hr, List.mem_takeWhile_imp hr⟩
  have hafter : ∀ r ∈ new.dropWhile p, r ∈ new := fun r hr => (List.dropWhile_sublist p).mem hr
  have hpair := hnew.pair
  rw [← List.takeWhile_append_dropWhile (p := p) (l := new), List.pairwise_append] at hpair
  have hrest : Pieces O rank Lin K S (new.dropWhile p) := ⟨fun r hr => hnew.piece r (hafter r hr), hpair.2.1⟩
  have hleft := hrest.left hL hd fun q hq => by
    have hnot := List.head?_dropWhile_not p new
    rw [hq] at hnot
    simpa [hp] using hnot
  obtain ⟨sp', l', hm, hsp', hfirst, hge, hsub, hlast⟩ := mergeLoop_pieces hL hB hd hlow hd le_rfl fun q hq =>
    ⟨hrest.piece q hq, hf q (hafter q hq), hleft q hq⟩
  rw [show Ranges.sortIn O d new = new.takeWhile p ++ sp' :: l' by rw [Ranges.sortIn, hm]]
  refine ⟨⟨fun r hr => ?_, ?_⟩, fun r hr => ?_⟩
  · rw [List.mem_append, List.mem_cons] at hr
    rcases hr with hr | rfl | hr
    · exact hnew.piece r (hbefore r hr).1
    · exact hsp'
    · exact hrest.piece r (hsub.mem hr)
  · rw [List.pairwise_append, List.pairwise_cons]
    refine ⟨hpair.1, ⟨fun q hq s hs h1 h2 => ?_, hpair.2.1.sublist hsub⟩, fun r hr q hq s hs h1 h2 => ?_⟩
    · exact hleft q (hsub.mem hq) s hs h1 (h2.trans_le hfirst)
    · rcases List.mem_cons.mp hq with rfl | hq
      · have hgap := Piece.no_gap_of_passed hL hB hd hlow (hnew.piece r (hbefore r hr).1) (hbefore r hr).2 hge hs h1
        exact absurd h2 hgap
      · exact hpair.2.2 r hr q (hsub.mem hq) s hs h1 h2
  · rw [List.mem_append, List.mem_cons] at hr
    rcases hr with hr | rfl | hr
    · exact .inr ⟨r, (hbefore r hr).1, rfl⟩
    · exact hlast.imp_right (Exists.imp fun q hq => ⟨hafter q hq.1, hq.2⟩)
    · exact .inr ⟨r, hafter r (hsub.mem hr), rfl⟩

/-- **Cleaning pieces that go forward leaves pieces.** -/
theorem Pieces.cleanLoop (hL : Line O rank cmp Lin K) (hB : Blocks O rank Lin K blk) (hnew : Pieces O rank Lin K S new)
    (hrest : ∀ d ∈ rest, Piece O rank Lin K S d ∧ Low rank K S blk d) (hf : Forward blk rest)
    (hf' : ∀ r ∈ new, ∀ d ∈ rest, blk r.2 ≤ blk d.1) (h : Ranges.cleanLoop O new rest = some l) :
    Pieces O rank Lin K S l := by
  induction rest generalizing new with
  | nil =>
    obtain rfl := Option.some.inj h
    exact hnew
  | cons d rest ih =>
    rw [Ranges.cleanLoop] at h
    split_ifs at h
    obtain ⟨⟨hd, hlow⟩, hrest⟩ := List.forall_mem_cons.mp hrest
    obtain ⟨hfd, hf⟩ := List.pairwise_cons.mp hf
    obtain ⟨hsort, hends⟩ := hnew.sortIn hL hB hd hlow fun r hr => hf' r hr d List.mem_cons_self
    refine ih hsort hrest hf (fun r hr e he => ?_) h
    rcases hends r hr with h' | ⟨q, hq, h'⟩
    · exact h' ▸ hfd e he
    · exact h' ▸ hf' q hq e (List.mem_cons_of_mem d he)

end Pieces

/-! ### What is left of a list -/

/-- What the ranges of `y` leave of `d` is one range, and has nothing but what should be left. -/
structure Leaves (O : Steps α) (K : α → Prop) (x y : List (α × α)) (d : α × α) : Prop where
  /-- No range is strictly inside what those before it leave. -/
  noSplit : NoSplit O y d
  /-- Something is left. -/
  le : O.le (cutAll O y d).1 (cutAll O y d).2 = true
  /-- What is left is in `x` and not in `y`. -/
  part : ∀ s, K s → InRange O (cutAll O y d) s → member O x s = true ∧ ¬ member O y s = true

namespace Line

section Remove
variable {x y m : List (α × α)} {d : α × α}

/-- What is left of a range begins and ends as pieces do. -/
theorem piece_of_leaves (hL : Line O rank cmp Lin K) (hB : Blocks O rank Lin K blk) (hy : ∀ p ∈ y, On K p)
    (hf : Forward blk y) (hd : On K d) (h : Leaves O K x y d) :
    Piece O rank Lin K (fun s => K s ∧ member O x s = true ∧ ¬ member O y s = true) (cutAll O y d) := by
  have hon := hL.cutAll_mem hy (hL.on hd)
  refine ⟨hon, ?_, ?_, (hL.le_iff hon.1 hon.2).mp h.le, fun s hs h1 h2 => ⟨hs, h.part s hs ?_⟩⟩
  · rcases hL.left_first hB hy hf (hL.on hd) with h | ⟨p, hp, h, -⟩
    · exact .inl (h ▸ hd.1)
    · rcases lt_or_ge (rank p.2) (rank (O.next p.2)) with hup | hwrap
      · exact .inl (h ▸ hL.next_kind _ (hy p hp).2 hup)
      · exact .inr ⟨p.2, (hy p hp).2, h, hwrap⟩
  · rcases hL.left_second_cases hy (hL.on hd) with h | ⟨p, hp, h⟩
    · exact .inl (h ▸ hd.2)
    · by_cases hk : K (O.prev p.1)
      · exact .inl (h ▸ hk)
      · exact .inr ⟨p.1, (hy p hp).1, h, hk⟩
  · exact (hL.inRange_iff hon (hL.mem s hs)).mpr ⟨h1, h2⟩

/-- If what is left of a range begins where a step wrapped around, only what was cut out comes after it in the block. -/
theorem low_of_leaves (hL : Line O rank cmp Lin K) (hB : Blocks O rank Lin K blk) (hy : ∀ p ∈ y, On K p)
    (hf : Forward blk y) (hd : On K d) (hle : rank d.1 ≤ rank d.2) :
    Low rank K (fun s => K s ∧ member O x s = true ∧ ¬ member O y s = true) blk (cutAll O y d) := by
  intro hk s hs hblk
  by_contra hlt
  obtain ⟨hs, -, hout⟩ := hs
  have hsL := hL.mem s hs
  rcases hL.left_first hB hy hf (hL.on hd) with h | ⟨p, hp, h, -, hcut⟩
  · exact hk (h ▸ hd.1)
  · have hwrap : rank (O.next p.2) ≤ rank p.2 := not_lt.mp fun hup => hk (h ▸ hL.next_kind _ (hy p hp).2 hup)
    have htop : rank s ≤ rank p.2 := by
      apply hB.top _ _ (hy p hp).2 hwrap hsL
      rw [hblk, h, hB.next _ (hy p hp).2]
    rcases le_or_gt (rank d.1) (rank s) with h1 | h1
    · exact hout (hcut s hsL h1 htop)
    · exact hout ((hL.left_second hy (hL.on hd)).2 s hsL (not_le.mp hlt) (h1.le.trans hle))

/-- What is left of a list goes forward if both lists do. -/
theorem forward_left (hL : Line O rank cmp Lin K) (hB : Blocks O rank Lin K blk) (hx : ∀ d ∈ x, On K d)
    (hxf : Forward blk x) (hy : ∀ p ∈ y, On K p) (hyf : Forward blk y) : Forward blk (x.map (cutAll O y)) := by
  refine List.pairwise_map.mpr (hxf.imp_of_mem fun {e d} he hd hed => ?_)
  have hon : ∀ d ∈ x, On Lin (cutAll O y d) := fun d hd => hL.cutAll_mem hy (hL.on (hx d hd))
  have hend : blk (cutAll O y e).2 ≤ blk e.2 :=
    hB.mono _ _ (hon e he).2 (hL.on (hx e he)).2 (hL.left_second hy (hL.on (hx e he))).1
  have hstart : blk d.1 ≤ blk (cutAll O y d).1 := by
    rcases hL.left_first hB hy hyf (hL.on (hx d hd)) with h | ⟨p, hp, h, h1, -⟩
    · rw [h]
    · rw [h, hB.next _ (hy p hp).2]
      exact hB.mono _ _ (hL.on (hx d hd)).1 (hL.on (hy p hp)).2 h1
  exact hend.trans (hed.trans hstart)

/-- **If what is left of each range is right, what is left of the list is the difference.** -/
theorem member_clean_of_leaves (hL : Line O rank cmp Lin K) (hB : Blocks O rank Lin K blk) (hx : ∀ d ∈ x, On K d)
    (hxle : ∀ d ∈ x, rank d.1 ≤ rank d.2) (hxf : Forward blk x) (hy : ∀ p ∈ y, On K p) (hyf : Forward blk y)
    (h : ∀ d ∈ x, Leaves O K x y d) (hm : clean O (x.map (cutAll O y)) = some m) {s : α} (hs : K s) :
    member O m s = true ↔ member O x s = true ∧ ¬ member O y s = true := by
  have hon : ∀ r ∈ x.map (cutAll O y), On Lin r := fun r hr => by
    obtain ⟨d, hd, rfl⟩ := List.mem_map.mp hr
    exact hL.cutAll_mem hy (hL.on (hx d hd))
  constructor
  · intro hin
    have hpieces : Pieces O rank Lin K (fun s => K s ∧ member O x s = true ∧ ¬ member O y s = true) m := by
      have hnil : Pieces O rank Lin K (fun s => K s ∧ member O x s = true ∧ ¬ member O y s = true) [] := ⟨by simp, .nil⟩
      refine hnil.cleanLoop hL hB (fun r hr => ?_) (hL.forward_left hB hx hxf hy hyf) (by simp) hm
      obtain ⟨d, hd, rfl⟩ := List.mem_map.mp hr
      exact ⟨hL.piece_of_leaves hB hy hyf (hx d hd) (h d hd), hL.low_of_leaves hB hy hyf (hx d hd) (hxle d hd)⟩
    obtain ⟨r, hr, hin⟩ := member_iff.mp hin
    have hpiece := hpieces.piece r hr
    obtain ⟨h1, h2⟩ := (hL.inRange_iff hpiece.on (hL.mem s hs)).mp hin
    exact (hpiece.part s hs h1 h2).2
  · rintro ⟨hin, hout⟩
    obtain ⟨d, hd, hin⟩ := member_iff.mp hin
    have hsL := hL.mem s hs
    obtain ⟨h1, h2⟩ := (hL.inRange_iff (hL.on (hx d hd)) hsL).mp hin
    have hkeep := hL.left_keeps hy (hL.on (hx d hd)) hsL h1 h2 hout
    refine (hL.joins s).cleanLoop hon (by simp) hm (.inr (member_iff.mpr ⟨_, List.mem_map_of_mem hd, ?_⟩))
    exact (hL.inRange_iff (hon _ (List.mem_map_of_mem hd)) hsL).mpr hkeep

/-- **If what is left of the list is the difference, what is left of each range is right.** -/
theorem leaves_of_difference (hL : Line O rank cmp Lin K) (hx : ∀ d ∈ x, On K d) (hy : ∀ p ∈ y, On K p)
    (hn : ∀ d ∈ x, NoSplit O y d) (hm : clean O (x.map (cutAll O y)) = some m)
    (hdiff : ∀ s, K s → (member O m s = true ↔ member O x s = true ∧ ¬ member O y s = true)) :
    ∀ d ∈ x, Leaves O K x y d := by
  intro d hd
  have hnode : ∀ r ∈ x.map (cutAll O y), O.le r.1 r.2 = true :=
    cleanLoop_isSome_iff.mp (by rw [show cleanLoop O [] _ = _ from hm]; rfl)
  have hon : ∀ r ∈ x.map (cutAll O y), On Lin r := fun r hr => by
    obtain ⟨c, hc, rfl⟩ := List.mem_map.mp hr
    exact hL.cutAll_mem hy (hL.on (hx c hc))
  refine ⟨hn d hd, hnode _ (List.mem_map_of_mem hd), fun s hs hin => (hdiff s hs).mp ?_⟩
  exact (hL.joins s).cleanLoop hon (by simp) hm (.inr (member_iff.mpr ⟨_, List.mem_map_of_mem hd, hin⟩))

/-! ### Lists that were cleaned -/

/-- What merging does to a list that goes forward. -/
theorem mergeLoop_forward (hL : Line O rank cmp Lin K) (hB : Blocks O rank Lin K blk) {sp : α × α}
    (hsp : On K sp ∧ rank sp.1 ≤ rank sp.2) {l : List (α × α)} (hl : ∀ r ∈ l, On K r ∧ rank r.1 ≤ rank r.2)
    (hf : Forward blk l) :
    ∃ sp' l', mergeLoop O sp l = (sp', l') ∧ (On K sp' ∧ rank sp'.1 ≤ rank sp'.2) ∧ l'.Sublist l ∧
      (∀ q ∈ l', blk sp'.2 ≤ blk q.1) ∧ (sp'.1 = sp.1 ∨ ∃ q ∈ l, sp'.1 = q.1) := by
  induction l generalizing sp with
  | nil => exact ⟨sp, [], rfl, hsp, .slnil, by simp, .inl rfl⟩
  | cons dp l ih =>
    obtain ⟨hdp, hl⟩ := List.forall_mem_cons.mp hl
    obtain ⟨hfdp, hf⟩ := List.pairwise_cons.mp hf
    have hspL := hL.on hsp.1
    have hdpL := hL.on hdp.1
    rw [mergeLoop]
    by_cases htouch : O.le dp.1 (O.next sp.2) = true
    · rw [if_pos htouch]
      obtain ⟨hcs, -⟩ := hL.ranked.covers_merge (hL.cmp _ _ hdpL.1 hspL.1) (hL.cmp _ _ hdpL.2 hspL.2)
      have hmerged : On K (joined O sp dp) := joined_ends hsp.1 hdp.1
      obtain ⟨sp', l', hm, h1, h2, h3, h4⟩ := ih ⟨hmerged, (hcs.1.trans hsp.2).trans hcs.2⟩ hl hf
      refine ⟨sp', l', hm, h1, h2.cons dp, h3, ?_⟩
      rcases h4 with h | ⟨q, hq, h⟩
      · have hstart : (joined O sp dp).1 = dp.1 ∨ (joined O sp dp).1 = sp.1 := by
          unfold joined
          split_ifs <;> simp
        rcases hstart with h' | h'
        · exact .inr ⟨dp, List.mem_cons_self, h.trans h'⟩
        · exact .inl (h.trans h')
      · exact .inr ⟨q, List.mem_cons_of_mem dp hq, h⟩
    · rw [if_neg htouch]
      rw [hL.le_iff hdpL.1 (hL.next_mem _ hsp.1.2), not_le] at htouch
      have hblk : blk sp.2 ≤ blk dp.1 := by
        rw [← hB.next _ hsp.1.2]
        exact hB.mono _ _ (hL.next_mem _ hsp.1.2) hdpL.1 htouch.le
      refine ⟨sp, dp :: l, rfl, hsp, .refl _, fun q hq => ?_, .inl rfl⟩
      rcases List.mem_cons.mp hq with rfl | hq
      · exact hblk
      · exact hblk.trans ((hB.mono _ _ hdpL.1 hdpL.2 hdp.2).trans (hfdp q hq))

/-- Sorting in keeps a list going forward. -/
theorem sortIn_forward (hL : Line O rank cmp Lin K) (hB : Blocks O rank Lin K blk) {sp : α × α}
    (hsp : On K sp ∧ rank sp.1 ≤ rank sp.2) {l : List (α × α)} (hl : ∀ r ∈ l, On K r ∧ rank r.1 ≤ rank r.2)
    (hf : Forward blk l) : (∀ r ∈ sortIn O sp l, On K r ∧ rank r.1 ≤ rank r.2) ∧ Forward blk (sortIn O sp l) := by
  set p : α × α → Bool := fun dp => O.lt dp.2 (O.prev sp.1) with hp
  have hbefore : ∀ r ∈ l.takeWhile p, r ∈ l ∧ p r = true := fun r hr =>
    ⟨(List.takeWhile_sublist p).mem hr, List.mem_takeWhile_imp hr⟩
  have hafter : ∀ r ∈ l.dropWhile p, r ∈ l := fun r hr => (List.dropWhile_sublist p).mem hr
  have hpair := hf
  rw [Forward, ← List.takeWhile_append_dropWhile (p := p) (l := l), List.pairwise_append] at hpair
  obtain ⟨sp', l', hm, hsp', hsub, hnext, hstart⟩ :=
    hL.mergeLoop_forward hB hsp (fun r hr => hl r (hafter r hr)) hpair.2.1
  rw [show sortIn O sp l = l.takeWhile p ++ sp' :: l' by rw [sortIn, hm]]
  refine ⟨fun r hr => ?_, ?_⟩
  · rw [List.mem_append, List.mem_cons] at hr
    rcases hr with hr | rfl | hr
    · exact hl r (hbefore r hr).1
    · exact hsp'
    · exact hl r (hafter r (hsub.mem hr))
  · rw [Forward, List.pairwise_append, List.pairwise_cons]
    refine ⟨hpair.1, ⟨hnext, hpair.2.1.sublist hsub⟩, fun r hr q hq => ?_⟩
    rcases List.mem_cons.mp hq with rfl | hq
    · rcases hstart with h | ⟨dp, hdp, h⟩
      · -- the range was passed
        have hlt := ((hL.ranked.lt_iff _ _).mp (hbefore r hr).2).2
        rw [h, ← hB.prev _ hsp.1.1]
        exact hB.mono _ _ (hL.on (hl r (hbefore r hr).1).1).2 (hL.prev_mem _ hsp.1.1) hlt.le
      · exact h ▸ hpair.2.2 r hr dp hdp
    · exact hpair.2.2 r hr q (hsub.mem hq)

/-- **A cleaned list goes forward.** -/
theorem forward_cleanLoop (hL : Line O rank cmp Lin K) (hB : Blocks O rank Lin K blk) {new rest l : List (α × α)}
    (hrest : ∀ r ∈ rest, On K r) (hnew : ∀ r ∈ new, On K r ∧ rank r.1 ≤ rank r.2) (hf : Forward blk new)
    (h : cleanLoop O new rest = some l) : (∀ r ∈ l, On K r ∧ rank r.1 ≤ rank r.2) ∧ Forward blk l := by
  induction rest generalizing new with
  | nil =>
    obtain rfl := Option.some.inj h
    exact ⟨hnew, hf⟩
  | cons sp rest ih =>
    rw [cleanLoop] at h
    split_ifs at h with hle
    obtain ⟨hsp, hrest⟩ := List.forall_mem_cons.mp hrest
    obtain ⟨hnew', hf'⟩ := hL.sortIn_forward hB ⟨hsp, ((hL.ranked.le_iff _ _).mp hle).2⟩ hnew hf
    exact ih hrest hnew' hf' h

/-! ### Separated lists -/

/-- `p` can be cut out of `d`: it is not strictly inside; the step after its end does not wrap around, if it overlaps the
start; and if it covers `d`, something is left, which is in `x` and not in `y`. -/
structure Removable (O : Steps α) (K : α → Prop) (x y : List (α × α)) (d p : α × α) : Prop where
  /-- It is not strictly inside. -/
  inside : ¬ (O.lt d.1 p.1 = true ∧ O.lt p.2 d.2 = true)
  /-- It overlaps the start. -/
  start : O.le p.1 d.1 = true → O.le d.1 p.2 = true → O.lt p.2 d.2 = true → O.lt p.2 (O.next p.2) = true
  /-- It covers the other. -/
  covers : O.le p.1 d.1 = true → O.le d.2 p.2 = true → O.le (O.next p.2) (O.prev p.1) = true ∧
    ∀ s, K s → InRange O (O.next p.2, O.prev p.1) s → member O x s = true ∧ ¬ member O y s = true

/-- If every range can be cut out, what is left is right. -/
theorem leaves_of_removable (hL : Line O rank cmp Lin K) (hy : Separated O y) (hyk : ∀ p ∈ y, On K p) (hd : On K d)
    (hdx : d ∈ x) (hle : rank d.1 ≤ rank d.2) (h : ∀ p ∈ y, Removable O K x y d p) : Leaves O K x y d := by
  have hdL := hL.on hd
  by_cases hcov : ∃ p ∈ y, Covers rank p d
  · obtain ⟨p, hp, hcov⟩ := hcov
    have hpL := hL.on (hyk p hp)
    obtain ⟨hn, hall⟩ := hL.cutAll_of_covers hy hyk hdL hle hp hcov
    obtain ⟨hle', hpart⟩ := (h p hp).covers ((hL.le_iff hpL.1 hdL.1).mpr hcov.1) ((hL.le_iff hdL.2 hpL.2).mpr hcov.2)
    exact ⟨hn, hall ▸ hle', hall ▸ hpart⟩
  · have hdiff : Difference O rank Lin K y d := hL.difference_of_cuttable hy hyk hd.1 hdL.2 hle fun p hp => by
      have hpL := hL.on (hyk p hp)
      obtain ⟨h1, h2, -⟩ := h p hp
      rw [hL.lt_iff hdL.1 hpL.1, hL.lt_iff hpL.2 hdL.2] at h1
      rw [hL.le_iff hpL.1 hdL.1, hL.le_iff hdL.1 hpL.2, hL.lt_iff hpL.2 hdL.2,
        hL.lt_iff hpL.2 (hL.next_mem _ (hyk p hp).2)] at h2
      exact ⟨h1, fun hc => hcov ⟨p, hp, hc⟩, h2⟩
    refine ⟨hdiff.noSplit, (hL.le_iff hdiff.on.1 hdiff.on.2).mpr hdiff.le, fun s hs hin => ?_⟩
    obtain ⟨hin, hout⟩ := (hdiff.inRange s (hL.mem s hs)).mp hin
    exact ⟨member_iff.mpr ⟨d, hdx, hin⟩, fun hm => hout (member_iff.mp hm)⟩

/-- **For separated lists what is left of a range is right exactly if every range can be cut out of it.** -/
theorem leaves_iff_removable (hL : Line O rank cmp Lin K) (hy : Separated O y) (hyk : ∀ p ∈ y, On K p) (hd : On K d)
    (hdx : d ∈ x) (hle : rank d.1 ≤ rank d.2) : Leaves O K x y d ↔ ∀ p ∈ y, Removable O K x y d p := by
  refine ⟨fun h p hp => ?_, hL.leaves_of_removable hy hyk hd hdx hle⟩
  have hpk := hyk p hp
  have hdL := hL.on hd
  have hpL := hL.on hpk
  refine ⟨?_, fun h1 h2 h3 => ?_, fun h1 h2 => ?_⟩
  · rw [hL.lt_iff hdL.1 hpL.1, hL.lt_iff hpL.2 hdL.2]
    exact hL.not_inside_of_noSplit hy hyk hdL h.noSplit hp
  · rw [hL.le_iff hpL.1 hdL.1] at h1
    rw [hL.le_iff hdL.1 hpL.2] at h2
    rw [hL.lt_iff hpL.2 hdL.2] at h3
    rw [hL.lt_iff hpL.2 (hL.next_mem _ hpk.2)]
    by_contra hwrap
    have hend := hL.end_mem_of_wrap hy hyk hdL hp h1 h2 h3 (not_lt.mp hwrap)
    apply (h.part p.2 hpk.2 ((hL.inRange_iff (hL.cutAll_mem hyk hdL) hpL.2).mpr hend)).2
    exact member_iff.mpr ⟨p, hp, (hL.inRange_iff hpL hpL.2).mpr ⟨h1.trans h2, le_rfl⟩⟩
  · rw [hL.le_iff hpL.1 hdL.1] at h1
    rw [hL.le_iff hdL.2 hpL.2] at h2
    obtain ⟨-, hall⟩ := hL.cutAll_of_covers hy hyk hdL hle hp ⟨h1, h2⟩
    obtain ⟨-, hleft, hpart⟩ := h
    rw [hall] at hleft hpart
    exact ⟨hleft, hpart⟩

end Remove

end Line

end CSSC.Library.Ranges
