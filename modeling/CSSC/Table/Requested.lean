import CSSC.Table.DeltaTable
import Mathlib.Data.Int.ConditionallyCompleteOrder
import Mathlib.Data.List.MinMax
import Mathlib.Data.Prod.Lex
import Mathlib.Order.ConditionallyCompleteLattice.Basic

/-!
# Which delta is asked for

`find_requested_sid` goes once through the current deltas. It keeps the best SID so far that fits the request, by an
order that does not look at the branch, and with `-t` it stops at the first one that fits in every component. The flag
`default_sid` is a parameter, and so is `get_top_delta`.

A loop that does not break off computes the last of the greatest (`searchLoop_eq_argmax`), and so **without `-t` the
best match is found, whatever the order of the table** (`findRequestedSid_best`). A request with `-t` is about a group
of deltas, the newest first (`topGroup`), and **the newest is found exactly if** the request has two components, or
the release has deltas, or none of the group comes out better (`topDelta_iff`).
-/

namespace CSSC.Table

namespace DeltaTable

/-- `update_highest`, what it does to `high_release_`. -/
def updateHighest (high : Sid) (d : Delta) : Sid :=
  if d.removed then high
  else if high.isNull then (if d.id.onTrunk then d.id else high)
  else if d.id.greater high then d.id
  else high

/-- `highest_release()`. -/
def highestRelease (T : DeltaTable) : Sid := T.foldl updateHighest ⟨0, 0, 0, 0⟩

/-- The SIDs of the current deltas. -/
def currentSids (T : DeltaTable) : List Sid := T.current.map Delta.id

end DeltaTable

open DeltaTable

/-- `ncomponents`: without `-t` two components ask for an exact match. -/
def ncomponents (requested : Sid) (top : Bool) : ℕ :=
  if requested.components = 2 ∧ top = false then 4 else requested.components

/-- `sid_matches`. -/
def sidMatches (requested found : Sid) (top : Bool) : Bool :=
  if ncomponents requested top = 1 then
    if requested.rel < found.rel then false
    else if top = false ∧ found.onTrunk = false then false
    else true
  else found.matches_ requested (ncomponents requested top)

/-- The loop of `find_requested_sid`. -/
def searchLoop (requested : Sid) (top : Bool) : Option Sid → List Sid → Option Sid
  | best, [] => best
  | best, id :: ids =>
    if sidMatches requested id top = true ∧ best.all (id.gte ·) = true then
      if top = true ∧ id.matches_ requested (ncomponents requested top) = true then some id
      else searchLoop requested top (some id) ids
    else searchLoop requested top best ids

/-- `find_requested_sid`. -/
def findRequestedSid (T : DeltaTable) (defaultSid requested : Sid) (top : Bool) : Option Sid :=
  if requested.isNull then
    if defaultSid.isNull then
      if top = false ∧ (Sid.ofRelease T.highestRelease.rel).isNull = true then none
      else searchLoop (Sid.ofRelease T.highestRelease.rel) top none T.currentSids
    else searchLoop defaultSid top none T.currentSids
  else searchLoop requested top none T.currentSids

/-! ### What is asked for -/

/-- The request that counts: the SID of the caller, or the default one. -/
def asked (defaultSid requested : Sid) : Option Sid :=
  if requested.isNull then (if defaultSid.isNull then none else some defaultSid) else some requested

/-- A delta matches the request. Without a request every delta on the trunk does. -/
def Sought : Option Sid → Sid → Prop
  | none, id => id.onTrunk = true
  | some r, id =>
    if r.components = 1 then id.onTrunk = true ∧ id.rel ≤ r.rel
    else if r.components = 3 then id.rel = r.rel ∧ id.level = r.level ∧ id.branch = r.branch
    else id = r

instance (q : Option Sid) (id : Sid) : Decidable (Sought q id) := by
  unfold Sought
  split <;> infer_instance

/-- The release and the level are at most those of `found`. -/
def TrunkLe (id found : Sid) : Prop := id.rel < found.rel ∨ id.rel = found.rel ∧ id.level ≤ found.level

/-- A delta that matches is no better than `found`: on the trunk by release and level, on a branch by the sequence. -/
def NoBetter : Option Sid → Sid → Sid → Prop
  | none, id, found => TrunkLe id found
  | some r, id, found =>
    (r.components = 1 → TrunkLe id found) ∧ (r.components = 3 → id.sequence ≤ found.sequence)

/-- `found` is the best match. -/
structure Best (q : Option Sid) (ids : List Sid) (found : Sid) : Prop where
  /-- It is the SID of a delta. -/
  mem : found ∈ ids
  /-- It matches. -/
  sought : Sought q found
  /-- No other match is better. -/
  greatest : ∀ id ∈ ids, Sought q id → NoBetter q id found

/-! ### The order of the search -/

namespace Sid

/-- What `gte` compares. -/
def rank (s : Sid) : ℤ ×ₗ ℤ ×ₗ ℤ := toLex (s.rel.toInt, toLex (s.level.toInt, s.sequence.toInt))

theorem rank_le_iff {s t : Sid} : s.rank ≤ t.rank ↔
    s.rel < t.rel ∨ s.rel = t.rel ∧ (s.level < t.level ∨ s.level = t.level ∧ s.sequence ≤ t.sequence) := by
  simp only [rank, Prod.Lex.toLex_le_toLex, Int16.lt_iff_toInt_lt, Int16.le_iff_toInt_le, Int16.toInt_inj]

theorem gte_iff {s t : Sid} : s.gte t = true ↔ t.rank ≤ s.rank := by
  rw [rank_le_iff, gte]
  split_ifs with h1 h2 h3 h4
  · simp [h1]
  · simp [h1, Ne.symm h2]
  · simp only [ne_eq, not_not] at h2
    simp [h2, h3]
  · simp only [ne_eq, not_not] at h2
    simp [h2, h3, Ne.symm h4]
  · simp only [ne_eq, not_not] at h2 h4
    simp [h2, h4]

theorem rank_lt_iff {s t : Sid} : s.rank < t.rank ↔
    s.rel < t.rel ∨ s.rel = t.rel ∧ (s.level < t.level ∨ s.level = t.level ∧ s.sequence < t.sequence) := by
  simp only [rank, Prod.Lex.toLex_lt_toLex, Int16.lt_iff_toInt_lt, Int16.toInt_inj]

theorem gt_iff {s t : Sid} : s.gt t = true ↔ t.rank < s.rank := by
  rw [rank_lt_iff, gt]
  split_ifs with h1 h2 h3 h4
  · simp [h1]
  · simp [h1, Ne.symm h2]
  · simp only [ne_eq, not_not] at h2
    simp [h2, h3]
  · simp only [ne_eq, not_not] at h2
    simp [h2, h3, Ne.symm h4]
  · simp only [ne_eq, not_not] at h2 h4
    simp [h2, h4]

theorem eq_of_rank {s t : Sid} (h : s.rank = t.rank) (hb : s.branch = t.branch) : s = t := by
  obtain ⟨r, l, b, q⟩ := s
  obtain ⟨r', l', b', q'⟩ := t
  obtain rfl : b = b' := hb
  simpa [rank, Int16.toInt_inj] using h

theorem onTrunk_iff {s : Sid} : s.onTrunk = true ↔ s.valid = true ∧ s.level ≠ 0 ∧ s.branch = 0 := by
  unfold onTrunk components
  split_ifs <;> simp_all

end Sid

/-- Of those seen so far the last of the greatest is kept. -/
theorem foldl_keep_eq_argmax (l : List Sid) :
    l.foldl (fun best id => if best.all (id.gte ·) = true then some id else best) none = l.reverse.argmax Sid.rank := by
  induction l using List.reverseRecOn with
  | nil => rfl
  | append_singleton l a ih =>
    rw [List.foldl_append, List.foldl_cons, List.foldl_nil, ih, List.reverse_append, List.reverse_singleton,
      List.singleton_append, List.argmax_cons]
    rcases l.reverse.argmax Sid.rank with _ | c
    · rfl
    · simp only [Option.all_some, Sid.gte_iff, ← not_lt, ite_not]

/-- **A loop that does not break off computes the last of the greatest** among those that match. -/
theorem searchLoop_eq_argmax {requested : Sid} {top : Bool} {ids : List Sid}
    (hgo : ∀ id ∈ ids, ¬ (top = true ∧ id.matches_ requested (ncomponents requested top) = true)) :
    searchLoop requested top none ids = (ids.filter (sidMatches requested · top)).reverse.argmax Sid.rank := by
  have hfold : ∀ best, searchLoop requested top best ids = (ids.filter (sidMatches requested · top)).foldl
      (fun best id => if best.all (id.gte ·) = true then some id else best) best := by
    induction ids with
    | nil => exact fun _ => rfl
    | cons id ids ih =>
      intro best
      obtain ⟨hid, hids⟩ := List.forall_mem_cons.mp hgo
      have ih := ih hids
      rw [searchLoop, if_neg hid]
      by_cases hm : sidMatches requested id top = true
      · rw [List.filter_cons, if_pos hm, List.foldl_cons]
        split_ifs with h h' h'
        · exact ih _
        · exact absurd h.2 h'
        · exact absurd ⟨hm, h'⟩ h
        · exact ih _
      · rw [List.filter_cons, if_neg hm, if_neg fun h => hm h.1]
        exact ih _
  rw [hfold, foldl_keep_eq_argmax]

/-! ### Without `-t` -/

theorem sidMatches_iff {r : Sid} (hr : r.valid = true) (id : Sid) : sidMatches r id false = true ↔ Sought (some r) id := by
  unfold sidMatches ncomponents Sought
  have hc : r.components = 1 ∨ r.components = 2 ∨ r.components = 3 ∨ r.components = 4 := by
    unfold Sid.components
    rw [if_pos hr]
    split_ifs <;> simp
  have hall : (id.rel = r.rel ∧ id.level = r.level ∧ id.branch = r.branch ∧ id.sequence = r.sequence) ↔ id = r := by
    obtain ⟨a, b, c, d⟩ := id
    obtain ⟨a', b', c', d'⟩ := r
    simp
  rcases hc with h | h | h | h
  · simp only [h, Int16.not_lt.symm]
    by_cases hlt : r.rel < id.rel <;> by_cases ht : id.onTrunk = true <;> simp [hlt, ht]
  · simp [h, Sid.matches_, ← hall, and_assoc]
  · simp [h, Sid.matches_, and_assoc]
  · simp [h, Sid.matches_, ← hall, and_assoc]

/-- What `high_release_` says about the SIDs of the current deltas added so far. -/
structure KnowsHighest (high : Sid) (ids : List Sid) : Prop where
  /-- It is compared with SIDs on the trunk only. -/
  branch : high.branch = 0
  /-- It is null while there is no delta on the trunk. -/
  null : high.isNull = true → ∀ id ∈ ids, ¬ id.onTrunk = true
  /-- No release on the trunk is higher. -/
  le : ∀ id ∈ ids, id.onTrunk = true → id.rel ≤ high.rel

theorem Sid.isNull_iff {s : Sid} : s.isNull = true ↔ ¬ s.valid = true := by
  simp [Sid.isNull, Sid.valid, Int16.not_lt]

theorem Sid.greater_iff {s t : Sid} (hs : s.valid = true) (ht : t.valid = true) (hb : s.branch = 0) (hb' : t.branch = 0) :
    s.greater t = true ↔ ¬ t.gte s = true := by
  have hcmp : s.comparable t = true := by simp [comparable, hs, ht, hb, hb']
  rw [greater, hcmp, Bool.true_and, gt_iff, gte_iff, not_le]

/-- A SID that is greater than the highest one on the trunk is valid, on no branch, and of no lower release. -/
theorem Sid.greater_high {s high : Sid} (hb : high.branch = 0) (h : s.greater high = true) :
    s.valid = true ∧ s.branch = 0 ∧ high.rel ≤ s.rel := by
  simp only [greater, comparable, Bool.and_eq_true] at h
  obtain ⟨hcmp, hgt⟩ := h
  split_ifs at hcmp with h1 h2 h3
  refine ⟨by_contra fun hv => h1 (by simp [hv]), (not_not.mp h2).trans hb, ?_⟩
  unfold gt at hgt
  split_ifs at hgt with h4 h5
  · exact Int16.le_of_lt h4
  · rw [not_not.mp h5]
    exact Int16.le_refl _
  · rw [not_not.mp h5]
    exact Int16.le_refl _

/-- One more delta is added. -/
theorem KnowsHighest.add {high : Sid} {ids : List Sid} (h : KnowsHighest high ids) {d : Delta}
    (hd : d.removed = false) : KnowsHighest (updateHighest high d) (ids ++ [d.id]) := by
  have hmem : ∀ {id}, id ∈ ids ++ [d.id] → id ∈ ids ∨ id = d.id := fun hid => by simpa using hid
  rw [updateHighest, if_neg (by simp [hd])]
  split_ifs with hn ht hg
  · -- the first delta on the trunk
    obtain ⟨hv, -, hb⟩ := Sid.onTrunk_iff.mp ht
    refine ⟨hb, fun hn' => absurd hv (Sid.isNull_iff.mp hn'), fun id hid htrunk => ?_⟩
    rcases hmem hid with hid | rfl
    · exact absurd htrunk (h.null hn id hid)
    · exact Int16.le_refl _
  · refine ⟨h.branch, fun _ id hid => ?_, fun id hid htrunk => ?_⟩
    · exact (hmem hid).elim (h.null hn id) fun e => e ▸ ht
    · exact (hmem hid).elim (fun hid => h.le id hid htrunk) fun e => absurd (e ▸ htrunk) ht
  · obtain ⟨hv, hb, hle⟩ := Sid.greater_high h.branch hg
    refine ⟨hb, fun hn' => absurd hv (Sid.isNull_iff.mp hn'), fun id hid htrunk => ?_⟩
    rcases hmem hid with hid | rfl
    · exact Int16.le_trans (h.le id hid htrunk) hle
    · exact Int16.le_refl _
  · refine ⟨h.branch, fun hn' => absurd hn' hn, fun id hid htrunk => ?_⟩
    rcases hmem hid with hid | rfl
    · exact h.le id hid htrunk
    · obtain ⟨hv, -, hb⟩ := Sid.onTrunk_iff.mp htrunk
      have hhv : high.valid = true := not_not.mp fun hv' => hn (Sid.isNull_iff.mpr hv')
      rw [Sid.greater_iff hv hhv hb h.branch, not_not, Sid.gte_iff, Sid.rank_le_iff] at hg
      exact hg.elim Int16.le_of_lt fun e => e.1 ▸ Int16.le_refl _

theorem knowsHighest (T : DeltaTable) : KnowsHighest T.highestRelease T.currentSids := by
  unfold highestRelease currentSids current
  induction T using List.reverseRecOn with
  | nil => exact ⟨rfl, by simp, by simp⟩
  | append_singleton T d ih =>
    rw [List.foldl_append, List.foldl_cons, List.foldl_nil, List.filter_append, List.map_append]
    by_cases hd : d.removed = true
    · simpa [updateHighest, hd] using ih
    · have hd' : d.removed = false := by simpa using hd
      simpa [hd'] using ih.add hd'

/-- **Without `-t` the last of the greatest of those that match is found.** -/
theorem findRequestedSid_eq_argmax (T : DeltaTable) (defaultSid requested : Sid) :
    findRequestedSid T defaultSid requested false =
      (T.currentSids.filter (Sought (asked defaultSid requested) ·)).reverse.argmax Sid.rank := by
  have hsid : ∀ {r : Sid}, ¬ r.isNull = true → searchLoop r false none T.currentSids =
      (T.currentSids.filter (Sought (some r) ·)).reverse.argmax Sid.rank := by
    intro r hr
    have hv : r.valid = true := not_not.mp fun h => hr (Sid.isNull_iff.mpr h)
    have hfilter : T.currentSids.filter (sidMatches r · false) = T.currentSids.filter (Sought (some r) ·) :=
      List.filter_congr fun id _ => by rw [Bool.eq_iff_iff, sidMatches_iff hv, decide_eq_true_eq]
    rw [searchLoop_eq_argmax (by simp), hfilter]
  unfold findRequestedSid asked
  by_cases hr : requested.isNull = true
  · by_cases hd : defaultSid.isNull = true
    · simp only [if_pos hr, if_pos hd, true_and]
      obtain ⟨-, hnull, hle⟩ := knowsHighest T
      have hhigh : (Sid.ofRelease T.highestRelease.rel).isNull = T.highestRelease.isNull := rfl
      rw [hhigh]
      split_ifs with hn
      · have hempty : T.currentSids.filter (Sought none ·) = [] :=
          List.filter_eq_nil_iff.mpr fun id hid h => hnull hn id hid (of_decide_eq_true h)
        rw [hempty]
        rfl
      · rw [hsid (by rwa [hhigh])]
        -- no delta on the trunk is of a higher release
        have hv : (Sid.ofRelease T.highestRelease.rel).valid = true := not_not.mp fun h => hn (hhigh ▸ Sid.isNull_iff.mpr h)
        have hone : (Sid.ofRelease T.highestRelease.rel).components = 1 := by
          rw [Sid.components, if_pos hv]
          rfl
        have hfilter : T.currentSids.filter (Sought (some (Sid.ofRelease T.highestRelease.rel)) ·) =
            T.currentSids.filter (Sought none ·) := by
          refine List.filter_congr fun id hid => decide_eq_decide.mpr ?_
          simp only [Sought, hone, if_true]
          exact ⟨fun h => h.1, fun h => ⟨h, hle id hid h⟩⟩
        rw [hfilter]
    · simp only [if_pos hr, if_neg hd]
      exact hsid hd
  · simp only [if_neg hr]
    exact hsid hr

/-- Two matches of the same rank are the same. -/
theorem Sought.eq_of_rank {q : Option Sid} {a b : Sid} (ha : Sought q a) (hb : Sought q b) (h : a.rank = b.rank) :
    a = b := by
  rcases q with _ | r
  · exact Sid.eq_of_rank h ((Sid.onTrunk_iff.mp ha).2.2.trans (Sid.onTrunk_iff.mp hb).2.2.symm)
  · simp only [Sought] at ha hb
    split_ifs at ha hb with h1 h3
    · exact Sid.eq_of_rank h ((Sid.onTrunk_iff.mp ha.1).2.2.trans (Sid.onTrunk_iff.mp hb.1).2.2.symm)
    · exact Sid.eq_of_rank h (ha.2.2.trans hb.2.2.symm)
    · exact ha.trans hb.symm

/-- A match of a lower rank is no better. -/
theorem Sought.noBetter {q : Option Sid} {id found : Sid} (hi : Sought q id) (hf : Sought q found)
    (h : id.rank ≤ found.rank) : NoBetter q id found := by
  have htrunk : TrunkLe id found := by
    rcases Sid.rank_le_iff.mp h with h | ⟨h, h' | ⟨h', -⟩⟩
    · exact .inl h
    · exact .inr ⟨h, Int16.le_of_lt h'⟩
    · exact .inr ⟨h, h' ▸ Int16.le_refl _⟩
  rcases q with _ | r
  · exact htrunk
  · refine ⟨fun _ => htrunk, fun h3 => ?_⟩
    simp only [Sought, h3, show ¬ (3 = 1) by decide, if_false, if_true] at hi hf
    rcases Sid.rank_le_iff.mp h with h | ⟨-, h | ⟨-, h⟩⟩
    · exact absurd (hi.1.trans hf.1.symm ▸ h) Int16.lt_irrefl
    · exact absurd (hi.2.1.trans hf.2.1.symm ▸ h) Int16.lt_irrefl
    · exact h

/-- **Without `-t` the best match is found, whatever the order of the table**: the greatest release and level on the
trunk for a release, the greatest sequence on a branch for three components, and otherwise exactly what is asked for. -/
theorem findRequestedSid_best (T : DeltaTable) (defaultSid requested : Sid) :
    (findRequestedSid T defaultSid requested false = none ↔
        ∀ id ∈ T.currentSids, ¬ Sought (asked defaultSid requested) id) ∧
      (∀ found, findRequestedSid T defaultSid requested false = some found →
        Best (asked defaultSid requested) T.currentSids found) ∧
      ∀ T' : DeltaTable, T.Perm T' →
        findRequestedSid T' defaultSid requested false = findRequestedSid T defaultSid requested false := by
  generalize hq : asked defaultSid requested = q
  have hmax : ∀ T' : DeltaTable, findRequestedSid T' defaultSid requested false =
      (T'.currentSids.filter (Sought q ·)).reverse.argmax Sid.rank := fun T' => by
    rw [findRequestedSid_eq_argmax, hq]
  have hmem : ∀ {T' : DeltaTable} {id : Sid}, id ∈ (T'.currentSids.filter (Sought q ·)).reverse ↔
      id ∈ T'.currentSids ∧ Sought q id := fun {T' id} => by simp
  have hbest : ∀ {T' : DeltaTable} {found : Sid}, findRequestedSid T' defaultSid requested false = some found →
      (found ∈ T'.currentSids ∧ Sought q found) ∧ ∀ id ∈ T'.currentSids, Sought q id → id.rank ≤ found.rank := by
    intro T' found h
    rw [hmax] at h
    exact ⟨hmem.mp (List.argmax_mem h), fun id hid hs => List.le_of_mem_argmax (hmem.mpr ⟨hid, hs⟩) h⟩
  have hnone : ∀ T' : DeltaTable, findRequestedSid T' defaultSid requested false = none ↔
      ∀ id ∈ T'.currentSids, ¬ Sought q id := fun T' => by
    rw [hmax, List.argmax_eq_none, List.reverse_eq_nil_iff, List.filter_eq_nil_iff]
    simp
  refine ⟨hnone T, fun found h => ?_, fun T' hp => ?_⟩
  · obtain ⟨⟨hm, hs⟩, hle⟩ := hbest h
    exact ⟨hm, hs, fun id hid hs' => hs'.noBetter hs (hle id hid hs')⟩
  · have hids : ∀ {id}, id ∈ T'.currentSids ↔ id ∈ T.currentSids := fun {id} =>
      ((hp.filter _).map _).mem_iff.symm
    rcases h : findRequestedSid T defaultSid requested false with _ | a
    · rw [hnone]
      exact fun id hid => (hnone T).mp h id (hids.mp hid)
    · obtain ⟨⟨hm, hs⟩, hle⟩ := hbest h
      rcases h' : findRequestedSid T' defaultSid requested false with _ | b
      · exact absurd hs ((hnone T').mp h' a (hids.mpr hm))
      · obtain ⟨⟨hm', hs'⟩, hle'⟩ := hbest h'
        have hrank : b.rank = a.rank := le_antisymm (hle b (hids.mp hm') hs') (hle' a (hids.mpr hm) hs)
        rw [hs'.eq_of_rank hs hrank]

/-! ### With `-t` -/

/-- The deltas that a request with `-t` is about: those of the release and level, or those of the greatest release that
has deltas and is not above the one asked for. -/
def topGroup (T : DeltaTable) (r : Sid) : List Sid :=
  T.currentSids.filter fun id =>
    if r.components = 2 then id.rel = r.rel ∧ id.level = r.level
    else id.rel ≤ r.rel ∧ ∀ id' ∈ T.currentSids, id'.rel ≤ r.rel → id'.rel ≤ id.rel

/-- The SIDs can be cut at `id` so that none before it is of a higher rank, and all after it are of a lower one. -/
def CutAt (ids : List Sid) (id : Sid) : Prop :=
  ∃ l₁ l₂, ids = l₁ ++ id :: l₂ ∧ (∀ x ∈ l₁, x.rank ≤ id.rank) ∧ ∀ x ∈ l₂, x.rank < id.rank

/-- None comes out better than the first: none is of a higher rank, and the last one of its rank has its SID. -/
def FirstIsBest (ids : List Sid) : Prop := ∃ id, ids.head? = some id ∧ CutAt ids id

/-- **The last of the greatest is where the list can be cut.** -/
theorem argmax_reverse_eq_some_iff {ids : List Sid} {id : Sid} :
    ids.reverse.argmax Sid.rank = some id ↔ CutAt ids id := by
  constructor
  · intro h
    induction ids generalizing id with
    | nil => cases h
    | cons a ids ih =>
      rw [List.reverse_cons, List.argmax_concat] at h
      rcases hc : ids.reverse.argmax Sid.rank with _ | c
      · rw [hc] at h
        obtain rfl : a = id := Option.some.inj h
        obtain rfl : ids = [] := by simpa using hc
        exact ⟨[], [], rfl, by simp, by simp⟩
      · rw [hc] at h
        simp only at h
        split_ifs at h with hlt
        · obtain rfl : a = id := Option.some.inj h
          refine ⟨[], ids, rfl, by simp, fun x hx => ?_⟩
          exact (List.le_of_mem_argmax (List.mem_reverse.mpr hx) hc).trans_lt hlt
        · obtain rfl : c = id := Option.some.inj h
          obtain ⟨l₁, l₂, rfl, h1, h2⟩ := ih hc
          refine ⟨a :: l₁, l₂, rfl, fun x hx => ?_, h2⟩
          rcases List.mem_cons.mp hx with rfl | hx
          · exact not_lt.mp hlt
          · exact h1 x hx
  · rintro ⟨l₁, l₂, rfl, h1, h2⟩
    induction l₁ with
    | nil =>
      rw [List.nil_append, List.reverse_cons, List.argmax_concat]
      rcases hc : l₂.reverse.argmax Sid.rank with _ | c
      · rfl
      · exact if_pos (h2 c (List.mem_reverse.mp (List.argmax_mem hc)))
    | cons a l₁ ih =>
      rw [List.cons_append, List.reverse_cons, List.argmax_concat, ih fun x hx => h1 x (List.mem_cons_of_mem a hx)]
      exact if_neg (not_lt.mpr (h1 a List.mem_cons_self))

/-- With `-t` the loop stops at the first SID that fits in every component. -/
theorem searchLoop_stops {r : Sid} {ids : List Sid} {found : Sid}
    (hfound : ids.find? (·.matches_ r (ncomponents r true)) = some found)
    (hmatch : ∀ id ∈ ids, id.matches_ r (ncomponents r true) = true → sidMatches r id true = true)
    (hbeats : ∀ id ∈ ids, id.matches_ r (ncomponents r true) = true → ∀ b ∈ ids, sidMatches r b true = true →
      b.matches_ r (ncomponents r true) = false → id.gte b = true) :
    searchLoop r true none ids = some found := by
  have hloop : ∀ (l : List Sid) (best : Option Sid), (∀ id ∈ l, id ∈ ids) →
      (∀ b, best = some b → b ∈ ids ∧ sidMatches r b true = true ∧ b.matches_ r (ncomponents r true) = false) →
      l.find? (·.matches_ r (ncomponents r true)) = some found → searchLoop r true best l = some found := by
    intro l
    induction l with
    | nil => intro best _ _ h; cases h
    | cons a l ih =>
      intro best hl hbest h
      have ha := hl a List.mem_cons_self
      rw [List.find?_cons] at h
      rw [searchLoop]
      by_cases hm : a.matches_ r (ncomponents r true) = true
      · obtain rfl : a = found := by simpa [hm] using h
        have hall : best.all (a.gte ·) = true := by
          rcases best with _ | b
          · rfl
          · obtain ⟨hb, hbm, hbn⟩ := hbest b rfl
            exact hbeats a ha hm b hb hbm hbn
        rw [if_pos ⟨hmatch a ha hm, hall⟩, if_pos ⟨rfl, hm⟩]
      · have hm' : a.matches_ r (ncomponents r true) = false := by simpa using hm
        rw [hm'] at h
        by_cases hs : sidMatches r a true = true ∧ best.all (a.gte ·) = true
        · rw [if_pos hs, if_neg fun hand => hm hand.2]
          refine ih (some a) (fun id hid => hl id (List.mem_cons_of_mem a hid)) (fun b hb => ?_) h
          obtain rfl := Option.some.inj hb
          exact ⟨ha, hs.1, hm'⟩
        · rw [if_neg hs]
          exact ih best (fun id hid => hl id (List.mem_cons_of_mem a hid)) hbest h
  exact hloop ids none (fun _ h => h) (fun _ h => by cases h) hfound

/-- What is left out does not matter. -/
theorem CutAt.filter {ids : List Sid} {id : Sid} (h : CutAt ids id) {p : Sid → Bool} (hp : p id = true) :
    CutAt (ids.filter p) id := by
  obtain ⟨l₁, l₂, rfl, h1, h2⟩ := h
  refine ⟨l₁.filter p, l₂.filter p, by rw [List.filter_append, List.filter_cons, if_pos hp], fun x hx => ?_, fun x hx => ?_⟩
  · exact h1 x (List.mem_filter.mp hx).1
  · exact h2 x (List.mem_filter.mp hx).1

/-- A list can be cut at one SID only. -/
theorem CutAt.unique {ids : List Sid} {id id' : Sid} (h : CutAt ids id) (h' : CutAt ids id') : id = id' :=
  Option.some.inj ((argmax_reverse_eq_some_iff.mpr h).symm.trans (argmax_reverse_eq_some_iff.mpr h'))

/-- The newest delta with the release and the level is found. -/
theorem topDelta_level {T : DeltaTable} {r found : Sid} (hr : r.components = 2)
    (h : searchLoop r true none T.currentSids = some found) : (topGroup T r).head? = some found := by
  have hn : ncomponents r true = 2 := by simp [ncomponents, hr]
  have hmatch : ∀ id, sidMatches r id true = id.matches_ r 2 := fun id => by simp [sidMatches, hn]
  have hgroup : topGroup T r = T.currentSids.filter (·.matches_ r 2) := by
    refine List.filter_congr fun id _ => ?_
    simp [hr, Sid.matches_]
  rw [hgroup, List.head?_filter]
  rcases hf : T.currentSids.find? (·.matches_ r 2) with _ | a
  · have hnone : ∀ id ∈ T.currentSids, id.matches_ r 2 = false := by simpa using List.find?_eq_none.mp hf
    rw [searchLoop_eq_argmax (by simpa [hn] using hnone)] at h
    have hempty : T.currentSids.filter (sidMatches r · true) = [] :=
      List.filter_eq_nil_iff.mpr fun id hid => by simp [hmatch, hnone id hid]
    rw [hempty] at h
    cases h
  · rw [hf, ← h]
    refine (searchLoop_stops (by rwa [hn]) (fun id _ hm => ?_) fun id _ _ b _ hb hb' => ?_).symm
    · rwa [hmatch, ← hn]
    · rw [hmatch, ← hn, hb'] at hb
      cases hb

/-- The newest delta of a release that has deltas is found. -/
theorem topDelta_release {T : DeltaTable} {r found : Sid} (hr : r.components = 1)
    (hex : ∃ id ∈ T.currentSids, id.rel = r.rel) (h : searchLoop r true none T.currentSids = some found) :
    (topGroup T r).head? = some found := by
  have hn : ncomponents r true = 1 := by simp [ncomponents, hr]
  have hmatch : ∀ id, sidMatches r id true = true ↔ id.rel ≤ r.rel := fun id => by simp [sidMatches, hn, Int16.not_lt]
  have hone : ∀ id : Sid, id.matches_ r 1 = true ↔ id.rel = r.rel := fun id => by simp [Sid.matches_]
  obtain ⟨e, he, hrel⟩ := hex
  have hgroup : topGroup T r = T.currentSids.filter (·.matches_ r 1) := by
    refine List.filter_congr fun id _ => ?_
    rw [Bool.eq_iff_iff, hone, hr, if_neg (by decide), decide_eq_true_eq]
    refine ⟨fun hid => Int16.le_antisymm hid.1 (hrel ▸ hid.2 e he (hrel ▸ Int16.le_refl _)), fun hid => ?_⟩
    exact hid ▸ ⟨Int16.le_refl _, fun _ _ hle => hle⟩
  rw [hgroup, List.head?_filter]
  rcases hf : T.currentSids.find? (·.matches_ r 1) with _ | a
  · exact absurd ((hone e).mpr hrel) (List.find?_eq_none.mp hf e he)
  · rw [hf, ← h]
    refine (searchLoop_stops (by rwa [hn]) (fun id _ hm => ?_) fun id _ hm b _ hb hb' => ?_).symm
    · rw [hn, hone] at hm
      exact (hmatch id).mpr (hm ▸ Int16.le_refl _)
    · rw [hn, hone] at hm
      rw [hn, ← Bool.not_eq_true, hone] at hb'
      rw [Sid.gte_iff, Sid.rank_le_iff, hm]
      exact .inl (Int16.lt_of_le_of_ne ((hmatch b).mp hb) hb')

/-- When the release has no deltas, the loop finds where the group can be cut. -/
theorem topDelta_cutAt {T : DeltaTable} {r found : Sid} (hr : r.components = 1)
    (hex : ¬ ∃ id ∈ T.currentSids, id.rel = r.rel) (h : searchLoop r true none T.currentSids = some found) :
    CutAt (topGroup T r) found := by
  have hn : ncomponents r true = 1 := by simp [ncomponents, hr]
  have hnone : ∀ id ∈ T.currentSids, id.matches_ r 1 = false := fun id hid => by
    simpa [Sid.matches_] using fun hrel => hex ⟨id, hid, hrel⟩
  rw [searchLoop_eq_argmax (by simpa [hn] using hnone)] at h
  have hmatch : ∀ id, sidMatches r id true = decide (id.rel ≤ r.rel) := fun id => by
    simp [sidMatches, hn, ← Int16.not_lt]
  have hgroup : topGroup T r = (T.currentSids.filter (sidMatches r · true)).filter
      (fun id => ∀ id' ∈ T.currentSids, id'.rel ≤ r.rel → id'.rel ≤ id.rel) := by
    rw [List.filter_filter]
    refine List.filter_congr fun id _ => ?_
    rw [hmatch, hr, if_neg (by decide), Bool.and_comm, Bool.decide_and]
  rw [hgroup]
  refine (argmax_reverse_eq_some_iff.mp h).filter (decide_eq_true fun id hid hle => ?_)
  have hrank : id.rank ≤ found.rank := List.le_of_mem_argmax (List.mem_reverse.mpr (List.mem_filter.mpr
    ⟨hid, (hmatch id).trans (decide_eq_true hle)⟩)) h
  exact (Sid.rank_le_iff.mp hrank).elim Int16.le_of_lt fun e => e.1 ▸ Int16.le_refl _

/-- **With `-t` the newest delta of the group is found exactly if** the request has two components, or the release has
deltas, or none of the group comes out better than the newest. -/
theorem topDelta_iff {T : DeltaTable} {defaultSid r found : Sid} (hr : r.components = 1 ∨ r.components = 2)
    (h : findRequestedSid T defaultSid r true = some found) :
    (topGroup T r).head? = some found ↔
      r.components = 2 ∨ (∃ id ∈ T.currentSids, id.rel = r.rel) ∨ FirstIsBest (topGroup T r) := by
  have hnull : ¬ r.isNull = true := by
    rw [Sid.isNull_iff, not_not]
    by_contra hv
    rw [Sid.components, if_neg hv] at hr
    simp at hr
  rw [findRequestedSid, if_neg hnull] at h
  rcases hr with hr | hr
  · by_cases hex : ∃ id ∈ T.currentSids, id.rel = r.rel
    · exact iff_of_true (topDelta_release hr hex h) (.inr (.inl hex))
    · have hcut := topDelta_cutAt hr hex h
      refine ⟨fun hhead => .inr (.inr ⟨found, hhead, hcut⟩), ?_⟩
      rintro (h2 | hex' | ⟨id, hhead, hcut'⟩)
      · omega
      · exact absurd hex' hex
      · rw [hhead, hcut'.unique hcut]
  · exact iff_of_true (topDelta_level hr h) (.inl hr)

/-! ### A release without deltas -/

/-- Release 1, whose newest delta is on a branch. -/
private def branched : DeltaTable :=
  [⟨.D, ⟨1, 1, 1, 1⟩, 3, 1, [], [], []⟩, ⟨.D, ⟨1, 2, 0, 0⟩, 2, 1, [], [], []⟩, ⟨.D, ⟨1, 1, 0, 0⟩, 1, 0, [], [], []⟩]

/-- Asked for release 1 itself, the newest delta is found. -/
theorem topDelta_of_release : (topGroup branched (.ofRelease 1)).head? = some ⟨1, 1, 1, 1⟩ :=
  (topDelta_iff (T := branched) (.inl (by decide)) (by decide : findRequestedSid branched .none (.ofRelease 1) true = _)).mpr
    (.inr (.inl ⟨⟨1, 2, 0, 0⟩, by decide, rfl⟩))

/-- Asked for release 2, 1.2 is found and not 1.1.1.1, the newest delta of release 1. -/
theorem topDelta_of_lower_release :
    ¬ ∀ (T : DeltaTable) (defaultSid r found : Sid), (T.currentSids.Nodup) → r.components = 1 ∨ r.components = 2 →
      findRequestedSid T defaultSid r true = some found → (topGroup T r).head? = some found := by
  intro h
  have hfound : findRequestedSid branched .none (.ofRelease 2) true = some ⟨1, 2, 0, 0⟩ := by decide
  exact absurd (h branched .none (.ofRelease 2) ⟨1, 2, 0, 0⟩ (by decide) (.inl (by decide)) hfound) (by decide)

end CSSC.Table
