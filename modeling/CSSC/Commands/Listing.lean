import CSSC.Commands.Prs
import CSSC.Table.DateFields

/-!
# Which deltas are listed

`prs` prints some of the deltas by a format: one of them, those from the top down to a delta, or those from a delta
on. A date may cut off the older or the newer ones. `prsListed` says which deltas these are, without the three loops
of `prs`, and the loops print just these (`prs_eq`).

**What is printed down to a delta and what is printed from it on make up the whole, with the delta in both**
(`prs_around`). With a date it is not so: with `-e`, a delta that is newer than the date hides all that come after it,
and something is found if and only if a delta with the SID is not newer than the date (`prs_earlier_matched_iff`).
-/

namespace CSSC.Commands

open CSSC.Lines CSSC.Body CSSC.Table CSSC.Header

/-! ### The loops -/

/-- `delta_selector`. -/
inductive DeltaSelector where
  /-- Deltas that are not removed. -/
  | current
  /-- All deltas. -/
  | all
  deriving DecidableEq

/-- The deltas that an iterator visits. -/
def visited (F : FullTable) : DeltaSelector → List FullDelta
  | .current => F.current
  | .all => F

/-- `operator <` of dates. -/
def dateLess (d e : SccsDate) : Except Quit Bool :=
  if d.valid && e.valid then .ok (d.compare e < 0) else .error .assertion

/-- `cutoff_date.valid() && iter->date() < cutoff_date`. -/
def olderThan (cutoff : SccsDate) (d : FullDelta) : Except Quit Bool :=
  if cutoff.valid then dateLess d.date cutoff else .ok false

/-- `cutoff_date.valid() && (cutoff_date < iter->date())`. -/
def newerThan (cutoff : SccsDate) (d : FullDelta) : Except Quit Bool :=
  if cutoff.valid then dateLess cutoff d.date else .ok false

/-- `when`. -/
inductive When where
  /-- `SIDONLY`. -/
  | sidOnly
  /-- `LATER`. -/
  | later
  /-- `EARLIER`. -/
  | earlier
  deriving DecidableEq

section

variable (print : FullDelta → Except Quit (List UInt8)) (rid : Sid) (cutoff : SccsDate)

/-- The loop for `SIDONLY`. -/
def prsSid : List FullDelta → Except Quit (List UInt8 × Bool)
  | [] => .ok ([], false)
  | d :: ds =>
    if !rid.valid || rid = d.id then do
      let t ← print d
      return (t ++ [10], true)
    else prsSid ds

/-- The loop for `LATER`, with `matched`. -/
def prsLater : Bool → List FullDelta → Except Quit (List UInt8 × Bool)
  | matched, [] => .ok ([], matched)
  | matched, d :: ds => do
    let older ← olderThan cutoff d
    if older then return ([], matched)
    else
      let t ← print d
      if rid.valid && rid = d.id then return (t ++ [10], true)
      else
        let (r, m) ← prsLater true ds
        return (t ++ 10 :: r, m)

/-- The loop for `EARLIER`, with `matched`. -/
def prsEarlier : Bool → List FullDelta → Except Quit (List UInt8 × Bool)
  | matched, [] => .ok ([], matched)
  | matched, d :: ds =>
    if !matched && (rid.valid && rid ≠ d.id) then prsEarlier matched ds
    else do
      let newer ← newerThan cutoff d
      if newer then prsEarlier matched ds
      else
        let t ← print d
        let (r, m) ← prsEarlier true ds
        return (t ++ 10 :: r, m)

end

/-- `prs`: what it prints, and `matched`. The number bounds the depth of the calls of `print_delta`. -/
def prs (f : PrsFile) (n : ℕ) (format : List UInt8) (rid : Sid) (cutoff : SccsDate) (type : When)
    (selector : DeltaSelector) : Except Quit (List UInt8 × Bool) :=
  let ds := visited f.deltaTable selector
  match type with
  | .sidOnly => if cutoff.valid then .error .assertion else prsSid (printDelta f · n format) rid ds
  | .later => prsLater (printDelta f · n format) rid cutoff false ds
  | .earlier => prsEarlier (printDelta f · n format) rid cutoff false ds

/-! ### The deltas that are listed -/

/-- A delta that is older than the date. -/
def older (cutoff : SccsDate) (d : FullDelta) : Bool := cutoff.valid && d.date.compare cutoff < 0

/-- A delta that is newer than the date. -/
def newer (cutoff : SccsDate) (d : FullDelta) : Bool := cutoff.valid && cutoff.compare d.date < 0

/-- The elements up to the first with a property, and that one. -/
def through {α : Type} (p : α → Bool) : List α → List α
  | [] => []
  | a :: as => if p a then [a] else a :: through p as

/-- The deltas that `prs` lists. -/
def prsListed (rid : Sid) (cutoff : SccsDate) (ds : List FullDelta) : When → List FullDelta
  | .sidOnly => (ds.find? fun d => !rid.valid || rid = d.id).toList
  | .later => through (fun d => rid.valid && rid = d.id) (ds.takeWhile fun d => !older cutoff d)
  | .earlier =>
    (ds.dropWhile fun d => rid.valid && (rid ≠ d.id || newer cutoff d)).filter fun d => !newer cutoff d

/-- What is printed for some deltas. -/
def entries (print : FullDelta → Except Quit (List UInt8)) (ds : List FullDelta) : Except Quit (List UInt8) :=
  (ds.mapM print).map printed

/-- What a loop returns that prints these deltas. -/
def listing (print : FullDelta → Except Quit (List UInt8)) (matched : Bool) (ds : List FullDelta) :
    Except Quit (List UInt8 × Bool) :=
  (entries print ds).map fun t => (t, matched || decide (ds ≠ []))

variable {print : FullDelta → Except Quit (List UInt8)} {rid : Sid} {cutoff : SccsDate} {ds ds' : List FullDelta}
  {f : PrsFile} {n : ℕ} {format out out' : List UInt8} {type : When} {selector : DeltaSelector} {m : Bool}

theorem entries_nil : entries print [] = .ok [] := rfl

theorem entries_cons (d : FullDelta) (ds : List FullDelta) : entries print (d :: ds) = (do
    let t ← print d
    let r ← entries print ds
    return t ++ 10 :: r) := by
  rw [entries, List.mapM_cons]
  cases print d with
  | error q => rfl
  | ok t =>
    simp only [ok_bind, entries]
    cases ds.mapM print with
    | error q => rfl
    | ok ts => simp [Except.map, bind, Except.bind, pure, Except.pure]

/-- The texts of two lists of deltas, one after the other. -/
theorem entries_append : entries print (ds ++ ds') = (do
    let r ← entries print ds
    let r' ← entries print ds'
    return r ++ r') := by
  induction ds with
  | nil => cases h : entries print ds' <;> simp [entries_nil, h, pure, Except.pure]
  | cons d ds ih =>
    rw [List.cons_append, entries_cons, entries_cons, ih]
    cases print d with
    | error q => rfl
    | ok t =>
      cases entries print ds with
      | error q => rfl
      | ok r =>
        cases entries print ds' with
        | error q => rfl
        | ok r' => simp [bind, Except.bind, pure, Except.pure]

/-- Deltas with valid dates. -/
def Dated (ds : List FullDelta) : Prop := ∀ d ∈ ds, d.date.valid = true

/-- The dates are valid, if they are compared with another. -/
def DatedFor (cutoff : SccsDate) (ds : List FullDelta) : Prop := cutoff.valid = true → Dated ds

theorem datedFor_cons {d : FullDelta} : DatedFor cutoff (d :: ds) ↔ DatedFor cutoff [d] ∧ DatedFor cutoff ds := by
  simp only [DatedFor, Dated, List.forall_mem_cons, List.not_mem_nil, false_implies, implies_true, and_true]
  exact imp_and

theorem olderThan_eq {d : FullDelta} (hd : DatedFor cutoff [d]) : olderThan cutoff d = .ok (older cutoff d) := by
  rw [olderThan, older, dateLess]
  cases hc : cutoff.valid with
  | false => rfl
  | true => simp [hd hc d List.mem_cons_self]

theorem newerThan_eq {d : FullDelta} (hd : DatedFor cutoff [d]) : newerThan cutoff d = .ok (newer cutoff d) := by
  rw [newerThan, newer, dateLess]
  cases hc : cutoff.valid with
  | false => rfl
  | true => simp [hd hc d List.mem_cons_self]

/-! ### What the loops print -/

/-- One more delta is printed. -/
theorem listing_cons (m : Bool) (d : FullDelta) (ds : List FullDelta) : listing print m (d :: ds) = (do
    let t ← print d
    let (r, m') ← listing print true ds
    return (t ++ 10 :: r, m')) := by
  rw [listing, entries_cons]
  cases print d with
  | error q => rfl
  | ok t =>
    rw [listing]
    cases entries print ds with
    | error q => rfl
    | ok r => cases m <;> rfl

theorem prsSid_eq (cutoff : SccsDate) :
    prsSid print rid ds = listing print false (prsListed rid cutoff ds .sidOnly) := by
  induction ds with
  | nil => rfl
  | cons d ds ih =>
    rw [prsSid, prsListed, List.find?_cons]
    cases hd : (!rid.valid || decide (rid = d.id)) with
    | true =>
      rw [if_pos rfl, Option.toList_some, listing_cons]
      cases print d <;> rfl
    | false => simpa [prsListed] using ih

theorem prsLater_eq (hds : DatedFor cutoff ds) (m : Bool) :
    prsLater print rid cutoff m ds = listing print m (prsListed rid cutoff ds .later) := by
  induction ds generalizing m with
  | nil => cases m <;> rfl
  | cons d ds ih =>
    obtain ⟨hd, hds⟩ := datedFor_cons.mp hds
    rw [prsLater, olderThan_eq hd, ok_bind, prsListed]
    cases ho : older cutoff d with
    | true =>
      rw [List.takeWhile_cons_of_neg (by simp [ho])]
      cases m <;> rfl
    | false =>
      rw [List.takeWhile_cons_of_pos (by simp [ho]), through]
      cases hr : (rid.valid && decide (rid = d.id)) with
      | true =>
        rw [if_pos rfl, listing_cons]
        cases print d <;> rfl
      | false =>
        rw [if_neg Bool.false_ne_true, if_neg Bool.false_ne_true, listing_cons, ih hds true, prsListed]
        rfl

/-- After a delta was printed, only the date matters. -/
theorem prsEarlier_matched (hds : DatedFor cutoff ds) :
    prsEarlier print rid cutoff true ds = listing print true (ds.filter fun d => !newer cutoff d) := by
  induction ds with
  | nil => rfl
  | cons d ds ih =>
    obtain ⟨hd, hds⟩ := datedFor_cons.mp hds
    rw [prsEarlier, if_neg (by simp), newerThan_eq hd, ok_bind]
    cases hn : newer cutoff d with
    | true => simpa [hn] using ih hds
    | false =>
      rw [List.filter_cons_of_pos (by simp [hn]), listing_cons, ih hds]
      rfl

theorem prsEarlier_eq (hds : DatedFor cutoff ds) :
    prsEarlier print rid cutoff false ds = listing print false (prsListed rid cutoff ds .earlier) := by
  induction ds with
  | nil => rfl
  | cons d ds ih =>
    obtain ⟨hd, hds⟩ := datedFor_cons.mp hds
    rw [prsEarlier, prsListed, newerThan_eq hd, ok_bind]
    cases hr : (rid.valid && decide (rid ≠ d.id)) with
    | true =>
      rw [if_pos (by rfl), ih hds, prsListed, List.dropWhile_cons_of_pos]
      rw [Bool.and_eq_true] at hr
      simp [hr.1, of_decide_eq_true hr.2]
    | false =>
      rw [if_neg (by simp)]
      cases hn : newer cutoff d with
      | true =>
        rw [if_pos rfl, ih hds, prsListed]
        -- the newer delta is dropped if a SID is asked for, and filtered out otherwise
        cases hv : rid.valid with
        | true => simp [hn]
        | false =>
          have hkeep : ∀ l : List FullDelta, l.dropWhile (fun _ => false) = l := fun l => by cases l <;> rfl
          simp [hn, hkeep]
      | false =>
        rw [if_neg Bool.false_ne_true, List.dropWhile_cons_of_neg (by simpa [hn] using hr),
          List.filter_cons_of_pos (by simp [hn]), listing_cons, prsEarlier_matched hds]

/-- **The loops print the deltas that are listed.** -/
theorem prs_eq (hds : DatedFor cutoff (visited f.deltaTable selector)) (hc : type = .sidOnly → cutoff.valid = false) :
    prs f n format rid cutoff type selector =
      listing (printDelta f · n format) false (prsListed rid cutoff (visited f.deltaTable selector) type) := by
  cases type with
  | sidOnly =>
    rw [prs, hc rfl]
    exact prsSid_eq cutoff
  | later => exact prsLater_eq hds false
  | earlier => exact prsEarlier_eq hds

/-! ### What is listed -/

/-- No date cuts anything off. -/
theorem newer_of_invalid (hc : cutoff.valid = false) (d : FullDelta) : newer cutoff d = false := by
  rw [newer, hc, Bool.false_and]

theorem older_of_invalid (hc : cutoff.valid = false) (d : FullDelta) : older cutoff d = false := by
  rw [older, hc, Bool.false_and]

theorem through_append {α : Type} {p : α → Bool} {as bs : List α} {a : α} (h : ∀ b ∈ as, p b = false)
    (ha : p a = true) : through p (as ++ a :: bs) = as ++ [a] := by
  induction as with
  | nil => rw [List.nil_append, through, if_pos ha, List.nil_append]
  | cons b as ih =>
    obtain ⟨hb, has⟩ := List.forall_mem_cons.mp h
    rw [List.cons_append, through, if_neg (by simp [hb]), ih has, List.cons_append]

theorem entries_append_eq_ok : entries print (ds ++ ds') = .ok out ↔
    ∃ r r', entries print ds = .ok r ∧ entries print ds' = .ok r' ∧ out = r ++ r' := by
  rw [entries_append, bind_eq_ok]
  constructor
  · rintro ⟨r, hr, h⟩
    obtain ⟨r', hr', h⟩ := bind_eq_ok.mp h
    exact ⟨r, r', hr, hr', (Except.ok.inj h).symm⟩
  · rintro ⟨r, r', hr, hr', rfl⟩
    exact ⟨r, hr, bind_eq_ok.mpr ⟨r', hr', rfl⟩⟩

theorem listing_eq_ok (h : entries print ds = .ok out) (hne : ds ≠ []) : listing print false ds = .ok (out, true) := by
  rw [listing, h]
  simp [Except.map, hne]

/-- The deltas that are listed around a delta with the SID, if there is no date. -/
theorem prsListed_around (hv : rid.valid = true) (hc : cutoff.valid = false) {a b : List FullDelta} {x : FullDelta}
    (hx : rid = x.id) (ha : ∀ d ∈ a, rid ≠ d.id) : prsListed rid cutoff (a ++ x :: b) .sidOnly = [x] ∧
      prsListed rid cutoff (a ++ x :: b) .later = a ++ [x] ∧
      prsListed rid cutoff (a ++ x :: b) .earlier = x :: b := by
  refine ⟨?_, ?_, ?_⟩
  · have hfind : (a ++ x :: b).find? (fun d => !rid.valid || rid = d.id) = some x := by
      rw [List.find?_eq_some_iff_append]
      refine ⟨by simp [hx], a, b, rfl, fun d hd => ?_⟩
      simp [hv, ha d hd]
    rw [prsListed, hfind, Option.toList_some]
  · have hall : (a ++ x :: b).takeWhile (fun d => !older cutoff d) = a ++ x :: b := by
      rw [List.takeWhile_eq_self_iff]
      simp [older_of_invalid hc]
    rw [prsListed, hall]
    refine through_append (fun d hd => ?_) (by simp [hv, ← hx])
    simp [ha d hd]
  · rw [prsListed, List.dropWhile_append_of_pos, List.dropWhile_cons_of_neg]
    · simp [newer_of_invalid hc]
    · simp [newer_of_invalid hc, hx]
    · intro d hd
      simp [hv, ha d hd]

/-- Without a SID and a date all deltas are listed. -/
theorem prsListed_all (hv : rid.valid = false) (hc : cutoff.valid = false) : prsListed rid cutoff ds .earlier = ds := by
  have hkeep : ∀ l : List FullDelta, l.dropWhile (fun _ => false) = l := fun l => by cases l <;> rfl
  simp [prsListed, hv, hkeep, newer_of_invalid hc]

/-- **What is printed down to a delta and from it on.** With a SID that some delta has, and no date, `-l` prints the
deltas down to it and `-e` those from it on. Together they make up what is printed without a SID, with the delta in
both. -/
theorem prs_around {noSid : Sid} (hno : noSid.valid = false) (hv : rid.valid = true) (hc : cutoff.valid = false)
    (hid : ∃ d ∈ visited f.deltaTable selector, d.id = rid)
    (hall : prs f n format noSid cutoff .earlier selector = .ok (out, m)) : ∃ a t b, out = a ++ t ++ b ∧
      prs f n format rid cutoff .later selector = .ok (a ++ t, true) ∧
      prs f n format rid cutoff .earlier selector = .ok (t ++ b, true) ∧
      prs f n format rid cutoff .sidOnly selector = .ok (t, true) := by
  have hds : DatedFor cutoff (visited f.deltaTable selector) := fun h => absurd h (by simp [hc])
  obtain ⟨x, hfind⟩ : ∃ x, (visited f.deltaTable selector).find? (fun d => rid = d.id) = some x := by
    obtain ⟨d, hd, hd'⟩ := hid
    exact Option.isSome_iff_exists.mp (List.find?_isSome.mpr ⟨d, hd, by simp [hd']⟩)
  obtain ⟨hx, A, B, hAB, hA⟩ := List.find?_eq_some_iff_append.mp hfind
  rw [decide_eq_true_eq] at hx
  obtain ⟨hs, hl, he⟩ := prsListed_around (b := B) hv hc hx fun d hd => by simpa using hA d hd
  rw [prs_eq hds fun h => When.noConfusion h, prsListed_all hno hc, hAB, listing] at hall
  obtain ⟨u, hu, hout⟩ := map_eq_ok.mp hall
  obtain rfl := (Prod.ext_iff.mp hout).1
  -- the text of the delta, between the texts before and after it
  rw [← List.singleton_append, entries_append_eq_ok] at hu
  obtain ⟨a, r, ha, hr, rfl⟩ := hu
  obtain ⟨t, b, ht, hb, rfl⟩ := entries_append_eq_ok.mp hr
  have htb : entries (printDelta f · n format) (x :: B) = .ok (t ++ b) :=
    (@entries_append_eq_ok _ [x] B _).mpr ⟨t, b, ht, hb, rfl⟩
  refine ⟨a, t, b, (List.append_assoc a t b).symm, ?_, ?_, ?_⟩
  · rw [prs_eq hds fun _ => hc, hAB, hl]
    exact listing_eq_ok (entries_append_eq_ok.mpr ⟨a, t, ha, ht, rfl⟩) (by simp)
  · rw [prs_eq hds fun _ => hc, hAB, he]
    exact listing_eq_ok htb (by simp)
  · rw [prs_eq hds fun _ => hc, hAB, hs]
    exact listing_eq_ok ht (by simp)

/-- Something is left after the elements in front were dropped, if the first one that is not dropped is kept. -/
theorem filter_dropWhile_ne_nil_iff {α : Type} {p q : α → Bool} (h : ∀ a, p a = false → q a = true) {l : List α} :
    (l.dropWhile p).filter q ≠ [] ↔ ∃ a ∈ l, p a = false := by
  induction l with
  | nil => simp
  | cons a l ih =>
    cases hp : p a with
    | true => simp [hp, ih]
    | false => simp [hp, h a hp]

/-- **With `-e`, a SID and a date something is found if and only if a delta with the SID is not newer than the
date.** -/
theorem prs_earlier_matched_iff (hds : Dated (visited f.deltaTable selector)) (hv : rid.valid = true)
    (hc : cutoff.valid = true) (h : prs f n format rid cutoff .earlier selector = .ok (out, m)) :
    m = true ↔ ∃ d ∈ visited f.deltaTable selector, d.id = rid ∧ d.date.compare cutoff ≤ 0 := by
  have hnew : ∀ d : FullDelta, newer cutoff d = false ↔ d.date.compare cutoff ≤ 0 := by
    intro d
    rw [newer, hc, Bool.true_and, decide_eq_false_iff_not, SccsDate.compare_swap]
    omega
  rw [prs_eq (fun _ => hds) fun h => When.noConfusion h, listing] at h
  obtain ⟨u, -, hout⟩ := map_eq_ok.mp h
  obtain rfl := (Prod.ext_iff.mp hout).2
  rw [Bool.false_or, decide_eq_true_eq, prsListed, filter_dropWhile_ne_nil_iff]
  · simp only [hv, Bool.true_and, Bool.or_eq_false_iff, decide_eq_false_iff_not, not_not, hnew, @eq_comm _ rid]
  · intro d hd
    simp only [hv, Bool.true_and, Bool.or_eq_false_iff] at hd
    simp [hd.2]

/-! ### Three deltas -/

/-- A file with three deltas of the trunk, made on three days. -/
def threeDeltas : PrsFile where
  flags := .initial
  sfile := ⟨[115, 46, 97], by decide⟩
  canon := .error ""
  deltaTable := [trunkDelta 3 2 [] [], trunkDelta 2 1 [] [], trunkDelta 1 0 [] []]
  users := []
  comments := []
  body := []
  linebuf := .initial

theorem threeDeltas_dated : Dated (visited threeDeltas.deltaTable .current) := by
  unfold Dated
  decide

/-- The SIDs down to 1.2 and from it on. -/
theorem prs_around_sample : ∃ a t b, [49, 46, 51, 10, 49, 46, 50, 10, 49, 46, 49, 10] = a ++ t ++ b ∧
    prs threeDeltas 2 (ascii ":I:") ⟨1, 2, 0, 0⟩ .none .later .current = .ok (a ++ t, true) ∧
    prs threeDeltas 2 (ascii ":I:") ⟨1, 2, 0, 0⟩ .none .earlier .current = .ok (t ++ b, true) ∧
    prs threeDeltas 2 (ascii ":I:") ⟨1, 2, 0, 0⟩ .none .sidOnly .current = .ok (t, true) :=
  prs_around (m := true) (show Sid.valid ⟨0, 0, 0, 0⟩ = false by decide) (by decide) (by decide) (by decide)
    (by decide +kernel)

/-- Delta 1.2 is newer than the day before it was made. -/
theorem prs_earlier_matched_iff_sample : (false = true ↔ ∃ d ∈ visited threeDeltas.deltaTable .current,
    d.id = ⟨1, 2, 0, 0⟩ ∧ d.date.compare (january 1) ≤ 0) :=
  prs_earlier_matched_iff threeDeltas_dated (by decide) (by decide)
    (show prs threeDeltas 2 (ascii ":I:") ⟨1, 2, 0, 0⟩ (january 1) .earlier .current = .ok ([], false) by decide)

end CSSC.Commands
