import CSSC.Body.RoundTrip
import CSSC.Commands.Listing

/-!
# `prt`

`prt` prints the delta table, the users, the flags, the description and the body of a history file. Dates and a SID
may cut off a part of the delta table (`excludesDelta`); which deltas are left is said by `prtListed`, without the
loop.

**With `-y` and a SID its delta is printed if and only if all that come before it are newer** (`prt_y_iff`), since the
first delta that is not newer ends the loop. With `-y` alone just one delta is printed, the first of the newest
(`prt_y_newest`).

In the body `^A` is printed as `*** `, and a line that does not begin with it is indented. **The body can be told from
what is printed**, if `^A` stands only where lines begin (`printBody_inj`).
-/

namespace CSSC.Commands

open CSSC.Lines CSSC.Body CSSC.Table CSSC.Header CSSC.Library.Decimal

/-! ### The cutoff -/

/-- `cutoff`. -/
structure Cutoff where
  enabled : Bool
  mostRecentSidOnly : Bool
  cutoffSid : Sid
  cutoffDelta : Option FullDelta
  firstAccepted : SccsDate
  lastAccepted : SccsDate

/-- `operator <=` of dates. -/
def dateAtMost (d e : SccsDate) : Except Quit Bool :=
  if d.valid && e.valid then .ok (d.compare e ≤ 0) else .error .assertion

namespace Cutoff

/-- `date < first_accepted`. -/
def tooEarly (c : Cutoff) (date : SccsDate) : Except Quit Bool :=
  if c.firstAccepted.valid then dateLess date c.firstAccepted else .ok false

/-- `date > last_accepted`. -/
def tooLate (c : Cutoff) (date : SccsDate) : Except Quit Bool :=
  if c.lastAccepted.valid then date.greater c.lastAccepted else .ok false

/-- `excludes_delta`, and `stop_now`. -/
def excludesDelta (c : Cutoff) (date : SccsDate) : Except Quit (Bool × Bool) :=
  if !c.enabled then .ok (false, false)
  else do
    let early ← c.tooEarly date
    if early then return (true, false)
    else
      let late ← c.tooLate date
      if late then return (true, false)
      else
        match c.cutoffDelta with
        | none => return (false, false)
        | some d =>
          let stopNow ← dateAtMost date d.date
          let before ← dateLess date d.date
          return (before, stopNow)

end Cutoff

/-- The loop of `find_most_recent_sid`, with what was found. -/
def mostRecentLoop : Option FullDelta → List FullDelta → Except Quit (Option FullDelta)
  | found, [] => .ok found
  | none, d :: ds => mostRecentLoop (some d) ds
  | some e, d :: ds => do
    let later ← d.date.greater e.date
    mostRecentLoop (some (if later then d else e)) ds

/-- `find_most_recent_sid`: the delta with the SID and the date. -/
def findMostRecentSid (F : FullTable) : Except Quit (Option FullDelta) := mostRecentLoop none F.current

/-- The most recent SID and its date. The null SID and the invalid date stand for nothing found. -/
def Cutoff.mostRecent (c : Cutoff) (F : FullTable) : Except Quit Cutoff :=
  if !c.mostRecentSidOnly then .ok c
  else do
    let found ← findMostRecentSid F
    return { c with
      cutoffSid := (found.map (·.id)).getD ⟨0, 0, 0, 0⟩
      firstAccepted := (found.map (·.date)).getD .none }

/-- What `prt` makes of the cutoff before the loop. -/
def Cutoff.resolve (c : Cutoff) (F : FullTable) : Except Quit Cutoff :=
  if !c.enabled then .ok c
  else do
    let c ← c.mostRecent F
    if c.cutoffSid.valid then return { c with cutoffDelta := F.current.find? (·.id = c.cutoffSid) }
    else return c

/-! ### The delta table -/

/-- `print_string_list`. -/
def printStrings (l : Texts) (pre post dflt : List UInt8) : List UInt8 :=
  if l = [] then pre ++ dflt else post.intercalate (l.map fun s => pre ++ cstr s)

/-- `print_seq_list`. -/
def printSeqNos (list : List ℕ) : List UInt8 := [32].intercalate (list.map decimal)

/-- The options of `prt`. -/
structure PrtArgs where
  /-- `exclude`. -/
  exclude : Cutoff
  /-- `-a`. -/
  selector : DeltaSelector
  /-- `-b`. -/
  printBody : Bool
  /-- `-d`. -/
  printDeltaTable : Bool
  /-- `-f`. -/
  printFlags : Bool
  /-- `-i`. -/
  inclExclIgnore : Bool
  /-- `-s`. -/
  firstLineOnly : Bool
  /-- `-t`. -/
  printDesc : Bool
  /-- `-u`. -/
  printUsers : Bool

/-- A list of deltas that was there in the file. -/
def seqLine (nlSep title : List UInt8) (there : Bool) (list : List ℕ) : List UInt8 :=
  if list ≠ [] || there then nlSep ++ title ++ printSeqNos list else []

/-- What comes after the first line. -/
def entryTail (args : PrtArgs) (nlSep : List UInt8) (d : FullDelta) : List UInt8 :=
  (if args.inclExclIgnore then
    seqLine nlSep (ascii "Included:\t") d.haveIncludes d.included ++
      seqLine nlSep (ascii "Excluded:\t") d.haveExcludes d.excluded
  else []) ++
  (if d.mrs ≠ [] then nlSep ++ printStrings d.mrs (ascii "MRs:\t") nlSep [] else []) ++
  (if d.comments ≠ [] then nlSep ++ printStrings d.comments [] nlSep [] else [])

/-- What is printed for a delta. -/
def prtEntry (args : PrtArgs) (name : List UInt8) (d : FullDelta) : Except Quit (List UInt8) :=
  if d.removed && args.selector ≠ .all then .error .assertion
  else do
    let id ← d.id.print
    let date ← d.date.printf 68 -- 'D'
    let time ← d.date.printf 84 -- 'T'
    return (if args.exclude.enabled then name ++ [58, 9] else [10]) ++
      typeLetter d.type :: 32 :: id ++ 9 :: date ++ 32 :: time ++ 32 :: cstr d.user ++
      9 :: decimal d.seq ++ 32 :: decimal d.prevSeq ++
      9 :: padded 5 d.inserted ++ 47 :: padded 5 d.deleted ++ 47 :: padded 5 d.unchanged ++
      (if args.firstLineOnly then [] else entryTail args (if args.exclude.enabled then [32] else [10]) d) ++ [10]

/-- The loop over the delta table. -/
def prtLoop (print : FullDelta → Except Quit (List UInt8)) (exclude : Cutoff) :
    List FullDelta → Except Quit (List UInt8)
  | [] => .ok []
  | d :: ds => do
    let (excluded, stopNow) ← exclude.excludesDelta d.date
    if excluded then
      if stopNow then return [] else prtLoop print exclude ds
    else
      let t ← print d
      if stopNow then return t
      else
        let r ← prtLoop print exclude ds
        return t ++ r

/-! ### The rest of the file -/

/-- A flag with its value. -/
def flagValue (title : String) (value : Option (List UInt8)) : Option (List UInt8) :=
  value.map fun v => ascii title ++ v ++ [10]

/-- A flag that is on or off. -/
def flagOn (title : String) (on : Bool) : Option (List UInt8) := if on then some (ascii title) else none

/-- The flags that are printed. There is no newline after `encoded`. -/
def prtFlagTexts (f : Flags) : List (Option (List UInt8)) :=
  [flagOn "\tbranch\t\n" f.branch,
    flagValue "\tceiling\t" (releaseText f.ceiling),
    flagValue "\tdefault SID\t" (sidText f.defaultSid),
    flagOn "\tencoded" f.encoded,
    flagValue "\tfloor\t" (releaseText f.floor),
    flagOn "\tid_keywd err/warn\t\n" f.noIdKeywordsIsFatal,
    flagOn "\tjoint edit\t\n" f.jointEdit,
    flagValue "\tlocked releases\t" (if f.allLocked then some [97] else releasesText f.locked),
    flagValue "\tmodule\t" (f.module_.map cstr),
    flagOn "\tnull delta\t\n" f.nullDeltas,
    flagValue "\tcsect name\t" (f.userDef.map cstr),
    flagValue "\ttype\t" (f.type.map cstr),
    flagValue "\tvalidate MRs\t" (f.mrChecker.map cstr),
    flagValue "\t\t" (if f.letters = [] then none else some ([32].intercalate (f.letters.map fun c => [c])))]

/-- The part of the flags. -/
def prtFlags (f : Flags) : List UInt8 :=
  let flags := (prtFlagTexts f).reduceOption
  ascii "\nFlags --\n" ++ if flags.length = 0 then ascii "\tnone\n" else flags.flatten

/-- The loop of `print_body`. -/
def printBodyLoop : List UInt8 → List UInt8
  | [] => []
  | ch :: s =>
    if ch = 1 then ascii "*** " ++ printBodyLoop s
    else if ch = 10 then
      match s with
      | [] => [10]
      | peek :: _ => if peek = 1 then 10 :: printBodyLoop s else 10 :: 9 :: printBodyLoop s
    else ch :: printBodyLoop s

/-- `print_body`, for the file from the body on. -/
def printBody (body : List UInt8) : List UInt8 := 10 :: printBodyLoop body

/-- `prt`, for a file with this name. -/
def prt (args : PrtArgs) (name : List UInt8) (f : PrsFile) : Except Quit (List UInt8) := do
  let table ← if args.printDeltaTable then do
      let exclude ← args.exclude.resolve f.deltaTable
      prtLoop (prtEntry args name) exclude (visited f.deltaTable args.selector)
    else .ok []
  return table ++
    (if args.printUsers then
      ascii "\n Users allowed to make deltas -- \n" ++ printStrings f.users [9] [10] (ascii "everyone") ++ [10]
    else []) ++
    (if args.printFlags then prtFlags f.flags else []) ++
    (if args.printDesc then
      ascii "\nDescription --\n" ++ printStrings f.comments [9] [10] (ascii "none") ++ [10]
    else []) ++
    (if args.printBody then printBody f.body else [])

/-! ### Which deltas are printed -/

/-- What `excludes_delta` says about a date, and `stop_now`, if all dates are valid. -/
def Cutoff.verdict (c : Cutoff) (date : SccsDate) : Bool × Bool :=
  if !c.enabled then (false, false)
  else if c.firstAccepted.valid && date.compare c.firstAccepted < 0 then (true, false)
  else if c.lastAccepted.valid && 0 < date.compare c.lastAccepted then (true, false)
  else
    match c.cutoffDelta with
    | none => (false, false)
    | some d => (date.compare d.date < 0, date.compare d.date ≤ 0)

/-- The deltas that are printed. -/
def prtListed (c : Cutoff) : List FullDelta → List FullDelta
  | [] => []
  | d :: ds =>
    (if (c.verdict d.date).1 then [] else [d]) ++ if (c.verdict d.date).2 then [] else prtListed c ds

variable {c : Cutoff} {print : FullDelta → Except Quit (List UInt8)} {ds : List FullDelta} {F : FullTable}
  {d e : FullDelta} {selector : DeltaSelector} {date : SccsDate}

theorem dateLess_ok {d e : SccsDate} (hd : d.valid = true) (he : e.valid = true) :
    dateLess d e = .ok (decide (d.compare e < 0)) := by
  rw [dateLess, hd, he, if_pos (by rfl)]

theorem dateAtMost_ok {d e : SccsDate} (hd : d.valid = true) (he : e.valid = true) :
    dateAtMost d e = .ok (decide (d.compare e ≤ 0)) := by
  rw [dateAtMost, hd, he, if_pos (by rfl)]

theorem excludesDelta_eq (hc : ∀ e, c.cutoffDelta = some e → e.date.valid = true) (hd : date.valid = true) :
    c.excludesDelta date = .ok (c.verdict date) := by
  rw [Cutoff.excludesDelta, Cutoff.verdict]
  cases c.enabled with
  | false => rfl
  | true =>
    have hearly : c.tooEarly date = .ok (c.firstAccepted.valid && decide (date.compare c.firstAccepted < 0)) := by
      rw [Cutoff.tooEarly, dateLess, hd]
      cases c.firstAccepted.valid <;> simp
    have hlate : c.tooLate date = .ok (c.lastAccepted.valid && decide (0 < date.compare c.lastAccepted)) := by
      rw [Cutoff.tooLate, SccsDate.greater, hd]
      cases c.lastAccepted.valid <;> simp
    rw [hearly, ok_bind, hlate, ok_bind]
    cases hcut : c.cutoffDelta with
    | none => split_ifs <;> rfl
    | some e =>
      simp only [dateAtMost_ok hd (hc e hcut), dateLess_ok hd (hc e hcut)]
      split_ifs <;> rfl

/-- **The loop prints the deltas that are listed.** -/
theorem prtLoop_eq (hc : ∀ e, c.cutoffDelta = some e → e.date.valid = true) (hds : Dated ds) :
    prtLoop print c ds = ((prtListed c ds).mapM print).map List.flatten := by
  induction ds with
  | nil => rfl
  | cons d ds ih =>
    obtain ⟨hd, hds⟩ := List.forall_mem_cons.mp hds
    rw [prtLoop, excludesDelta_eq hc hd, ok_bind, prtListed, ih hds]
    obtain ⟨excluded, stopNow⟩ := c.verdict d.date
    cases excluded with
    | true =>
      cases stopNow with
      | true => rfl
      | false => rfl
    | false =>
      cases stopNow with
      | true =>
        cases h : print d with
        | error q => simp [h, Except.map]
        | ok t => simp [h, Except.map]
      | false =>
        cases h : print d with
        | error q => simp [h, Except.map]
        | ok t =>
          cases h' : (prtListed c ds).mapM print with
          | error q => simp [h, h', Except.map, Functor.map]
          | ok r => simp [h, h', Except.map, Functor.map]

/-- A date that is not before another is at it or after it. -/
theorem compare_le_iff {d e : SccsDate} (hd : d.valid = true) (he : e.valid = true) :
    d.compare e ≤ 0 ↔ d.components ≤ e.components := by
  rw [← not_lt, ← not_lt, ← SccsDate.compare_lt_iff he hd, SccsDate.compare_swap e d]
  omega

/-! ### A SID -/

/-- `-y` with a SID, and nothing else. -/
def yCutoff (rid : Sid) : Cutoff := ⟨true, false, rid, none, .none, .none⟩

/-- With nothing but a SID, the first delta that is not newer than its delta ends the loop. -/
theorem prtListed_y {rid : Sid} : prtListed { yCutoff rid with cutoffDelta := some e } ds =
    ds.takeWhile (fun d => 0 < d.date.compare e.date) ++
      ((ds.dropWhile fun d => 0 < d.date.compare e.date).take 1).filter fun d => d.date.compare e.date = 0 := by
  have hnone : SccsDate.none.valid = false := by decide
  induction ds with
  | nil => rfl
  | cons d ds ih =>
    have hv : ({ yCutoff rid with cutoffDelta := some e } : Cutoff).verdict d.date =
        (decide (d.date.compare e.date < 0), decide (d.date.compare e.date ≤ 0)) := by
      simp [Cutoff.verdict, yCutoff, hnone]
    rw [prtListed, hv, ih]
    rcases lt_trichotomy (d.date.compare e.date) 0 with h | h | h
    · simp [h, h.le, h.not_gt, h.ne]
    · simp [h]
    · simp [h, h.not_gt, h.not_ge]

theorem compare_self (d : SccsDate) : d.compare d = 0 := by
  have := SccsDate.compare_swap d d
  omega

/-- A delta is in such a list if and only if all that come before it are newer. -/
theorem mem_prtListed_y {rid : Sid} {a b : List FullDelta} (ha : e ∉ a) :
    e ∈ prtListed { yCutoff rid with cutoffDelta := some e } (a ++ e :: b) ↔
      ∀ d ∈ a, 0 < d.date.compare e.date := by
  rw [prtListed_y, List.mem_append]
  constructor
  · rintro (he | he)
    · have := List.mem_takeWhile_imp he
      rw [compare_self] at this
      simp at this
    · have htake := List.mem_of_mem_filter he
      rw [List.dropWhile_append] at htake
      cases hdrop : a.dropWhile (fun d => 0 < d.date.compare e.date) with
      | nil =>
        rw [List.dropWhile_eq_nil_iff] at hdrop
        exact fun d hd => of_decide_eq_true (hdrop d hd)
      | cons d r =>
        -- the loop ends at a delta before this one
        simp only [hdrop, List.isEmpty_cons, Bool.false_eq_true, if_false, List.cons_append, List.take_succ_cons,
          List.take_zero, List.mem_singleton] at htake
        have hd : d ∈ a := (List.dropWhile_suffix _).subset (hdrop ▸ List.mem_cons_self)
        exact absurd (htake ▸ hd) ha
  · intro hall
    right
    rw [List.dropWhile_append_of_pos fun d hd => decide_eq_true (hall d hd),
      List.dropWhile_cons_of_neg (by simp [compare_self])]
    simp [compare_self]

theorem resolve_y {rid : Sid} (hv : rid.valid = true) (F : FullTable) : (yCutoff rid).resolve F =
    .ok { yCutoff rid with cutoffDelta := F.current.find? (·.id = rid) } := by
  simp [Cutoff.resolve, Cutoff.mostRecent, yCutoff, hv, pure, Except.pure]

theorem dated_current (hF : Dated F) : Dated F.current := fun d hd => hF d (FullTable.mem_of_mem_current hd)

theorem dated_visited (hF : Dated F) : Dated (visited F selector) := by
  cases selector with
  | current => exact dated_current hF
  | all => exact hF

/-- **With `-y` and a SID its delta is printed if and only if all that come before it are newer.** -/
theorem prt_y_iff {rid : Sid} (hv : rid.valid = true) (hF : Dated F) (hfind : F.current.find? (·.id = rid) = some e)
    {a b : List FullDelta} (hvis : visited F selector = a ++ e :: b) (ha : e ∉ a) :
    ∃ c, ∃ L : List FullDelta, (yCutoff rid).resolve F = .ok c ∧
      (∀ print, prtLoop print c (visited F selector) = (L.mapM print).map List.flatten) ∧
      (e ∈ L ↔ ∀ d ∈ a, 0 < d.date.compare e.date) := by
  refine ⟨_, _, resolve_y hv F, fun print => prtLoop_eq (fun e' he' => ?_) (dated_visited hF), ?_⟩
  · exact dated_current hF e' (List.mem_of_find?_eq_some he')
  · rw [hfind, hvis]
    exact mem_prtListed_y ha

/-- Two deltas made at one time, with the newer first. -/
def sameTime : FullTable := [{ trunkDelta 2 1 [] [] with date := january 1 }, trunkDelta 1 0 [] []]

theorem sameTime_dated : Dated sameTime := by
  unfold Dated
  decide

/-- Delta 1.1 is not printed. -/
theorem prt_y_iff_sample : ∃ c, ∃ L : List FullDelta, (yCutoff ⟨1, 1, 0, 0⟩).resolve sameTime = .ok c ∧
    (∀ print, prtLoop print c (visited sameTime .all) = (L.mapM print).map List.flatten) ∧
    (trunkDelta 1 0 [] [] ∈ L ↔
      ∀ d ∈ [{ trunkDelta 2 1 [] [] with date := january 1 }], 0 < d.date.compare (january 1)) :=
  prt_y_iff (b := []) (by decide) sameTime_dated (by decide) rfl (by decide)

/-! ### The newest delta -/

/-- `-y` with an empty argument, and nothing else. -/
def newestCutoff : Cutoff := ⟨true, true, ⟨0, 0, 0, 0⟩, none, .none, .none⟩

/-- The first of the newest deltas. -/
def Newest (ds : List FullDelta) (e : FullDelta) : Prop :=
  ∃ a b, ds = a ++ e :: b ∧ (∀ d ∈ a, d.date.compare e.date < 0) ∧ ∀ d ∈ b, d.date.compare e.date ≤ 0

/-- One more delta is looked at. -/
theorem Newest.concat (h : Newest ds e) (hds : Dated ds) (hd : d.date.valid = true) :
    Newest (ds ++ [d]) (if 0 < d.date.compare e.date then d else e) := by
  obtain ⟨a, b, rfl, ha, hb⟩ := h
  have he : e.date.valid = true := hds e (by simp)
  split_ifs with hlt
  · refine ⟨a ++ e :: b, [], rfl, fun x hx => ?_, by simp⟩
    have hle : x.date.compare e.date ≤ 0 := by
      rcases List.mem_append.mp hx with hx | hx
      · exact (ha x hx).le
      · rcases List.mem_cons.mp hx with rfl | hx
        · rw [compare_self]
        · exact hb x hx
    have hed : e.date.compare d.date < 0 := by
      rw [SccsDate.compare_swap d.date]
      omega
    have hx' := hds x hx
    exact (SccsDate.compare_lt_iff hx' hd).mpr
      (((compare_le_iff hx' he).mp hle).trans_lt ((SccsDate.compare_lt_iff he hd).mp hed))
  · refine ⟨a, b ++ [d], by simp, ha, fun x hx => ?_⟩
    rcases List.mem_append.mp hx with hx | hx
    · exact hb x hx
    · obtain rfl := List.mem_singleton.mp hx
      omega

theorem mostRecentLoop_eq {seen : List FullDelta} (h : Newest seen e) (hseen : Dated seen) (hds : Dated ds) :
    ∃ e', mostRecentLoop (some e) ds = .ok (some e') ∧ Newest (seen ++ ds) e' := by
  induction ds generalizing seen e with
  | nil => exact ⟨e, rfl, by rwa [List.append_nil]⟩
  | cons d ds ih =>
    obtain ⟨hd, hds⟩ := List.forall_mem_cons.mp hds
    have he : e.date.valid = true := by
      obtain ⟨a, b, rfl, -⟩ := h
      exact hseen e (by simp)
    have hseen' : Dated (seen ++ [d]) := List.forall_mem_append.mpr ⟨hseen, by simpa using hd⟩
    obtain ⟨e', he', hn⟩ := ih (h.concat hseen hd) hseen' hds
    refine ⟨e', ?_, by simpa using hn⟩
    rw [mostRecentLoop, SccsDate.greater_ok hd he, ok_bind]
    simpa using he'

theorem findMostRecentSid_eq (hF : Dated F) (hne : F.current ≠ []) :
    ∃ e, findMostRecentSid F = .ok (some e) ∧ Newest F.current e := by
  rw [findMostRecentSid]
  have hcur := dated_current hF
  cases hds : F.current with
  | nil => exact absurd hds hne
  | cons d ds =>
    rw [hds] at hcur
    obtain ⟨hd, hds'⟩ := List.forall_mem_cons.mp hcur
    have hfirst : Newest [d] d := ⟨[], [], rfl, by simp, by simp⟩
    exact mostRecentLoop_eq hfirst (by simpa [Dated] using hd) hds'

/-- Older deltas are passed, and the first of the newest ends the loop. -/
theorem prtListed_newest (hdate : e.date.valid = true) {a b : List FullDelta}
    (ha : ∀ d ∈ a, d.date.compare e.date < 0) :
    prtListed ⟨true, true, e.id, some e, e.date, .none⟩ (a ++ e :: b) = [e] := by
  have hnone : SccsDate.none.valid = false := by decide
  induction a with
  | nil => simp [prtListed, Cutoff.verdict, hnone, compare_self]
  | cons d a ih =>
    obtain ⟨hd, ha⟩ := List.forall_mem_cons.mp ha
    rw [List.cons_append, prtListed, ih ha]
    simp [Cutoff.verdict, hdate, hd]

/-- **With `-y` alone just one delta is printed: the first of the newest.** -/
theorem prt_y_newest (hF : Dated F) (hid : ∀ d ∈ F, d.id.valid = true) (hn : (F.current.map (·.id)).Nodup)
    (hne : F.current ≠ []) : ∃ c e, newestCutoff.resolve F = .ok c ∧ Newest F.current e ∧
      ∀ print, prtLoop print c F.current = print e := by
  obtain ⟨e, he, hnew⟩ := findMostRecentSid_eq hF hne
  obtain ⟨a, b, hab, ha, hb⟩ := hnew
  have hmem : e ∈ F.current := by simp [hab]
  have hdate := dated_current hF e hmem
  have hfind : F.current.find? (·.id = e.id) = some e := by
    rw [List.find?_eq_some_iff_append]
    refine ⟨by simp, a, b, hab, fun d hd => ?_⟩
    rw [hab, List.map_append, List.nodup_append] at hn
    have := hn.2.2 d.id (List.mem_map_of_mem hd) e.id (by simp)
    simpa using this
  refine ⟨⟨true, true, e.id, some e, e.date, .none⟩, e, ?_, ⟨a, b, hab, ha, hb⟩, fun print => ?_⟩
  · simp [Cutoff.resolve, Cutoff.mostRecent, newestCutoff, he, hid e (FullTable.mem_of_mem_current hmem), hfind, pure,
      Except.pure]
  · rw [prtLoop_eq (fun e' he' => by cases he'; exact hdate) (dated_current hF), hab, prtListed_newest hdate ha]
    cases h : print e with
    | error q => simp [h, Except.map]
    | ok t => simp [h, Except.map]

/-- The upper one of the two deltas is printed. -/
theorem prt_y_newest_sample : ∃ c e, newestCutoff.resolve sameTime = .ok c ∧ Newest sameTime.current e ∧
    ∀ print, prtLoop print c sameTime.current = print e :=
  prt_y_newest sameTime_dated (by decide) (by decide) (by decide)

/-! ### The body -/

/-- A line as it is shown. -/
def shownBytes (s : List UInt8) : List UInt8 := if s.head? = some 1 then ascii "*** " ++ s.tail else 9 :: s

theorem shownBytes_chars {s : List UInt8} {c : UInt8} (h : c ∈ shownBytes s) : c ∈ ascii "*** " ∨ c = 9 ∨ c ∈ s := by
  rw [shownBytes] at h
  split_ifs at h
  · rcases List.mem_append.mp h with h | h
    · exact .inl h
    · exact .inr (.inr (List.mem_of_mem_tail h))
  · exact .inr (List.mem_cons.mp h)

/-- A line as it is shown is a line. -/
def shownLine (l : Line) : Line where
  bytes := shownBytes l.bytes
  no_nul h := by
    rcases shownBytes_chars h with h | h | h
    · exact absurd h (by decide)
    · exact absurd h (by decide)
    · exact l.no_nul h
  no_newline h := by
    rcases shownBytes_chars h with h | h | h
    · exact absurd h (by decide)
    · exact absurd h (by decide)
    · exact l.no_newline h

/-- `^A` stands only where lines begin. -/
def Leading (ls : List Line) : Prop := ∀ l ∈ ls, (1 : UInt8) ∉ l.bytes.tail

theorem printBodyLoop_other {c : UInt8} (h1 : c ≠ 1) (h10 : c ≠ 10) (s : List UInt8) :
    printBodyLoop (c :: s) = c :: printBodyLoop s := by
  simp [printBodyLoop, h1, h10]

/-- Text without `^A` and newline is copied. -/
theorem printBodyLoop_text {t s : List UInt8} (h1 : (1 : UInt8) ∉ t) (h10 : (10 : UInt8) ∉ t) :
    printBodyLoop (t ++ s) = t ++ printBodyLoop s := by
  induction t with
  | nil => rfl
  | cons c t ih =>
    rw [List.mem_cons, not_or] at h1 h10
    rw [List.cons_append, printBodyLoop_other (Ne.symm h1.1) (Ne.symm h10.1), ih h1.2 h10.2, List.cons_append]

/-- After a newline come the lines as they are shown. -/
theorem printBodyLoop_newline {ls : List Line} (h : Leading ls) :
    printBodyLoop (10 :: storedLines ls) = 10 :: storedLines (ls.map shownLine) := by
  induction ls with
  | nil => rfl
  | cons l ls ih =>
    obtain ⟨hl, hls⟩ := List.forall_mem_cons.mp h
    have hrest := ih hls
    have hshown : (shownLine l).bytes = shownBytes l.bytes := rfl
    rw [List.map_cons, storedLines_cons, storedLines_cons, Line.stored, Line.stored, hshown, shownBytes,
      List.append_assoc, List.append_assoc, List.singleton_append, List.singleton_append, ← hrest]
    have h10 := l.no_newline
    rcases hb : l.bytes with _ | ⟨c, t⟩
    · simp [printBodyLoop]
    · rw [hb] at hl h10
      rw [List.mem_cons, not_or] at h10
      have htext := printBodyLoop_text (s := 10 :: storedLines ls) hl h10.2
      by_cases hc : c = 1
      · subst hc
        rw [List.tail_cons] at htext
        simp [printBodyLoop, htext]
      · rw [List.tail_cons] at htext
        simp [printBodyLoop, hc, Ne.symm h10.1, htext]

/-- **The body is printed line by line**, if its first line begins with `^A`. -/
theorem printBody_lines {l : Line} {ls : List Line} (hl : l.bytes.head? = some 1) (h : Leading (l :: ls)) :
    printBody (storedLines (l :: ls)) = 10 :: storedLines ((l :: ls).map shownLine) := by
  have hloop := printBodyLoop_newline h
  have h10 := l.no_newline
  rcases hb : l.bytes with _ | ⟨c, t⟩
  · rw [hb] at hl
    cases hl
  · rw [hb] at hl
    obtain rfl : c = 1 := Option.some.inj hl
    rw [storedLines_cons, Line.stored, hb] at hloop ⊢
    simpa [printBody, printBodyLoop] using hloop

theorem shownBytes_injective : Function.Injective shownBytes := by
  have h1 : ∀ s : List UInt8, s.head? = some 1 → s = 1 :: s.tail := by
    intro s hs
    cases s with
    | nil => cases hs
    | cons c s => rw [show c = 1 from Option.some.inj hs, List.tail_cons]
  intro s t he
  rw [shownBytes, shownBytes] at he
  split_ifs at he with hs ht ht
  · rw [h1 s hs, h1 t ht, List.append_cancel_left he]
  · exact absurd (List.cons.inj he).1 (by decide)
  · exact absurd (List.cons.inj he).1 (by decide)
  · exact (List.cons.inj he).2

theorem shownLine_injective : Function.Injective shownLine := fun _ _ he =>
  Line.ext (shownBytes_injective (congrArg Line.bytes he))

/-- **The body can be told from what is printed**, if `^A` stands only where lines begin. -/
theorem printBody_inj {l l' : Line} {ls ls' : List Line} (hl : l.bytes.head? = some 1) (hl' : l'.bytes.head? = some 1)
    (h : Leading (l :: ls)) (h' : Leading (l' :: ls'))
    (he : printBody (storedLines (l :: ls)) = printBody (storedLines (l' :: ls'))) : l :: ls = l' :: ls' := by
  rw [printBody_lines hl h, printBody_lines hl' h'] at he
  exact List.map_injective_iff.mpr shownLine_injective (storedLines_injective (List.cons.inj he).2)

/-- A body with two lines. -/
theorem printBody_inj_sample : [(⟨[1, 73], by decide, by decide⟩ : Line), ⟨[97], by decide, by decide⟩] =
    [⟨[1, 73], by decide, by decide⟩, ⟨[97], by decide, by decide⟩] :=
  printBody_inj rfl rfl (by unfold Leading; decide) (by unfold Leading; decide) rfl

/-- A text that begins with three stars is not taken for a control line, but `^A` within a line is. -/
example : printBody [1, 73, 10, 42, 42, 42, 32, 10] ≠ printBody [1, 73, 10, 1, 10] ∧
    printBody [1, 73, 10, 97, 1, 10] = printBody [1, 73, 10, 97, 42, 42, 42, 32, 10] := by decide

end CSSC.Commands
