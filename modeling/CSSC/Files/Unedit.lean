import CSSC.Files.PFile

/-!
# The p-file in the front end

The `sccs` front end has a reader of its own for the p-file, written in C: it takes a line of at most 119 bytes and
cuts it into fields where it stands. `unedit` copies the entries of other users to a temporary file and back, and
counts them in a `char`. `clean`, `info` and `tell` look whether there is an entry. A field of an entry (`PFileEnt`)
that is not there is a null pointer, and to compare with it or to print it is undefined.

An entry that the other programs have written is read, and written again as it was (`parseEnt_line`,
`putpfent_fields`). So **the entries of the other users are kept, unless their number is a positive multiple of 256**;
then the file is removed (`unedit_keeps_iff`). And **`clean` sees an entry if and only if somebody edits the file**,
or, with `-b`, edits its trunk (`clean_locks`).
-/

namespace CSSC.Files

open CSSC.Lines CSSC.Table CSSC.Library.Decimal

/-- `PFILELG`, the size of the buffers. -/
def pfilelg : ℕ := 120

/-- `struct pfile`. The first field is never null. -/
structure PFileEnt where
  /-- `p_osid`. -/
  osid : List UInt8
  /-- `p_nsid`. -/
  nsid : Option (List UInt8)
  /-- `p_user`. -/
  user : Option (List UInt8)
  /-- `p_date`. -/
  date : Option (List UInt8)
  /-- `p_time`. -/
  time : Option (List UInt8)
  /-- `p_aux`: all that follows, with the newline. -/
  aux : Option (List UInt8)
  deriving DecidableEq, Repr

/-- A field goes on. -/
def fieldChar (c : UInt8) : Bool := c ≠ 32 && c ≠ 10

/-- The field at a position, once `nextfield` has ended it. -/
def fieldAt (p : List UInt8) : List UInt8 := p.takeWhile fieldChar

/-- `nextfield`: the position after the blank, unless the string or the line ends first. -/
def nextfield (p : List UInt8) : Option (List UInt8) :=
  match p.dropWhile fieldChar with
  | 32 :: p => some p
  | _ => none

/-- The fields of the string in the buffer. -/
def parseEnt (buf : List UInt8) : PFileEnt :=
  let nsid := nextfield buf
  let user := nsid.bind nextfield
  let date := user.bind nextfield
  let time := date.bind nextfield
  ⟨fieldAt buf, nsid.map fieldAt, user.map fieldAt, date.map fieldAt, time.map fieldAt, time.bind nextfield⟩

/-- `getpfent`: the entry, and the rest of the file. -/
def getpfent (f : List UInt8) : Option (PFileEnt × List UInt8) :=
  (fgets pfilelg f).map fun r => (parseEnt (cstr r.1), r.2)

/-- `putpfent`. -/
def putpfent (pf : PFileEnt) : Except Quit (List UInt8) :=
  match pf.nsid, pf.user, pf.date, pf.time with
  | some nsid, some user, some date, some time =>
    .ok (pf.osid ++ 32 :: (nsid ++ 32 :: (user ++ 32 :: (date ++ 32 :: time))) ++
      match pf.aux with
      | some aux => 32 :: aux
      | none => [10])
  | _, _, _, _ => .error .undefined

/-- The variables of the loop in `unedit`. -/
structure Copied where
  /-- The temporary file. -/
  tmp : List UInt8
  /-- `delete`: there is an entry of the user. -/
  delete : Bool
  /-- `others`: how many entries of others there are. It is a `bool`, which is a `char`. -/
  others : UInt8
  deriving DecidableEq, Repr

/-- The loop. Each round takes a byte at least, so the length of the file bounds the rounds. -/
def copyLoop (myname : List UInt8) : ℕ → List UInt8 → Copied → Except Quit Copied
  | 0, _, v => .ok v
  | fuel + 1, f, v =>
    match getpfent f with
    | none => .ok v
    | some (pent, f) =>
      match pent.user with
      -- `strcmp` of a null pointer
      | none => .error .undefined
      | some user =>
        if user = myname then copyLoop myname fuel f { v with delete := true }
        else do
          let t ← putpfent pent
          copyLoop myname fuel f { v with tmp := v.tmp ++ t, others := v.others + 1 }

/-- The temporary file is copied with `fgets` and `fputs`. -/
def copyBack : ℕ → List UInt8 → List UInt8
  | 0, _ => []
  | fuel + 1, f =>
    match fgets pfilelg f with
    | none => []
    | some (buf, f) => cstr buf ++ copyBack fuel f

/-- What `unedit` leaves. -/
structure Unedited where
  /-- The p-file. -/
  pfile : Option (List UInt8)
  /-- The g-file is removed, if there is one. -/
  removed : Bool
  /-- What is returned. -/
  result : Bool
  deriving DecidableEq, Repr

/-- `unedit`. The g-file may be one that cannot be removed; the p-file may be one that cannot be written. -/
def unedit (myname : List UInt8) (removable writable : Bool) : Option (List UInt8) → Except Quit Unedited
  | none => .ok ⟨none, false, false⟩
  | some text => do
    let v ← copyLoop myname (text.length + 1) text ⟨[], false, 0⟩
    if v.delete && !removable then return ⟨some text, false, false⟩
    else if v.others ≠ 0 then
      if writable then return ⟨some (copyBack (v.tmp.length + 1) v.tmp), v.delete, v.delete⟩
      else return ⟨some text, false, false⟩
    -- "it's empty -- remove it"
    else return ⟨none, v.delete, v.delete⟩

/-- `isbranch`: there is more than one dot. -/
def isbranch (sid : List UInt8) : Bool := 1 < sid.count 46

/-- What `clean` makes of a p-file: `gotpfent`. A user's name does not count then. -/
def scanLoop (nobranch : Bool) : ℕ → List UInt8 → Bool → Except Quit Bool
  | 0, _, got => .ok got
  | fuel + 1, f, got =>
    match getpfent f with
    | none => .ok got
    | some (pf, f) =>
      if nobranch then
        match pf.nsid with
        | none => .error .undefined
        | some nsid => scanLoop nobranch fuel f (got || !isbranch nsid)
      else scanLoop nobranch fuel f true

/-- `clean`: whether the g-file is removed. -/
def cleanRemoves (nobranch : Bool) : Option (List UInt8) → Except Quit Bool
  | none => .ok true
  | some text => (scanLoop nobranch (text.length + 1) text false).map fun got => !got

/-! ### An entry -/

/-- A field ends at a blank or a newline. -/
theorem fieldAt_append {x r : List UInt8} (hx : ∀ c ∈ x, fieldChar c = true) {c : UInt8} (hc : fieldChar c = false) :
    fieldAt (x ++ c :: r) = x := by
  rw [fieldAt, List.takeWhile_append_of_pos hx, List.takeWhile_cons, hc]
  simp

theorem nextfield_blank {x r : List UInt8} (hx : ∀ c ∈ x, fieldChar c = true) : nextfield (x ++ 32 :: r) = some r := by
  rw [nextfield, List.dropWhile_append_of_pos hx]
  rfl

theorem nextfield_newline {x r : List UInt8} (hx : ∀ c ∈ x, fieldChar c = true) : nextfield (x ++ 10 :: r) = none := by
  rw [nextfield, List.dropWhile_append_of_pos hx]
  rfl

/-- What comes after the fifth field of a line. -/
inductive Tail : List UInt8 → Option (List UInt8) → Prop
  /-- The line ends. -/
  | newline : Tail [10] none
  /-- It goes on. -/
  | aux {r : List UInt8} : Tail (32 :: r) (some r)

/-- The fields of a line are found. -/
theorem parseEnt_fields {a b u d t rest : List UInt8} {aux : Option (List UInt8)}
    (ha : ∀ c ∈ a, fieldChar c = true) (hb : ∀ c ∈ b, fieldChar c = true) (hu : ∀ c ∈ u, fieldChar c = true)
    (hd : ∀ c ∈ d, fieldChar c = true) (ht : ∀ c ∈ t, fieldChar c = true) (htail : Tail rest aux) :
    parseEnt (a ++ 32 :: (b ++ 32 :: (u ++ 32 :: (d ++ 32 :: (t ++ rest))))) =
      ⟨a, some b, some u, some d, some t, aux⟩ := by
  have hlast : fieldAt (t ++ rest) = t ∧ nextfield (t ++ rest) = aux := by
    cases htail with
    | newline => exact ⟨fieldAt_append ht rfl, nextfield_newline ht⟩
    | aux => exact ⟨fieldAt_append ht rfl, nextfield_blank ht⟩
  simp only [parseEnt, nextfield_blank ha, nextfield_blank hb, nextfield_blank hu, nextfield_blank hd, Option.bind_some,
    Option.map_some, fieldAt_append ha (show fieldChar 32 = false from rfl),
    fieldAt_append hb (show fieldChar 32 = false from rfl), fieldAt_append hu (show fieldChar 32 = false from rfl),
    fieldAt_append hd (show fieldChar 32 = false from rfl), hlast.1, hlast.2]

/-- They are written as they were. -/
theorem putpfent_fields {a b u d t rest : List UInt8} {aux : Option (List UInt8)} (htail : Tail rest aux) :
    putpfent ⟨a, some b, some u, some d, some t, aux⟩ =
      .ok (a ++ 32 :: (b ++ 32 :: (u ++ 32 :: (d ++ 32 :: (t ++ rest))))) := by
  cases htail <;> simp [putpfent]

namespace EditLock

/-- What follows the five fields, if anything does. -/
def auxOf : List UInt8 → Option (List UInt8)
  | 32 :: r => some (r ++ [10])
  | _ => none

/-- The entry of a lock. -/
def ent (e : EditLock) : PFileEnt where
  osid := e.got.text
  nsid := some e.delta.text
  user := some e.user
  date := some e.date.dateText
  time := some e.date.timeText
  aux := auxOf (optText 105 e.included ++ optText 120 e.excluded)

theorem fieldChar_of_lineChar {c : UInt8} (h : lineChar c) : fieldChar c = true := by
  simp [fieldChar, h.2.1, h.2.2]

theorem optText_tail (e : EditLock) :
    Tail (optText 105 e.included ++ optText 120 e.excluded ++ [10]) e.ent.aux := by
  show Tail _ (auxOf (optText 105 e.included ++ optText 120 e.excluded))
  by_cases hi : e.included = []
  · by_cases hx : e.excluded = []
    · simp only [optText, hi, hx, if_true, List.nil_append]
      exact .newline
    · simp only [optText, hi, hx, if_true, if_false, List.nil_append]
      exact .aux
  · simp only [optText, hi, if_false]
    exact .aux

/-- **The entry of a line that was written is the lock's**, and it is written as it was. -/
theorem parseEnt_line {e : EditLock} (hu : ∀ c ∈ e.user, lineChar c) :
    parseEnt (e.line hu).stored = e.ent ∧ putpfent e.ent = .ok (e.line hu).stored := by
  have hfield : ∀ x ∈ e.fields, ∀ c ∈ x, fieldChar c = true :=
    fun x hx c hc => fieldChar_of_lineChar (fields_chars hu x hx c hc)
  have hcstr : cstr e.user = e.user := cstr_eq_self fun h => (hu 0 h).1 rfl
  have hline : (e.line hu).stored = e.got.text ++ 32 :: (e.delta.text ++ 32 :: (e.user ++ 32 ::
      (e.date.dateText ++ 32 :: (e.date.timeText ++ (optText 105 e.included ++ optText 120 e.excluded ++ [10]))))) := by
    rw [stored_line hu, hcstr]
    simp [SccsDate.text]
  have htail := optText_tail e
  constructor
  · rw [hline, parseEnt_fields (hfield _ ?_) (hfield _ ?_) (hfield _ ?_) (hfield _ ?_) (hfield _ ?_) htail]
    · rfl
    all_goals simp [fields]
  · rw [hline]
    exact putpfent_fields htail

end EditLock

/-- A line that fits into the buffer is read whole. -/
theorem getpfent_stored {l : Line} (hfit : l.stored.length < pfilelg) (rest : List UInt8) :
    getpfent (l.stored ++ rest) = some (parseEnt l.stored, rest) := by
  have hlen : l.stored.length = l.bytes.length + 1 := by simp [Line.stored]
  have hline : l.stored ++ rest = l.bytes ++ 10 :: rest := by simp [Line.stored]
  have hcstr : cstr l.stored = l.stored := cstr_eq_self l.zero_not_mem_stored
  have hlt : l.bytes.length < pfilelg - 1 := by
    rw [hlen] at hfit
    show l.bytes.length < 119
    exact Nat.lt_of_succ_lt_succ hfit
  rw [getpfent, hline, fgets, if_neg (by simp), Option.map_some, fgetsLoop_stored l.no_newline, if_pos hlt]
  show some (parseEnt (cstr l.stored), rest) = _
  rw [hcstr]

/-! ### The copy -/

/-- The lines of these locks fit into the buffers of the front end. -/
def Fit (locks : List EditLock) : Prop := ∀ e ∈ locks, ∀ t, e.print = .ok t → t.length < pfilelg

/-- The locks of the others. -/
def others (myname : List UInt8) (locks : List EditLock) : List EditLock := locks.filter fun e => e.user ≠ myname

/-- The user has a lock. -/
def edits (myname : List UInt8) (locks : List EditLock) : Bool := locks.any fun e => e.user = myname

variable {locks : List EditLock} {text myname : List UInt8}

/-- The first line of a p-file, and the others. -/
theorem writeEditLocks_cons {e : EditLock} (h : writeEditLocks (e :: locks) = .ok text) :
    ∃ t rest, e.print = .ok t ∧ writeEditLocks locks = .ok rest ∧ text = t ++ rest := by
  obtain ⟨t, ht, h⟩ := bind_eq_ok.mp h
  obtain ⟨rest, hr, h⟩ := bind_eq_ok.mp h
  exact ⟨t, rest, ht, hr, (Except.ok.inj h).symm⟩

theorem writeEditLocks_cons_ok {e : EditLock} {t rest : List UInt8} (ht : e.print = .ok t)
    (hr : writeEditLocks locks = .ok rest) : writeEditLocks (e :: locks) = .ok (t ++ rest) := by
  rw [writeEditLocks, ht, ok_bind, hr, ok_bind]
  rfl

/-- The locks that are kept are written. -/
theorem writeEditLocks_filter {p : EditLock → Bool} (h : writeEditLocks locks = .ok text) :
    ∃ text', writeEditLocks (locks.filter p) = .ok text' := by
  induction locks generalizing text with
  | nil => exact ⟨[], rfl⟩
  | cons e locks ih =>
    obtain ⟨t, rest, ht, hr, -⟩ := writeEditLocks_cons h
    obtain ⟨rest', hr'⟩ := ih hr
    rw [List.filter_cons]
    split
    · exact ⟨t ++ rest', writeEditLocks_cons_ok ht hr'⟩
    · exact ⟨rest', hr'⟩

/-- **The loop copies the entries of the others**, and counts them. -/
theorem copyLoop_locks (hu : ∀ e ∈ locks, ∀ c ∈ e.user, EditLock.lineChar c) (hfit : Fit locks)
    (hw : writeEditLocks locks = .ok text) {y : List UInt8}
    (hw' : writeEditLocks (others myname locks) = .ok y) {k : ℕ} (hfuel : locks.length < k) (v : Copied) :
    copyLoop myname k text v =
      .ok ⟨v.tmp ++ y, v.delete || edits myname locks, v.others + .ofNat (others myname locks).length⟩ := by
  induction locks generalizing text y k v with
  | nil =>
    obtain rfl := Except.ok.inj hw
    obtain rfl := Except.ok.inj hw'
    obtain ⟨k, rfl⟩ := Nat.exists_eq_add_of_lt hfuel
    simp [copyLoop, getpfent, fgets, edits, others]
  | cons e locks ih =>
    obtain ⟨k, rfl⟩ : ∃ j, k = j + 1 := ⟨k - 1, by omega⟩
    obtain ⟨t, rest, ht, hr, rfl⟩ := writeEditLocks_cons hw
    have hue := hu e List.mem_cons_self
    obtain rfl := EditLock.print_ok hue ht
    have hent := EditLock.parseEnt_line hue
    have hget : getpfent ((e.line hue).stored ++ rest) = some (e.ent, rest) := by
      rw [getpfent_stored (hfit e List.mem_cons_self _ ht), hent.1]
    have ih := fun {y : List UInt8} hw' => ih (y := y) (fun x hx => hu x (List.mem_cons_of_mem e hx))
      (fun x hx => hfit x (List.mem_cons_of_mem e hx)) hr hw' (k := k) (by simpa using hfuel)
    rw [copyLoop, hget]
    show (if e.user = myname then _ else _) = _
    by_cases hme : e.user = myname
    · have hothers : others myname (e :: locks) = others myname locks := by simp [others, hme]
      rw [hothers] at hw' ⊢
      rw [if_pos hme, ih hw']
      simp [edits, hme]
    · have hothers : others myname (e :: locks) = e :: others myname locks := by simp [others, hme]
      rw [hothers] at hw' ⊢
      obtain ⟨t', rest', ht', hr', rfl⟩ := writeEditLocks_cons hw'
      obtain rfl := Except.ok.inj (ht.symm.trans ht')
      have hcount : v.others + 1 + UInt8.ofNat (others myname locks).length =
          v.others + .ofNat (e :: others myname locks).length := by
        rw [List.length_cons, UInt8.ofNat_add, UInt8.add_assoc, UInt8.add_comm 1]
        rfl
      rw [if_neg hme, hent.2, ok_bind, ih hr', hcount]
      simp [edits, hme]

/-- Copying with `fgets` and `fputs` changes nothing. -/
theorem copyBack_eq {f : List UInt8} (hf : (0 : UInt8) ∉ f) {fuel : ℕ} (hfuel : f.length < fuel) :
    copyBack fuel f = f := by
  induction fuel generalizing f with
  | zero => omega
  | succ fuel ih =>
    rw [copyBack]
    by_cases hnil : f = []
    · subst hnil
      rfl
    · rw [fgets, if_neg hnil]
      have happend := Linebuf.fgetsLoop_append (pfilelg - 1) f
      have hne : (fgetsLoop (pfilelg - 1) f).1 ≠ [] := Linebuf.fgetsLoop_ne_nil (by decide) hnil
      have hlen := congrArg List.length happend
      rw [List.length_append] at hlen
      have hpos := List.length_pos_of_ne_nil hne
      have hnul : (0 : UInt8) ∉ (fgetsLoop (pfilelg - 1) f).1 ∧ (0 : UInt8) ∉ (fgetsLoop (pfilelg - 1) f).2 := by
        rw [← happend, List.mem_append, not_or] at hf
        exact hf
      show cstr (fgetsLoop (pfilelg - 1) f).1 ++ copyBack fuel (fgetsLoop (pfilelg - 1) f).2 = f
      rw [cstr_eq_self hnul.1, ih hnul.2 (by omega), happend]

/-- The p-file has no NUL. -/
theorem writeEditLocks_no_nul (hu : ∀ e ∈ locks, ∀ c ∈ e.user, EditLock.lineChar c)
    (hw : writeEditLocks locks = .ok text) : (0 : UInt8) ∉ text := by
  obtain ⟨ls, -, rfl⟩ := writeEditLocks_ok hu hw
  intro h
  obtain ⟨l, -, hl⟩ := List.mem_flatMap.mp h
  exact l.zero_not_mem_stored hl

/-- Each lock has a line. -/
theorem length_le_writeEditLocks (hw : writeEditLocks locks = .ok text) : locks.length ≤ text.length := by
  induction locks generalizing text with
  | nil => simp
  | cons e locks ih =>
    obtain ⟨t, rest, ht, hr, rfl⟩ := writeEditLocks_cons hw
    have hpos : t ≠ [] := by
      obtain ⟨_, -, ht⟩ := bind_eq_ok.mp ht
      obtain ⟨_, -, ht⟩ := bind_eq_ok.mp ht
      obtain ⟨_, -, ht⟩ := bind_eq_ok.mp ht
      obtain ⟨_, -, ht⟩ := bind_eq_ok.mp ht
      rw [← Except.ok.inj ht]
      simp
    have := List.length_pos_of_ne_nil hpos
    have := ih hr
    rw [List.length_cons, List.length_append]
    omega

/-- **What `unedit` leaves.** -/
theorem unedit_locks (hu : ∀ e ∈ locks, ∀ c ∈ e.user, EditLock.lineChar c) (hfit : Fit locks)
    (hw : writeEditLocks locks = .ok text) : ∃ text', writeEditLocks (others myname locks) = .ok text' ∧
      unedit myname true true (some text) =
        .ok ⟨if UInt8.ofNat (others myname locks).length = 0 then none else some text', edits myname locks,
          edits myname locks⟩ := by
  obtain ⟨text', hw'⟩ := writeEditLocks_filter (p := fun e => e.user ≠ myname) hw
  refine ⟨text', hw', ?_⟩
  have hnul := writeEditLocks_no_nul (fun e he => hu e (List.mem_of_mem_filter he)) hw'
  have hcopy := copyLoop_locks hu hfit hw hw' (Nat.lt_succ_of_le (length_le_writeEditLocks hw)) ⟨[], false, 0⟩
  rw [unedit, hcopy, ok_bind]
  simp only [List.nil_append, Bool.false_or, UInt8.zero_add, Bool.not_true, Bool.and_false, if_false,
    copyBack_eq hnul (Nat.lt_succ_self _), Bool.false_eq_true, if_true]
  by_cases h0 : UInt8.ofNat (others myname locks).length = 0
  · rw [if_pos h0, if_neg (not_not.mpr h0)]
    rfl
  · rw [if_neg h0, if_pos h0]
    rfl

/-- The p-file holds the locks; there is none if there are no locks. -/
def HoldsLocks (pfile : Option (List UInt8)) (locks : List EditLock) : Prop :=
  if locks = [] then pfile = none else ∃ text, pfile = some text ∧ writeEditLocks locks = .ok text

/-- A `char` that has counted is 0 again after 256. -/
theorem ofNat_eq_zero_iff {n : ℕ} : UInt8.ofNat n = 0 ↔ 256 ∣ n := by
  rw [← UInt8.toNat_inj, UInt8.toNat_ofNat', Nat.dvd_iff_mod_eq_zero]
  rfl

/-- **`unedit` keeps the locks of the other users**, and removes those of the user and the g-file, **unless the
number of the others is a positive multiple of 256**. -/
theorem unedit_keeps_iff (hu : ∀ e ∈ locks, ∀ c ∈ e.user, EditLock.lineChar c) (hfit : Fit locks)
    (hw : writeEditLocks locks = .ok text) : ∃ r, unedit myname true true (some text) = .ok r ∧
      r.result = edits myname locks ∧ r.removed = edits myname locks ∧
      (HoldsLocks r.pfile (others myname locks) ↔
        others myname locks = [] ∨ ¬ 256 ∣ (others myname locks).length) := by
  obtain ⟨text', hw', hr⟩ := unedit_locks hu hfit hw
  refine ⟨_, hr, rfl, rfl, ?_⟩
  by_cases hnil : others myname locks = []
  · rw [HoldsLocks, if_pos hnil, hnil]
    exact iff_of_true rfl (.inl rfl)
  · rw [HoldsLocks, if_neg hnil]
    by_cases hdvd : 256 ∣ (others myname locks).length
    · rw [if_pos (ofNat_eq_zero_iff.mpr hdvd)]
      refine iff_of_false ?_ (by simp [hnil, hdvd])
      rintro ⟨_, h, -⟩
      cases h
    · rw [if_neg (mt ofNat_eq_zero_iff.mp hdvd)]
      exact iff_of_true ⟨text', rfl, hw'⟩ (.inr hdvd)

/-! ### `clean` -/

/-- A number has no dot. -/
theorem count_intDecimal (n : ℤ) : (intDecimal n).count 46 = 0 := by
  rw [List.count_eq_zero]
  intro h
  rcases intDecimal_chars n 46 h with h | h
  · exact absurd h (by decide)
  · exact absurd h (by decide)

/-- A SID that is printed with a branch has more than one dot. -/
theorem isbranch_text {s : Sid} : isbranch s.text = decide (s.level ≠ 0 ∧ s.branch ≠ 0) := by
  rw [isbranch, Sid.text, Sid.tailText, List.count_append, count_intDecimal]
  by_cases hl : s.level = 0
  · simp [hl]
  · by_cases hb : s.branch = 0
    · simp [hl, hb, count_intDecimal]
    · by_cases hq : s.sequence = 0
      · simp [hl, hb, hq, count_intDecimal, List.count_append]
      · simp [hl, hb, hq, count_intDecimal, List.count_append]

/-- `clean` counts the lock: not one of a branch, with `-b`. -/
def counts (nobranch : Bool) (e : EditLock) : Bool := !(nobranch && decide (e.delta.level ≠ 0 ∧ e.delta.branch ≠ 0))

theorem scanLoop_locks (hu : ∀ e ∈ locks, ∀ c ∈ e.user, EditLock.lineChar c) (hfit : Fit locks)
    (hw : writeEditLocks locks = .ok text) (nobranch : Bool) {k : ℕ} (hfuel : locks.length < k) (got : Bool) :
    scanLoop nobranch k text got = .ok (got || locks.any (counts nobranch)) := by
  induction locks generalizing text k got with
  | nil =>
    obtain rfl := Except.ok.inj hw
    obtain ⟨k, rfl⟩ := Nat.exists_eq_add_of_lt hfuel
    simp [scanLoop, getpfent, fgets]
  | cons e locks ih =>
    obtain ⟨k, rfl⟩ : ∃ j, k = j + 1 := ⟨k - 1, by omega⟩
    obtain ⟨t, rest, ht, hr, rfl⟩ := writeEditLocks_cons hw
    have hue := hu e List.mem_cons_self
    obtain rfl := EditLock.print_ok hue ht
    have hget : getpfent ((e.line hue).stored ++ rest) = some (e.ent, rest) := by
      rw [getpfent_stored (hfit e List.mem_cons_self _ ht), (EditLock.parseEnt_line hue).1]
    have ih := ih (fun x hx => hu x (List.mem_cons_of_mem e hx)) (fun x hx => hfit x (List.mem_cons_of_mem e hx)) hr
      (k := k) (by simpa using hfuel)
    rw [scanLoop, hget]
    cases nobranch with
    | true =>
      show scanLoop true k rest (got || !isbranch e.delta.text) = _
      rw [ih, isbranch_text, List.any_cons, Bool.or_assoc]
      rfl
    | false =>
      show scanLoop false k rest true = _
      rw [ih, List.any_cons]
      simp [counts]

/-- **`clean` removes the g-file if and only if nobody has a lock that counts**: none at all, or none on the trunk with
`-b`. -/
theorem clean_locks (hu : ∀ e ∈ locks, ∀ c ∈ e.user, EditLock.lineChar c) (hfit : Fit locks)
    (hw : writeEditLocks locks = .ok text) (nobranch : Bool) :
    cleanRemoves nobranch (some text) = .ok (!locks.any (counts nobranch)) := by
  rw [cleanRemoves, scanLoop_locks hu hfit hw nobranch (Nat.lt_succ_of_le (length_le_writeEditLocks hw))]
  rfl

/-! ### A p-file with two locks -/

/-- `a` edits the trunk, `b` a branch. -/
def twoLocks : List EditLock :=
  [⟨⟨1, 1, 0, 0⟩, ⟨1, 2, 0, 0⟩, [97], ⟨2001, 2, 3, 4, 5, 6⟩, [], []⟩,
    ⟨⟨1, 1, 0, 0⟩, ⟨1, 1, 1, 1⟩, [98], ⟨2001, 2, 3, 4, 5, 6⟩, [], []⟩]

/-- `1.1 1.2 a 01/02/03 04:05:06`, and the same for `b`. -/
def twoLines : List UInt8 :=
  [49, 46, 49, 32, 49, 46, 50, 32, 97, 32, 48, 49, 47, 48, 50, 47, 48, 51, 32, 48, 52, 58, 48, 53, 58, 48, 54, 10,
    49, 46, 49, 32, 49, 46, 49, 46, 49, 46, 49, 32, 98, 32, 48, 49, 47, 48, 50, 47, 48, 51, 32, 48, 52, 58, 48, 53,
    58, 48, 54, 10]

theorem twoLocks_users : ∀ e ∈ twoLocks, ∀ c ∈ e.user, EditLock.lineChar c := by
  intro e he c hc
  simp only [twoLocks, List.mem_cons, List.not_mem_nil, or_false] at he
  rcases he with rfl | rfl <;> obtain rfl := List.mem_singleton.mp hc <;> exact ⟨by decide, by decide, by decide⟩

theorem twoLocks_written : writeEditLocks twoLocks = .ok twoLines := by rfl

theorem twoLocks_fit : Fit twoLocks := by
  intro e he t ht
  simp only [twoLocks, List.mem_cons, List.not_mem_nil, or_false] at he
  rcases he with rfl | rfl <;> obtain rfl := Except.ok.inj ht <;> decide

/-- The lock of `b` is kept. -/
theorem unedit_keeps_iff_sample : ∃ r, unedit [97] true true (some twoLines) = .ok r ∧ r.result = true ∧
    HoldsLocks r.pfile (others [97] twoLocks) := by
  obtain ⟨r, hr, hres, -, hiff⟩ := @unedit_keeps_iff twoLocks twoLines [97] twoLocks_users twoLocks_fit twoLocks_written
  exact ⟨r, hr, hres, hiff.mpr (.inr (by decide))⟩

/-- `clean` leaves the g-file alone. -/
theorem clean_locks_sample : cleanRemoves true (some twoLines) = .ok false :=
  clean_locks twoLocks_users twoLocks_fit twoLocks_written true

end CSSC.Files
