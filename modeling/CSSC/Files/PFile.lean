import CSSC.Lines.Linebuf
import CSSC.Table.DateText
import CSSC.Table.SidText

/-!
# The p-file

The p-file lists the versions that are being edited. It has one line for each edit lock: the SID that was gotten, the
SID to be created, the user, the date, and the lists of SIDs that were included and excluded, if there are any.

`writeEditLocks` writes the locks and `readPFile` is the constructor of `sccs_pfile`. The fields of a line are found
again (`EditLock.readLock_line`), and so is everything in them but SIDs that are not plain, and lists that do not return
from being cleaned the other way round: `readsBack_iff`. The list `1.4,1` is such a list; it comes back as `1-1.4`.
-/

namespace CSSC.Files

open CSSC.Lines CSSC.Table CSSC.Library.Decimal

/-- `edit_lock`. -/
structure EditLock where
  /-- `got`: the version that was gotten. -/
  got : Sid
  /-- `delta`: the version to be created. -/
  delta : Sid
  /-- `user`. -/
  user : List UInt8
  /-- `date`. -/
  date : SccsDate
  /-- `include`. -/
  included : SidList
  /-- `exclude`. -/
  excluded : SidList
  deriving DecidableEq, Repr

/-- One of the two optional fields: nothing for an empty list. -/
def printOption (c : UInt8) (l : SidList) : Except Quit (List UInt8) :=
  if l = [] then .ok [] else l.print.map fun t => 32 :: 45 :: c :: t

/-- `write_edit_lock`. -/
def EditLock.print (e : EditLock) : Except Quit (List UInt8) := do
  let got ← e.got.print
  let delta ← e.delta.print
  let incl ← printOption 105 e.included
  let excl ← printOption 120 e.excluded
  return got ++ 32 :: (delta ++ 32 :: (cstr e.user ++ 32 :: (e.date.text ++ (incl ++ excl)))) ++ [10]

/-- `write_edit_locks`: the text that is written. -/
def writeEditLocks : List EditLock → Except Quit (List UInt8)
  | [] => .ok []
  | e :: locks => do
    let line ← e.print
    let rest ← writeEditLocks locks
    return line ++ rest

/-- `corrupt(lineno, msg)`. -/
def pfileCorrupt {α : Type} (msg : String) : Except Quit α :=
  .error (.fatalQuit ("%s: line %d: p-file is corrupt.  (" ++ msg ++ ")"))

/-- The last of the optional fields that begins with `-` and `c`, without these. -/
def findOption (c : UInt8) (opts : List (List UInt8)) : Option (List UInt8) :=
  (opts.reverse.find? fun o => o.take 2 = [45, c]).map (·.drop 2)

/-- The constructor of `edit_lock`, and the checks that follow it. A null pointer for a list is the same as an empty
string. -/
def makeLock (got delta user date time incl excl : List UInt8) : Except Quit EditLock := do
  let date ← SccsDate.ofText date time
  let incl ← SidList.ofText incl
  let excl ← SidList.ofText excl
  if ! (Sid.ofText got).valid then pfileCorrupt "Invalid gotten SID"
  else if ! (Sid.ofText delta).valid then pfileCorrupt "Invalid delta SID"
  else if ! date.valid then pfileCorrupt "Invalid date/time"
  else match incl, excl with
    | some incl, some excl => .ok ⟨Sid.ofText got, Sid.ofText delta, user, date, incl, excl⟩
    | _, _ => pfileCorrupt "Invalid SID list"

/-- A line of the p-file. -/
def readLock (l : Line) : Except Quit EditLock :=
  let a := Linebuf.split 7 32 l.bytes
  let opts := (a.args.take a.argc).drop 5
  let incl := findOption 105 opts
  let excl := findOption 120 opts
  if a.argc < 5 then pfileCorrupt "Expected 5-7 args"
  else if (a.argc = 6 ∧ excl = none ∧ incl = none) ∨ (a.argc = 7 ∧ (excl = none ∨ incl = none)) then
    pfileCorrupt "Bad -i or -x option"
  else makeLock (a.args.getD 0 []) (a.args.getD 1 []) (a.args.getD 2 []) (a.args.getD 3 []) (a.args.getD 4 [])
    (incl.getD []) (excl.getD [])

/-- The loop over the lines that are read. Chomping an empty string would write before the buffer. -/
def readLocks : List CLine → Except Quit (List EditLock)
  | [] => .ok []
  | s :: lines =>
    match s.chomp with
    | none => .error .undefined
    | some l => do
      let e ← readLock l
      let rest ← readLocks lines
      return e :: rest

/-- `sccs_pfile`: the locks of a p-file with this text. -/
def readPFile (text : List UInt8) : Except Quit (List EditLock) := readLocks (deliveries .initial text)

namespace EditLock

/-- The locks that are written. -/
structure Proper (e : EditLock) : Prop where
  /-- The SIDs are valid. -/
  got : e.got.valid = true
  /-- Both are. -/
  delta : e.delta.valid = true
  /-- The user's name is a string without blanks and newlines. -/
  user : ∀ c ∈ e.user, c ≠ 0 ∧ c ≠ 10 ∧ c ≠ 32
  /-- The date is valid. -/
  date : e.date.valid = true
  /-- Two digits are enough for its year. -/
  year : 1969 ≤ e.date.year ∧ e.date.year < 2069
  /-- The lists were accepted by the constructor of `range_list`. -/
  included : ∃ list, SidList.ofText list = .ok (some e.included)
  /-- Both were. -/
  excluded : ∃ list, SidList.ofText list = .ok (some e.excluded)

/-- What a lock that is read back keeps. -/
structure Same (e e' : EditLock) : Prop where
  /-- The SIDs. -/
  got : e'.got = e.got
  /-- Both of them. -/
  delta : e'.delta = e.delta
  /-- The user. -/
  user : e'.user = e.user
  /-- The date. -/
  date : e'.date = e.date
  /-- The members of the include list. -/
  included : ∀ id, e'.included.member id = e.included.member id
  /-- The members of the exclude list. -/
  excluded : ∀ id, e'.excluded.member id = e.excluded.member id

/-- A lock that comes back from the p-file. -/
structure Returns (e : EditLock) : Prop where
  /-- The SIDs are plain. -/
  got : e.got.Plain
  /-- Both are. -/
  delta : e.delta.Plain
  /-- The lists keep their members when the ranges that are printed are cleaned. -/
  included : e.included.Returns
  /-- Both do. -/
  excluded : e.excluded.Returns

end EditLock

/-- Reading what is written reports no corruption and gives the same locks in the same order. -/
def ReadsBack (locks : List EditLock) : Prop :=
  ∃ text locks', writeEditLocks locks = .ok text ∧ readPFile text = .ok locks' ∧
    List.Forall₂ EditLock.Same locks locks'

/-! ### The line of a lock -/

namespace EditLock

/-- The optional field for a list. -/
def optField (c : UInt8) (l : SidList) : List (List UInt8) := if l = [] then [] else [45 :: c :: l.text]

/-- The fields of the line that is written. -/
def fields (e : EditLock) : List (List UInt8) :=
  [e.got.text, e.delta.text, e.user, e.date.dateText, e.date.timeText] ++
    (optField 105 e.included ++ optField 120 e.excluded)

/-- The characters of a line are none that ends a string or a line. -/
def lineChar (c : UInt8) : Prop := c ≠ 0 ∧ c ≠ 10 ∧ c ≠ 32

theorem lineChar_of_bounds {c : UInt8} (h : 44 ≤ c.toNat) : lineChar c := by
  refine ⟨?_, ?_, ?_⟩
  all_goals
    rintro rfl
    exact absurd h (by decide)

theorem lineChar_of_list {c : UInt8} (h : c = 44 ∨ c = 45 ∨ c = 46 ∨ isDigit c = true) : lineChar c := by
  rcases h with rfl | rfl | rfl | h
  all_goals refine lineChar_of_bounds ?_
  · decide
  · decide
  · decide
  · exact (show 44 ≤ 48 by decide).trans (isDigit_bounds h).1

theorem lineChar_option {c : UInt8} (hc : lineChar c) {l : SidList} :
    ∀ x ∈ optField c l, ∀ d ∈ x, lineChar d := by
  intro x hx d hd
  rw [optField] at hx
  split at hx
  · exact absurd hx List.not_mem_nil
  · obtain rfl := List.mem_singleton.mp hx
    simp only [List.mem_cons] at hd
    rcases hd with rfl | rfl | hd
    · exact lineChar_of_list (.inr (.inl rfl))
    · exact hc
    · exact lineChar_of_list (l.text_chars d hd)

/-- The fields have neither blanks nor newlines. -/
theorem fields_chars {e : EditLock} (hu : ∀ c ∈ e.user, lineChar c) : ∀ x ∈ e.fields, ∀ c ∈ x, lineChar c := by
  intro x hx c hc
  simp only [fields, List.mem_append, List.mem_cons, List.not_mem_nil, or_false] at hx
  rcases hx with (rfl | rfl | rfl | rfl | rfl) | hx | hx
  · exact lineChar_of_list (.inr (e.got.text_chars c hc))
  · exact lineChar_of_list (.inr (e.delta.text_chars c hc))
  · exact hu c hc
  · exact lineChar_of_bounds (by have := e.date.text_chars c (List.mem_append_left _ hc); omega)
  · exact lineChar_of_bounds (by have := e.date.text_chars c (List.mem_append_right _ hc); omega)
  · exact lineChar_option (by exact ⟨by decide, by decide, by decide⟩) x hx c hc
  · exact lineChar_option (by exact ⟨by decide, by decide, by decide⟩) x hx c hc

/-- The line that is written. -/
def line (e : EditLock) (hu : ∀ c ∈ e.user, lineChar c) : Line where
  bytes := [32].intercalate e.fields
  no_nul := by
    intro h
    rcases Library.Fields.mem_intercalate h with h | ⟨x, hx, hc⟩
    · exact absurd h (by decide)
    · exact (fields_chars hu x hx 0 hc).1 rfl
  no_newline := by
    intro h
    rcases Library.Fields.mem_intercalate h with h | ⟨x, hx, hc⟩
    · exact absurd h (by decide)
    · exact (fields_chars hu x hx 10 hc).2.1 rfl

theorem fields_ne_nil (e : EditLock) : e.fields ≠ [] := by simp [fields]

/-- The last field is not empty. -/
theorem fields_getLast (e : EditLock) : e.fields.getLast e.fields_ne_nil ≠ [] := by
  by_cases hx : e.excluded = []
  · by_cases hi : e.included = []
    · simp [fields, optField, hx, hi, SccsDate.timeText]
    · simp [fields, optField, hx, hi]
  · simp [fields, optField, hx]

theorem split_line {e : EditLock} (hu : ∀ c ∈ e.user, lineChar c) :
    Linebuf.split 7 32 (e.line hu).bytes = ⟨e.fields, e.fields.length⟩ := by
  refine Linebuf.split_fields e.fields_ne_nil e.fields_getLast (fun x hx h => (fields_chars hu x hx 32 h).2.2 rfl) ?_
  simp only [fields, optField]
  split_ifs <;> simp

/-- **The fields of a lock are found again.** -/
theorem readLock_line {e : EditLock} (hu : ∀ c ∈ e.user, lineChar c) :
    readLock (e.line hu) = makeLock e.got.text e.delta.text e.user e.date.dateText e.date.timeText e.included.text
      e.excluded.text := by
  rw [readLock, split_line hu]
  by_cases hi : e.included = []
  · by_cases hx : e.excluded = []
    · simp [fields, optField, hi, hx, findOption, SidList.text]
    · simp [fields, optField, hi, hx, findOption, SidList.text]
  · by_cases hx : e.excluded = []
    · simp [fields, optField, hi, hx, findOption, SidList.text]
    · simp [fields, optField, hi, hx, findOption, SidList.text]

/-- What an optional field adds to the line. -/
def optText (c : UInt8) (l : SidList) : List UInt8 := if l = [] then [] else 32 :: 45 :: c :: l.text

theorem stored_line {e : EditLock} (hu : ∀ c ∈ e.user, lineChar c) :
    (e.line hu).stored = e.got.text ++ 32 :: (e.delta.text ++ 32 :: (cstr e.user ++ 32 ::
      (e.date.text ++ (optText 105 e.included ++ optText 120 e.excluded)))) ++ [10] := by
  have hc : cstr e.user = e.user := cstr_eq_self fun h => (hu 0 h).1 rfl
  show [32].intercalate e.fields ++ [10] = _
  rw [hc]
  simp only [fields, optField, optText, SccsDate.text]
  split_ifs <;> simp [List.intercalate_cons_cons]

theorem printOption_ok {c : UInt8} {l : SidList} {t : List UInt8} (h : printOption c l = .ok t) : t = optText c l := by
  rw [printOption] at h
  rw [optText]
  split at h
  · rename_i hl
    rw [if_pos hl]
    exact (Except.ok.inj h).symm
  · rename_i hl
    rw [if_neg hl]
    rw [SidList.print] at h
    split at h
    · exact (Except.ok.inj h).symm
    · cases h

theorem printOption_of_valid {l : SidList} (c : UInt8) (h : ∀ r ∈ l, r.1.valid ∧ r.2.valid) :
    printOption c l = .ok (optText c l) := by
  rw [printOption, optText, SidList.print, if_pos h]
  split_ifs <;> rfl

/-- What is printed is the line. -/
theorem print_ok {e : EditLock} (hu : ∀ c ∈ e.user, lineChar c) {t : List UInt8} (h : e.print = .ok t) :
    t = (e.line hu).stored := by
  obtain ⟨g, hg, h⟩ := bind_eq_ok.mp h
  obtain ⟨d, hd, h⟩ := bind_eq_ok.mp h
  obtain ⟨i, hi, h⟩ := bind_eq_ok.mp h
  obtain ⟨x, hx, h⟩ := bind_eq_ok.mp h
  rw [stored_line hu, ← Sid.print_ok hg, ← Sid.print_ok hd, ← printOption_ok hi, ← printOption_ok hx]
  exact (Except.ok.inj h).symm

theorem printOption_error {c : UInt8} {l : SidList} {q : Quit} (h : printOption c l = .error q) : q = .assertion := by
  rw [printOption, SidList.print] at h
  split_ifs at h with hl hv
  · cases h
  · exact (Except.error.inj h).symm

/-- A SID that is not valid ends the program. -/
theorem print_error {e : EditLock} {q : Quit} (h : e.print = .error q) : q = .assertion := by
  rcases bind_eq_error.mp h with h | ⟨_, -, h⟩
  · exact Sid.print_error h
  rcases bind_eq_error.mp h with h | ⟨_, -, h⟩
  · exact Sid.print_error h
  rcases bind_eq_error.mp h with h | ⟨_, -, h⟩
  · exact printOption_error h
  rcases bind_eq_error.mp h with h | ⟨_, -, h⟩
  · exact printOption_error h
  · cases h

/-- The SIDs of a lock are valid. -/
structure Printable (e : EditLock) : Prop where
  /-- The SIDs of the versions. -/
  got : e.got.valid = true
  /-- Both are. -/
  delta : e.delta.valid = true
  /-- The ends of the ranges. -/
  included : e.included.Valid
  /-- Both lists. -/
  excluded : e.excluded.Valid

/-- Such a lock is printed. -/
theorem Printable.print {e : EditLock} (h : e.Printable) : ∃ t, e.print = .ok t := by
  have he : e.print = .ok (e.got.text ++ 32 :: (e.delta.text ++ 32 :: (cstr e.user ++ 32 ::
      (e.date.text ++ (optText 105 e.included ++ optText 120 e.excluded)))) ++ [10]) := by
    rw [EditLock.print, Sid.print, if_pos h.got, Sid.print, if_pos h.delta, printOption_of_valid _ h.included,
      printOption_of_valid _ h.excluded]
    rfl
  exact ⟨_, he⟩

theorem Proper.printable {e : EditLock} (h : e.Proper) : e.Printable := by
  obtain ⟨_, hi⟩ := h.included
  obtain ⟨_, hx⟩ := h.excluded
  exact ⟨h.got, h.delta, SidList.valid_of_ofText hi, SidList.valid_of_ofText hx⟩

/-- What the lock that is read has of the texts, and that it is printable. -/
theorem of_makeLock {g d u dd dt i x : List UInt8} {e : EditLock} (h : makeLock g d u dd dt i x = .ok e) :
    e.got = Sid.ofText g ∧ e.delta = Sid.ofText d ∧ SidList.ofText i = .ok (some e.included) ∧
      SidList.ofText x = .ok (some e.excluded) ∧ e.Printable := by
  obtain ⟨date, -, h⟩ := bind_eq_ok.mp h
  obtain ⟨incl, hi, h⟩ := bind_eq_ok.mp h
  obtain ⟨excl, hx, h⟩ := bind_eq_ok.mp h
  by_cases hg : (Sid.ofText g).valid = true
  · by_cases hd : (Sid.ofText d).valid = true
    · by_cases hv : date.valid = true
      · simp only [hg, hd, hv, Bool.not_true, Bool.false_eq_true, if_false] at h
        rcases incl with _ | incl
        · cases h
        · rcases excl with _ | excl
          · cases h
          · obtain rfl := Except.ok.inj h
            exact ⟨rfl, rfl, hi, hx, hg, hd, SidList.valid_of_ofText hi, SidList.valid_of_ofText hx⟩
      · simp [hg, hd, hv, pfileCorrupt] at h
    · simp [hg, hd, pfileCorrupt] at h
  · simp [hg, pfileCorrupt] at h

/-- A lock that returns is read, and is the same. -/
theorem Returns.readLock {e : EditLock} (h : e.Returns) (hp : e.Proper) :
    ∃ e', readLock (e.line hp.user) = .ok e' ∧ e.Same e' := by
  obtain ⟨i, hi, hsi⟩ := h.included
  obtain ⟨x, hx, hsx⟩ := h.excluded
  refine ⟨⟨e.got, e.delta, e.user, e.date, i, x⟩, ?_, rfl, rfl, rfl, rfl, hsi, hsx⟩
  rw [readLock_line hp.user, makeLock, SccsDate.ofText_text hp.date hp.year.1 hp.year.2, SidList.ofText_text, hi,
    SidList.ofText_text, hx]
  simp only [ok_bind, h.got.ofText_text, h.delta.ofText_text, hp.got, hp.delta, hp.date]
  rfl

/-- A lock that is read as the same one returns. -/
theorem Returns.of_readLock {e e' : EditLock} (hp : e.Proper) (h : Files.readLock (e.line hp.user) = .ok e')
    (hs : e.Same e') : e.Returns := by
  rw [readLock_line hp.user] at h
  obtain ⟨hg, hd, hi, hx, -⟩ := of_makeLock h
  rw [SidList.ofText_text] at hi hx
  constructor
  · apply (Sid.ofText_text_iff hp.got).mp
    exact hg.symm.trans hs.got
  · apply (Sid.ofText_text_iff hp.delta).mp
    exact hd.symm.trans hs.delta
  · exact ⟨_, Except.ok.inj hi, hs.included⟩
  · exact ⟨_, Except.ok.inj hx, hs.excluded⟩

/-- So is every lock of the p-file. -/
theorem printable_of_readLock {l : Line} {e : EditLock} (h : readLock l = .ok e) : e.Printable := by
  rw [readLock] at h
  split at h
  · cases h
  · split at h
    · cases h
    · exact (of_makeLock h).2.2.2.2

end EditLock

/-! ### The whole file -/

/-- The lines of the locks. -/
def Lines (locks : List EditLock) (ls : List Line) : Prop :=
  List.Forall₂ (fun e l => ∃ hu : ∀ c ∈ e.user, EditLock.lineChar c, l = e.line hu) locks ls

/-- What is written are the lines. -/
theorem writeEditLocks_ok {locks : List EditLock} (hu : ∀ e ∈ locks, ∀ c ∈ e.user, EditLock.lineChar c)
    {text : List UInt8} (h : writeEditLocks locks = .ok text) : ∃ ls, Lines locks ls ∧ text = storedLines ls := by
  induction locks generalizing text with
  | nil => exact ⟨[], .nil, (Except.ok.inj h).symm⟩
  | cons e locks ih =>
    obtain ⟨t, ht, h⟩ := bind_eq_ok.mp h
    obtain ⟨rest, hr, h⟩ := bind_eq_ok.mp h
    obtain ⟨ls, hls, rfl⟩ := ih (fun e he => hu e (List.mem_cons_of_mem _ he)) hr
    have hue := hu e List.mem_cons_self
    refine ⟨e.line hue :: ls, .cons ⟨hue, rfl⟩ hls, ?_⟩
    rw [storedLines_cons, ← EditLock.print_ok hue ht]
    exact (Except.ok.inj h).symm

/-- Printable locks are written. -/
theorem writeEditLocks_of_printable {locks : List EditLock} (h : ∀ e ∈ locks, e.Printable) :
    ∃ text, writeEditLocks locks = .ok text := by
  induction locks with
  | nil => exact ⟨[], rfl⟩
  | cons e locks ih =>
    obtain ⟨text, ht⟩ := ih fun e he => h e (List.mem_cons_of_mem _ he)
    obtain ⟨t, hpr⟩ := (h e List.mem_cons_self).print
    exact ⟨_, by rw [writeEditLocks, hpr, ok_bind, ht, ok_bind]; rfl⟩

/-- The locks that are read are printable. -/
theorem printable_of_readLocks {lines : List CLine} {locks : List EditLock} (h : readLocks lines = .ok locks) :
    ∀ e ∈ locks, e.Printable := by
  induction lines generalizing locks with
  | nil =>
    obtain rfl := Except.ok.inj h
    exact fun e he => absurd he List.not_mem_nil
  | cons s lines ih =>
    rw [readLocks] at h
    rcases hs : s.chomp with _ | l
    · rw [hs] at h
      cases h
    · rw [hs] at h
      obtain ⟨e, he, h⟩ := bind_eq_ok.mp h
      obtain ⟨rest, hr, h⟩ := bind_eq_ok.mp h
      obtain rfl := Except.ok.inj h
      intro f hf
      rcases List.mem_cons.mp hf with rfl | hf
      · exact EditLock.printable_of_readLock he
      · exact ih hr f hf

/-- The lines are read one by one. -/
theorem readPFile_ok_iff {ls : List Line} {locks : List EditLock} :
    readPFile (storedLines ls) = .ok locks ↔ List.Forall₂ (fun l e => readLock l = .ok e) ls locks := by
  rw [readPFile, deliveries_storedLines]
  induction ls generalizing locks with
  | nil =>
    rw [List.map_nil, readLocks, List.forall₂_nil_left_iff]
    exact ⟨fun h => (Except.ok.inj h).symm, fun h => by rw [h]⟩
  | cons l ls ih =>
    rw [List.map_cons, readLocks, Line.chomp_delivered]
    constructor
    · intro h
      obtain ⟨e, he, h⟩ := bind_eq_ok.mp h
      obtain ⟨rest, hr, h⟩ := bind_eq_ok.mp h
      obtain rfl := Except.ok.inj h
      exact .cons he (ih.mp hr)
    · intro h
      cases h with
      | cons he hr =>
        show (readLock l >>= fun e => readLocks (ls.map Line.delivered) >>= fun rest => .ok (e :: rest)) = _
        rw [he, ok_bind, ih.mpr hr, ok_bind]

/-- **The lines of the locks are read as the same locks exactly if every lock returns.** -/
theorem same_of_lines_iff {locks : List EditLock} {ls : List Line} (h : Lines locks ls) (hp : ∀ e ∈ locks, e.Proper) :
    (∃ locks', List.Forall₂ (fun l e => readLock l = .ok e) ls locks' ∧ List.Forall₂ EditLock.Same locks locks') ↔
      ∀ e ∈ locks, e.Returns := by
  induction h with
  | nil => exact iff_of_true ⟨[], .nil, .nil⟩ fun e he => absurd he List.not_mem_nil
  | @cons e l locks ls hel _ ih =>
    obtain ⟨hu, rfl⟩ := hel
    obtain ⟨hpe, hp⟩ := List.forall_mem_cons.mp hp
    rw [List.forall_mem_cons, ← ih hp]
    constructor
    · rintro ⟨locks', hr, hs⟩
      cases hr with
      | cons hre hr =>
        cases hs with
        | cons hse hs => exact ⟨.of_readLock hpe hre hse, _, hr, hs⟩
    · rintro ⟨he, locks', hr, hs⟩
      obtain ⟨e', hre, hse⟩ := he.readLock hpe
      exact ⟨e' :: locks', .cons hre hr, .cons hse hs⟩

/-- **What is written is read as the same locks exactly if every lock returns.** -/
theorem readsBack_iff {locks : List EditLock} (hp : ∀ e ∈ locks, e.Proper) :
    ReadsBack locks ↔ ∀ e ∈ locks, e.Returns := by
  have hu : ∀ e ∈ locks, ∀ c ∈ e.user, EditLock.lineChar c := fun e he => (hp e he).user
  constructor
  · rintro ⟨text, locks', ht, hr, hs⟩
    obtain ⟨ls, hls, rfl⟩ := writeEditLocks_ok hu ht
    apply (same_of_lines_iff hls hp).mp
    exact ⟨locks', readPFile_ok_iff.mp hr, hs⟩
  · intro h
    obtain ⟨text, ht⟩ := writeEditLocks_of_printable fun e he => (hp e he).printable
    obtain ⟨ls, hls, rfl⟩ := writeEditLocks_ok hu ht
    obtain ⟨locks', hr, hs⟩ := (same_of_lines_iff hls hp).mpr h
    exact ⟨_, locks', ht, readPFile_ok_iff.mpr hr, hs⟩

/-! ### A list that grows -/

/-- The list `1.4,1`, with the ranges in the order that it is kept in. -/
def oneAndFour : SidList := [(⟨1, 0, 0, 0⟩, ⟨1, 0, 0, 0⟩), (⟨1, 4, 0, 0⟩, ⟨1, 4, 0, 0⟩)]

/-- A lock on version 1.4 that includes the given SIDs. -/
def lockIncluding (incl : SidList) : EditLock where
  got := ⟨1, 4, 0, 0⟩
  delta := ⟨1, 5, 0, 0⟩
  user := [97]
  date := ⟨2001, 1, 1, 12, 0, 0⟩
  included := incl
  excluded := []

/-- Such a lock is proper if its list was accepted. -/
theorem lockIncluding_proper {incl : SidList} {list : List UInt8} (h : SidList.ofText list = .ok (some incl)) :
    (lockIncluding incl).Proper where
  got := rfl
  delta := rfl
  user := by
    intro c hc
    obtain rfl := List.mem_singleton.mp hc
    decide
  date := rfl
  year := ⟨show (1969 : ℤ) ≤ 2001 by decide, show (2001 : ℤ) < 2069 by decide⟩
  included := ⟨list, h⟩
  excluded := ⟨[], rfl⟩

/-- **The list `1.4,1` comes back as `1-1.4`.** -/
theorem include_list_grows :
    SidList.ofText [49, 46, 52, 44, 49] = .ok (some oneAndFour) ∧ (lockIncluding oneAndFour).Proper ∧
      ¬ ReadsBack [lockIncluding oneAndFour] := by
  have hlist : SidList.ofText [49, 46, 52, 44, 49] = .ok (some oneAndFour) := by rfl
  refine ⟨hlist, lockIncluding_proper hlist, ?_⟩
  rintro ⟨text, locks', ht, hr, hs⟩
  have hp := lockIncluding_proper hlist
  obtain ⟨ls, hls, rfl⟩ := writeEditLocks_ok (fun e he => List.mem_singleton.mp he ▸ hp.user) ht
  cases hls with
  | cons hl hnil =>
    obtain ⟨hu, rfl⟩ := hl
    cases hnil
    cases readPFile_ok_iff.mp hr with
    | @cons _ e' _ _ he =>
      cases hs with
      | cons hsame =>
        rw [EditLock.readLock_line hu] at he
        have he' : e' = lockIncluding [(⟨1, 0, 0, 0⟩, ⟨1, 4, 0, 0⟩)] := (Except.ok.inj he).symm
        subst he'
        -- the list that is read has 1.2 as a member
        exact absurd (hsame.included ⟨1, 2, 0, 0⟩) (by decide)

/-- A list of two ranges that stay apart comes back. -/
theorem include_list_stays :
    ReadsBack [lockIncluding [(⟨1, 1, 0, 0⟩, ⟨1, 2, 0, 0⟩), (⟨1, 4, 0, 0⟩, ⟨1, 4, 0, 0⟩)]] := by
  have hp : ∀ e ∈ [lockIncluding [(⟨1, 1, 0, 0⟩, ⟨1, 2, 0, 0⟩), (⟨1, 4, 0, 0⟩, ⟨1, 4, 0, 0⟩)]], e.Proper := by
    intro e he
    obtain rfl := List.mem_singleton.mp he
    exact lockIncluding_proper (show SidList.ofText [49, 46, 49, 45, 49, 46, 50, 44, 49, 46, 52] = _ from rfl)
  have hplain : ∀ l : Int16, 0 < l → (⟨1, l, 0, 0⟩ : Sid).Plain := fun l hl =>
    ⟨show (0 : Int16) < 1 by decide, Int16.le_of_lt hl, Int16.le_refl _, Int16.le_refl _, fun _ => rfl, fun _ => rfl⟩
  refine (readsBack_iff hp).mpr fun e he => ?_
  obtain rfl := List.mem_singleton.mp he
  refine ⟨hplain 4 (by decide), hplain 5 (by decide), SidList.Settled.returns ⟨by decide, by decide⟩ ?_,
    SidList.Settled.returns ⟨by decide, by decide⟩ fun r hr => absurd hr List.not_mem_nil⟩
  intro r hr
  simp only [lockIncluding, List.mem_cons, List.not_mem_nil, or_false] at hr
  rcases hr with rfl | rfl
  · exact ⟨hplain 1 (by decide), hplain 2 (by decide)⟩
  · exact ⟨hplain 4 (by decide), hplain 4 (by decide)⟩

end CSSC.Files
