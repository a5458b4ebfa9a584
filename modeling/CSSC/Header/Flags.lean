import CSSC.Body.DiffScript
import CSSC.Table.SidText

/-!
# Flags

The header of a history file has a line `^Af` for each flag that is set: its letter and, for some of them, an
argument. The string flags and the SID are `none` when they are not set, and so are releases that are not valid. A
`std::set<char>` is the list of its elements in their order.

`setFlag` is the body of the loop in the constructor of `sccs_file`; an argument that is missing is a null pointer.
Whether a flag is accepted does not depend on the others (`setFlag_error`).
-/

namespace CSSC.Header

open CSSC.Lines CSSC.Body CSSC.Table CSSC.Library.Decimal

/-! ### Releases -/

/-- `release(const char*)`: the release, if it is valid. -/
def releaseOfText (s : List UInt8) : Option Int16 :=
  let r := getIdComp s
  if r.2 = [] ∧ 0 < r.1 then some r.1 else none

/-- A `long` holds a number that `strtol` read, or the nearest one that fits. -/
def toLong (n : ℤ) : ℤ := max (-2 ^ 63) (min (2 ^ 63 - 1) n)

/-- `release_list`. -/
abbrev ReleaseList := List Int16

namespace ReleaseList

/-- A release is added, if it is not there yet. -/
def insert (l : ReleaseList) (r : Int16) : ReleaseList := if r ∈ l then l else l ++ [r]

/-- The loop of `release_list(const char*)`. Each turn takes a character, so the length of the string bounds them. -/
def ofTextLoop : ℕ → ReleaseList → List UInt8 → Except Quit ReleaseList
  | 0, l, _ => .ok l
  | fuel + 1, l, s =>
    let r := strtol s
    if s = [] ∨ r.2 = s then .ok l
    else if toLong r.1 < 0 then .error (.failure "ranges not allowed in release lists")
    else ofTextLoop fuel (l.insert (Int16.ofInt (toLong r.1))) (if r.2.head? = some 44 then r.2.tail else r.2)

/-- `release_list(const char*)`. -/
def ofText (s : List UInt8) : Except Quit ReleaseList := ofTextLoop s.length [] s

/-- `print`. -/
def text (l : ReleaseList) : List UInt8 := [32].intercalate (l.map fun r => intDecimal r.toInt)

end ReleaseList

/-! ### Sets of characters -/

/-- All characters in the order of `char`, which is signed. -/
def charOrder : List UInt8 := (List.range 256).map fun n => UInt8.ofNat (n + 128)

/-- The set of the characters of a string. -/
def charSet (s : List UInt8) : List UInt8 := charOrder.filter (· ∈ s)

theorem mem_charOrder (c : UInt8) : c ∈ charOrder := by
  refine List.mem_map.mpr ⟨(c.toNat + 128) % 256, List.mem_range.mpr (Nat.mod_lt _ (by decide)), ?_⟩
  rw [← UInt8.toNat_inj, UInt8.toNat_ofNat']
  have := c.toNat_lt
  omega

theorem mem_charSet {s : List UInt8} {c : UInt8} : c ∈ charSet s ↔ c ∈ s := by
  simp [charSet, mem_charOrder]

/-- A set is determined by its elements. -/
theorem charSet_eq {s t : List UInt8} : charSet s = charSet t ↔ ∀ c, c ∈ s ↔ c ∈ t := by
  constructor
  · intro h c
    rw [← mem_charSet, h, mem_charSet]
  · intro h
    refine List.filter_congr fun c _ => ?_
    simp only [h c]

/-! ### The flags of a history file -/

/-- `sccs_file_flags`. -/
structure Flags where
  /-- `type`. -/
  type : Option (List UInt8)
  /-- `mr_checker`. -/
  mrChecker : Option (List UInt8)
  /-- `no_id_keywords_is_fatal`. -/
  noIdKeywordsIsFatal : Bool
  /-- `branch`. -/
  branch : Bool
  /-- `module`. -/
  module_ : Option (List UInt8)
  /-- `floor`. -/
  floor : Option Int16
  /-- `ceiling`. -/
  ceiling : Option Int16
  /-- `default_sid`. -/
  defaultSid : Option Sid
  /-- `null_deltas`. -/
  nullDeltas : Bool
  /-- `joint_edit`. -/
  jointEdit : Bool
  /-- `locked`. -/
  locked : ReleaseList
  /-- `all_locked`. -/
  allLocked : Bool
  /-- `user_def`. -/
  userDef : Option (List UInt8)
  /-- `reserved`. -/
  reserved : Option (List UInt8)
  /-- `encoded`. -/
  encoded : Bool
  /-- `executable`. -/
  executable : Bool
  /-- `substitued_flag_letters`. -/
  letters : List UInt8
  deriving DecidableEq, Repr

/-- The flags before any is set. -/
def Flags.initial : Flags where
  type := none
  mrChecker := none
  noIdKeywordsIsFatal := false
  branch := false
  module_ := none
  floor := none
  ceiling := none
  defaultSid := none
  nullDeltas := false
  jointEdit := false
  locked := []
  allLocked := false
  userDef := none
  reserved := none
  encoded := false
  executable := false
  letters := []

/-- The letters of the flags. -/
inductive FlagName where
  /-- The type of the module. -/
  | t
  /-- The program that checks MRs. -/
  | v
  /-- A file without keywords is an error. -/
  | i
  /-- Branches may be made. -/
  | b
  /-- The module. -/
  | m
  /-- The lowest release that may be edited. -/
  | f
  /-- The highest one. -/
  | c
  /-- The default SID. -/
  | d
  /-- Releases that are passed over get a null delta. -/
  | n
  /-- A SID may be edited more than once at a time. -/
  | j
  /-- Releases that are locked. -/
  | l
  /-- A text for the user. -/
  | q
  /-- Reserved. -/
  | z
  /-- The g-file is executable. -/
  | x
  /-- The keywords to expand. -/
  | y
  /-- The body is encoded. -/
  | e
  deriving DecidableEq, Repr

namespace FlagName

/-- The letter in the file. -/
def letter : FlagName → UInt8
  | t => 116
  | v => 118
  | i => 105
  | b => 98
  | m => 109
  | f => 102
  | c => 99
  | d => 100
  | n => 110
  | j => 106
  | l => 108
  | q => 113
  | z => 122
  | x => 120
  | y => 121
  | e => 101

/-- All flags, in the order of the `switch`. -/
def all : List FlagName := [t, v, i, b, m, f, c, d, n, j, l, q, z, x, y, e]

/-- The flag with this letter. -/
def ofLetter (ch : UInt8) : Option FlagName := all.find? (·.letter = ch)

@[simp] theorem ofLetter_letter (name : FlagName) : ofLetter name.letter = some name := by
  cases name <;> rfl

/-- The flags that only are there or not. -/
def isSwitch : FlagName → Bool
  | i | b | n | j | x => true
  | _ => false

end FlagName

/-- `parsed_flag`, without its place. -/
structure ParsedFlag where
  /-- `letter`. -/
  letter : UInt8
  /-- `value`. -/
  value : Option (List UInt8)
  deriving DecidableEq, Repr

/-- A null pointer is used as a string. -/
def deref (arg : Option (List UInt8)) : Except Quit (List UInt8) :=
  match arg with
  | none => .error .undefined
  | some s => .ok s

/-- `ASSERT(s != NULL)`. -/
def assertArg (arg : Option (List UInt8)) : Except Quit (List UInt8) :=
  match arg with
  | none => .error .assertion
  | some s => .ok s

/-- The argument of `f` and `c`. A null pointer gives a release that is not valid, and then the message prints it as
a string. -/
def releaseArg [IntOverflow] (arg : Option (List UInt8)) (msg : String) : Except Quit (Option Int16) := do
  let s ← deref arg
  intResult (idCompOverflows s) <|
    match releaseOfText s with
    | none => .error (.corrupt msg)
    | some r => .ok (some r)

/-- The argument of `d`. -/
def sidArg [IntOverflow] (arg : Option (List UInt8)) (msg : String) : Except Quit (Option Sid) := do
  let s ← assertArg arg
  intResult (Sid.overflows s) <|
    if (Sid.ofText s).valid then .ok (some (Sid.ofText s)) else .error (.corrupt msg)

/-- The argument of `e`: its first character counts, and the message prints it. -/
def encodedArg (arg : Option (List UInt8)) (msg : String) : Except Quit Bool := do
  let s ← deref arg
  if s.head? = some 49 then .ok true else if s.head? = some 48 then .ok false else .error (.corrupt msg)

/-- What a flag in the file sets. -/
def Flags.set [IntOverflow] (f : Flags) (name : FlagName) (arg : Option (List UInt8)) : Except Quit Flags :=
  match name with
  | .t => do
    let s ← deref arg
    return { f with type := some s }
  | .v => do
    let s ← deref arg
    return { f with mrChecker := some s }
  | .i => .ok { f with noIdKeywordsIsFatal := true }
  | .b => .ok { f with branch := true }
  | .m => do
    let s ← deref arg
    return { f with module_ := some s }
  | .f => do
    let r ← releaseArg arg "Bad 'f' flag argument %s"
    return { f with floor := r }
  | .c => do
    let r ← releaseArg arg "Bad 'c' flag argument %s"
    return { f with ceiling := r }
  | .d => do
    let s ← sidArg arg "Bad 'd' flag argument %s"
    return { f with defaultSid := s }
  | .n => .ok { f with nullDeltas := true }
  | .j => .ok { f with jointEdit := true }
  | .l =>
    if arg = some [97] then .ok { f with allLocked := true }
    else do
      let s ← assertArg arg
      let l ← ReleaseList.ofText s
      return { f with locked := l }
  | .q => do
    let s ← deref arg
    return { f with userDef := some s }
  | .z => do
    let s ← deref arg
    return { f with reserved := some s }
  | .x => .ok { f with executable := true }
  | .y => do
    let s ← deref arg
    return { f with letters := charSet s }
  | .e => do
    let b ← encodedArg arg "Bad value '%c' for 'e' flag."
    return { f with encoded := b }

/-- One turn of the loop over the flags. -/
def setFlag [IntOverflow] (f : Flags) (p : ParsedFlag) : Except Quit Flags :=
  match FlagName.ofLetter p.letter with
  | none => .error (.corrupt "Unknown flag '%c'.")
  | some name => f.set name p.value

/-- Whether a flag is accepted does not depend on what was set before. -/
theorem Flags.set_error [IntOverflow] {f g : Flags} {name : FlagName} {arg : Option (List UInt8)} {q : Quit} :
    f.set name arg = .error q ↔ g.set name arg = .error q := by
  cases name with
  | l =>
    by_cases h : arg = some [97]
    · simp [Flags.set, h]
    · simp only [Flags.set, if_neg h, bind_eq_error]
      simp [pure, Except.pure]
  | i | b | n | j | x => simp [Flags.set]
  | t | v | m | f | c | d | q | z | y | e => simp [Flags.set, bind_eq_error, pure, Except.pure]

theorem setFlag_error [IntOverflow] {f g : Flags} {p : ParsedFlag} {q : Quit} :
    setFlag f p = .error q ↔ setFlag g p = .error q := by
  rw [setFlag, setFlag]
  cases FlagName.ofLetter p.letter with
  | none => rfl
  | some name => exact Flags.set_error

/-- The flags that the file sets. -/
def setFlags [IntOverflow] (f : Flags) (ps : List ParsedFlag) : Except Quit Flags := ps.foldlM setFlag f

end CSSC.Header
