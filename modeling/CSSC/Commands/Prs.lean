import CSSC.Body.Detectors
import CSSC.Header.Write
import CSSC.Table.SeqPrep

/-!
# `prs`

`prs` prints a delta as its format says: the data keywords, one or two letters between colons, stand for something
about the delta or the file, a few escapes stand for a character, and all the rest stands for itself. Some keywords
are themselves printed by a format.

## The model

The cases of the switch in `print_delta_key` are a `Keyword` each, and `PrsFile` is what they say about the file;
`emitRawBody` and `getBody` are the two ways to print the body. `keyText` are the keywords that are printed by no
format, and `doPrintDeltaKey` all of them. `formatLoop` is the loop of `print_delta`.

Writing does not fail, and what is printed before a failure is left out. The number in `printDelta n` bounds the depth
of the calls. A character after the terminator is not read: `undefined`.
-/

namespace CSSC.Commands

open CSSC.Lines CSSC.Body CSSC.Table CSSC.Header CSSC.Library.Decimal

/-! ### The keywords -/

/-- The data keywords. -/
inductive Keyword where
  | Dt | DL | Li | Ld | Lu | DT | I | R | L | B | S | D | Dy | Dm | Dd | T | Th | Tm | Ts | P | DS | DP | DI | Dn | Dx | Dg
  | MR | C | UN | FL | Y | MF | MP | KF | BF | J | LK | Q | M | FB | CB | Ds | ND | FD | BD | GB | W | A | Z | F | PN
  deriving DecidableEq, Repr

/-- `KEY1`. -/
def key1 (c : UInt8) : ℕ := c.toNat

/-- `KEY2`. -/
def key2 (c₁ c₂ : UInt8) : ℕ := c₁.toNat * 256 + c₂.toNat

namespace Keyword

/-- All keywords, in the order of the switch. -/
def all : List Keyword :=
  [Dt, DL, Li, Ld, Lu, DT, I, R, L, B, S, D, Dy, Dm, Dd, T, Th, Tm, Ts, P, DS, DP, DI, Dn, Dx, Dg,
    MR, C, UN, FL, Y, MF, MP, KF, BF, J, LK, Q, M, FB, CB, Ds, ND, FD, BD, GB, W, A, Z, F, PN]

/-- The letters of a keyword. -/
def letters : Keyword → List UInt8
  | Dt => [68, 116]
  | DL => [68, 76]
  | Li => [76, 105]
  | Ld => [76, 100]
  | Lu => [76, 117]
  | DT => [68, 84]
  | I => [73]
  | R => [82]
  | L => [76]
  | B => [66]
  | S => [83]
  | D => [68]
  | Dy => [68, 121]
  | Dm => [68, 109]
  | Dd => [68, 100]
  | T => [84]
  | Th => [84, 104]
  | Tm => [84, 109]
  | Ts => [84, 115]
  | P => [80]
  | DS => [68, 83]
  | DP => [68, 80]
  | DI => [68, 73]
  | Dn => [68, 110]
  | Dx => [68, 120]
  | Dg => [68, 103]
  | MR => [77, 82]
  | C => [67]
  | UN => [85, 78]
  | FL => [70, 76]
  | Y => [89]
  | MF => [77, 70]
  | MP => [77, 80]
  | KF => [75, 70]
  | BF => [66, 70]
  | J => [74]
  | LK => [76, 75]
  | Q => [81]
  | M => [77]
  | FB => [70, 66]
  | CB => [67, 66]
  | Ds => [68, 115]
  | ND => [78, 68]
  | FD => [70, 68]
  | BD => [66, 68]
  | GB => [71, 66]
  | W => [87]
  | A => [65]
  | Z => [90]
  | F => [70]
  | PN => [80, 78]

/-- The case label of a keyword. -/
def key (k : Keyword) : ℕ :=
  match k.letters with
  | [c] => key1 c
  | [c₁, c₂] => key2 c₁ c₂
  | _ => 0

/-- The case that a value selects. -/
def ofKey (key : ℕ) : Option Keyword := all.find? (·.key = key)

end Keyword

/-! ### What they stand for -/

/-- What the keywords say about an `sccs_file` that was read. -/
structure PrsFile extends KeywordFile where
  /-- `delta_table_`. -/
  deltaTable : FullTable
  /-- `users_`. -/
  users : Texts
  /-- `comments_`. -/
  comments : Texts
  /-- The file from `body_start_` on. -/
  body : List UInt8
  /-- `plinebuf`. -/
  linebuf : Linebuf

/-- A text of the program. -/
def ascii (s : String) : List UInt8 := s.toList.map fun c => UInt8.ofNat c.toNat

/-- `print_seq_list`: the last one comes first. -/
def printSeqList (list : List ℕ) : List UInt8 := [32].intercalate (list.reverse.map decimal)

/-- `print_string_list`. -/
def printStringList (list : Texts) : List UInt8 := printed (list.map cstr)

/-- `print_flag2`, for a flag of which this is printed if it is set. -/
def printFlag2 (name : String) (it : Option (List UInt8)) : List UInt8 :=
  match it with
  | none => []
  | some arg => ascii name ++ 9 :: (arg ++ [10])

/-- `print_flag2`, for a switch. -/
def printSwitch (name : String) (it : Bool) : List UInt8 := if it then ascii name ++ [10] else []

/-- `print_yesno`. -/
def printYesno (flag : Bool) : List UInt8 := if flag then ascii "yes" else ascii "no"

/-- The text `none`. -/
def noneText : List UInt8 := ascii "none"

/-- `print_flag`, for a flag of which this is printed if it is set. -/
def printFlag (it : Option (List UInt8)) : List UInt8 := it.getD noneText

/-- A release, if it is valid. -/
def releaseText (r : Option Int16) : Option (List UInt8) := (r.filter (0 < ·)).map fun r => intDecimal r.toInt

/-- A list of releases, if it is valid. -/
def releasesText (l : ReleaseList) : Option (List UInt8) := if l = [] then none else some l.text

/-- A SID, if it is valid. -/
def sidText (s : Option Sid) : Option (List UInt8) := (s.filter (·.valid)).map Sid.text

/-- `print_flags`. -/
def printFlags (f : Flags) : List UInt8 :=
  printSwitch "branch" f.branch ++
  printFlag2 "ceiling" (releaseText f.ceiling) ++
  printFlag2 "default SID" (sidText f.defaultSid) ++
  printSwitch "encoded" f.encoded ++
  printFlag2 "floor" (releaseText f.floor) ++
  printSwitch "id keywd err/warn" f.noIdKeywordsIsFatal ++
  printSwitch "joint edit" f.jointEdit ++
  printFlag2 "locked releases" (if f.allLocked then some [97] else releasesText f.locked) ++
  printFlag2 "module" (f.module_.map cstr) ++
  printSwitch "null delta" f.nullDeltas ++
  printFlag2 "csect name" (f.userDef.map cstr) ++
  printFlag2 "type" (f.type.map cstr) ++
  printFlag2 "validate MRs" (f.mrChecker.map cstr)

namespace PrsFile

/-- `emit_raw_body`. -/
def emitRawBody (f : PrsFile) : Except Quit (List UInt8) :=
  (readBody f.linebuf f.body).ending.map fun _ => storedLines (readBody f.linebuf f.body).lines

/-- The case of `:GB:`. The constructor of `seq_state` does not end for the largest number. -/
def getBody (f : PrsFile) (d : FullDelta) : Except Quit (List UInt8) := do
  let gotten ← f.deltaTable.deltaAtSeq d.seq
  if h : f.deltaTable.table.highestSeqno < 65535 then do
    let state ← prepareSeqstate f.deltaTable.table (SeqState.new f.deltaTable.table.highestSeqno h) d.seq [] []
    let (vis, _) ← get f.deltaTable.table.highestSeqno state (readBody f.linebuf f.body)
    if f.flags.encoded then outputBody true (vis.map Prod.snd)
    else do
      let parms : SubstParms := ⟨none, 0, .none, false⟩
      let (out, _) ← writeLines f.toKeywordFile gotten 3 parms (vis.map fun v => lineString v.2)
      return bytesOf out
  else .error .diverges

end PrsFile

/-- The cases of the switch that do not call `print_delta`. The five that do are in `doPrintDeltaKey`; they print nothing
here. -/
def keyText (f : PrsFile) (d : FullDelta) : Keyword → Except Quit (List UInt8)
  | .Li => .ok (padded 5 d.inserted)
  | .Ld => .ok (padded 5 d.deleted)
  | .Lu => .ok (padded 5 d.unchanged)
  | .DT => .ok [typeLetter d.type]
  | .I => d.id.print
  | .R => d.id.printf 82 false -- 'R'
  | .L => d.id.printf 76 false -- 'L'
  | .B => d.id.printf 66 false -- 'B'
  | .S => d.id.printf 83 false -- 'S'
  | .D => d.date.printf 68 -- 'D'
  | .Dy => d.date.printf 121 -- 'y'
  | .Dm => d.date.printf 111 -- 'o'
  | .Dd => d.date.printf 100 -- 'd'
  | .T => d.date.printf 84 -- 'T'
  | .Th => d.date.printf 104 -- 'h'
  | .Tm => d.date.printf 109 -- 'm'
  | .Ts => d.date.printf 115 -- 's'
  | .P => .ok (cstr d.user)
  | .DS => .ok (decimal d.seq)
  | .DP => .ok (decimal d.prevSeq)
  | .Dn => .ok (printSeqList d.included)
  | .Dx => .ok (printSeqList d.excluded)
  | .Dg => .ok (printSeqList d.ignored)
  | .MR => .ok (printStringList d.mrs)
  | .C => .ok (printStringList d.comments)
  | .UN => .ok (if f.users = [] then noneText ++ [10] else printStringList f.users)
  | .FL => .ok (printFlags f.flags)
  | .Y => .ok (printFlag (f.flags.type.map cstr))
  | .MF => .ok (printYesno f.flags.mrChecker.isSome)
  | .MP => .ok (printFlag (f.flags.mrChecker.map cstr))
  | .KF => .ok (printYesno f.flags.noIdKeywordsIsFatal)
  | .BF => .ok (printYesno f.flags.branch)
  | .J => .ok (printYesno f.flags.jointEdit)
  | .LK => .ok (printFlag (if f.flags.allLocked then some [97] else releasesText f.flags.locked))
  | .Q => .ok ((f.flags.userDef.map cstr).getD [])
  | .M => .ok (printFlag (if f.getModuleName = [] then none else some (cstr f.getModuleName)))
  | .FB => .ok (printFlag (releaseText f.flags.floor))
  | .CB => .ok (printFlag (releaseText f.flags.ceiling))
  | .Ds => .ok (printFlag (sidText f.flags.defaultSid))
  | .ND => .ok (printYesno f.flags.nullDeltas)
  | .FD => .ok (if f.comments = [] then noneText ++ [10] else printStringList f.comments)
  | .BD => f.emitRawBody
  | .GB => f.getBody d
  | .Z => .ok [64, 40, 35, 41]
  | .F => .ok (basePart f.sfile.bytes)
  | .PN => (f.canon.mapError .failure).map cstr
  | .Dt | .DL | .DI | .W | .A => .ok []

/-- `do_print_delta_key`: what it prints for a keyword. `format` is `print_delta`. -/
def doPrintDeltaKey (f : PrsFile) (d : FullDelta) (format : List UInt8 → Except Quit (List UInt8)) :
    Keyword → Except Quit (List UInt8)
  | .Dt => format (ascii ":DT: :I: :D: :T: :P: :DS: :DP:")
  | .DL => format (ascii ":Li:/:Ld:/:Lu:")
  | .DI => do
    let included ← if d.included = [] then .ok [] else format (ascii ":Dn:")
    let excluded ← if d.excluded = [] then .ok [] else format (ascii "/:Dx:")
    let ignored ← if d.ignored = [] then .ok [] else format (ascii "/:Dg:")
    return included ++ excluded ++ ignored
  | .W => format (ascii ":Z::M:\t:I:")
  | .A => format (ascii ":Z::Y: :M: :I::Z:")
  | k => keyText f d k

/-- `print_delta_key`: what is printed for a key, and `none` if it is not recognised. -/
def printDeltaKey (f : PrsFile) (d : FullDelta) (format : List UInt8 → Except Quit (List UInt8)) (key : ℕ) :
    Except Quit (Option (List UInt8)) :=
  match Keyword.ofKey key with
  | none => .ok none
  | some k => (doPrintDeltaKey f d format k).map some

/-! ### The loop -/

/-- The loop of `print_delta`, which calls `key` for what is between two colons. -/
def formatLoop (key : ℕ → Except Quit (Option (List UInt8))) : List UInt8 → Except Quit (List UInt8)
  | [] => .ok []
  | [c] => .ok [c]
  | c :: a :: s =>
    if c = 92 then
      if a = 110 then -- 'n'
        if s = [] then .ok [] else (formatLoop key s).map (10 :: ·)
      else if a = 116 then (formatLoop key s).map (9 :: ·) -- 't'
      else if a = 92 then (formatLoop key s).map (92 :: ·)
      else (formatLoop key s).map (92 :: a :: ·)
    else if c ≠ 58 then (formatLoop key (a :: s)).map (c :: ·)
    else
      match s with
      | [] => .error .undefined -- `s[2]` is behind the terminator
      | b :: s =>
        if b = 58 then
          match key (key1 a) with
          | .error q => .error q
          | .ok none => (formatLoop key (a :: b :: s)).map (58 :: ·)
          | .ok (some t) => (formatLoop key s).map (t ++ ·)
        else
          match s with
          | [] => (formatLoop key [a, b]).map (58 :: ·)
          | e :: s =>
            if e = 58 then
              match key (key2 a b) with
              | .error q => .error q
              | .ok none => (formatLoop key (a :: b :: e :: s)).map (58 :: ·)
              | .ok (some t) => (formatLoop key s).map (t ++ ·)
            else (formatLoop key (a :: b :: e :: s)).map (58 :: ·)

/-- `print_delta`. -/
def printDelta (f : PrsFile) (d : FullDelta) : ℕ → List UInt8 → Except Quit (List UInt8)
  | 0, _ => .error .diverges
  | n + 1, s => formatLoop (printDeltaKey f d (printDelta f d n)) s

/-! ### Keys -/

namespace Keyword

theorem ofKey_key (k : Keyword) : ofKey k.key = some k := by cases k <;> decide +kernel

/-- One or two letters, none of them a colon. -/
theorem letters_cases (k : Keyword) : (∃ a, k.letters = [a] ∧ a ≠ 58) ∨
    ∃ a b, k.letters = [a, b] ∧ a ≠ 0 ∧ a ≠ 58 ∧ b ≠ 58 := by
  cases k <;> simp [letters]

theorem key1_inj {a b : UInt8} (h : key1 a = key1 b) : a = b := UInt8.toNat_inj.mp h

theorem key2_inj {a b c d : UInt8} (h : key2 a b = key2 c d) : a = c ∧ b = d := by
  have hb := b.toNat_lt
  have hd := d.toNat_lt
  rw [key2, key2] at h
  exact ⟨UInt8.toNat_inj.mp (by omega), UInt8.toNat_inj.mp (by omega)⟩

theorem key1_ne_key2 {a b c : UInt8} (h : b ≠ 0) : key1 a ≠ key2 b c := by
  have ha := a.toNat_lt
  have hb : b.toNat ≠ 0 := fun hb => h (UInt8.toNat_inj.mp hb)
  rw [key1, key2]
  omega

/-- A letter selects the keyword of this letter. -/
theorem ofKey_key1 {a : UInt8} {k : Keyword} : ofKey (key1 a) = some k ↔ k.letters = [a] := by
  constructor
  · intro h
    have hk : k.key = key1 a := by simpa using List.find?_some h
    rw [key] at hk
    rcases k.letters_cases with ⟨b, hb, -⟩ | ⟨b, c, hb, h0, -⟩
    · rw [hb] at hk ⊢
      rw [key1_inj hk]
    · rw [hb] at hk
      exact absurd hk.symm (key1_ne_key2 h0)
  · intro h
    rw [← ofKey_key k, key, h]

/-- Two letters select the keyword of these letters. -/
theorem ofKey_key2 {a b : UInt8} (ha : a ≠ 0) {k : Keyword} : ofKey (key2 a b) = some k ↔ k.letters = [a, b] := by
  constructor
  · intro h
    have hk : k.key = key2 a b := by simpa using List.find?_some h
    rw [key] at hk
    rcases k.letters_cases with ⟨c, hc, -⟩ | ⟨c, e, hc, -⟩
    · rw [hc] at hk
      exact absurd hk (key1_ne_key2 ha)
    · rw [hc] at hk ⊢
      obtain ⟨rfl, rfl⟩ := key2_inj hk
      rfl
  · intro h
    rw [← ofKey_key k, key, h]

end Keyword

/-! ### The keywords return -/

section

variable {f : PrsFile} {d : FullDelta}

theorem emitRawBody_ne_diverges : f.emitRawBody ≠ .error .diverges := map_ne_diverges (chompAll_ne_diverges _) _

theorem fullDeltaAtSeq_ne_diverges (F : FullTable) (seq : ℕ) : F.deltaAtSeq seq ≠ .error .diverges := by
  rw [FullTable.deltaAtSeq]
  split
  · split <;> simp
  · simp

theorem getBody_ne_diverges (h : f.deltaTable.table.highestSeqno < 65535) : f.getBody d ≠ .error .diverges := by
  rw [PrsFile.getBody]
  refine bind_ne_diverges (fullDeltaAtSeq_ne_diverges _ _) fun gotten _ => ?_
  rw [dif_pos h]
  refine bind_ne_diverges (prepareSeqstate_ne_diverges _ _ _ _ _) fun state _ => ?_
  refine bind_ne_diverges (get_ne_diverges _ _ (chompAll_ne_diverges _)) fun r _ => ?_
  dsimp only
  split
  · exact outputBody_ne_diverges _ _
  · exact bind_ne_diverges (writeLines_ne_diverges 0 _ _) fun _ _ => by simp [pure, Except.pure]

/-- The body is not printed in the end if the file has the largest number, and the delta is found. -/
theorem getBody_diverges_iff : f.getBody d = .error .diverges ↔
    65535 ≤ f.deltaTable.table.highestSeqno ∧ ∃ gotten, f.deltaTable.deltaAtSeq d.seq = .ok gotten := by
  by_cases h : f.deltaTable.table.highestSeqno < 65535
  · exact iff_of_false (getBody_ne_diverges h) fun hn => by omega
  · simp only [PrsFile.getBody, dif_neg h, and_iff_right (not_lt.mp h)]
    cases hd : f.deltaTable.deltaAtSeq d.seq with
    | ok gotten => exact iff_of_true rfl ⟨gotten, rfl⟩
    | error q =>
      refine iff_of_false (fun hq => ?_) (by simp)
      rw [error_bind] at hq
      exact fullDeltaAtSeq_ne_diverges _ _ (hd.trans (congrArg _ (Except.error.inj hq)))

/-- Only `:GB:` may not return. -/
theorem keyText_ne_diverges_of_ne {k : Keyword} (hk : k ≠ .GB) : keyText f d k ≠ .error .diverges := by
  cases k
  case GB => exact absurd rfl hk
  case I => exact print_ne_diverges d.id
  case R | L | B | S =>
    rw [keyText]
    exact printf_ne_diverges _ _ _
  case D | Dy | Dm | Dd | T | Th | Tm | Ts =>
    rw [keyText]
    exact date_printf_ne_diverges _ _
  case BD => exact emitRawBody_ne_diverges
  case PN =>
    rw [keyText]
    cases f.canon <;> simp [Except.mapError, Except.map]
  all_goals nofun

theorem keyText_ne_diverges (h : f.deltaTable.table.highestSeqno < 65535) (k : Keyword) :
    keyText f d k ≠ .error .diverges := by
  by_cases hk : k = .GB
  · rw [hk]
    exact getBody_ne_diverges h
  · exact keyText_ne_diverges_of_ne hk

end

end CSSC.Commands
