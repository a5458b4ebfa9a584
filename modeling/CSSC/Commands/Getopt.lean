import CSSC.Lines.Text
import Mathlib.Data.List.Dedup
import Mathlib.Data.List.TakeDrop
import Mathlib.Data.Multiset.Basic

/-!
# The options of a command

The arguments of a command are put in a new order, options first, and then an iterator goes through them and finds the
options again. `CsscOptions` is the iterator, with `reorder`, the constructor and `next`; an element of `argv_` is an
argument with its place on the command line. `collect` is what a command does with it: it calls `next` until there are
no more options, and then takes what is left.

That nothing is lost, that the order is kept and that what follows `--` is not taken for an option is said by
`Accounts`. The iteration ends (`collect_ne_outOfSteps`), and **everything is accounted for exactly when the two
passes agree on the arguments** (`accounts_iff`): the one looks at the first two characters of an argument and drops
it for a `--`, the other at the whole of it.
-/

namespace CSSC.Commands

open CSSC.Lines

/-! ### The model -/

/-- An element of `argv_`: an argument and where it stood on the command line. -/
abbrev Elem := CString × ℕ

/-- How `next` ends when it does not return. -/
inductive Stop where
  /-- `exit(status)`. -/
  | exit (status : ℤ)
  /-- The number of calls was not enough. -/
  | outOfSteps
  deriving DecidableEq, Repr

/-- What `next` returns. -/
inductive Returned where
  /-- `END_OF_ARGUMENTS`. -/
  | endOfArguments
  /-- `UNRECOGNIZED_OPTION`. -/
  | unrecognizedOption
  /-- An option letter. -/
  | option (c : UInt8)
  deriving DecidableEq, Repr

/-- `CSSC_Options`. A pointer into a string is what follows it. -/
structure CsscOptions where
  /-- `argv_`. -/
  argv : List Elem
  /-- `index_`. -/
  index : ℕ
  /-- `cindex_`. -/
  cindex : Option (List UInt8)
  /-- `opts_`. -/
  opts : CString
  /-- `opterr_`. -/
  opterr : ℤ
  /-- `arg_`. -/
  arg : Option (List UInt8)

/-- The two arrays `options` and `files` of `reorder`. -/
def separate : List Elem → List Elem × List Elem
  | [] => ([], [])
  | p :: ps =>
    if p.1.bytes.head? = some 45 then
      -- the rest goes into the list of files
      if p.1.bytes[1]? = some 45 then ([], ps)
      else (p :: (separate ps).1, (separate ps).2)
    else ((separate ps).1, p :: (separate ps).2)

/-- `reorder`. -/
def reorder (argv : List Elem) : List Elem :=
  argv.take 1 ++ ((separate argv.tail).1 ++ (separate argv.tail).2)

/-- `CSSC_Options::CSSC_Options`. -/
def CsscOptions.construct (av : List CString) (s : CString) (err : ℤ) : CsscOptions where
  argv := reorder av.zipIdx
  index := 1
  cindex := none
  opts := s
  opterr := err
  arg := none

namespace CsscOptions

/-- `next`, from the point where the argument character is collected. -/
def letter (o : CsscOptions) (c : UInt8) (s : List UInt8) : Except Stop (Returned × CsscOptions) :=
  match o.opts.bytes.dropWhile (· ≠ c) with
  | [] =>
    if o.opterr ≠ 0 then .error (.exit o.opterr)
    else .ok (.unrecognizedOption, { o with cindex := some s, arg := some (c :: s) })
  | _ :: spec =>
    if 58 ∈ o.opts.bytes then .error (.exit 3)
    else if spec.head? = some 33 then .ok (.option c, { o with cindex := none, arg := some s })
    else .ok (.option c, { o with cindex := some s, arg := none })

/-- `next`. -/
def next (o : CsscOptions) : Except Stop (Returned × CsscOptions) :=
  match o.cindex.getD [] with
  | c :: s => o.letter c s
  | [] =>
    match o.argv[o.index]? with
    | none => .ok (.endOfArguments, o)
    | some p =>
      match p.1.bytes with
      | dash :: c :: s =>
        if dash ≠ 45 then .ok (.endOfArguments, { o with cindex := some p.1.bytes })
        else if c = 45 ∧ s = [] then
          .ok (.endOfArguments, { o with index := o.index + 1, cindex := some p.1.bytes })
        else letter { o with index := o.index + 1 } c s
      | _ => .ok (.endOfArguments, { o with cindex := some p.1.bytes })

/-- An option as a command sees it: the element it was found in, what was returned, and the argument. -/
abbrev Found := Option Elem × Returned × Option (List UInt8)

/-- A command calls `next` until there are no more options; the arguments from `get_index()` on are files. -/
def collect : ℕ → CsscOptions → Except Stop (List Found × List Elem)
  | 0, _ => .error .outOfSteps
  | n + 1, o =>
    match o.next with
    | .error e => .error e
    | .ok (.endOfArguments, o') => .ok ([], o'.argv.drop o'.index)
    | .ok (r, o') =>
      match collect n o' with
      | .error e => .error e
      | .ok (out, rest) => .ok ((o'.argv[o'.index - 1]?, r, o'.arg) :: out, rest)

end CsscOptions

open CsscOptions

/-- The characters of an argument that an option stands for. -/
def letters : Returned × Option (List UInt8) → List UInt8
  | (.endOfArguments, _) => []
  | (.unrecognizedOption, arg) => (arg.getD []).take 1
  | (.option c, arg) => c :: arg.getD []

/-- The arguments that options were found in. -/
def consumed (out : List Found) : List Elem := (out.filterMap Prod.fst).dedup

/-- The argument is `--`. -/
def IsSeparator (p : Elem) : Prop := p.1.bytes = [45, 45]

instance : DecidablePred IsSeparator := fun _ => inferInstanceAs (Decidable (_ = _))

/-- Every argument is accounted for, by the options found and the files left. -/
structure Accounts (args : List Elem) (out : List Found) (rest : List Elem) : Prop where
  /-- Each argument once, except one `--`. -/
  once : (consumed out ++ rest).Perm args ∨ ∃ p, IsSeparator p ∧ (p :: (consumed out ++ rest)).Perm args
  /-- The options found in an argument spell it out. -/
  spelled : ∀ p ∈ consumed out, p.1.bytes = 45 :: (out.filter (·.1 = some p)).flatMap fun x => letters x.2
  /-- The options are in the order of the command line. -/
  options_in_order : (consumed out).Sublist args
  /-- So are the files. -/
  files_in_order : rest.Sublist args
  /-- What follows `--` is not taken for an option. -/
  none_after : ∀ a p b, args = a ++ p :: b → IsSeparator p → ∀ q ∈ consumed out, q ∉ b

/-! ### One call of `next` -/

/-- An argument that `next` takes options from. -/
def IsOption (p : Elem) : Prop := p.1.bytes.head? = some 45 ∧ p.1.bytes ≠ [45]

instance : DecidablePred IsOption := fun _ => inferInstanceAs (Decidable (_ ∧ _))

theorem isOption_iff {p : Elem} : IsOption p ↔ ∃ c s, p.1.bytes = 45 :: c :: s := by
  rw [IsOption]
  cases p.1.bytes with
  | nil => simp
  | cons b s => cases s with
    | nil => simp
    | cons c s => simp

theorem IsSeparator.isOption {p : Elem} (h : IsSeparator p) : IsOption p := isOption_iff.mpr ⟨45, [], h⟩

/-- `letter` reads some of the characters, and gives the option for them. -/
theorem letter_ok {o o' : CsscOptions} {c : UInt8} {s : List UInt8} {r : Returned} (h : o.letter c s = .ok (r, o')) :
    r ≠ .endOfArguments ∧ o'.argv = o.argv ∧ o'.index = o.index ∧ 0 < (letters (r, o'.arg)).length ∧
      letters (r, o'.arg) ++ o'.cindex.getD [] = c :: s := by
  rw [letter] at h
  split at h
  · split at h
    · cases h
    · cases h
      simp [letters]
  · split at h
    · cases h
    · split at h
      · cases h
        simp [letters]
      · cases h
        simp [letters]

/-- What a call of `next` does when it returns. -/
theorem next_ok {o o' : CsscOptions} {r : Returned} (h : o.next = .ok (r, o')) :
    (∃ c s, o.cindex.getD [] = c :: s ∧ o.letter c s = .ok (r, o')) ∨
    (o.cindex.getD [] = [] ∧ r = .endOfArguments ∧ o'.argv = o.argv ∧ o'.index = o.index ∧
      ∀ p, o.argv[o.index]? = some p → ¬ IsOption p) ∨
    (o.cindex.getD [] = [] ∧ r = .endOfArguments ∧ o'.argv = o.argv ∧ o'.index = o.index + 1 ∧
      ∃ p, o.argv[o.index]? = some p ∧ IsSeparator p) ∨
    (o.cindex.getD [] = [] ∧ ∃ p c s, o.argv[o.index]? = some p ∧ ¬ IsSeparator p ∧ p.1.bytes = 45 :: c :: s ∧
      letter { o with index := o.index + 1 } c s = .ok (r, o')) := by
  rw [next] at h
  split at h
  · next c s hc => exact .inl ⟨c, s, hc, h⟩
  · next hc =>
    refine .inr ?_
    split at h
    · next hp =>
      cases h
      exact .inl ⟨hc, rfl, rfl, rfl, by simp [hp]⟩
    · next p hp =>
      split at h
      · next dash c s hb =>
        split at h
        · next hd =>
          cases h
          refine .inl ⟨hc, rfl, rfl, rfl, ?_⟩
          rintro q hq hq'
          obtain ⟨c', s', hq'⟩ := isOption_iff.mp hq'
          rw [hp, Option.some.injEq] at hq
          subst hq
          simp_all
        · next hd =>
          have hd : dash = 45 := by simpa using hd
          subst hd
          split at h
          · next he =>
            cases h
            obtain ⟨rfl, rfl⟩ := he
            exact .inr (.inl ⟨hc, rfl, rfl, rfl, p, hp, hb⟩)
          · next he =>
            refine .inr (.inr ⟨hc, p, c, s, hp, ?_, hb, h⟩)
            simpa [IsSeparator, hb] using he
      · next hb =>
        cases h
        refine .inl ⟨hc, rfl, rfl, rfl, ?_⟩
        rintro q hq hq'
        obtain ⟨c', s', hq'⟩ := isOption_iff.mp hq'
        rw [hp, Option.some.injEq] at hq
        subst hq
        exact hb _ _ _ hq'

/-! ### The iteration ends -/

/-- What is still to be read: the rest of an argument, and the arguments after it. -/
def toRead (o : CsscOptions) : ℕ :=
  (o.cindex.getD []).length + ((o.argv.drop o.index).map fun p => p.1.bytes.length).sum

/-- A call that gives an option reads something. -/
theorem toRead_lt {o o' : CsscOptions} {r : Returned} (h : o.next = .ok (r, o')) (hr : r ≠ .endOfArguments) :
    toRead o' < toRead o := by
  rcases next_ok h with ⟨c, s, hc, h⟩ | ⟨-, h, -⟩ | ⟨-, h, -⟩ | ⟨hc, p, c, s, hp, -, hb, h⟩
  · obtain ⟨-, ha, hi, hl, hs⟩ := letter_ok h
    have hs := congrArg List.length hs
    rw [List.length_append] at hs
    rw [toRead, toRead, ha, hi, hc]
    omega
  · exact absurd h hr
  · exact absurd h hr
  · obtain ⟨-, ha, hi, hl, hs⟩ := letter_ok h
    have hs := congrArg List.length hs
    obtain ⟨hlt, rfl⟩ := List.getElem?_eq_some_iff.mp hp
    rw [List.length_append] at hs
    rw [toRead, toRead, ha, hi, hc, List.drop_eq_getElem_cons hlt, List.map_cons, List.sum_cons, hb]
    simp only [List.length_cons] at hs ⊢
    omega

theorem letter_ne_outOfSteps (o : CsscOptions) (c : UInt8) (s : List UInt8) : o.letter c s ≠ .error .outOfSteps := by
  rw [letter]
  split
  · split <;> simp
  · split
    · simp
    · split <;> simp

/-- A call of `next` returns or exits. -/
theorem next_ne_outOfSteps (o : CsscOptions) : o.next ≠ .error .outOfSteps := by
  rw [next]
  split
  · exact letter_ne_outOfSteps _ _ _
  · split
    · nofun
    · split
      · split
        · nofun
        · split
          · nofun
          · exact letter_ne_outOfSteps _ _ _
      · nofun

/-- Calls as many as there are characters, and one more, are enough. -/
theorem collect_ne_outOfSteps {n : ℕ} {o : CsscOptions} (hn : toRead o < n) : collect n o ≠ .error .outOfSteps := by
  induction n generalizing o with
  | zero => omega
  | succ n ih =>
    rw [collect]
    split
    · next e he =>
      rintro ⟨⟩
      exact next_ne_outOfSteps o he
    · nofun
    · next r o' hr hne =>
      have hlt := toRead_lt hne hr
      have := ih (o := o') (by omega)
      split
      · next e he => rwa [he] at this
      · nofun

/-! ### What the iteration finds -/

/-- The options found, argument by argument. -/
inductive Groups : List Elem → List Found → Prop where
  /-- Nothing is found in no arguments. -/
  | nil : Groups [] []
  /-- What is found in the first argument spells it. -/
  | cons {p : Elem} {ps : List Elem} {xs : List (Returned × Option (List UInt8))} {out : List Found}
      (hx : xs ≠ []) (hp : p.1.bytes = 45 :: xs.flatMap letters) (h : Groups ps out) :
      Groups (p :: ps) (xs.map (some p, ·) ++ out)

/-- The arguments that `next` takes options from, and what it leaves. -/
def takeOptions : List Elem → List Elem × List Elem
  | [] => ([], [])
  | p :: ps =>
    if IsSeparator p then ([], ps)
    else if IsOption p then (p :: (takeOptions ps).1, (takeOptions ps).2)
    else ([], p :: ps)

theorem takeOptions_of_isOption {p : Elem} {ps : List Elem} (hs : ¬ IsSeparator p) (hp : IsOption p) :
    takeOptions (p :: ps) = (p :: (takeOptions ps).1, (takeOptions ps).2) := by
  rw [takeOptions, if_neg hs, if_pos hp]

/-- Nothing is taken when the first argument is not an option. -/
theorem takeOptions_of_not_isOption {ps : List Elem} (h : ∀ p, ps.head? = some p → ¬ IsOption p) : takeOptions ps = ([], ps) := by
  cases ps with
  | nil => rfl
  | cons p ps =>
    have hp := h p rfl
    rw [takeOptions, if_neg (fun hs => hp (IsSeparator.isOption hs)), if_neg hp]

/-- The iteration goes on with the argument it is in, and then with those after it. -/
theorem collect_spec {n : ℕ} {o : CsscOptions} {out : List Found} {rest : List Elem}
    (h : collect n o = .ok (out, rest)) :
    rest = (takeOptions (o.argv.drop o.index)).2 ∧ ∃ (xs : List (Returned × Option (List UInt8))) (out' : List Found),
      out = xs.map (o.argv[o.index - 1]?, ·) ++ out' ∧ (∀ x ∈ xs, letters x ≠ []) ∧
      xs.flatMap letters = o.cindex.getD [] ∧ Groups (takeOptions (o.argv.drop o.index)).1 out' := by
  induction n generalizing o out rest with
  | zero => cases h
  | succ n ih =>
    rw [collect] at h
    split at h
    · cases h
    · next o' hn =>
      cases h
      -- an option letter is never the end
      rcases next_ok hn with ⟨c, s, -, hl⟩ | ⟨hc, -, ha, hi, hp⟩ | ⟨hc, -, ha, hi, p, hp, hs⟩ | ⟨-, p, c, s, -, -, -, hl⟩
      · exact absurd rfl (letter_ok hl).1
      · rw [ha, hi, hc, takeOptions_of_not_isOption]
        · exact ⟨rfl, [], [], rfl, nofun, rfl, .nil⟩
        · simpa using hp
      · obtain ⟨hlt, rfl⟩ := List.getElem?_eq_some_iff.mp hp
        rw [ha, hi, hc, List.drop_eq_getElem_cons hlt, takeOptions, if_pos hs]
        exact ⟨rfl, [], [], rfl, nofun, rfl, .nil⟩
      · exact absurd rfl (letter_ok hl).1
    · next r o' hr hn =>
      split at h
      · cases h
      · next out₁ rest₁ hc =>
        cases h
        obtain ⟨hrest, xs, out', rfl, hne, hxs, hg⟩ := ih hc
        rcases next_ok hn with ⟨c, s, hp, hl⟩ | ⟨-, hr', -⟩ | ⟨-, hr', -⟩ | ⟨hp, p, c, s, hi, hns, hb, hl⟩
        · obtain ⟨-, ha, hi, hpos, hs⟩ := letter_ok hl
          rw [ha, hi] at hrest hg ⊢
          refine ⟨hrest, (r, o'.arg) :: xs, out', rfl, ?_, ?_, hg⟩
          · exact List.forall_mem_cons.mpr ⟨List.length_pos_iff.mp hpos, hne⟩
          rw [List.flatMap_cons, hxs, hs, hp]
        · exact absurd hr' hr
        · exact absurd hr' hr
        · obtain ⟨-, ha, hi', -, hs⟩ := letter_ok hl
          obtain ⟨hlt, rfl⟩ := List.getElem?_eq_some_iff.mp hi
          rw [ha, hi'] at hrest hg ⊢
          rw [List.drop_eq_getElem_cons hlt, takeOptions_of_isOption hns (isOption_iff.mpr ⟨c, s, hb⟩), hp]
          refine ⟨hrest, [], _, rfl, nofun, rfl, ?_⟩
          rw [Nat.add_sub_cancel, hi]
          have hpieces : o.argv[o.index].1.bytes = 45 :: ((r, o'.arg) :: xs).flatMap letters := by
            rw [List.flatMap_cons, hxs, hs, hb]
          exact .cons (List.cons_ne_nil _ _) hpieces hg

/-! ### What the options found say about the arguments -/

theorem Groups.mem {ps : List Elem} {out : List Found} (h : Groups ps out) : ∀ x ∈ out, ∃ p ∈ ps, x.1 = some p := by
  induction h with
  | nil => simp
  | cons hx hp h ih =>
    intro x hx
    rcases List.mem_append.mp hx with hx | hx
    · obtain ⟨y, -, rfl⟩ := List.mem_map.mp hx
      exact ⟨_, List.mem_cons_self, rfl⟩
    · obtain ⟨q, hq, he⟩ := ih x hx
      exact ⟨q, List.mem_cons_of_mem _ hq, he⟩

/-- Several options found in one argument count as one. -/
theorem dedup_map_append {α β : Type} [DecidableEq α] (p : α) {xs : List β} {l : List α} (hx : xs ≠ []) (hp : p ∉ l) :
    (xs.map (fun _ => p) ++ l).dedup = p :: l.dedup := by
  induction xs with
  | nil => exact absurd rfl hx
  | cons x xs ih =>
    rw [List.map_cons, List.cons_append]
    cases xs with
    | nil => exact List.dedup_cons_of_notMem hp
    | cons y xs =>
      rw [List.dedup_cons_of_mem (by simp), ih (List.cons_ne_nil _ _)]

theorem Groups.consumed {ps : List Elem} {out : List Found} (h : Groups ps out) (hn : ps.Nodup) :
    consumed out = ps := by
  induction h with
  | nil => rfl
  | @cons p ps xs out hx hp h ih =>
    obtain ⟨hnot, hn⟩ := List.nodup_cons.mp hn
    have hmem : p ∉ out.filterMap Prod.fst := by
      intro hm
      obtain ⟨x, hx, he⟩ := List.mem_filterMap.mp hm
      obtain ⟨q, hq, he'⟩ := h.mem x hx
      rw [he, Option.some.injEq] at he'
      exact hnot (he' ▸ hq)
    have hmap : (xs.map (some p, ·)).filterMap Prod.fst = xs.map fun _ => p := by
      rw [List.filterMap_map, ← List.filterMap_eq_map]
      rfl
    rw [Commands.consumed, List.filterMap_append, hmap, dedup_map_append p hx hmem]
    exact congrArg _ (ih hn)

theorem Groups.spelled {ps : List Elem} {out : List Found} (h : Groups ps out) (hn : ps.Nodup) :
    ∀ q ∈ ps, q.1.bytes = 45 :: (out.filter (·.1 = some q)).flatMap fun x => letters x.2 := by
  induction h with
  | nil => simp
  | @cons p ps xs out hx hp h ih =>
    obtain ⟨hnot, hn⟩ := List.nodup_cons.mp hn
    intro q hq
    rw [List.filter_append]
    rcases List.mem_cons.mp hq with rfl | hq
    · have hout : out.filter (·.1 = some q) = [] := by
        refine List.filter_eq_nil_iff.mpr fun x hx => ?_
        obtain ⟨r, hr, he⟩ := h.mem x hx
        simp only [he, Option.some.injEq, decide_eq_true_eq]
        rintro rfl
        exact hnot hr
      have hall : (xs.map (some q, ·)).filter (·.1 = some q) = xs.map (some q, ·) := by
        refine List.filter_eq_self.mpr fun x hx => ?_
        obtain ⟨y, -, rfl⟩ := List.mem_map.mp hx
        simp
      rw [hout, hall, List.append_nil, hp, List.flatMap_map]
    · have hnone : (xs.map (some p, ·)).filter (·.1 = some q) = [] := by
        have hne : p ≠ q := fun he => hnot (he ▸ hq)
        refine List.filter_eq_nil_iff.mpr fun x hx => ?_
        obtain ⟨y, -, rfl⟩ := List.mem_map.mp hx
        simpa using hne
      rw [hnone, List.nil_append]
      exact ih hn q hq

/-! ### The new order -/

/-- The argument starts with a dash. -/
def Dashed (p : Elem) : Prop := p.1.bytes.head? = some 45

instance : DecidablePred Dashed := fun _ => inferInstanceAs (Decidable (_ = _))

/-- The argument starts with two dashes. -/
def TwoDashes (p : Elem) : Prop := p.1.bytes.take 2 = [45, 45]

instance : DecidablePred TwoDashes := fun _ => inferInstanceAs (Decidable (_ = _))

/-- The arguments before the first one that starts with two dashes. -/
def before (args : List Elem) : List Elem := args.takeWhile (¬ TwoDashes ·)

/-- That argument, and those after it. -/
def fromDashes (args : List Elem) : List Elem := args.dropWhile (¬ TwoDashes ·)

theorem before_append (args : List Elem) : before args ++ fromDashes args = args := List.takeWhile_append_dropWhile

theorem twoDashes_iff {p : Elem} : TwoDashes p ↔ Dashed p ∧ p.1.bytes[1]? = some 45 := by
  rw [TwoDashes, Dashed]
  cases p.1.bytes with
  | nil => simp
  | cons b s => cases s with
    | nil => simp
    | cons c s => simp

/-- The arguments that start with a dash. -/
def dashed (l : List Elem) : List Elem := l.filter (Dashed ·)

/-- The others. -/
def files (l : List Elem) : List Elem := l.filter (¬ Dashed ·)

theorem mem_dashed {l : List Elem} {p : Elem} : p ∈ dashed l ↔ p ∈ l ∧ Dashed p := by simp [dashed]

theorem mem_files {l : List Elem} {p : Elem} : p ∈ files l ↔ p ∈ l ∧ ¬ Dashed p := by simp [files]

theorem dashed_cons_of_pos {p : Elem} {l : List Elem} (h : Dashed p) : dashed (p :: l) = p :: dashed l :=
  List.filter_cons_of_pos (by simpa using h)

theorem files_cons_of_pos {p : Elem} {l : List Elem} (h : Dashed p) : files (p :: l) = files l :=
  List.filter_cons_of_neg (by simpa using h)

theorem dashed_cons_of_neg {p : Elem} {l : List Elem} (h : ¬ Dashed p) : dashed (p :: l) = dashed l :=
  List.filter_cons_of_neg (by simpa using h)

theorem files_cons_of_neg {p : Elem} {l : List Elem} (h : ¬ Dashed p) : files (p :: l) = p :: files l :=
  List.filter_cons_of_pos (by simpa using h)

theorem dashed_eq_self {l : List Elem} (h : ∀ p ∈ l, Dashed p) : dashed l = l :=
  List.filter_eq_self.mpr fun p hp => by simpa using h p hp

theorem files_eq_self {l : List Elem} (h : ∀ p ∈ l, ¬ Dashed p) : files l = l :=
  List.filter_eq_self.mpr fun p hp => by simpa using h p hp

theorem dashed_eq_nil {l : List Elem} (h : ∀ p ∈ l, ¬ Dashed p) : dashed l = [] :=
  List.filter_eq_nil_iff.mpr fun p hp => by simpa using h p hp

theorem files_eq_nil {l : List Elem} (h : ∀ p ∈ l, Dashed p) : files l = [] :=
  List.filter_eq_nil_iff.mpr fun p hp => by simpa using h p hp

theorem dashed_append_files_perm (l : List Elem) : (dashed l ++ files l).Perm l := by
  simpa only [dashed, files, decide_not] using List.filter_append_perm (Dashed ·) l

theorem separate_eq (args : List Elem) : separate args =
    (dashed (before args), files (before args) ++ (fromDashes args).tail) := by
  induction args with
  | nil => rfl
  | cons p ps ih =>
    rw [separate, before, fromDashes]
    by_cases hd : Dashed p
    · rw [if_pos (show p.1.bytes.head? = some 45 from hd)]
      by_cases h2 : p.1.bytes[1]? = some 45
      · have h : TwoDashes p := twoDashes_iff.mpr ⟨hd, h2⟩
        rw [if_pos h2, List.takeWhile_cons_of_neg (by simpa using h), List.dropWhile_cons_of_neg (by simpa using h)]
        rfl
      · have h : ¬ TwoDashes p := fun h => h2 (twoDashes_iff.mp h).2
        rw [if_neg h2, List.takeWhile_cons_of_pos (by simpa using h), List.dropWhile_cons_of_pos (by simpa using h),
          dashed_cons_of_pos hd, files_cons_of_pos hd, ih]
        rfl
    · have h : ¬ TwoDashes p := fun h => hd (twoDashes_iff.mp h).1
      rw [if_neg (show ¬ p.1.bytes.head? = some 45 from hd), List.takeWhile_cons_of_pos (by simpa using h),
        List.dropWhile_cons_of_pos (by simpa using h), dashed_cons_of_neg hd, files_cons_of_neg hd, ih]
      rfl

/-- What the iterator goes through. -/
theorem reorder_drop (l : List Elem) : (reorder l).drop 1 =
    dashed (before l.tail) ++ (files (before l.tail) ++ (fromDashes l.tail).tail) := by
  rw [reorder, separate_eq]
  cases l with
  | nil => rfl
  | cons p ps => rfl

/-! ### What the iterator takes -/

theorem takeOptions_append {os : List Elem} (h : ∀ p ∈ os, IsOption p ∧ ¬ IsSeparator p) (l : List Elem) :
    takeOptions (os ++ l) = (os ++ (takeOptions l).1, (takeOptions l).2) := by
  induction os with
  | nil => rfl
  | cons p os ih =>
    obtain ⟨ho, hs⟩ := h p List.mem_cons_self
    rw [List.cons_append, takeOptions_of_isOption hs ho, ih fun q hq => h q (List.mem_cons_of_mem _ hq)]
    rfl

/-- Nothing is lost, except one `--`. -/
theorem takeOptions_eq (l : List Elem) : (takeOptions l).1 ++ (takeOptions l).2 = l ∨
    ∃ p, IsSeparator p ∧ l = (takeOptions l).1 ++ p :: (takeOptions l).2 := by
  induction l with
  | nil => exact .inl rfl
  | cons p ps ih =>
    rw [takeOptions]
    by_cases hs : IsSeparator p
    · rw [if_pos hs]
      exact .inr ⟨p, hs, rfl⟩
    · rw [if_neg hs]
      by_cases ho : IsOption p
      · rw [if_pos ho]
        rcases ih with h | ⟨q, hq, h⟩
        · exact .inl (congrArg (p :: ·) h)
        · exact .inr ⟨q, hq, congrArg (p :: ·) h⟩
      · rw [if_neg ho]
        exact .inl rfl

theorem takeOptions_sublist (l : List Elem) : (takeOptions l).1.Sublist l := by
  rcases takeOptions_eq l with h | ⟨p, -, h⟩
  · conv_rhs => rw [← h]
    exact List.sublist_append_left _ _
  · conv_rhs => rw [h]
    exact List.sublist_append_left _ _

/-- The argument is a dash on its own. -/
def IsDash (p : Elem) : Prop := p.1.bytes = [45]

instance : DecidablePred IsDash := fun _ => inferInstanceAs (Decidable (_ = _))

theorem isOption_of_dashed {p : Elem} (h : Dashed p) (hd : ¬ IsDash p) : IsOption p := ⟨h, hd⟩

theorem IsSeparator.twoDashes {p : Elem} (h : IsSeparator p) : TwoDashes p := by rw [TwoDashes, h]; rfl

/-- Where the iterator stops: at a dash on its own, at the first file, or somewhere after the separator. -/
theorem takeOptions_cases {pre : List Elem} (h : ∀ p ∈ pre, ¬ TwoDashes p) (post : List Elem) :
    (∃ o₁ x o₂, dashed pre = o₁ ++ x :: o₂ ∧ IsDash x ∧
      takeOptions (dashed pre ++ (files pre ++ post)) =
        (o₁, x :: o₂ ++ (files pre ++ post))) ∨
    ((∀ p ∈ pre, ¬ IsDash p) ∧ (∃ p ∈ pre, ¬ Dashed p) ∧
      takeOptions (dashed pre ++ (files pre ++ post)) =
        (dashed pre, files pre ++ post)) ∨
    ((∀ p ∈ pre, IsOption p) ∧ dashed pre = pre ∧ files pre = [] ∧
      takeOptions (pre ++ post) = (pre ++ (takeOptions post).1, (takeOptions post).2)) := by
  have hsep : ∀ {p}, p ∈ pre → ¬ IsSeparator p := fun hp hs => h _ hp hs.twoDashes
  by_cases hx : ∃ x ∈ pre, IsDash x
  · refine .inl ?_
    -- the options before the first dash on its own
    obtain ⟨x, hx, hxd⟩ := hx
    obtain ⟨y, hfind⟩ : ∃ y, (dashed pre).find? (IsDash ·) = some y := by
      refine Option.isSome_iff_exists.mp (List.find?_isSome.mpr ⟨x, mem_dashed.mpr ⟨hx, ?_⟩, by simpa using hxd⟩)
      rw [IsDash] at hxd
      simp [Dashed, hxd]
    obtain ⟨hy, o₁, o₂, ho, hnot⟩ := List.find?_eq_some_iff_append.mp hfind
    replace hy : IsDash y := by simpa using hy
    refine ⟨o₁, y, o₂, ho, hy, ?_⟩
    have hopt : ∀ p ∈ o₁, IsOption p ∧ ¬ IsSeparator p := by
      intro p hp
      obtain ⟨hp', hd⟩ := mem_dashed.mp (ho ▸ List.mem_append_left _ hp)
      exact ⟨isOption_of_dashed hd (by simpa using hnot p hp), hsep hp'⟩
    rw [ho, List.append_assoc, takeOptions_append hopt, List.cons_append, takeOptions_of_not_isOption, List.append_nil]
    rintro p ⟨⟩
    exact fun hp => hp.2 hy
  · refine .inr ?_
    push Not at hx
    have hopt : ∀ p ∈ dashed pre, IsOption p ∧ ¬ IsSeparator p := by
      intro p hp
      obtain ⟨hp, hd⟩ := mem_dashed.mp hp
      exact ⟨isOption_of_dashed hd (hx p hp), hsep hp⟩
    by_cases hf : ∃ p ∈ pre, ¬ Dashed p
    · refine .inl ⟨hx, hf, ?_⟩
      rw [takeOptions_append hopt, takeOptions_of_not_isOption, List.append_nil]
      -- the next argument is a file
      intro p hp ho
      obtain ⟨f, hf, hfd⟩ := hf
      cases hfs : files pre with
      | nil => exact absurd (mem_files.mpr ⟨hf, hfd⟩) (hfs ▸ List.not_mem_nil)
      | cons g gs =>
        have hg : g ∈ files pre := hfs ▸ List.mem_cons_self
        rw [hfs] at hp
        cases hp
        exact (mem_files.mp hg).2 ho.1
    · refine .inr ?_
      push Not at hf
      have hself := dashed_eq_self hf
      rw [hself] at hopt
      exact ⟨fun p hp => (hopt p hp).1, hself, files_eq_nil hf, takeOptions_append hopt post⟩

/-! ### When everything is accounted for -/

/-- The reordering and the iterator agree on these arguments. -/
structure Agreed (args : List Elem) : Prop where
  /-- The first argument that starts with two dashes is `--`. -/
  dashes : ∀ s, (fromDashes args).head? = some s → IsSeparator s
  /-- If there is a dash on its own before it, no file stands before an argument with a dash. -/
  sorted : (∃ x ∈ before args, IsDash x) → (before args).Pairwise fun f g => Dashed g → Dashed f
  /-- If there are only options before it, the argument after it is not one. -/
  following : (∀ p ∈ before args, IsOption p) → ∀ q, (fromDashes args).tail.head? = some q → ¬ IsOption q

/-- The options before the files, when that is the order they have. -/
theorem dashed_append_files {l : List Elem} (h : l.Pairwise fun f g => Dashed g → Dashed f) :
    dashed l ++ files l = l := by
  induction h with
  | nil => rfl
  | @cons f l hf h ih =>
    by_cases hd : Dashed f
    · rw [dashed_cons_of_pos hd, files_cons_of_pos hd, List.cons_append, ih]
    · have hl : ∀ g ∈ l, ¬ Dashed g := fun g hg hgd => hd (hf g hg hgd)
      rw [dashed_cons_of_neg hd, files_cons_of_neg hd, dashed_eq_nil hl, files_eq_self hl, List.nil_append]

theorem not_twoDashes_of_mem_before (args : List Elem) : ∀ p ∈ before args, ¬ TwoDashes p :=
  fun p hp => by simpa using List.mem_takeWhile_imp hp

section

variable {args : List Elem} (hargs : args.Pairwise (·.2 < ·.2))

include hargs

/-- The place on the command line tells the arguments apart. -/
theorem nodup_of_pairwise : args.Nodup := hargs.imp fun h he => absurd (he ▸ h) (lt_irrefl _)

/-- The files keep their order after a dash on its own when the options stand before the files. -/
theorem sublist_iff_sorted {o₁ o₂ : List Elem} {x : Elem}
    (ho : dashed (before args) = o₁ ++ x :: o₂) :
    (x :: o₂ ++ (files (before args) ++ (fromDashes args).tail)).Sublist args ↔
      (before args).Pairwise fun f g => Dashed g → Dashed f := by
  constructor
  · intro h
    have hrest := hargs.sublist h
    have hpre : (before args).Pairwise (·.2 < ·.2) := hargs.sublist (List.takeWhile_sublist _)
    have hos : (dashed (before args)).Pairwise (·.2 < ·.2) := hpre.sublist List.filter_sublist
    rw [ho] at hos
    refine hpre.imp_of_mem fun {f g} hf hg hlt hgd => by_contra fun hfd => ?_
    have hfmem : f ∈ files (before args) := mem_files.mpr ⟨hf, hfd⟩
    have hgmem : g ∈ o₁ ++ x :: o₂ := ho ▸ mem_dashed.mpr ⟨hg, hgd⟩
    have hafter : ∀ q ∈ x :: o₂, q.2 < f.2 :=
      fun q hq => (List.pairwise_append.mp hrest).2.2 q hq f (List.mem_append_left _ hfmem)
    rcases List.mem_append.mp hgmem with hg | hg
    · have := (List.pairwise_append.mp hos).2.2 g hg x List.mem_cons_self
      have := hafter x List.mem_cons_self
      omega
    · have := hafter g hg
      omega
  · intro h
    have hsub : (x :: o₂ ++ files (before args)).Sublist (before args) := by
      conv_rhs => rw [← dashed_append_files h, ho]
      rw [List.append_assoc]
      exact List.sublist_append_right _ _
    conv_rhs => rw [← before_append args]
    rw [← List.append_assoc]
    exact hsub.append (List.tail_sublist _)

end

/-- What the iterator goes through, in the words of `reorder_drop`. -/
def reordered (args : List Elem) : List Elem := dashed (before args) ++ (files (before args) ++ (fromDashes args).tail)

/-- The first argument with two dashes is the only one that the reordering loses. -/
theorem reordered_perm (args : List Elem) :
    (fromDashes args = [] ∧ (reordered args).Perm args ∧ ∀ p ∈ reordered args, ¬ IsSeparator p) ∨
      ∃ s, (fromDashes args).head? = some s ∧ (s :: reordered args).Perm args := by
  have hperm := dashed_append_files_perm (before args)
  rw [reordered, ← List.append_assoc]
  cases hd : fromDashes args with
  | nil =>
    have hargs : before args = args := by simpa [hd] using before_append args
    rw [List.tail_nil, List.append_nil]
    rw [hargs] at hperm ⊢
    refine .inl ⟨rfl, hperm, fun p hp hs => ?_⟩
    exact not_twoDashes_of_mem_before args p (hargs.symm ▸ hperm.mem_iff.mp hp) hs.twoDashes
  | cons s post =>
    refine .inr ⟨s, rfl, ?_⟩
    conv_rhs => rw [← before_append args, hd]
    exact (List.perm_middle.symm).trans (hperm.append_right _)

theorem reordered_nodup {args : List Elem} (hargs : args.Pairwise (·.2 < ·.2)) : (reordered args).Nodup := by
  have hn := nodup_of_pairwise hargs
  rcases reordered_perm args with ⟨-, h, -⟩ | ⟨s, -, h⟩
  · exact h.nodup_iff.mpr hn
  · exact (List.nodup_cons.mp (h.nodup_iff.mpr hn)).2

/-- Nothing is lost exactly when that argument is `--` and the iterator does not drop another. -/
theorem once_iff {args c r : List Elem}
    (hs : c ++ r = reordered args ∨ ∃ p, IsSeparator p ∧ reordered args = c ++ p :: r) :
    ((c ++ r).Perm args ∨ ∃ p, IsSeparator p ∧ (p :: (c ++ r)).Perm args) ↔
      (∀ s, (fromDashes args).head? = some s → IsSeparator s) ∧ c ++ r = reordered args := by
  rcases reordered_perm args with ⟨hd, hperm, hno⟩ | ⟨s, hd, hperm⟩
  · rcases hs with hs | ⟨p, hp, hs⟩
    · rw [hs, hd]
      simp [hperm]
    · exact absurd hp (hno p (hs ▸ by simp))
  · have hlen := hperm.length_eq
    rcases hs with hs | ⟨p, hp, hs⟩
    · rw [hs, hd]
      constructor
      · rintro (h | ⟨p, hp, h⟩)
        · have := h.length_eq
          rw [List.length_cons] at hlen
          omega
        · refine ⟨?_, rfl⟩
          rintro q ⟨⟩
          have he := Multiset.coe_eq_coe.mpr (h.trans hperm.symm)
          rw [← Multiset.cons_coe, ← Multiset.cons_coe, Multiset.cons_inj_left] at he
          exact he ▸ hp
      · rintro ⟨h, -⟩
        exact .inr ⟨s, h s rfl, hperm⟩
    · rw [hs, List.length_cons, List.length_append, List.length_cons] at hlen
      constructor
      · rintro (h | ⟨q, -, h⟩)
        · have := h.length_eq
          rw [List.length_append] at this
          omega
        · have := h.length_eq
          rw [List.length_cons, List.length_append] at this
          omega
      · rintro ⟨-, h⟩
        have := congrArg List.length (h.trans hs)
        simp at this

/-- No option is found after `--` when none is found after the first argument with two dashes. -/
theorem none_after_iff {args c : List Elem} (h : ∀ s, (fromDashes args).head? = some s → IsSeparator s) :
    (∀ a p b, args = a ++ p :: b → IsSeparator p → ∀ q ∈ c, q ∉ b) ↔ ∀ q ∈ c, q ∉ (fromDashes args).tail := by
  constructor
  · intro hc
    cases hd : fromDashes args with
    | nil => simp
    | cons s post => exact hc _ s post (hd ▸ (before_append args).symm) (h s (hd ▸ rfl))
  · rintro hc a p b hargs hp q hq hb
    have htwo : ∀ x ∈ before args, x ≠ p := fun x hx he => not_twoDashes_of_mem_before args x hx (he ▸ hp.twoDashes)
    refine hc q hq ?_
    rw [← before_append args] at hargs
    rcases List.append_eq_append_iff.mp hargs with ⟨l, -, hl⟩ | ⟨l, hl, hl'⟩
    · rw [hl]
      cases l with
      | nil => exact hb
      | cons x l => exact List.mem_append_right _ (List.mem_cons_of_mem _ hb)
    · cases l with
      | nil =>
        rw [List.nil_append] at hl'
        rw [← hl']
        exact hb
      | cons x l =>
        rw [List.cons_append, List.cons.injEq] at hl'
        exact absurd hl'.1.symm (htwo x (hl ▸ by simp))

/-- The elements taken, and those left, have everything that is asked for exactly when the two agree. -/
theorem taken_iff {args : List Elem} (hargs : args.Pairwise (·.2 < ·.2)) :
    ((takeOptions (reordered args)).1 ++ (takeOptions (reordered args)).2 = reordered args ∧
      (∀ s, (fromDashes args).head? = some s → IsSeparator s) ∧
      (takeOptions (reordered args)).1.Sublist args ∧ (takeOptions (reordered args)).2.Sublist args ∧
      ∀ q ∈ (takeOptions (reordered args)).1, q ∉ (fromDashes args).tail) ↔ Agreed args := by
  have hpre : ∀ {l : List Elem}, l.Sublist (before args) → l.Sublist args := fun h => h.trans (List.takeWhile_sublist _)
  have hpost : ∀ q ∈ before args, q ∉ (fromDashes args).tail := by
    intro q hq hq'
    have hn := nodup_of_pairwise hargs
    rw [← before_append args] at hn
    exact (List.disjoint_of_nodup_append hn) hq (List.mem_of_mem_tail hq')
  have hdashed : (dashed (before args)).Sublist (before args) := List.filter_sublist
  rcases takeOptions_cases (not_twoDashes_of_mem_before args) (fromDashes args).tail with
    ⟨o₁, x, o₂, ho, hx, h⟩ | ⟨hx, hf, h⟩ | ⟨hall, hd, hf, h⟩
  · have hxmem : x ∈ before args := hdashed.subset (ho ▸ by simp)
    rw [reordered, h]
    constructor
    · rintro ⟨-, hs, -, hr, -⟩
      refine ⟨hs, fun _ => (sublist_iff_sorted hargs ho).mp hr, fun hall => ?_⟩
      exact absurd hx (hall x hxmem).2
    · rintro ⟨hs, hsorted, -⟩
      have ho₁ : o₁.Sublist (before args) := (ho ▸ List.sublist_append_left _ _ : o₁.Sublist _).trans hdashed
      refine ⟨by rw [ho]; simp, hs, hpre ho₁, (sublist_iff_sorted hargs ho).mpr (hsorted ⟨x, hxmem, hx⟩), ?_⟩
      exact fun q hq => hpost q (ho₁.subset hq)
  · rw [reordered, h]
    constructor
    · rintro ⟨-, hs, -⟩
      obtain ⟨f, hf, hfd⟩ := hf
      exact ⟨hs, fun ⟨x, hx', hxd⟩ => absurd hxd (hx x hx'), fun hall => absurd (hall f hf).1 hfd⟩
    · rintro ⟨hs, -⟩
      refine ⟨rfl, hs, hpre hdashed, ?_, fun q hq => hpost q (hdashed.subset hq)⟩
      conv_rhs => rw [← before_append args]
      exact List.filter_sublist.append (List.tail_sublist _)
  · rw [reordered, hd, hf, List.nil_append, h]
    constructor
    · rintro ⟨heq, hs, -, -, hn⟩
      refine ⟨hs, fun ⟨x, hx, hxd⟩ => absurd hxd (hall x hx).2, fun _ q hq ho => ?_⟩
      -- the argument after the separator would be an option, or dropped like it
      cases hp : (fromDashes args).tail with
      | nil => simp [hp] at hq
      | cons y post =>
        rw [hp] at hq heq hn
        cases hq
        by_cases hsep : IsSeparator q
        · rw [takeOptions, if_pos hsep] at heq
          have := congrArg List.length heq
          simp at this
        · rw [takeOptions_of_isOption hsep ho] at hn
          exact hn q (by simp) List.mem_cons_self
    · rintro ⟨hs, -, hfollow⟩
      rw [takeOptions_of_not_isOption (hfollow hall), List.append_nil]
      refine ⟨rfl, hs, hpre (List.Sublist.refl _), ?_, hpost⟩
      exact (List.tail_sublist _).trans (List.dropWhile_sublist _)

/-! ### The options of a command line -/

theorem pairwise_zipIdx {α : Type} (l : List α) : l.zipIdx.Pairwise (·.2 < ·.2) := by
  have h : (l.zipIdx.map Prod.snd).Pairwise (· < ·) := by
    rw [List.zipIdx_map_snd]
    exact List.pairwise_lt_range'
  exact List.pairwise_map.mp h

/-- Calling `next` as often as it takes ends; and if the command does not exit over it, every argument but one `--` is
accounted for, in order and without an option from after `--`, exactly when the two passes agree on the arguments. -/
theorem accounts_iff (av : List CString) (s : CString) (err : ℤ) :
    (∀ n, toRead (construct av s err) < n → collect n (construct av s err) ≠ .error .outOfSteps) ∧
    ∀ n out rest, collect n (construct av s err) = .ok (out, rest) →
      (Accounts av.zipIdx.tail out rest ↔ Agreed av.zipIdx.tail) := by
  refine ⟨fun n => collect_ne_outOfSteps, fun n out rest h => ?_⟩
  have hargs : av.zipIdx.tail.Pairwise (·.2 < ·.2) := (pairwise_zipIdx av).sublist (List.tail_sublist _)
  obtain ⟨rfl, xs, out', rfl, hne, hxs, hg⟩ := collect_spec h
  have hdrop : (construct av s err).argv.drop (construct av s err).index = reordered av.zipIdx.tail := reorder_drop _
  rw [hdrop] at hg ⊢
  -- the first argument was not begun
  have hnil : xs = [] := List.eq_nil_iff_forall_not_mem.mpr fun x hx => hne x hx (List.flatMap_eq_nil_iff.mp hxs x hx)
  subst hnil
  rw [List.map_nil, List.nil_append]
  have hn := (reordered_nodup hargs).sublist (takeOptions_sublist _)
  rw [← taken_iff hargs]
  constructor
  · rintro ⟨honce, -, ho, hf, hafter⟩
    rw [hg.consumed hn] at honce ho hafter
    obtain ⟨hs, heq⟩ := (once_iff (takeOptions_eq _)).mp honce
    exact ⟨heq, hs, ho, hf, (none_after_iff hs).mp hafter⟩
  · rintro ⟨heq, hs, ho, hf, hafter⟩
    refine ⟨?_, ?_, ?_, hf, ?_⟩
    · rw [hg.consumed hn]
      exact (once_iff (takeOptions_eq _)).mpr ⟨hs, heq⟩
    · rw [hg.consumed hn]
      exact hg.spelled hn
    · rwa [hg.consumed hn]
    · rw [hg.consumed hn]
      exact (none_after_iff hs).mpr hafter

/-- `get f -s -- g`: the option comes to the front, `--` is dropped, and everything is accounted for. -/
theorem accounts_get :
    Accounts [(⟨[102], by decide⟩, 1), (⟨[45, 115], by decide⟩, 2), (⟨[45, 45], by decide⟩, 3), (⟨[103], by decide⟩, 4)]
      [(some (⟨[45, 115], by decide⟩, 2), .option 115, none)] [(⟨[102], by decide⟩, 1), (⟨[103], by decide⟩, 4)] := by
  apply ((accounts_iff [⟨[103, 101, 116], by decide⟩, ⟨[102], by decide⟩, ⟨[45, 115], by decide⟩, ⟨[45, 45], by decide⟩,
    ⟨[103], by decide⟩] ⟨[115], by decide⟩ 2).2 3 _ _ rfl).mpr
  exact ⟨by decide, by decide, by decide⟩

/-- `get -- -s`: the argument after `--` is taken for an option. -/
theorem option_after_separator :
    ∃ out rest, collect 4 (construct [⟨[103], by decide⟩, ⟨[45, 45], by decide⟩, ⟨[45, 115], by decide⟩]
        ⟨[115], by decide⟩ 2) = .ok (out, rest) ∧
      ¬ Accounts [(⟨[45, 45], by decide⟩, 1), (⟨[45, 115], by decide⟩, 2)] out rest :=
  ⟨_, _, rfl, fun h => h.none_after [] _ _ rfl rfl (⟨[45, 115], by decide⟩, 2) (by decide) (by decide)⟩

end CSSC.Commands
