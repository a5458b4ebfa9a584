import CSSC.Files.Names
import CSSC.Library.Paths
import CSSC.Lines.Text

/-!
# The names that the front end makes

The `sccs` front end turns the name `dev/bio.c` that a user gives into the name `dev/SCCS/s.bio.c` of the history
file, below a directory that may be fixed. If that directory is absolute, a name may not lead out of it.

`makefile` is that function; which names are directories is a parameter of it. The string functions look at the size
of the buffer, and if it is too small the program ends (`gstrcat`). Where a name leads, links apart, is said by its
`components`.

**A name is accepted below an absolute directory if and only if it is relative and none of its components is `..`**
(`safepath_iff`). What is made for an accepted name leads below the directory (`makefile_below`), unless the name
begins with `./`; then the directory is not put in front of it (`makefile_dot`). And whatever is made is a directory
or a valid name of a history file (`makefile_valid`).
-/

namespace CSSC.Commands

open CSSC.Lines CSSC.Files CSSC.Library.Paths

/-- `..`. -/
def dotdot : List UInt8 := [46, 46]

/-- `my_index(p, '/')`, and one more. -/
def afterSlash (p : List UInt8) : Option (List UInt8) :=
  match p.dropWhile (· ≠ 47) with
  | _ :: p => some p
  | [] => none

/-- The loop of `safepath`. Each round passes a slash, so the length of the name bounds the rounds. -/
def safeLoop : ℕ → List UInt8 → Bool
  | 0, _ => true
  | fuel + 1, p =>
    if (dotdot ++ [47]).isPrefixOf p || p = dotdot then false
    else
      match afterSlash p with
      | none => true
      | some p => safeLoop fuel p

/-- `safepath`. -/
def safepath (p : List UInt8) : Bool := p.head? ≠ some 47 && safeLoop (p.length + 1) p

/-- `gstrbotch`: two names do not fit together in a buffer. The program ends with `CSSC_EX_SOFTWARE`. -/
structure Botch where
  str1 : List UInt8
  str2 : List UInt8
  deriving DecidableEq

/-- `gstrcpy(to, from, length)`. -/
def gstrcpy (length : ℕ) (src : List UInt8) : Except Botch (List UInt8) :=
  if length ≤ src.length then .error ⟨src, []⟩ else .ok src

/-- `gstrcat(to, from, length)`. -/
def gstrcat (dest src : List UInt8) (length : ℕ) : Except Botch (List UInt8) :=
  if length ≤ src.length + dest.length then .error ⟨dest, src⟩ else .ok (dest ++ src)

/-- `gstrncat(to, from, n, length)`, where `from` has `n` characters. -/
def gstrncat (dest src : List UInt8) (n length : ℕ) : Except Botch (List UInt8) :=
  if length ≤ n + dest.length then .error ⟨dest, src⟩ else .ok (dest ++ src.take n)

/-- `sizeof (buf)` in `makefile`: `3 * FBUFSIZ`. -/
def makefileSize : ℕ := 3 * 1024

/-- The base pathname of `makefile`: "first the directory part". -/
def basePath (sccsDir name : List UInt8) : Except Botch (List UInt8) :=
  if sccsDir ≠ [] ∧ name.head? ≠ some 47 ∧ ¬ ([46, 47] : List UInt8) <+: name then do
    let buf ← gstrcpy makefileSize sccsDir
    gstrcat buf [47] makefileSize
  else .ok []

/-- `makefile`, with `SccsDir` and `SccsPath`. -/
def makefile (sccsDir sccsPath : List UInt8) (isdir : List UInt8 → Bool) (name : List UInt8) :
    Except Botch (Option (List UInt8)) :=
  let p := (splitFilename name).2
  if sccsDir.head? = some 47 && !safepath name then .ok none
  else do
    let buf ← basePath sccsDir name
    -- "then the head of the pathname"
    let q ← gstrncat buf name (name.length - p.length) makefileSize
    let left := makefileSize - q.length
    -- "now copy the final part of the name, in case useful"
    let final ← gstrcpy left p
    if !([115, 46] : List UInt8).isPrefixOf p && !isdir (q ++ final) then do
      let path ← gstrcpy left sccsPath
      let buf ← gstrcat (q ++ path) [47, 115, 46] makefileSize
      let buf ← gstrcat buf p makefileSize
      return some buf
    else return some (q ++ final)

/-! ### Where a name leads -/

/-- The components of a name. -/
def components (p : List UInt8) : List (List UInt8) := p.splitOn 47

/-- Where a name leads from a directory. -/
def lead (dir : List (List UInt8)) (p : List UInt8) : List (List UInt8) :=
  walk dotdot (fun n => n = [] || n = [46]) dir (components p)

/-- A relative name that does not go up. -/
def Safe (p : List UInt8) : Prop := p.head? ≠ some 47 ∧ dotdot ∉ components p

variable {p q sccsDir sccsPath name base buf : List UInt8} {isdir : List UInt8 → Bool} {fuel n length : ℕ}

/-- A name with a slash, or without. -/
theorem slash_cases (p : List UInt8) : (47 : UInt8) ∉ p ∨ ∃ f r, (47 : UInt8) ∉ f ∧ p = f ++ 47 :: r := by
  by_cases h : (47 : UInt8) ∈ p
  · obtain ⟨f, r, rfl, hf⟩ := List.eq_append_cons_of_mem h
    exact .inr ⟨f, r, hf, rfl⟩
  · exact .inl h

theorem components_of_not_mem (h : (47 : UInt8) ∉ p) : components p = [p] := List.splitOn_eq_singleton h

theorem components_slash : components (p ++ 47 :: q) = components p ++ components q :=
  List.splitOn_append_cons_self p q

/-! ### Which names are accepted -/

theorem afterSlash_of_not_mem (h : (47 : UInt8) ∉ p) : afterSlash p = none := by
  have hd : p.dropWhile (· ≠ 47) = [] := by
    rw [List.dropWhile_eq_nil_iff]
    intro x hx
    rw [decide_eq_true_eq]
    rintro rfl
    exact h hx
  rw [afterSlash, hd]

theorem afterSlash_slash (h : (47 : UInt8) ∉ p) : afterSlash (p ++ 47 :: q) = some q := by
  have hall : ∀ x ∈ p, decide (x ≠ 47) = true := by
    intro x hx
    rw [decide_eq_true_eq]
    rintro rfl
    exact h hx
  rw [afterSlash, List.dropWhile_append_of_pos hall]
  simp

/-- The test of a round looks at the first component. -/
theorem test_slash_iff (h : (47 : UInt8) ∉ p) :
    ((dotdot ++ [47]).isPrefixOf (p ++ 47 :: q) = true ∨ p ++ 47 :: q = dotdot) ↔ p = dotdot := by
  have hd : (47 : UInt8) ∉ dotdot := by decide
  rw [List.isPrefixOf_iff_prefix]
  constructor
  · rintro (⟨r, hr⟩ | hp)
    · have hc := congrArg components hr
      rw [List.append_assoc, List.singleton_append, components_slash, components_slash, components_of_not_mem hd,
        components_of_not_mem h, List.singleton_append, List.singleton_append] at hc
      exact (List.cons.inj hc).1.symm
    · exact absurd (hp ▸ List.mem_append_right p List.mem_cons_self) hd
  · rintro rfl
    exact .inl ⟨q, by simp⟩

/-- And so it does for the last one. -/
theorem test_last_iff (h : (47 : UInt8) ∉ p) :
    ((dotdot ++ [47]).isPrefixOf p = true ∨ p = dotdot) ↔ p = dotdot := by
  rw [List.isPrefixOf_iff_prefix]
  constructor
  · rintro (hp | hp)
    · exact absurd (hp.subset (by simp)) h
    · exact hp
  · exact .inr

/-- The loop looks at all components. -/
theorem safeLoop_iff (h : p.length < fuel) : safeLoop fuel p = true ↔ dotdot ∉ components p := by
  induction fuel generalizing p with
  | zero => omega
  | succ fuel ih =>
    rw [safeLoop]
    rcases slash_cases p with hp | ⟨f, r, hf, rfl⟩
    · rw [components_of_not_mem hp, afterSlash_of_not_mem hp, List.mem_singleton]
      simp only [Bool.or_eq_true, decide_eq_true_eq, test_last_iff hp]
      split_ifs with hd
      · simp [hd]
      · simp [Ne.symm hd]
    · rw [components_slash, components_of_not_mem hf, afterSlash_slash hf, List.singleton_append, List.mem_cons]
      simp only [Bool.or_eq_true, decide_eq_true_eq, test_slash_iff hf]
      rw [List.length_append, List.length_cons] at h
      split_ifs with hd
      · simp [hd]
      · rw [ih (by omega), not_or]
        exact ⟨fun hr => ⟨Ne.symm hd, hr⟩, fun hr => hr.2⟩

/-- **A name is accepted if and only if it is relative and none of its components is `..`.** -/
theorem safepath_iff : safepath p = true ↔ Safe p := by
  rw [safepath, Safe, Bool.and_eq_true, safeLoop_iff (Nat.lt_succ_self _), decide_eq_true_eq]

/-! ### The names that are made -/

/-- The name is made in two steps when both fit. -/
theorem then_eq_ok {α β : Type} {x : Except Botch α} {f : α → Except Botch β} {b : β} :
    (x >>= f) = .ok b ↔ ∃ a, x = .ok a ∧ f a = .ok b := by
  cases x with
  | error q => simp [bind, Except.bind]
  | ok a => simp [bind, Except.bind]

theorem gstrcpy_eq_ok : gstrcpy length p = .ok buf ↔ p.length < length ∧ buf = p := by
  rw [gstrcpy]
  split_ifs with h
  · simp [Nat.not_lt.mpr h]
  · simp [Nat.not_le.mp h, eq_comm]

theorem gstrcat_eq_ok : gstrcat p q length = .ok buf ↔ q.length + p.length < length ∧ buf = p ++ q := by
  rw [gstrcat]
  split_ifs with h
  · simp [Nat.not_lt.mpr h]
  · simp [Nat.not_le.mp h, eq_comm]

theorem gstrncat_eq_ok : gstrncat p q n length = .ok buf ↔ n + p.length < length ∧ buf = p ++ q.take n := by
  rw [gstrncat]
  split_ifs with h
  · simp [Nat.not_lt.mpr h]
  · simp [Nat.not_le.mp h, eq_comm]

/-- What `makefile` puts in front of a name. -/
def Based (sccsDir name base : List UInt8) : Prop :=
  (base = sccsDir ++ [47] ∧ name.head? ≠ some 47 ∧ ¬ ([46, 47] : List UInt8) <+: name) ∨
    (base = [] ∧ (sccsDir = [] ∨ name.head? = some 47 ∨ ([46, 47] : List UInt8) <+: name))

theorem basePath_cases (h : basePath sccsDir name = .ok base) : Based sccsDir name base := by
  rw [basePath] at h
  split_ifs at h with hc
  · obtain ⟨buf, hbuf, hcat⟩ := then_eq_ok.mp h
    obtain ⟨-, rfl⟩ := gstrcpy_eq_ok.mp hbuf
    exact .inl ⟨(gstrcat_eq_ok.mp hcat).2, hc.2⟩
  · refine .inr ⟨(Except.ok.inj h).symm, ?_⟩
    by_contra hn
    rw [not_or, not_or] at hn
    exact hc hn

theorem take_head (name : List UInt8) :
    name.take (name.length - (splitFilename name).2.length) = (splitFilename name).1 := by
  have h := congrArg List.length (splitFilename_append name)
  rw [List.length_append] at h
  rw [show name.length - (splitFilename name).2.length = (splitFilename name).1.length by omega]
  exact (List.prefix_iff_eq_take.mp ⟨_, splitFilename_append name⟩).symm

/-- **What `makefile` makes**: the name itself, or the name of a history file beside it. -/
theorem makefile_cases (h : makefile sccsDir sccsPath isdir name = .ok (some buf)) :
    (sccsDir.head? = some 47 → Safe name) ∧
      ∃ base, Based sccsDir name base ∧
        ((buf = base ++ name ∧ (validFilename name = true ∨ isdir buf = true)) ∨
          buf = base ++ (splitFilename name).1 ++ sccsPath ++ [47, 115, 46] ++ (splitFilename name).2) := by
  rw [makefile] at h
  split_ifs at h with hs
  · exact absurd (Except.ok.inj h) (by simp)
  · refine ⟨fun hd => safepath_iff.mp ?_, ?_⟩
    · simpa [hd] using hs
    · obtain ⟨base, hbase, h⟩ := then_eq_ok.mp h
      obtain ⟨q, hq, h⟩ := then_eq_ok.mp h
      obtain ⟨final, hfinal, h⟩ := then_eq_ok.mp h
      obtain ⟨-, rfl⟩ := gstrncat_eq_ok.mp hq
      obtain ⟨-, rfl⟩ := gstrcpy_eq_ok.mp hfinal
      rw [take_head] at h
      refine ⟨base, basePath_cases hbase, ?_⟩
      split_ifs at h with hp
      · right
        obtain ⟨path, hpath, h⟩ := then_eq_ok.mp h
        obtain ⟨buf₁, hbuf₁, h⟩ := then_eq_ok.mp h
        obtain ⟨buf₂, hbuf₂, h⟩ := then_eq_ok.mp h
        obtain ⟨-, rfl⟩ := gstrcpy_eq_ok.mp hpath
        obtain ⟨-, rfl⟩ := gstrcat_eq_ok.mp hbuf₁
        obtain ⟨-, rfl⟩ := gstrcat_eq_ok.mp hbuf₂
        exact (Option.some.inj (Except.ok.inj h)).symm
      · left
        have hbuf := (Option.some.inj (Except.ok.inj h)).symm
        rw [List.append_assoc, splitFilename_append] at hbuf hp
        refine ⟨hbuf, ?_⟩
        rw [validFilename, hbuf]
        cases hv : ([115, 46] : List UInt8).isPrefixOf (splitFilename name).2 with
        | true => exact .inl rfl
        | false => exact .inr (by simpa [hv] using hp)

theorem isDir_append {d d' : PathName} (h : IsDir d) (h' : IsDir d') : IsDir (d ++ d') := by
  rcases h' with rfl | ⟨r, rfl⟩
  · rwa [List.append_nil]
  · exact .inr ⟨d ++ r, (List.append_assoc d r [47]).symm⟩

theorem Based.isDir (h : Based sccsDir name base) : IsDir base := by
  rcases h with ⟨rfl, -⟩ | ⟨rfl, -⟩
  · exact .inr ⟨sccsDir, rfl⟩
  · exact .inl rfl

/-- **What is made is a directory or a valid name of a history file.** -/
theorem makefile_valid (h : makefile sccsDir sccsPath isdir name = .ok (some buf)) :
    isdir buf = true ∨ validFilename buf = true := by
  obtain ⟨-, base, hbase, ⟨rfl, hv | hd⟩ | rfl⟩ := makefile_cases h
  · right
    obtain ⟨dir, g, hdir, hg, rfl⟩ := validFilename_iff.mp hv
    exact validFilename_iff.mpr ⟨base ++ dir, g, isDir_append hbase.isDir hdir, hg, by simp⟩
  · exact .inl hd
  · right
    refine validFilename_iff.mpr ⟨base ++ (splitFilename name).1 ++ sccsPath ++ [47], (splitFilename name).2, ?_,
      splitFilename_base name, by simp⟩
    exact .inr ⟨_, rfl⟩

/-- The file `b.c` of a project, with the directory `SCCS`. -/
theorem makefile_valid_sample :
    ((fun _ => false : List UInt8 → Bool) [83, 67, 67, 83, 47, 115, 46, 98, 46, 99] = true) ∨
      validFilename [83, 67, 67, 83, 47, 115, 46, 98, 46, 99] = true :=
  @makefile_valid [] [83, 67, 67, 83] [98, 46, 99] _ (fun _ => false) (by decide)

/-- The name of a history file beside an accepted name does not go up either. -/
theorem not_mem_beside (hs : Safe name) (hpath : dotdot ∉ components sccsPath) :
    dotdot ∉ components ((splitFilename name).1 ++ sccsPath ++ [47, 115, 46] ++ (splitFilename name).2) := by
  have hbase : (47 : UInt8) ∉ [115, 46] ++ (splitFilename name).2 := by
    simpa using splitFilename_base name
  have hlast : dotdot ∉ components ([115, 46] ++ (splitFilename name).2) := by
    rw [components_of_not_mem hbase, List.mem_singleton]
    simp [dotdot]
  rcases splitFilename_dir name with hdir | ⟨d, hdir⟩
  · rw [hdir, List.nil_append, List.append_assoc, List.cons_append, components_slash, List.mem_append, not_or]
    exact ⟨hpath, hlast⟩
  · have hname : dotdot ∉ components d := by
      have hn := hs.2
      rw [← splitFilename_append name, hdir, List.append_assoc, List.singleton_append, components_slash] at hn
      exact fun hm => hn (List.mem_append_left _ hm)
    rw [hdir, List.append_assoc, List.cons_append, components_slash, List.append_assoc d, List.singleton_append,
      components_slash, List.mem_append, List.mem_append, not_or, not_or]
    exact ⟨⟨hname, hpath⟩, hlast⟩

/-- What is put behind a directory leads below it, if it does not go up. -/
theorem prefix_lead (h : dotdot ∉ components q) : lead [] p <+: lead [] (p ++ 47 :: q) := by
  rw [lead, lead, components_slash, walk_append]
  exact prefix_walk h

/-- **Below an absolute directory a name does not lead out of it**, unless it begins with `./`. -/
theorem makefile_below (hd : sccsDir.head? = some 47) (hpath : dotdot ∉ components sccsPath)
    (hdot : ¬ ([46, 47] : List UInt8) <+: name)
    (h : makefile sccsDir sccsPath isdir name = .ok (some buf)) : lead [] sccsDir <+: lead [] buf := by
  obtain ⟨hs, base, hbase, hbuf⟩ := makefile_cases h
  have hsafe := hs hd
  have hb : base = sccsDir ++ [47] := by
    rcases hbase with ⟨hb, -⟩ | ⟨-, rfl | ha | hp⟩
    · exact hb
    · exact absurd hd (by simp)
    · exact absurd ha hsafe.1
    · exact absurd hp hdot
  subst hb
  rcases hbuf with ⟨rfl, -⟩ | rfl
  · rw [List.append_assoc, List.singleton_append]
    exact prefix_lead hsafe.2
  · have hbeside := prefix_lead (p := sccsDir) (not_mem_beside hsafe hpath)
    simpa only [List.append_assoc, List.singleton_append, List.cons_append, List.nil_append] using hbeside

/-- The file `b.c` below `/p`, with the directory `SCCS`. -/
theorem makefile_below_sample :
    makefile [47, 112] [83, 67, 67, 83] (fun _ => false) [98, 46, 99] =
        .ok (some [47, 112, 47, 83, 67, 67, 83, 47, 115, 46, 98, 46, 99]) ∧
      lead [] [47, 112] <+: lead [] [47, 112, 47, 83, 67, 67, 83, 47, 115, 46, 98, 46, 99] :=
  have h : makefile [47, 112] [83, 67, 67, 83] (fun _ => false) [98, 46, 99] =
      .ok (some [47, 112, 47, 83, 67, 67, 83, 47, 115, 46, 98, 46, 99]) := by decide
  ⟨h, makefile_below (by decide) (by decide) (by decide) h⟩

/-- A name that begins with `./` is looked for as if there were no directory. -/
theorem makefile_dot (hs : Safe name) (hdot : ([46, 47] : List UInt8) <+: name) :
    makefile sccsDir sccsPath isdir name = makefile [] sccsPath isdir name := by
  have hbase : ∀ d, basePath d name = .ok [] := by
    intro d
    rw [basePath, if_neg]
    exact fun hc => hc.2.2 hdot
  rw [makefile, makefile, safepath_iff.mpr hs, hbase, hbase]
  simp

end CSSC.Commands
