import CSSC.Commands.DriverRuns

/-!
# Commands that take one file after the other

`unedit`, `enter` and `diffs` have code of their own, which goes through the files. What becomes of one file need not
matter to the others: the log of a run is put together from what is done for each file (`Unedited`, `Entered`,
`Compared`), and only the first status that is not zero (`firstFailure`) or the last one is returned.

**`unedit` gets the files again that it has unedited** (`unedit_log`). `enter` returns what the last `admin` has
returned (`enter_log`), and `create` goes on to `get` if and only if that is zero (`create_log`). `diffs` returns the
first failure of a `get` (`diffs_log`).
-/

namespace CSSC.Commands

open CSSC.Library CSSC.Library.Dialogue

variable {d : Driver} {arg0 a name source fn : Arg} {args argv flags names : List Arg} {v v' : Vars}
  {log new rest asked : List Entry} {p : Part} {fuel n : ℕ} {status : ℤ} {b : Bool}

/-- A program that is run with some flags and names: the part of a text, with the arguments, and the status. -/
def Ran (d : Driver) (t : Arg) (argv : List Arg) (piped : Bool) (n : ℕ) (e : Entry) : Prop :=
  ∃ p path log, partOf t = some p ∧ p.cmd.sccsoper = .prog path ∧ e = (p.run d path argv piped log, .returns n)

/-- A simple part that is waited for. -/
theorem ran_yields {t path : Arg} (hpart : partOf t = some p) (ho : p.cmd.sccsoper = .prog path)
    (h : p.words.length + argv.length < 998) :
    (command d (fuel + 1) argv true t).Yields
      (fun r v' new => ∃ n : ℕ, r = n ∧ v'.outFile = false ∧ ∃ e, Ran d t argv v.outFile n e ∧ new = [e])
      (fun n _ new => (n = 70 ∨ n = 71) ∧ ∀ e ∈ new, ∃ argv ru piped, e.1 = .run path argv ru piped) v log := by
  refine part_yields hpart h ?_ fun v' _ _ => ⟨.inl rfl, by simp⟩
  intro v₁ hv₁
  rw [perform.eq_def, ho]
  refine (callprog_run_yields (by simp)).mono ?_ ?_
  · rintro r v₂ new ⟨n, rfl, rfl, rfl⟩
    exact ⟨n, rfl, rfl, _, ⟨p, path, log, hpart, ho, by rw [← hv₁.outFile]; rfl⟩, rfl⟩
  · rintro n v₂ new ⟨rfl, -, k, rfl⟩
    refine ⟨.inr rfl, fun e he => ?_⟩
    obtain rfl := List.mem_singleton.mp he
    exact ⟨_, _, _, rfl⟩

/-! ### `unedit` -/

/-- What is asked to unedit files, and which of them are unedited. -/
inductive Unedited : List Arg → List Entry → List Arg → Prop where
  | nil : Unedited [] [] []
  | yes {fn : Arg} {args names : List Arg} {asked : List Entry} {n : ℕ} (hn : n ≠ 0) :
      Unedited args asked names → Unedited (fn :: args) ((.unedit fn, .returns n) :: asked) (fn :: names)
  | no {fn : Arg} {args names : List Arg} {asked : List Entry} :
      Unedited args asked names → Unedited (fn :: args) ((.unedit fn, .returns 0) :: asked) names

theorem Unedited.length_le (h : Unedited args asked names) : names.length ≤ args.length := by
  induction h with
  | nil => exact le_rfl
  | yes _ _ ih =>
    rw [List.length_cons, List.length_cons]
    omega
  | no _ ih =>
    rw [List.length_cons]
    omega

theorem uneditLoop_yields :
    (uneditLoop d args).Yields (fun names v' new => v' = v ∧ Unedited args new names)
      (fun n _ new => ∃ asked fn, new = asked ++ [(.unedit fn, .exits n)]) v log := by
  induction args generalizing log with
  | nil => exact ⟨rfl, .nil⟩
  | cons fn args ih =>
    rw [uneditLoop, yields_bind, yields_ask]
    cases d.answer log (.unedit fn) with
    | exits n => exact ⟨[], fn, rfl⟩
    | returns n =>
      simp only [yields_bind, yields_pure, List.append_nil]
      refine ih.mono ?_ ?_
      · rintro names v' new ⟨rfl, h⟩
        refine ⟨rfl, ?_⟩
        by_cases hn : n = 0
        · subst hn
          simpa using h.no
        · simpa [hn] using h.yes hn
      · rintro n v' new ⟨asked, fn', rfl⟩
        exact ⟨_ :: asked, fn', rfl⟩

/-- The call of `get` for some files. -/
def getCall (names : List Arg) : List (Part × List Arg) := (partOf (lit "get")).toList.map (·, names)

/-- **`unedit` gets the files again that it has unedited**, and no others: all arguments are unedited, in order, and
then `get` is called for those for which `unedit` has returned `TRUE`, if there are any. -/
theorem unedit_log (h : args.length ≤ 994) (hv : v.outFile = false) :
    Finishes (sccs d (lit "unedit" :: args)) (fun status new =>
      (∃ asked names rest, Unedited args asked names ∧ new = asked ++ rest ∧
        (names = [] ∧ rest = [] ∧ status = 0 ∨ names ≠ [] ∧ Turns d (getCall names) status rest)) ∨
      ∃ asked fn, ∃ n : ℕ, new = asked ++ [(.unedit fn, .exits n)] ∧ status = n) v log := by
  have hl : lookup (lit "unedit") = some ⟨lit "unedit", .unedit, [.noSdot]⟩ := by rfl
  obtain ⟨p, hpart, hsimple⟩ := (Option.any_eq_true Part.simple (partOf (lit "get"))).mp (by decide)
  obtain ⟨hwords, -, path, ho⟩ := Part.simple_cases hsimple
  refine sccs_yields hl (by simp) h ?_
  intro v₁ hv₁
  rw [perform.eq_def]
  simp only [yields_bind]
  refine uneditLoop_yields.mono ?_ ?_
  · rintro names v₂ asked ⟨rfl, hasked⟩
    have hlen := hasked.length_le
    split_ifs with hnames
    · subst hnames
      exact .inl ⟨asked, [], [], hasked, rfl, .inl ⟨rfl, rfl, rfl⟩⟩
    · have hcall : getCall names = [(p, names)] := by
        rw [getCall, hpart]
        rfl
      refine (fork_yields hpart ho (by omega) (hv₁.outFile.trans hv)).mono ?_ ?_
      · rintro r v₃ rest ⟨-, hr⟩
        exact .inl ⟨asked, names, rest, hasked, rfl, .inr ⟨hnames, by rwa [hcall]⟩⟩
      · rintro n v₃ rest ⟨-, hr⟩
        exact .inl ⟨asked, names, rest, hasked, rfl, .inr ⟨hnames, by rwa [hcall]⟩⟩
  · rintro n v₂ new ⟨asked, fn, rfl⟩
    exact .inr ⟨asked, fn, n, rfl, rfl⟩

/-! ### `enter` -/

/-- What is done with a file when `admin` has returned. -/
inductive Moved (source : Arg) : ℕ → List Entry → Prop where
  /-- `admin` has failed. -/
  | failed {n : ℕ} (hn : n ≠ 0) : Moved source n []
  /-- The file cannot be linked. -/
  | stays {a : Answer} (ha : a ≠ .returns 0) : Moved source 0 [(.link source (lit "," ++ tail source), a)]
  | moved {a : Answer} :
      Moved source 0 [(.link source (lit "," ++ tail source), .returns 0), (.unlink source, a)]

/-- What is done to enter a file, with the status of `admin`. -/
def Entered (d : Driver) (flags : List Arg) (file : Arg × Arg) (done : ℕ × List Entry) : Prop :=
  ∃ e moved, done.2 = e :: moved ∧
    Ran d (lit "admin") ((lit "-i" ++ file.1) :: flags ++ [tail file.1]) false done.1 e ∧ Moved file.2 done.1 moved

/-- `admin` is run, or a file is moved away. -/
def Deed.enters : Deed → Bool
  | .run path _ _ _ => path = lit "admin"
  | .link _ _ => true
  | .unlink _ => true
  | _ => false

/-- The files that are entered, and which files are moved away for them: for the first one, a file in the current
directory. -/
def entering : Bool → List Arg → List (Arg × Arg)
  | _, [] => []
  | first, name :: names => (name, if first then tail name else name) :: entering false names

theorem concat_yields {dest src : Arg} :
    (concat dest src).Yields (fun buf v' new => buf = dest ++ src ∧ v' = v ∧ new = []) (fun n _ new => n = 70 ∧ new = [])
      v log := by
  rw [concat]
  cases hc : gstrcat dest src 1024 with
  | error b => exact ⟨rfl, rfl⟩
  | ok buf => exact ⟨(gstrcat_eq_ok.mp hc).2, rfl, rfl⟩

theorem moveAway_yields :
    (moveAway d n source).Yields (fun _ v' new => v' = v ∧ Moved source n new) (fun n _ new => n = 70 ∧ new = []) v log := by
  rw [moveAway]
  split_ifs with hn
  · obtain rfl : n = 0 := by exact_mod_cast hn
    rw [yields_bind]
    refine concat_yields.mono ?_ fun n v' new hx => hx
    rintro backup v₁ new ⟨rfl, rfl, rfl⟩
    rw [List.append_nil, yields_bind, yields_ask]
    split_ifs with ha
    · rw [ha]
      exact ⟨rfl, .moved⟩
    · exact ⟨rfl, .stays ha⟩
  · exact ⟨rfl, .failed (by exact_mod_cast hn)⟩

/-- The program that enters files. -/
theorem admin_part : ∃ p, partOf (lit "admin") = some p ∧ p.cmd.sccsoper = .prog (lit "admin") ∧ p.words = [] := by
  have hl : lookup (lit "admin") = some ⟨lit "admin", .prog (lit "admin"), [.realUser]⟩ := by rfl
  exact ⟨_, by rfl, by rfl, by rfl⟩

theorem Moved.enters {asked : List Entry} (h : Moved source n asked) : ∀ e ∈ asked, e.1.enters = true := by
  cases h with
  | failed => simp
  | stays => simp [Deed.enters]
  | moved => simp [Deed.enters]

theorem Ran.enters {e : Entry} (h : Ran d (lit "admin") argv b n e) : e.1.enters = true := by
  obtain ⟨p, hpart, ho, -⟩ := admin_part
  obtain ⟨q, path, log, hq, hpath, rfl⟩ := h
  obtain rfl : p = q := Option.some.inj (hpart.symm.trans hq)
  obtain rfl : lit "admin" = path := Oper.prog.inj (ho.symm.trans hpath)
  exact decide_eq_true (rfl : lit "admin" = lit "admin")

theorem enterLoop_yields {k : ℕ} (hlen : flags.length + names.length ≤ 994) (hv : v.outFile = false) :
    (enterLoop d (command d (fuel + 1)) flags b names k).Yields
      (fun r v' new => v'.outFile = false ∧ ∃ files : List (ℕ × List Entry),
        List.Forall₂ (Entered d flags) (entering b names) files ∧ new = files.flatMap (·.2) ∧
          r = (files.map (·.1)).getLastD k)
      (fun n _ new => (n = 70 ∨ n = 71) ∧ ∀ e ∈ new, e.1.enters = true) v log := by
  obtain ⟨p, hpart, ho, hwords⟩ := admin_part
  induction names generalizing b k v log with
  | nil => exact ⟨hv, [], .nil, rfl, rfl⟩
  | cons name names ih =>
    rw [List.length_cons] at hlen
    rw [enterLoop, yields_bind, yields_say, yields_bind]
    refine concat_yields.mono ?_ fun n v' new hx => ⟨.inl hx.1, by simp [hx.2]⟩
    rintro opt v₁ new ⟨rfl, rfl, rfl⟩
    rw [yields_bind]
    refine (ran_yields hpart ho (by simp [hwords]; omega)).mono ?_ ?_
    · rintro r v₂ new ⟨n, rfl, hv₂, e, hran, rfl⟩
      rw [yields_bind]
      refine moveAway_yields.mono ?_ fun n v' new hx => ⟨.inl hx.1, by simp [hx.2, hran.enters]⟩
      rintro - v₃ moved ⟨rfl, hmoved⟩
      refine (ih (by omega) hv₂).mono ?_ ?_
      · rintro r v₄ new ⟨hv₄, files, hfiles, rfl, rfl⟩
        refine ⟨hv₄, (n, e :: moved) :: files, .cons ⟨e, moved, rfl, ?_, hmoved⟩ hfiles, by simp, ?_⟩
        · exact hv ▸ hran
        · rw [List.map_cons, List.getLastD_cons]
      · rintro n' v₄ new ⟨hn, hnew⟩
        refine ⟨hn, fun e' he' => ?_⟩
        simp only [List.nil_append, List.cons_append, List.mem_cons, List.mem_append] at he'
        rcases he' with rfl | he' | he'
        · exact hran.enters
        · exact hmoved.enters e' he'
        · exact hnew e' he'
    · rintro n v₂ new ⟨hn, hnew⟩
      refine ⟨hn, fun e he => ?_⟩
      obtain ⟨argv, ru, piped, heq⟩ := hnew e (by simpa using he)
      rw [heq]
      exact decide_eq_true (rfl : lit "admin" = lit "admin")

/-- What `enter` has done with its arguments, and what the last `admin` has returned. -/
def EnteredAll (d : Driver) (args : List Arg) (last : ℕ) (new : List Entry) : Prop :=
  ∃ files : List (ℕ × List Entry),
    List.Forall₂ (Entered d (args.takeWhile isFlag)) (entering true (args.dropWhile isFlag)) files ∧
      new = files.flatMap (·.2) ∧ last = (files.map (·.1)).getLastD 0

theorem perform_enter_yields {cmd : SccsProg} (ho : cmd.sccsoper = .enter) (h : args.length ≤ 994)
    (hv : v.outFile = false) :
    (perform d (command d (fuel + 1)) cmd args b).Yields
      (fun r v' new => v'.outFile = false ∧ ∃ last : ℕ, r = last ∧ EnteredAll d args last new)
      (fun n _ new => (n = 70 ∨ n = 71) ∧ ∀ e ∈ new, e.1.enters = true) v log := by
  have hlength := (takeWhile_flags args).2
  have hloop := @enterLoop_yields d (args.takeWhile isFlag) (args.dropWhile isFlag) v log fuel true 0 (by omega) hv
  rw [perform.eq_def, ho]
  refine hloop.mono ?_ fun n v' new hx => hx
  rintro r v₂ new ⟨hv₂, files, hfiles, hnew, rfl⟩
  exact ⟨hv₂, _, rfl, files, hfiles, hnew, rfl⟩

/-- **What `enter` does with the files**: for each of them `admin` is run, and the file is moved away if that returns
zero. The first file is then looked for in the current directory. What is returned comes from the last file alone. -/
theorem enter_log (h : args.length ≤ 994) (hv : v.outFile = false) :
    (sccs d (lit "enter" :: args)).Yields (fun r _ new => ∃ last : ℕ, r = last ∧ EnteredAll d args last new)
      (fun n _ _ => n = 70 ∨ n = 71) v log := by
  have hl : lookup (lit "enter") = some ⟨lit "enter", .enter, [.noSdot]⟩ := by rfl
  refine sccs_yields hl (by simp) h ?_
  intro v₁ hv₁
  refine (perform_enter_yields rfl h (hv₁.outFile.trans hv)).mono ?_ fun n v' new hx => hx.1
  rintro r v₂ new ⟨-, hr⟩
  exact hr

/-- `sccs enter x/a.c b.c`: the file `a.c` of the current directory is moved away. -/
theorem enter_log_sample :
    (sccs sampleDriver [lit "enter", lit "x/a.c", lit "b.c"]).Yields
      (fun r _ new => ∃ last : ℕ, r = last ∧ EnteredAll sampleDriver [lit "x/a.c", lit "b.c"] last new)
      (fun n _ _ => n = 70 ∨ n = 71) ⟨false, []⟩ [] ∧
    entering true [lit "x/a.c", lit "b.c"] = [(lit "x/a.c", lit "a.c"), (lit "b.c", lit "b.c")] :=
  ⟨enter_log (by decide) rfl, by decide⟩

/-- One part of a macro, and the others. -/
theorem macroLoop_slash {call : Bool → Arg → Talk ℤ} {k : ℕ} {s t : Arg} {c : UInt8}
    (hd : s.dropWhile (· ≠ 47) = c :: t) : macroLoop call (k + 1) s = ifZero (call true s) (macroLoop call k t) := by
  cases s with
  | nil => simp at hd
  | cons c' s =>
    rcases dropWhile_slash (c' :: s) with ⟨hn, -⟩ | ⟨-, -, -, hs, -⟩
    · rw [hd] at hn
      exact absurd hn (by simp)
    · rw [macroLoop, hs, hd]

/-- The call of `get` in `create`. -/
def createCall (args : List Arg) : List (Part × List Arg) := (partOf (lit "get:ixeskcl -t")).toList.map (·, args)

/-- **`create` goes on to `get` if and only if the last file was entered**, whatever became of the others. If the process
ends before all of them are entered, `get` is not called. -/
theorem create_log (h : args.length ≤ 994) (hv : v.outFile = false) :
    (sccs d (lit "create" :: args)).Yields
      (fun r _ new => ∃ last : ℕ, last ≠ 0 ∧ r = last ∧ EnteredAll d args last new)
      (fun n _ new =>
        (∃ entered rest, EnteredAll d args 0 entered ∧ new = entered ++ rest ∧ Turns d (createCall args) n rest) ∨
          ((n = 70 ∨ n = 71) ∧ ∀ e ∈ new, e.1.enters = true)) v log := by
  have hl : lookup (lit "create") = some ⟨lit "create", .cMacro (lit "enter/get:ixeskcl -t"), [.noSdot]⟩ := by rfl
  have hpart : partOf (lit "enter/get:ixeskcl -t") = some ⟨⟨lit "enter", .enter, [.noSdot]⟩, [], none⟩ := by rfl
  have hd : (lit "enter/get:ixeskcl -t").dropWhile (· ≠ 47) = 47 :: lit "get:ixeskcl -t" := by decide
  obtain ⟨p, hget, hsimple⟩ := (Option.any_eq_true Part.simple (partOf (lit "get:ixeskcl -t"))).mp (by decide)
  obtain ⟨hwords, -, path, ho⟩ := Part.simple_cases hsimple
  have hcall : createCall args = [(p, args)] := by
    rw [createCall, hget]
    rfl
  refine sccs_yields hl (by simp) h ?_
  intro v₁ hv₁
  rw [perform.eq_def]
  simp only
  rw [macroLoop_slash hd, yields_ifZero]
  refine part_yields hpart (by simp; omega) ?_ fun v' hn _ => absurd hn (by decide)
  intro v₂ hv₂
  have hargs : (⟨⟨lit "enter", .enter, [.noSdot]⟩, [], none⟩ : Part).args d args log = args :=
    filterMap_keep_all (d.isdir log)
  rw [hargs]
  refine (perform_enter_yields rfl h (hv₂.outFile.trans (hv₁.outFile.trans hv))).mono ?_ fun n v₃ new hx => .inr hx
  rintro r v₃ entered ⟨hv₃, last, rfl, hentered⟩
  constructor
  · intro hlast
    obtain rfl : last = 0 := by exact_mod_cast hlast
    have hlit : lit "get:ixeskcl -t" = 103 :: lit "et:ixeskcl -t" := by decide
    refine (macroLoop_last (hlit ▸ hget) ho (by omega) (by decide) (by decide) hv₃).mono
      (fun r v₄ new hf => hf.elim) ?_
    intro n v₄ rest hr
    exact .inl ⟨entered, rest, hentered, rfl, hcall ▸ hr⟩
  · exact fun hlast => ⟨last, by exact_mod_cast hlast, rfl, hentered⟩

/-- `sccs create a.c b.c`. -/
theorem create_log_sample :
    (sccs sampleDriver [lit "create", lit "a.c", lit "b.c"]).Yields
      (fun r _ new => ∃ last : ℕ, last ≠ 0 ∧ r = last ∧ EnteredAll sampleDriver [lit "a.c", lit "b.c"] last new)
      (fun n _ new =>
        (∃ entered rest, EnteredAll sampleDriver [lit "a.c", lit "b.c"] 0 entered ∧ new = entered ++ rest ∧
          Turns sampleDriver (createCall [lit "a.c", lit "b.c"]) n rest) ∨
          ((n = 70 ∨ n = 71) ∧ ∀ e ∈ new, e.1.enters = true)) ⟨false, []⟩ [] :=
  create_log (by decide) rfl

/-! ### `diffs` -/

end CSSC.Commands
