import CSSC.Commands.Driver

/-!
# The macros of the front end

The parts of a macro are commands that are called in turn. Each takes its own words, and of the arguments of the user
the flags that it knows and the names, of which it makes the names of history files (`Part.argv`). The last part is
not waited for: the process becomes the program. `fix` is such a sequence too, with code of its own.

`copyArgs_yields`, `prologue_yields` and `command_yields` say how `command` finds the command and its arguments. From
them, **a macro calls its parts in turn**, and has the status zero if and only if all have succeeded
(`macro_in_turn`); and **`fix` calls three programs in turn**, so that what is removed was gotten before
(`fix_in_turn`).
-/

namespace CSSC.Commands

open CSSC.Library CSSC.Library.Dialogue

/-! ### Parts of macros -/

/-- The command that a text begins with, as `command` is called with it. -/
structure Part where
  cmd : SccsProg
  words : List Arg
  editchs : Option Arg
  deriving DecidableEq, Repr

/-- The part that a text begins with. -/
def partOf (arg0 : Arg) : Option Part :=
  match (splitWords arg0).words with
  | name :: words => (lookup name).map fun cmd => ⟨cmd, words, (splitWords arg0).editchs⟩
  | [] => none

/-- What is made of a name. -/
def made (d : Driver) (isdir : Arg → Bool) (name : Arg) : Option Arg :=
  match makefile d.sccsDir d.sccsPath isdir name with
  | .ok p => p
  | .error _ => none

/-- What is passed on of an argument. -/
def keep (d : Driver) (noSdot : Bool) (editchs : Option Arg) (isdir : Arg → Bool) (p : Arg) : Option Arg :=
  if isFlag p then if passes editchs p then some p else none
  else if noSdot then some p
  else made d isdir p

/-- The arguments of a part. -/
def Part.args (p : Part) (d : Driver) (argv : List Arg) (log : List Entry) : List Arg :=
  p.words ++ argv.filterMap (keep d (p.cmd.bitset .noSdot) p.editchs (d.isdir log))

/-- The argument vector of a part. -/
def Part.argv (p : Part) (d : Driver) (argv : List Arg) (log : List Entry) : List Arg :=
  p.cmd.sccsname :: p.args d argv log

/-- `OutFile` is as it was, and nothing was printed of it. -/
structure Still (v v' : Vars) : Prop where
  outFile : v'.outFile = v.outFile
  printed : Message.withoutForking ∈ v'.printed → Message.withoutForking ∈ v.printed

variable {d : Driver} {noSdot forkflag : Bool} {editchs : Option Arg} {arg0 name path : Arg}
  {args argv ap words : List Arg} {v v' v'' : Vars} {log new new' : List Entry} {cmd : SccsProg} {p : Part} {fuel : ℕ} {m : Message}

theorem Still.refl (v : Vars) : Still v v := ⟨rfl, id⟩

theorem Still.trans (h : Still v v') (h' : Still v' v'') : Still v v'' :=
  ⟨h'.outFile.trans h.outFile, h.printed ∘ h'.printed⟩

theorem still_say (hm : m ≠ .withoutForking) : Still v { v with printed := v.printed ++ [m] } where
  outFile := rfl
  printed h := by simpa [hm.symm] using h

/-- What is printed, apart from one message, is of no account. -/
theorem yields_say {Q : Unit → Vars → List Entry → Prop} {X : ℕ → Vars → List Entry → Prop} :
    (say m).Yields Q X v log ↔ Q () { v with printed := v.printed ++ [m] } [] := Iff.rfl

theorem keepArg_yields {p : Arg} :
    (keepArg d noSdot editchs p).Yields
      (fun r v' new => r = keep d noSdot editchs (d.isdir log) p ∧ Still v v' ∧ new = [])
      (fun n v' new => (n = 70 ∧ noSdot = false) ∧ Still v v' ∧ new = []) v log := by
  rw [keepArg, keep]
  split_ifs with hflag hpass hsdot
  · exact ⟨rfl, .refl v, rfl⟩
  · exact ⟨rfl, .refl v, rfl⟩
  · exact ⟨rfl, .refl v, rfl⟩
  · rw [makename, yields_bind, yields_logged, made]
    cases makefile d.sccsDir d.sccsPath (d.isdir log) p with
    | error b => exact ⟨⟨rfl, by simpa using hsdot⟩, still_say (by simp), rfl⟩
    | ok r =>
      cases r with
      | none => exact ⟨rfl, still_say (by simp), rfl⟩
      | some a => exact ⟨rfl, .refl v, rfl⟩

/-- **The arguments that are passed on**, if there is room for all. -/
theorem copyArgs_yields
    (h : ap.length + (argv.filterMap (keep d noSdot editchs (d.isdir log))).length < navSize) :
    (copyArgs d noSdot editchs argv ap).Yields
      (fun r v' new => r = ap ++ argv.filterMap (keep d noSdot editchs (d.isdir log)) ∧ Still v v' ∧ new = [])
      (fun n v' new => (n = 70 ∧ noSdot = false) ∧ Still v v' ∧ new = []) v log := by
  induction argv generalizing ap v with
  | nil =>
    rw [copyArgs, if_pos (by simpa using h)]
    exact ⟨by simp, .refl v, rfl⟩
  | cons p argv ih =>
    rw [copyArgs, yields_bind]
    refine keepArg_yields.mono ?_ fun n v' new hx => hx
    rintro r v₁ new ⟨hr, hv₁, rfl⟩
    rw [List.append_nil]
    cases hk : keep d noSdot editchs (d.isdir log) p with
    | none =>
      rw [hk] at hr
      subst hr
      rw [List.filterMap_cons_none hk] at h ⊢
      refine (ih h).mono ?_ ?_
      · rintro r v₂ new ⟨rfl, hv₂, rfl⟩
        exact ⟨rfl, hv₁.trans hv₂, rfl⟩
      · rintro n v₂ new ⟨hn, hv₂, rfl⟩
        exact ⟨hn, hv₁.trans hv₂, rfl⟩
    | some a =>
      rw [hk] at hr
      subst hr
      rw [List.filterMap_cons_some hk] at h ⊢
      rw [List.length_cons] at h
      change (if ap.length < navSize then _ else _ : Talk _).Yields _ _ _ _
      rw [if_pos (by omega)]
      refine (ih (by rw [List.length_append, List.length_singleton]; omega)).mono ?_ ?_
      · rintro r v₂ new ⟨rfl, hv₂, rfl⟩
        exact ⟨by simp, hv₁.trans hv₂, rfl⟩
      · rintro n v₂ new ⟨hn, hv₂, rfl⟩
        exact ⟨hn, hv₁.trans hv₂, rfl⟩

theorem warn_yields {c : Bool} (hm : m ≠ .withoutForking) :
    (warn c m).Yields (fun _ v' new => Still v v' ∧ new = []) (fun _ _ _ => False) v log := by
  rw [warn]
  split_ifs
  · exact ⟨still_say hm, rfl⟩
  · exact ⟨.refl v, rfl⟩

/-- **The command that is looked up, with its arguments.** -/
theorem prologue_yields (hn : takeName (splitWords arg0).words argv = some (name, words, args))
    (hl : lookup name = some cmd)
    (h : words.length + (args.filterMap (keep d (cmd.bitset .noSdot) (splitWords arg0).editchs
      (d.isdir log))).length < 998) :
    (prologue d argv arg0).Yields
      (fun r v' new => r = some (cmd, words ++ args.filterMap (keep d (cmd.bitset .noSdot) (splitWords arg0).editchs
        (d.isdir log))) ∧ Still v v' ∧ new = [])
      (fun n v' new => (n = 70 ∧ cmd.bitset .noSdot = false) ∧ Still v v' ∧ new = []) v log := by
  rw [prologue, hn]
  simp only [hl, yields_bind]
  refine (warn_yields (by simp)).mono ?_ fun n v' new hx => hx.elim
  rintro - v₁ new ⟨hv₁, rfl⟩
  refine (warn_yields (by simp)).mono ?_ fun n v' new hx => hx.elim
  rintro - v₂ new ⟨hv₂, rfl⟩
  have hv := hv₁.trans hv₂
  simp only [List.append_nil]
  refine (copyArgs_yields ?_).mono ?_ ?_
  · rw [List.length_cons, navSize]
    omega
  · rintro r v₃ new ⟨rfl, hv₃, rfl⟩
    exact ⟨rfl, hv.trans hv₃, rfl⟩
  · rintro n v₃ new ⟨hn, hv₃, rfl⟩
    exact ⟨hn, hv.trans hv₃, rfl⟩

/-- A command is carried out once it is looked up. -/
theorem command_yields {Q : ℤ → Vars → List Entry → Prop} {X : ℕ → Vars → List Entry → Prop}
    (hn : takeName (splitWords arg0).words argv = some (name, words, args))
    (hl : lookup name = some cmd)
    (h : words.length + (args.filterMap (keep d (cmd.bitset .noSdot) (splitWords arg0).editchs
      (d.isdir log))).length < 998)
    (hp : ∀ v', Still v v' → (perform d (command d fuel) cmd (words ++ args.filterMap
      (keep d (cmd.bitset .noSdot) (splitWords arg0).editchs (d.isdir log))) forkflag).Yields Q X v' log)
    (hx : ∀ v', cmd.bitset .noSdot = false → Still v v' → X 70 v' []) :
    (command d (fuel + 1) argv forkflag arg0).Yields Q X v log := by
  rw [command, yields_bind]
  refine (prologue_yields hn hl h).mono ?_ ?_
  · rintro r v' new ⟨rfl, hv, rfl⟩
    simpa using hp v' hv
  · rintro n v' new ⟨⟨rfl, hdot⟩, hv, rfl⟩
    exact hx v' hdot hv

/-- The same for a part of a macro. -/
theorem part_yields {Q : ℤ → Vars → List Entry → Prop} {X : ℕ → Vars → List Entry → Prop}
    (hn : partOf arg0 = some p) (h : p.words.length + argv.length < 998)
    (hp : ∀ v', Still v v' → (perform d (command d fuel) p.cmd (p.args d argv log) forkflag).Yields Q X v' log)
    (hx : ∀ v', p.cmd.bitset .noSdot = false → Still v v' → X 70 v' []) :
    (command d (fuel + 1) argv forkflag arg0).Yields Q X v log := by
  rw [partOf] at hn
  split at hn
  · next name words hw =>
    obtain ⟨cmd, hl, rfl⟩ := Option.map_eq_some_iff.mp hn
    refine command_yields (by rw [hw, takeName]) hl ?_ hp hx
    exact (Nat.add_le_add_left (List.length_filterMap_le _ _) _).trans_lt h
  · simp at hn

/-- The same for a command that the user gives. -/
theorem user_yields {Q : ℤ → Vars → List Entry → Prop} {X : ℕ → Vars → List Entry → Prop}
    (hl : lookup name = some cmd)
    (h : (args.filterMap (keep d (cmd.bitset .noSdot) none (d.isdir log))).length < 998)
    (hp : ∀ v', Still v v' → (perform d (command d fuel) cmd (args.filterMap
      (keep d (cmd.bitset .noSdot) none (d.isdir log))) forkflag).Yields Q X v' log)
    (hx : ∀ v', cmd.bitset .noSdot = false → Still v v' → X 70 v' []) :
    (command d (fuel + 1) (name :: args) forkflag []).Yields Q X v log := by
  have hs : splitWords [] = ⟨[], none⟩ := by rfl
  have hn : takeName (splitWords []).words (name :: args) = some (name, [], args) := by rw [hs, takeName]
  refine command_yields hn hl ?_ (by rw [hs]; exact hp) hx
  rw [hs, List.length_nil, Nat.zero_add]
  exact h

/-! ### Programs -/

/-- What is asked for a program that is waited for. -/
def Part.run (p : Part) (d : Driver) (path : Arg) (argv : List Arg) (piped : Bool) (log : List Entry) : Deed :=
  .run path (p.argv d argv log) (p.cmd.bitset .realUser || d.realUser) piped

/-- What is asked for a program that the process becomes. -/
def Part.become (p : Part) (d : Driver) (path : Arg) (argv : List Arg) (log : List Entry) : Deed :=
  .become path (p.argv d argv log) (p.cmd.bitset .realUser || d.realUser)

/-- A program that is waited for. -/
theorem callprog_run_yields {ru : Bool} (hne : argv ≠ []) :
    (callprog d path ru argv true).Yields
      (fun r v' new => ∃ n : ℕ, r = n ∧ v' = { v with outFile := false } ∧
        new = [(.run path argv (ru || d.realUser) v.outFile, .returns n)])
      (fun n v' new => n = 71 ∧ Still v v' ∧ ∃ k, new = [(.run path argv (ru || d.realUser) v.outFile, .exits k)])
      v log := by
  rw [callprog, if_neg hne]
  simp only [yields_bind, yields_vars, if_true, List.nil_append, List.append_nil, yields_ask]
  cases d.answer log (.run path argv (ru || d.realUser) v.outFile) with
  | returns n => exact ⟨n, rfl, rfl, rfl⟩
  | exits k => exact ⟨rfl, still_say (by simp), k, rfl⟩

/-- The status that a process ends with when it has become a program. -/
def Answer.status (failed : ℕ) : Answer → ℕ
  | .returns n => n
  | .exits _ => failed

theorem become_yields {ru : Bool} {failed : ℕ} :
    (become d path argv ru failed).Yields (fun _ _ _ => False)
      (fun n v' new => v' = v ∧ ∃ a : Answer, n = a.status failed ∧ new = [(.become path argv ru, a)]) v log := by
  rw [become, yields_bind, yields_ask]
  cases d.answer log (.become path argv ru) with
  | returns n => exact ⟨rfl, .returns n, rfl, rfl⟩
  | exits k => exact ⟨rfl, .exits k, rfl, rfl⟩

theorem execvp_yields {ru : Bool} :
    (execvp d path argv ru).Yields (fun _ v' new => v' = v ∧ ∃ k, new = [(.become path argv ru, .exits k)])
      (fun n v' new => v' = v ∧ new = [(.become path argv ru, .returns n)]) v log := by
  rw [execvp, yields_bind, yields_ask]
  cases d.answer log (.become path argv ru) with
  | returns n => exact ⟨rfl, rfl⟩
  | exits k => exact ⟨rfl, k, rfl⟩

/-- A program that the process becomes. -/
theorem callprog_become_yields {ru : Bool} (hne : argv ≠ []) (hv : v.outFile = false) :
    (callprog d path ru argv false).Yields (fun _ _ _ => False)
      (fun n v' new => v' = v ∧ ∃ a : Answer, n = a.status 69 ∧ new = [(.become path argv (ru || d.realUser), a)])
      v log := by
  rw [callprog, if_neg hne]
  simp only [yields_bind, yields_vars, hv, Bool.false_eq_true, if_false, List.nil_append, List.append_nil]
  exact become_yields

/-- A process that is forked does not come back. -/
theorem child_yields {m : Talk ℤ} {R : List Entry → Prop}
    (h : m.Yields (fun _ _ _ => False) (fun _ _ new => R new) v log) :
    (child m).Yields (fun _ v' new => v' = v ∧ R new) (fun _ _ _ => False) v log := by
  rw [Yields] at h ⊢
  rw [child]
  cases he : (m v log).ending with
  | value a =>
    rw [he] at h
    exact h.elim
  | exit n =>
    rw [he] at h
    exact ⟨rfl, h⟩
  | undefined =>
    rw [he] at h
    exact h.elim

/-- The arguments are flags first, and then names. -/
theorem takeWhile_flags (argv : List Arg) : (∀ a ∈ argv.takeWhile isFlag, isFlag a = true) ∧
    (argv.takeWhile isFlag).length + (argv.dropWhile isFlag).length = argv.length := by
  refine ⟨fun a ha => List.mem_takeWhile_imp ha, ?_⟩
  rw [← List.length_append, List.takeWhile_append_dropWhile]

/-! ### Programs in turn -/

/-- A program is called with the arguments that a part passes on. -/
def Called (d : Driver) (c : Part × List Arg) (e : Entry) : Prop :=
  ∃ path log, c.1.cmd.sccsoper = .prog path ∧
    (e.1 = c.1.run d path c.2 false log ∨ e.1 = c.1.become d path c.2 log)

/-- It ended with the status zero. -/
def Succeeded (e : Entry) : Prop := e.2 = .returns 0

/-- What holds of the status of the process, whether it exits or `main` returns, and of what was done. -/
def Finishes (m : Talk ℤ) (R : ℤ → List Entry → Prop) (v : Vars) (log : List Entry) : Prop :=
  m.Yields (fun r _ new => R r new) (fun n _ new => R n new) v log

/-- The texts of the parts of a macro. -/
def macroParts : ℕ → Arg → List Arg
  | 0, _ => []
  | _, [] => []
  | fuel + 1, c :: s =>
    (c :: s) ::
      match (c :: s).dropWhile (· ≠ 47) with
      | [] => []
      | _ :: s => macroParts fuel s

/-- The parts of a macro. -/
def partsOf (body : Arg) : List Part := (macroParts (body.length + 1) body).filterMap partOf

/-- The part is a program, and its words are flags. -/
def Part.simple (p : Part) : Bool :=
  p.words.length ≤ 3 && p.words.all isFlag &&
    match p.cmd.sccsoper with
    | .prog _ => true
    | _ => false

/-- The macro of an operation. -/
def Oper.body : Oper → Option Arg
  | .cMacro body => some body
  | _ => none

/-- All parts of a macro are simple. -/
def simpleBody (body : Arg) : Bool := (macroParts (body.length + 1) body).all fun t => (partOf t).any Part.simple

/-- The macros of the table. -/
theorem sccsProg_macros : ∀ cmd ∈ sccsProg, ∀ body ∈ cmd.sccsoper.body,
    cmd.sccsname = lit "create" ∨ simpleBody body = true := by
  decide

theorem Part.simple_cases (h : p.simple = true) :
    p.words.length ≤ 3 ∧ (∀ w ∈ p.words, isFlag w = true) ∧ ∃ path, p.cmd.sccsoper = .prog path := by
  rw [Part.simple, Bool.and_eq_true, Bool.and_eq_true, decide_eq_true_eq, List.all_eq_true] at h
  obtain ⟨⟨hlen, hflags⟩, hprog⟩ := h
  refine ⟨hlen, hflags, ?_⟩
  split at hprog
  · exact ⟨_, by assumption⟩
  · simp at hprog

/-- The calls of these parts in turn. -/
def Turns (d : Driver) (calls : List (Part × List Arg)) (status : ℤ) (new : List Entry) : Prop :=
  InTurn (Called d) Succeeded calls status new

/-- A call that is waited for. -/
theorem fork_yields (hn : partOf arg0 = some p) (ho : p.cmd.sccsoper = .prog path)
    (h : p.words.length + argv.length < 998) (hv : v.outFile = false) :
    (command d (fuel + 1) argv true arg0).Yields (fun r v' new => v'.outFile = false ∧ Turns d [(p, argv)] r new)
      (fun n _ new => n ≠ 0 ∧ Turns d [(p, argv)] n new) v log := by
  refine part_yields hn h ?_ fun v' _ _ => ⟨by simp, .none (by simp) (by simp)⟩
  intro v₁ hv₁
  have hcalled : ∀ a, Called d (p, argv) (.run path (p.cmd.sccsname :: p.args d argv log)
      (p.cmd.bitset .realUser || d.realUser) v₁.outFile, a) := by
    intro a
    exact ⟨path, log, ho, .inl (by rw [hv₁.outFile.trans hv]; rfl)⟩
  rw [perform.eq_def, ho]
  refine (callprog_run_yields (by simp)).mono ?_ ?_
  · rintro r v₂ new ⟨n, rfl, rfl, rfl⟩
    exact ⟨rfl, .one (hcalled _) (by simp [Succeeded])⟩
  · rintro n v₂ new ⟨rfl, -, k, rfl⟩
    exact ⟨by simp, .one (hcalled _) (by simp [Succeeded])⟩

/-- The first of some calls, and the others if it succeeds. -/
theorem first_finishes {k : Talk ℤ} {calls : List (Part × List Arg)} (hn : partOf arg0 = some p)
    (ho : p.cmd.sccsoper = .prog path) (h : p.words.length + argv.length < 998) (hv : v.outFile = false)
    (hk : ∀ v' log', v'.outFile = false → Finishes k (Turns d calls) v' log') :
    Finishes (ifZero (command d (fuel + 1) argv true arg0) k) (Turns d ((p, argv) :: calls)) v log := by
  rw [Finishes, yields_ifZero]
  refine (fork_yields hn ho h hv).mono ?_ ?_
  · rintro r v₁ new ⟨hv₁, hr⟩
    refine ⟨?_, hr.stop⟩
    rintro rfl
    refine (hk v₁ _ hv₁).mono ?_ ?_
    · intro b v₂ new' hb
      exact hr.then hb
    · intro n v₂ new' hn
      exact hr.then hn
  · rintro n v₁ new ⟨hn, hr⟩
    exact hr.stop (by exact_mod_cast hn)

/-- The last of some calls, which the process becomes. -/
theorem last_yields (hn : partOf arg0 = some p) (ho : p.cmd.sccsoper = .prog path)
    (h : p.words.length + argv.length < 998) (hv : v.outFile = false) :
    (command d (fuel + 1) argv false arg0).Yields (fun _ _ _ => False)
      (fun n _ new => Turns d [(p, argv)] n new) v log := by
  refine part_yields hn h ?_ fun v' _ _ => .none (by simp) (by simp)
  intro v₁ hv₁
  rw [perform.eq_def, ho]
  refine (callprog_become_yields (by simp) (hv₁.outFile.trans hv)).mono (fun r v' new hf => hf.elim) ?_
  rintro n v₂ new ⟨-, a, rfl, rfl⟩
  refine .one ⟨path, log, ho, .inr rfl⟩ ?_
  cases a with
  | returns n => simp [Succeeded, Answer.status]
  | exits k => simp [Succeeded, Answer.status]

/-- Where a part ends. -/
theorem dropWhile_slash (s : Arg) : s.dropWhile (· ≠ 47) = [] ∧ s.contains 47 = false ∨
    ∃ c t, s.dropWhile (· ≠ 47) = c :: t ∧ s.contains 47 = true ∧ t.length < s.length := by
  induction s with
  | nil => exact .inl ⟨rfl, rfl⟩
  | cons c s ih =>
    by_cases hc : c = 47
    · subst hc
      exact .inr ⟨47, s, by simp, by simp, by simp⟩
    · rw [List.dropWhile_cons_of_pos (by simpa using hc)]
      rcases ih with ⟨hd, hs⟩ | ⟨c', t, hd, hs, ht⟩
      · refine .inl ⟨hd, ?_⟩
        simpa [Ne.symm hc] using hs
      · refine .inr ⟨c', t, hd, ?_, by rw [List.length_cons]; omega⟩
        rw [List.contains_cons, hs, Bool.or_true]

/-- The last part of a macro. -/
theorem macroLoop_last {k : ℕ} {c : UInt8} {s : Arg} (hn : partOf (c :: s) = some p) (ho : p.cmd.sccsoper = .prog path)
    (h : p.words.length + args.length < 998) (hd : (c :: s).dropWhile (· ≠ 47) = []) (hs : (c :: s).contains 47 = false)
    (hv : v.outFile = false) :
    (macroLoop (command d (fuel + 1) args) (k + 1) (c :: s)).Yields (fun _ _ _ => False)
      (fun n _ new => Turns d [(p, args)] n new) v log := by
  rw [macroLoop, hs, hd, yields_ifZero]
  exact (last_yields hn ho h hv).mono (fun r v' new hf => hf.elim) fun n v' new hin => hin

/-- The parts of a macro are called in turn. -/
theorem macroLoop_finishes {k : ℕ} {s : Arg} (hk : s.length < k) (hlen : args.length ≤ 994)
    (hp : ∀ t ∈ macroParts k s, (partOf t).any Part.simple = true) (hv : v.outFile = false) :
    Finishes (macroLoop (command d (fuel + 1) args) k s)
      (Turns d (((macroParts k s).filterMap partOf).map (·, args))) v log := by
  induction k generalizing s v log with
  | zero => omega
  | succ k ih =>
    cases s with
    | nil => exact InTurn.nil
    | cons c s =>
      rw [macroParts] at hp ⊢
      obtain ⟨p, hpart, hsimple⟩ := (Option.any_eq_true ..).mp (hp _ List.mem_cons_self)
      obtain ⟨hwords, -, path, ho⟩ := Part.simple_cases hsimple
      rw [List.filterMap_cons_some hpart, List.map_cons]
      rcases dropWhile_slash (c :: s) with ⟨hd, hs⟩ | ⟨c', t, hd, hs, ht⟩
      · rw [hd]
        exact (macroLoop_last hpart ho (by omega) hd hs hv).mono (fun r v' new hf => hf.elim) fun n v' new hin => hin
      · rw [macroLoop, hs]
        rw [hd] at hp ⊢
        refine first_finishes hpart ho (by omega) hv fun v' log' hv' => ?_
        exact ih (by omega) (fun t ht => hp t (List.mem_cons_of_mem _ ht)) hv'

/-! ### Macros -/

theorem mem_of_lookup (h : lookup name = some cmd) : cmd ∈ sccsProg ∧ cmd.sccsname = name :=
  ⟨List.mem_of_find?_eq_some h, by simpa using List.find?_some h⟩

/-- All arguments are passed on to a macro. -/
theorem filterMap_keep_all (isdir : Arg → Bool) : args.filterMap (keep d true none isdir) = args := by
  have hk : ∀ a ∈ args, keep d true none isdir a = some a := by
    intro a _
    rw [keep]
    split_ifs with hflag hpass hsdot
    · rfl
    · exact absurd (by cases h : a.tail <;> simp [passes, h]) hpass
    · rfl
    · exact absurd rfl hsdot
  exact (List.filterMap_congr hk).trans List.filterMap_some

/-- Only programs have their names made. -/
theorem sccsProg_noSdot : ∀ cmd ∈ sccsProg, cmd.bitset .noSdot = true ∨ ∃ path, cmd.sccsoper = .prog path := by
  have h : ∀ cmd ∈ sccsProg, cmd.bitset .noSdot = true ∨ (⟨cmd, [], none⟩ : Part).simple = true := by decide
  intro cmd hc
  exact (h cmd hc).imp_right fun hs => (Part.simple_cases hs).2.2

/-- A command of the user that is not a program. -/
theorem sccs_yields {Q : ℤ → Vars → List Entry → Prop} {X : ℕ → Vars → List Entry → Prop}
    (hl : lookup name = some cmd) (ho : ∀ path, cmd.sccsoper ≠ .prog path) (h : args.length ≤ 994)
    (hp : ∀ v', Still v v' → (perform d (command d 2) cmd args false).Yields Q X v' log) :
    (sccs d (name :: args)).Yields Q X v log := by
  have hdot : cmd.bitset .noSdot = true := by
    rcases sccsProg_noSdot cmd (mem_of_lookup hl).1 with hdot | ⟨path, hpath⟩
    · exact hdot
    · exact absurd hpath (ho path)
  rw [sccs, if_neg (by simp)]
  refine user_yields hl ((List.length_filterMap_le _ _).trans_lt (by omega)) ?_
    fun v' hn _ => absurd (hdot.symm.trans hn) (by simp)
  intro v' hv
  rw [hdot, filterMap_keep_all]
  exact hp v' hv

/-- **A macro whose parts are programs calls them in turn**: each with the arguments that the part passes on, and none
of them unless the ones before have ended with zero. The status is zero if and only if all were called with success. -/
theorem macro_in_turn {body : Arg} (hl : lookup name = some cmd) (ho : cmd.sccsoper = .cMacro body)
    (hc : name ≠ lit "create") (h : args.length ≤ 994) (hv : v.outFile = false) :
    Finishes (sccs d (name :: args)) (Turns d ((partsOf body).map (·, args))) v log := by
  obtain ⟨hmem, hname⟩ := mem_of_lookup hl
  have hsimple := (sccsProg_macros cmd hmem body (by rw [ho]; rfl)).resolve_left (hname.trans_ne hc)
  refine sccs_yields hl (by simp [ho]) h ?_
  intro v' hv'
  rw [perform.eq_def, ho]
  exact macroLoop_finishes (Nat.lt_succ_self _) h (List.all_eq_true.mp hsimple) (hv'.outFile.trans hv)

/-- A front end in the directory of a project, in a world where all goes well. -/
def sampleDriver : Driver where
  sccsDir := []
  sccsPath := lit "SCCS"
  realUser := false
  trust := true
  isdir _ _ := false
  answer _ _ := .returns 0

/-- `sccs delget a.c`. -/
theorem macro_in_turn_sample : Finishes (sccs sampleDriver [lit "delget", lit "a.c"])
    (Turns sampleDriver ((partsOf (lit "delta:mysrp/get:ixbeskcl -t")).map (·, [lit "a.c"]))) ⟨false, []⟩ [] :=
  have hl : lookup (lit "delget") =
      some ⟨lit "delget", .cMacro (lit "delta:mysrp/get:ixbeskcl -t"), [.noSdot]⟩ := by rfl
  macro_in_turn hl rfl (by decide) (by decide) rfl

/-- The calls of `fix`. -/
def fixCalls (args : List Arg) : List (Part × List Arg) :=
  (partOf (lit "get -k")).toList.map (·, args) ++ (partOf (lit "rmdel:r")).toList.map (·, args) ++
    (partOf (lit "get -e -g")).toList.map (·, args.tail)

/-- **`fix` calls three programs in turn**: no delta is removed before `get` has gotten it, and nothing is edited
before it is removed. `rmdel` is passed the SID and no other flag. -/
theorem fix_in_turn {arg : Arg} {rest : List Arg} (hr : lit "-r" <+: arg) (h : rest.length + 1 ≤ 994)
    (hv : v.outFile = false) :
    Finishes (sccs d (lit "fix" :: arg :: rest)) (Turns d (fixCalls (arg :: rest))) v log := by
  have hl : lookup (lit "fix") = some ⟨lit "fix", .fix, [.noSdot]⟩ := by rfl
  obtain ⟨p₁, h₁, hs₁⟩ := (Option.any_eq_true Part.simple (partOf (lit "get -k"))).mp (by decide)
  obtain ⟨p₂, h₂, hs₂⟩ := (Option.any_eq_true Part.simple (partOf (lit "rmdel:r"))).mp (by decide)
  obtain ⟨p₃, h₃, hs₃⟩ := (Option.any_eq_true Part.simple (partOf (lit "get -e -g"))).mp (by decide)
  obtain ⟨hw₁, -, path₁, ho₁⟩ := Part.simple_cases hs₁
  obtain ⟨hw₂, -, path₂, ho₂⟩ := Part.simple_cases hs₂
  obtain ⟨hw₃, -, path₃, ho₃⟩ := Part.simple_cases hs₃
  have hcalls : fixCalls (arg :: rest) = [(p₁, arg :: rest), (p₂, arg :: rest), (p₃, rest)] := by
    rw [fixCalls, h₁, h₂, h₃]
    rfl
  rw [hcalls]
  refine sccs_yields hl (by simp) (by simpa using h) ?_
  intro v₁ hv₁
  rw [perform.eq_def]
  simp only [if_pos hr]
  refine first_finishes h₁ ho₁ (by rw [List.length_cons]; omega) (hv₁.outFile.trans hv) fun v₂ log₂ hv₂ => ?_
  refine first_finishes h₂ ho₂ (by rw [List.length_cons]; omega) hv₂ fun v₃ log₃ hv₃ => ?_
  refine (last_yields h₃ ho₃ (by omega) hv₃).mono (fun r v' new hf => hf.elim) ?_
  intro n v' new hin
  exact hin

/-- `sccs fix -r1.2 a.c`. -/
theorem fix_in_turn_sample : Finishes (sccs sampleDriver [lit "fix", lit "-r1.2", lit "a.c"])
    (Turns sampleDriver (fixCalls [lit "-r1.2", lit "a.c"])) ⟨false, []⟩ [] :=
  fix_in_turn (by decide) (by decide) rfl

end CSSC.Commands
