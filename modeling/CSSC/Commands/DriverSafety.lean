import CSSC.Commands.DriverRuns

/-!
# What the front end never does

The front end may run for another user. Then it matters what a user can make it do, with whatever arguments and files:
which programs it runs, for whom, and with which names. The table says of some programs that they run for the real
user. The other ones may only get to the history files below the directory that is fixed, and their names are made by
`makefile`.

`Deed.Confined` says what the front end may do, and `discipline` that all that is done is confined, and that
`callprog` never has to set the output without forking. Each operation keeps the discipline if the calls of `command`
do (`perform_keeps`), these go three deep (`enough_three`), and so all calls keep it (`sccs_keeps`). With at most 994
arguments no run is undefined (`sccs_defined`) and **all that is done is confined** (`sccs_confined`). The bound is
not far from the exact one: with more than 997 arguments of a program the front end overruns `nav`
(`program_overflow_iff`).
-/

namespace CSSC.Commands

open CSSC.Library CSSC.Library.Dialogue

/-! ### What may be asked -/

/-- An argument of the user, or the tail of one. -/
inductive Known (args : List Arg) : Arg → Prop where
  | arg {a : Arg} : a ∈ args → Known args a
  | tail {a : Arg} : Known args a → Known args (tail a)

/-- A flag, or an argument that is known. -/
def Passed (args : List Arg) (a : Arg) : Prop := isFlag a = true ∨ Known args a

/-- What a command of the table may be passed: flags, and names that were made of known arguments. -/
def SccsProg.Takes (cmd : SccsProg) (d : Driver) (args : List Arg) (a : Arg) : Prop :=
  isFlag a = true ∨ (cmd.bitset .noSdot = true ∧ Known args a) ∨
    (cmd.bitset .noSdot = false ∧ ∃ log name, Known args name ∧ made d (d.isdir log) name = some a)

/-- A program of the table is called as it should be. -/
def Proper (d : Driver) (args : List Arg) (path : Arg) (argv : List Arg) (realUser : Bool) : Prop :=
  ∃ cmd ∈ sccsProg, cmd.sccsoper = .prog path ∧ argv.head? = some cmd.sccsname ∧
    realUser = (cmd.bitset .realUser || d.realUser) ∧ ∀ a ∈ argv.tail, cmd.Takes d args a

/-- The program that compares files is called as it should be: for the real user. -/
def ProperDiff (args : List Arg) (path : Arg) (argv : List Arg) (realUser : Bool) : Prop :=
  (path = lit "diff" ∨ path = lit "bdiff") ∧ realUser = true ∧ ∀ a ∈ argv.tail, Passed args a

/-- What the front end may do for the arguments of a user. -/
def Deed.Confined (d : Driver) (args : List Arg) : Deed → Prop
  | .run path argv realUser _ => Proper d args path argv realUser
  | .become path argv realUser => Proper d args path argv realUser ∨ ProperDiff args path argv realUser
  | .unedit fn => Known args fn
  | .clean _ argv => ∀ a ∈ argv.tail, Known args a
  | .pipe => True
  | .link old new => Known args old ∧ new = lit "," ++ tail old
  | .unlink name => Known args name

/-- The discipline of the front end: all that is done is confined, and the message that `callprog` should never print
is not printed. -/
def discipline (d : Driver) (args : List Arg) : Discipline Vars Entry where
  holds v v' new := (Message.withoutForking ∈ v'.printed → Message.withoutForking ∈ v.printed) ∧
    ∀ e ∈ new, e.1.Confined d args
  refl _ := ⟨id, by simp⟩
  trans h h' := ⟨h.1 ∘ h'.1, fun e he => (List.mem_append.mp he).elim (h.2 e) (h'.2 e)⟩

/-! ### How deep the calls go -/

/-- The process does not come back from the operation. -/
def Oper.leaves : Oper → Bool → Bool
  | .prog _, forkflag => !forkflag
  | .dodiff _, _ => true
  | _, _ => false

/-- What an operation calls `command` with. -/
def Oper.calls : Oper → List Arg
  | .cMacro body => macroParts (body.length + 1) body
  | .fix => [lit "get -k", lit "rmdel:r", lit "get -e -g"]
  | .unedit => [lit "get"]
  | .diffs => [lit "-diff:elsfhbCunaBdHpqsvwyD", lit "get:rcixt -s -k -p"]
  | .enter => [lit "admin"]
  | _ => []

/-- The words of a part are few, and flags; only a program has any. -/
def Part.fine (p : Part) : Bool := p.simple || p.words = []

/-- The part of a text is fine, and if it is the last one the process does not come back. -/
def fineText (t : Arg) (p : Part) : Bool := p.fine && (t.contains 47 || p.cmd.sccsoper.leaves false)

/-- With so much fuel the operation can be carried out. -/
def enough : ℕ → Oper → Bool
  | 0, _ => false
  | fuel + 1, oper => oper.calls.all fun t => (partOf t).any fun p => fineText t p && enough fuel p.cmd.sccsoper

/-- **The calls of `command` go three deep.** -/
theorem enough_three : ∀ cmd ∈ sccsProg, enough 3 cmd.sccsoper = true := by decide

/-! ### What is kept -/

variable {d : Driver} {forkflag : Bool} {arg0 a name path : Arg} {args argv flags names words : List Arg}
  {v v' v'' : Vars} {log new new' : List Entry} {cmd : SccsProg} {p : Part} {fuel : ℕ} {m : Message} {e : Entry}

theorem holds_of_still (h : Still v v') : (discipline d args).holds v v' [] := ⟨h.printed, by simp⟩

theorem holds_one (h : Still v v') (he : e.1.Confined d args) : (discipline d args).holds v v' [e] :=
  ⟨h.printed, by simpa using he⟩

theorem keeps_say {Q : Unit → Vars → Prop} (hm : m ≠ .withoutForking)
    (h : Q () { v with printed := v.printed ++ [m] }) : (discipline d args).Keeps (say m) Q v log :=
  Discipline.keeps_modify (holds_of_still (still_say hm)) h

theorem keeps_deed {Q : Answer → Vars → Prop} {deed : Deed} (hd : deed.Confined d args) (h : ∀ a, Q a v) :
    (discipline d args).Keeps (ask d.answer deed) Q v log :=
  Discipline.keeps_ask (fun _ => holds_one (.refl v) hd) h

/-- The operation has come back, and `OutFile` is closed. -/
def Back (leaves : Bool) : ℤ → Vars → Prop := fun _ v => v.outFile = false ∧ leaves = false

theorem callprog_keeps {ru : Bool} (hp : Proper d args path argv (ru || d.realUser)) (hne : argv ≠ [])
    (hv : v.outFile = false ∨ forkflag = true) :
    (discipline d args).Keeps (callprog d path ru argv forkflag) (Back !forkflag) v log := by
  cases forkflag with
  | true =>
    refine (callprog_run_yields hne).mono ?_ ?_
    · rintro r v' new ⟨n, rfl, rfl, rfl⟩
      exact ⟨⟨id, by simpa [Deed.Confined] using hp⟩, rfl, rfl⟩
    · rintro n v' new ⟨rfl, hv', k, rfl⟩
      exact holds_one hv' hp
  | false =>
    refine (callprog_become_yields hne (by simpa using hv)).mono (fun r v' new hf => hf.elim) ?_
    rintro n v' new ⟨rfl, a, rfl, rfl⟩
    exact holds_one (.refl _) (.inl hp)

/-- A call of `command` that can be carried out. -/
structure CallFits (args : List Arg) (arg0 : Arg) (argv : List Arg) (forkflag : Bool) (v : Vars) (p : Part) : Prop where
  part : partOf arg0 = some p
  fine : p.fine = true
  outFile : v.outFile = false ∨ p.simple = true ∧ forkflag = true
  length : argv.length ≤ 994 ∨ argv.length ≤ 995 ∧ p.simple = true ∧ p.words = []
  passed : (∀ a ∈ argv, Known args a) ∨ p.simple = true ∧ ∀ a ∈ argv, Passed args a

/-- All calls of `command` that can be carried out keep the discipline. -/
def SafeCalls (d : Driver) (args : List Arg) (fuel : ℕ) : Prop :=
  ∀ arg0 argv forkflag v log p, CallFits args arg0 argv forkflag v p → enough fuel p.cmd.sccsoper = true →
    (discipline d args).Keeps (command d fuel argv forkflag arg0) (Back (p.cmd.sccsoper.leaves forkflag)) v log

theorem fineText_cases {t : Arg} (h : fineText t p = true) :
    p.fine = true ∧ (t.contains 47 = true ∨ p.cmd.sccsoper.leaves false = true) := by
  rwa [fineText, Bool.and_eq_true, Bool.or_eq_true] at h

/-- A part of an operation that is carried out. -/
theorem exists_part {t : Arg} (h : (partOf t).any (fun p => fineText t p && enough fuel p.cmd.sccsoper) = true) :
    ∃ p, partOf t = some p ∧ fineText t p = true ∧ enough fuel p.cmd.sccsoper = true := by
  obtain ⟨p, hp, hf⟩ := (Option.any_eq_true ..).mp h
  exact ⟨p, hp, by simpa using hf⟩

theorem macroLoop_keeps {k : ℕ} {s : Arg} (hsafe : SafeCalls d args fuel) (hk : s.length < k)
    (hp : ∀ t ∈ macroParts k s, (partOf t).any (fun p => fineText t p && enough fuel p.cmd.sccsoper) = true)
    (hlen : argv.length ≤ 994) (hargv : ∀ a ∈ argv, Known args a) (hv : v.outFile = false) :
    (discipline d args).Keeps (macroLoop (command d fuel argv) k s) (Back false) v log := by
  induction k generalizing s v log with
  | zero => omega
  | succ k ih =>
    cases s with
    | nil => exact Discipline.keeps_pure ⟨hv, rfl⟩
    | cons c s =>
      rw [macroParts] at hp
      obtain ⟨p, hpart, hfine, henough⟩ := exists_part (hp _ List.mem_cons_self)
      have hcall := hsafe (c :: s) argv ((c :: s).contains 47) v log p
        ⟨hpart, (fineText_cases hfine).1, .inl hv, .inl hlen, .inl hargv⟩ henough
      rw [macroLoop]
      refine hcall.ifZero ?_ fun r v' _ hb => ⟨hb.1, rfl⟩
      rintro v' log' ⟨hv', hleaves⟩
      rcases dropWhile_slash (c :: s) with ⟨-, hs⟩ | ⟨c', t, hd, -, ht⟩
      · have hl := (fineText_cases hfine).2.resolve_left (by rw [hs]; simp)
        rw [hs, hl] at hleaves
        exact absurd hleaves (by simp)
      · rw [hd] at hp ⊢
        exact ih (by omega) (fun t ht => hp t (List.mem_cons_of_mem _ ht)) hv'

theorem uneditLoop_keeps (hargv : ∀ a ∈ argv, Known args a) :
    (discipline d args).Keeps (uneditLoop d argv) (fun names v' => v' = v ∧ names.Sublist argv) v log := by
  induction argv generalizing log with
  | nil => exact Discipline.keeps_pure ⟨rfl, .slnil⟩
  | cons fn argv ih =>
    rw [uneditLoop]
    refine (keeps_deed (Q := fun _ v' => v' = v) ?_ fun _ => rfl).bind ?_
    · exact hargv fn List.mem_cons_self
    · rintro a v₁ log₁ rfl
      cases a with
      | exits n => exact Discipline.keeps_exit
      | returns n =>
        refine (ih fun a ha => hargv a (List.mem_cons_of_mem _ ha)).bind ?_
        rintro names v₂ log₂ ⟨rfl, hs⟩
        refine Discipline.keeps_pure ⟨rfl, ?_⟩
        split_ifs
        · exact hs.trans (List.sublist_cons_self _ _)
        · exact hs.cons_cons _

theorem keeps_concat {dest src : Arg} :
    (discipline d args).Keeps (concat dest src) (fun buf v' => buf = dest ++ src ∧ v' = v) v log := by
  rw [concat]
  cases hc : gstrcat dest src 1024 with
  | error b => exact (keeps_say (Q := fun _ _ => True) (by simp) trivial).bind fun _ _ _ _ => Discipline.keeps_exit
  | ok buf => exact Discipline.keeps_pure ⟨(gstrcat_eq_ok.mp hc).2, rfl⟩

theorem moveAway_keeps {rval : ℤ} {source : Arg} (hs : Known args source) (hv : v.outFile = false) :
    (discipline d args).Keeps (moveAway d rval source) (fun _ v' => v'.outFile = false) v log := by
  have hunlink : Deed.Confined d args (.unlink source) := hs
  rw [moveAway]
  split_ifs with hr
  · refine keeps_concat.bind ?_
    rintro backup v₁ log₁ ⟨rfl, rfl⟩
    have hlink : Deed.Confined d args (.link source (lit "," ++ tail source)) := ⟨hs, rfl⟩
    refine (keeps_deed (Q := fun _ v' => v'.outFile = false) hlink fun _ => hv).bind ?_
    intro a v₂ log₂ hv₂
    split_ifs with ha
    · exact (keeps_deed (Q := fun _ v' => v'.outFile = false) hunlink fun _ => hv₂).bind
        fun _ v₃ log₃ hv₃ => Discipline.keeps_pure hv₃
    · exact Discipline.keeps_pure hv₂
  · exact Discipline.keeps_pure hv

/-- The part of a text that an operation calls. -/
theorem part_of_enough {oper : Oper} {t : Arg} (h : enough (fuel + 1) oper = true) (ht : t ∈ oper.calls) :
    ∃ p, partOf t = some p ∧ p.fine = true ∧ enough fuel p.cmd.sccsoper = true := by
  obtain ⟨p, hp, hf, he⟩ := exists_part (List.all_eq_true.mp h t ht)
  exact ⟨p, hp, (fineText_cases hf).1, he⟩

theorem admin_simple : (partOf (lit "admin")).all (fun p => p.simple && p.words = []) = true := by decide

theorem enterLoop_keeps {first : Bool} {rval : ℤ} (hsafe : SafeCalls d args fuel)
    (henough : enough (fuel + 1) .enter = true) (hflags : ∀ a ∈ flags, isFlag a = true)
    (hnames : ∀ a ∈ names, Known args a) (hlen : flags.length + names.length ≤ 994) (hv : v.outFile = false) :
    (discipline d args).Keeps (enterLoop d (command d fuel) flags first names rval) (Back false) v log := by
  obtain ⟨p, hpart, hfine, hp⟩ := part_of_enough (t := lit "admin") henough (by decide)
  have hadmin : p.simple = true ∧ p.words = [] := by simpa [hpart] using admin_simple
  induction names generalizing first rval v log with
  | nil => exact Discipline.keeps_pure ⟨hv, rfl⟩
  | cons name names ih =>
    rw [List.length_cons] at hlen
    have hname := hnames name List.mem_cons_self
    have hrest : ∀ a ∈ names, Known args a := fun a ha => hnames a (List.mem_cons_of_mem _ ha)
    rw [enterLoop]
    refine (keeps_say (Q := fun _ v' => v'.outFile = false) (by simp) hv).bind fun _ v₁ log₁ hv₁ => ?_
    refine keeps_concat.bind ?_
    rintro opt v₂ log₂ ⟨rfl, rfl⟩
    refine Discipline.Keeps.bind (hsafe _ _ true v₂ log₂ p
      ⟨hpart, hfine, .inl hv₁, .inr ⟨?_, hadmin⟩, .inr ⟨hadmin.1, ?_⟩⟩ hp) ?_
    · simp
      omega
    · intro a ha
      simp only [List.cons_append, List.mem_cons, List.mem_append, List.not_mem_nil, or_false] at ha
      rcases ha with rfl | ha | rfl
      · exact .inl rfl
      · exact .inl (hflags a ha)
      · exact .inr hname.tail
    · rintro r v₃ log₃ ⟨hv₃, -⟩
      have hsource : Known args (if first = true then tail name else name) := by
        split_ifs
        · exact hname.tail
        · exact hname
      refine (moveAway_keeps hsource hv₃).bind fun _ v₄ log₄ hv₄ => ?_
      exact ih hrest (by omega) hv₄

/-- A process that does not come back is forked. -/
theorem child_keeps {m : Talk ℤ} (h : (discipline d args).Keeps m (Back true) v log) :
    (discipline d args).Keeps (child m) (fun _ v' => v' = v) v log := by
  have hchild : m.Yields (fun _ _ _ => False) (fun _ _ new => ∀ e ∈ new, e.1.Confined d args) v log := by
    refine Yields.mono h ?_ fun n v' new hd => hd.2
    rintro r v' new ⟨-, -, hleaves⟩
    exact absurd hleaves (by simp)
  refine (child_yields hchild).mono ?_ fun n v' new hf => hf.elim
  rintro - v' new ⟨rfl, hnew⟩
  exact ⟨⟨id, hnew⟩, rfl⟩

theorem diff_part : (partOf (lit "-diff:elsfhbCunaBdHpqsvwyD")).all (fun p => p.cmd.sccsoper.leaves false) = true := by
  decide

theorem get_part : (partOf (lit "get:rcixt -s -k -p")).all Part.simple = true := by decide

theorem dodiff_keeps {gfile : Arg} (hsafe : SafeCalls d args fuel) (henough : enough (fuel + 1) .diffs = true)
    (hargv : ∀ a ∈ argv, Known args a) (hlen : argv.length ≤ 994) (hv : v.outFile = false) :
    (discipline d args).Keeps (dodiff d (command d fuel) argv gfile) (Back false) v log := by
  obtain ⟨p, hpart, hfine, hp⟩ := part_of_enough (t := lit "-diff:elsfhbCunaBdHpqsvwyD") henough (by decide)
  obtain ⟨q, hqpart, hqfine, hq⟩ := part_of_enough (t := lit "get:rcixt -s -k -p") henough (by decide)
  have hdiff : p.cmd.sccsoper.leaves false = true := by simpa [hpart] using diff_part
  have hget : q.simple = true := by simpa [hqpart] using get_part
  rw [dodiff]
  refine (keeps_say (Q := fun _ v' => v'.outFile = false) (by simp) hv).bind fun _ v₁ log₁ hv₁ => ?_
  have hpipe : Deed.Confined d args .pipe := trivial
  refine (keeps_deed (Q := fun _ v' => v' = v₁) hpipe fun _ => rfl).bind ?_
  rintro a v₂ log₂ rfl
  cases a with
  | exits n => exact (keeps_say (Q := fun _ _ => True) (by simp) trivial).bind fun _ _ _ _ => Discipline.keeps_exit
  | returns n =>
    have hchild := hsafe _ _ false v₂ log₂ p ⟨hpart, hfine, .inl hv₁, .inl hlen, .inl hargv⟩ hp
    rw [hdiff] at hchild
    refine (child_keeps hchild).bind ?_
    rintro - v₃ log₃ rfl
    refine (Discipline.keeps_modify (D := discipline d args) (Q := fun _ _ => True) ⟨id, by simp⟩ trivial).bind
      fun _ v₄ log₄ _ => ?_
    refine (hsafe _ _ true v₄ log₄ q ⟨hqpart, hqfine, .inr ⟨hget, rfl⟩, .inl hlen, .inl hargv⟩ hq).mono ?_
    intro r v₅ hb
    exact ⟨hb.1, rfl⟩

theorem diffLoop_keeps {rval : ℤ} (hsafe : SafeCalls d args fuel) (henough : enough (fuel + 1) .diffs = true)
    (hflags : ∀ a ∈ flags, Known args a) (hnames : ∀ a ∈ names, Known args a)
    (hlen : flags.length + names.length ≤ 994) (hv : v.outFile = false) :
    (discipline d args).Keeps (diffLoop d (command d fuel) flags names rval) (Back false) v log := by
  induction names generalizing rval v log with
  | nil => exact Discipline.keeps_pure ⟨hv, rfl⟩
  | cons name names ih =>
    rw [List.length_cons] at hlen
    rw [diffLoop]
    refine (dodiff_keeps hsafe henough ?_ (by simp; omega) hv).bind ?_
    · intro a ha
      rcases List.mem_append.mp ha with ha | ha
      · exact hflags a ha
      · exact hnames a (by simpa using Or.inl (List.mem_singleton.mp ha))
    · rintro r v₁ log₁ ⟨hv₁, -⟩
      exact ih (fun a ha => hnames a (List.mem_cons_of_mem _ ha)) (by omega) hv₁

theorem become_keeps {ru : Bool} {failed : ℕ} (h : (Deed.become path argv ru).Confined d args) :
    (discipline d args).Keeps (become d path argv ru failed) (Back true) v log := by
  refine become_yields.mono (fun r v' new hf => hf.elim) ?_
  rintro n v' new ⟨rfl, a, -, rfl⟩
  exact holds_one (.refl _) h

theorem execvp_keeps {ru : Bool} (h : (Deed.become path argv ru).Confined d args) :
    (discipline d args).Keeps (execvp d path argv ru) (fun _ v' => v' = v) v log := by
  refine execvp_yields.mono ?_ ?_
  · rintro - v' new ⟨rfl, k, rfl⟩
    exact ⟨holds_one (.refl _) h, rfl⟩
  · rintro n v' new ⟨rfl, rfl⟩
    exact holds_one (.refl _) h

/-- What `-C` is replaced by. -/
theorem passed_lowerC (h : Passed args a) : Passed args (if lit "-C" <+: a then lit "-c" ++ a.drop 2 else a) := by
  split_ifs
  · exact .inl rfl
  · exact h

theorem runDiff_keeps (hpath : path = lit "bdiff") (hargv : ∀ a ∈ argv, Passed args a) (hlen : argv.length ≤ 995) :
    (discipline d args).Keeps (runDiff d path argv) (Back true) v log := by
  have hmap : ∀ a ∈ argv.map (fun a => if lit "-C" <+: a then lit "-c" ++ a.drop 2 else a), Passed args a := by
    intro a ha
    obtain ⟨b, hb, rfl⟩ := List.mem_map.mp ha
    exact passed_lowerC (hargv b hb)
  have hbdiff : ∀ log, (discipline d args).Keeps (become d path [] true 71) (Back true) v log :=
    fun log => become_keeps (.inr ⟨.inr hpath, rfl, by simp⟩)
  have hdiff : Deed.Confined d args (.become (lit "diff") ((argv.map fun a =>
      if lit "-C" <+: a then lit "-c" ++ a.drop 2 else a).dropLast ++ lit "-" :: (argv.map fun a =>
      if lit "-C" <+: a then lit "-c" ++ a.drop 2 else a).getLast?.toList) true) := by
    refine .inr ⟨.inl rfl, rfl, ?_⟩
    intro a ha
    rcases List.mem_append.mp (List.mem_of_mem_tail ha) with ha | ha
    · exact hmap a (List.mem_of_mem_dropLast ha)
    · rcases List.mem_cons.mp ha with rfl | ha
      · exact .inl rfl
      · exact hmap a (List.mem_of_mem_getLast? (Option.mem_toList.mp ha))
  rw [runDiff, if_neg (by rw [navSize]; omega)]
  split_ifs
  · refine (execvp_keeps hdiff).bind ?_
    rintro - v' log' rfl
    exact hbdiff log'
  · exact hbdiff log

/-! ### All operations -/

theorem sccsProg_dodiff : ∀ cmd ∈ sccsProg, ∀ path, cmd.sccsoper = .dodiff path →
    path = lit "bdiff" ∧ isFlag cmd.sccsname = true := by
  have h : ∀ cmd ∈ sccsProg, cmd.sccsoper.leaves true = false ∨
      cmd.sccsoper = .dodiff (lit "bdiff") ∧ isFlag cmd.sccsname = true := by decide
  intro cmd hc path ho
  rcases h cmd hc with hl | ⟨hd, hf⟩
  · rw [ho] at hl
    exact absurd hl (by simp [Oper.leaves])
  · rw [ho] at hd
    exact ⟨Oper.dodiff.inj hd, hf⟩

/-- A call in an operation. -/
theorem call_keeps {oper : Oper} {t : Arg} (hsafe : SafeCalls d args fuel) (henough : enough (fuel + 1) oper = true)
    (ht : t ∈ oper.calls) (hargv : ∀ a ∈ argv, Known args a) (hlen : argv.length ≤ 994) (hv : v.outFile = false) :
    (discipline d args).Keeps (command d fuel argv forkflag t) (Back false) v log := by
  obtain ⟨p, hpart, hfine, hp⟩ := part_of_enough henough ht
  refine (hsafe t argv forkflag v log p ⟨hpart, hfine, .inl hv, .inl hlen, .inl hargv⟩ hp).mono ?_
  intro r v' hb
  exact ⟨hb.1, rfl⟩

theorem fix_keeps (hsafe : SafeCalls d args fuel) (henough : enough (fuel + 1) .fix = true) (hcmd : cmd.sccsoper = .fix)
    (hargv : ∀ a ∈ argv, Known args a) (hlen : argv.length ≤ 994) (hv : v.outFile = false) :
    (discipline d args).Keeps (perform d (command d fuel) cmd argv forkflag) (Back false) v log := by
  have hneeds : ∀ {k : Talk ℤ}, k = (do say .needsR; return 64) → (discipline d args).Keeps k (Back false) v log := by
    rintro k rfl
    exact (keeps_say (Q := fun _ v' => v'.outFile = false) (by simp) hv).bind
      fun _ v₁ log₁ hv₁ => Discipline.keeps_pure ⟨hv₁, rfl⟩
  rw [perform.eq_def, hcmd]
  cases argv with
  | nil => exact hneeds rfl
  | cons arg rest =>
    have hrest : ∀ a ∈ rest, Known args a := fun a ha => hargv a (List.mem_cons_of_mem _ ha)
    have hlen' : rest.length ≤ 994 := by
      rw [List.length_cons] at hlen
      omega
    simp only
    split_ifs with hr
    · refine (call_keeps hsafe henough (by decide) hargv hlen hv).ifZero ?_ fun r v' _ hb => hb
      intro v₁ log₁ hv₁
      refine (call_keeps hsafe henough (by decide) hargv hlen hv₁.1).ifZero ?_ fun r v' _ hb => hb
      intro v₂ log₂ hv₂
      exact call_keeps hsafe henough (by decide) hrest hlen' hv₂.1
    · exact hneeds rfl

theorem clean_keeps {mode : CleanMode} (hcmd : cmd.sccsoper = .clean mode) (hargv : ∀ a ∈ argv, Known args a)
    (hv : v.outFile = false) :
    (discipline d args).Keeps (perform d (command d fuel) cmd argv forkflag) (Back false) v log := by
  have hclean : Deed.Confined d args (.clean mode (cmd.sccsname :: argv)) := hargv
  rw [perform.eq_def, hcmd]
  refine (keeps_deed (Q := fun _ v' => v'.outFile = false) hclean fun _ => hv).bind ?_
  intro a v₁ log₁ hv₁
  cases a with
  | returns n => exact Discipline.keeps_pure ⟨hv₁, rfl⟩
  | exits n => exact Discipline.keeps_exit

theorem unedit_keeps (hsafe : SafeCalls d args fuel) (henough : enough (fuel + 1) .unedit = true)
    (hcmd : cmd.sccsoper = .unedit) (hargv : ∀ a ∈ argv, Known args a) (hlen : argv.length ≤ 994)
    (hv : v.outFile = false) :
    (discipline d args).Keeps (perform d (command d fuel) cmd argv forkflag) (Back false) v log := by
  rw [perform.eq_def, hcmd]
  refine (uneditLoop_keeps hargv).bind ?_
  rintro names v₁ log₁ ⟨rfl, hs⟩
  split_ifs
  · exact Discipline.keeps_pure ⟨hv, rfl⟩
  · exact call_keeps hsafe henough (by decide) (fun a ha => hargv a (hs.subset ha)) (hs.length_le.trans hlen) hv

/-- **Each operation keeps the discipline**, if the calls of `command` do. -/
theorem perform_keeps (hmem : cmd ∈ sccsProg) (ho : ∀ path, cmd.sccsoper ≠ .prog path) (hsafe : SafeCalls d args fuel)
    (henough : enough (fuel + 1) cmd.sccsoper = true) (hargv : ∀ a ∈ argv, Known args a) (hlen : argv.length ≤ 994)
    (hv : v.outFile = false) :
    (discipline d args).Keeps (perform d (command d fuel) cmd argv forkflag) (Back (cmd.sccsoper.leaves forkflag)) v
      log := by
  obtain ⟨hflags, hlength⟩ := takeWhile_flags argv
  have hnames : ∀ a ∈ argv.dropWhile isFlag, Known args a := fun a ha => hargv a ((List.dropWhile_sublist _).subset ha)
  cases hoper : cmd.sccsoper with
  | prog path => exact absurd hoper (ho path)
  | cMacro body =>
    rw [hoper] at henough
    rw [perform.eq_def, hoper]
    exact macroLoop_keeps hsafe (Nat.lt_succ_self _) (List.all_eq_true.mp henough) hlen hargv hv
  | fix => exact fix_keeps hsafe (hoper ▸ henough) hoper hargv hlen hv
  | clean mode => exact clean_keeps hoper hargv hv
  | unedit => exact unedit_keeps hsafe (hoper ▸ henough) hoper hargv hlen hv
  | diffs =>
    rw [hoper] at henough
    rw [perform.eq_def, hoper]
    exact diffLoop_keeps hsafe henough (fun a ha => hargv a ((List.takeWhile_sublist _).subset ha)) hnames (by omega) hv
  | dodiff path =>
    obtain ⟨hpath, hname⟩ := sccsProg_dodiff cmd hmem path hoper
    rw [perform.eq_def, hoper]
    refine runDiff_keeps hpath ?_ (by rw [List.length_cons]; omega)
    intro a ha
    rcases List.mem_cons.mp ha with rfl | ha
    · exact .inl hname
    · exact .inr (hargv a ha)
  | enter =>
    rw [hoper] at henough
    rw [perform.eq_def, hoper]
    exact enterLoop_keeps hsafe henough hflags hnames (by omega) hv

/-- A program is passed what it takes. -/
theorem takes_of_keep {editchs : Option Arg} {isdir : Arg → Bool} {b : Arg} (hd : ∃ log, isdir = d.isdir log)
    (ha : Passed args a) (h : keep d (cmd.bitset .noSdot) editchs isdir a = some b) : cmd.Takes d args b := by
  obtain ⟨log, rfl⟩ := hd
  rw [keep] at h
  split_ifs at h with hflag hpass hdot
  · rw [← Option.some.inj h]
    exact .inl hflag
  · rw [← Option.some.inj h]
    exact .inr (.inl ⟨hdot, ha.resolve_left hflag⟩)
  · exact .inr (.inr ⟨by simpa using hdot, log, a, ha.resolve_left hflag, h⟩)

/-- An operation that is not a program is passed arguments as they are. -/
theorem eq_of_keep {editchs : Option Arg} {isdir : Arg → Bool} {b : Arg}
    (h : keep d true editchs isdir a = some b) : b = a := by
  rw [keep] at h
  split_ifs at h with hflag hpass hdot
  · exact (Option.some.inj h).symm
  · exact (Option.some.inj h).symm
  · exact absurd rfl hdot

/-- What is printed before a program runs may stay printed. -/
theorem keeps_of_still {α : Type} {k : Talk α} {Q : α → Vars → Prop} (h : Still v v')
    (hk : (discipline d args).Keeps k Q v' log) :
    k.Yields (fun a t new => (discipline d args).holds v t new ∧ Q a t)
      (fun _ t new => (discipline d args).holds v t new) v' log := by
  refine Yields.mono hk ?_ ?_
  · rintro a t new ⟨ht, hq⟩
    exact ⟨(discipline d args).trans (holds_of_still h) ht, hq⟩
  · intro n t new ht
    exact (discipline d args).trans (holds_of_still h) ht

theorem fine_words (h : p.fine = true) : p.words.length ≤ 3 ∧ (∀ w ∈ p.words, isFlag w = true) ∧
    (p.simple = true ∨ p.words = []) := by
  rw [Part.fine, Bool.or_eq_true, decide_eq_true_eq] at h
  rcases h with h | h
  · obtain ⟨hlen, hflags, -⟩ := Part.simple_cases h
    exact ⟨hlen, hflags, .inl h⟩
  · rw [h]
    exact ⟨by simp, by simp, .inr rfl⟩

theorem mem_of_partOf (h : partOf arg0 = some p) : p.cmd ∈ sccsProg := by
  rw [partOf] at h
  split at h
  · obtain ⟨cmd, hl, rfl⟩ := Option.map_eq_some_iff.mp h
    exact (mem_of_lookup hl).1
  · simp at h

/-- A command that is looked up is carried out with the arguments that are passed on. -/
theorem carried_keeps {editchs : Option Arg} (hmem : cmd ∈ sccsProg) (hsafe : SafeCalls d args fuel)
    (henough : enough (fuel + 1) cmd.sccsoper = true)
    (hargv : (∀ w ∈ words, isFlag w = true) ∧ (∃ path, cmd.sccsoper = .prog path) ∧ (∀ a ∈ argv, Passed args a) ∧
        (v.outFile = false ∨ forkflag = true) ∨
      words = [] ∧ argv.length ≤ 994 ∧ (∀ a ∈ argv, Known args a) ∧ v.outFile = false) :
    (discipline d args).Keeps (perform d (command d fuel) cmd
      (words ++ argv.filterMap (keep d (cmd.bitset .noSdot) editchs (d.isdir log))) forkflag)
      (Back (cmd.sccsoper.leaves forkflag)) v log := by
  by_cases hprog : ∃ path, cmd.sccsoper = .prog path
  · have hflags : ∀ w ∈ words, isFlag w = true := by
      rcases hargv with ⟨h, -⟩ | ⟨rfl, -⟩
      · exact h
      · simp
    have hpassed : ∀ a ∈ argv, Passed args a := by
      rcases hargv with ⟨-, -, h, -⟩ | ⟨-, -, h, -⟩
      · exact h
      · exact fun a ha => .inr (h a ha)
    have hout : v.outFile = false ∨ forkflag = true := by
      rcases hargv with ⟨-, -, -, h⟩ | ⟨-, -, -, h⟩
      · exact h
      · exact .inl h
    obtain ⟨path, ho⟩ := hprog
    rw [perform.eq_def, ho]
    refine callprog_keeps ⟨cmd, hmem, ho, rfl, rfl, ?_⟩ (by simp) hout
    intro a ha
    rcases List.mem_append.mp ha with ha | ha
    · exact .inl (hflags a ha)
    · obtain ⟨b, hb, hk⟩ := List.mem_filterMap.mp ha
      exact takes_of_keep ⟨log, rfl⟩ (hpassed b hb) hk
  · obtain ⟨rfl, hlen, hknown, hout⟩ := hargv.resolve_left fun h => hprog h.2.1
    rw [(sccsProg_noSdot cmd hmem).resolve_right hprog, List.nil_append]
    refine perform_keeps hmem (not_exists.mp hprog) hsafe henough ?_ ?_ hout
    · intro a ha
      obtain ⟨b, hb, hk⟩ := List.mem_filterMap.mp ha
      rw [eq_of_keep hk]
      exact hknown b hb
    · exact (List.length_filterMap_le _ _).trans hlen

/-- **All calls of `command` keep the discipline.** -/
theorem safeCalls (fuel : ℕ) : SafeCalls d args fuel := by
  induction fuel with
  | zero =>
    intro arg0 argv forkflag v log p _ h
    exact absurd h (by simp [enough])
  | succ fuel ih =>
    intro arg0 argv forkflag v log p hfits henough
    obtain ⟨hwords, hflags, hsimple⟩ := fine_words hfits.fine
    refine part_yields hfits.part ?_ ?_ fun v' _ hv' => holds_of_still hv'
    · rcases hfits.length with h | ⟨h, -, h'⟩
      · omega
      · rw [h', List.length_nil]
        omega
    · intro v' hv'
      refine keeps_of_still hv' (carried_keeps (mem_of_partOf hfits.part) ih henough ?_)
      rw [hv'.outFile]
      by_cases hs : p.simple = true
      · refine .inl ⟨hflags, (Part.simple_cases hs).2.2, ?_, hfits.outFile.imp_right And.right⟩
        rcases hfits.passed with h | ⟨-, h⟩
        · exact fun a ha => .inr (h a ha)
        · exact h
      · exact .inr ⟨hsimple.resolve_left hs, hfits.length.resolve_right fun h => hs h.2.1,
          hfits.passed.resolve_right fun h => hs h.1, hfits.outFile.resolve_right fun h => hs h.1⟩

/-- **The front end keeps the discipline**, if there is room for the arguments. -/
theorem sccs_keeps (h : argv.length ≤ 995) (hv : v.outFile = false) :
    (discipline d argv.tail).Keeps (sccs d argv) (fun _ v' => v'.outFile = false) v log := by
  rw [sccs]
  split_ifs with hne
  · exact (keeps_say (Q := fun _ v' => v'.outFile = false) (by simp) hv).bind
      fun _ v₁ log₁ hv₁ => Discipline.keeps_pure hv₁
  · obtain ⟨name, args, rfl⟩ := List.exists_cons_of_ne_nil hne
    rw [List.length_cons] at h
    cases hl : lookup name with
    | none =>
      have hs : splitWords [] = ⟨[], none⟩ := by rfl
      rw [command, prologue, hs, takeName]
      simp only [hl]
      refine Discipline.Keeps.bind (Q := fun r v' => r = none ∧ v'.outFile = false) ?_ ?_
      · exact (keeps_say (Q := fun _ v' => v'.outFile = false) (by simp) hv).bind
          fun _ v₁ log₁ hv₁ => Discipline.keeps_pure ⟨rfl, hv₁⟩
      · rintro r v₁ log₁ ⟨rfl, hv₁⟩
        exact Discipline.keeps_pure hv₁
    | some cmd =>
      have hmem := (mem_of_lookup hl).1
      refine user_yields hl ((List.length_filterMap_le _ _).trans_lt (by omega)) ?_ fun v' _ hv' => holds_of_still hv'
      intro v' hv'
      have hkeeps : (discipline d args).Keeps (perform d (command d 2) cmd
          ([] ++ args.filterMap (keep d (cmd.bitset .noSdot) none (d.isdir log))) false) _ v' log :=
        carried_keeps hmem (safeCalls 2) (enough_three cmd hmem)
          (.inr ⟨rfl, by omega, fun a ha => .arg ha, hv'.outFile.trans hv⟩)
      exact keeps_of_still hv' (hkeeps.mono fun r v₁ hb => hb.1)

/-- **No run of the front end is undefined**, whatever the world answers, if there are no more than 994 arguments; and
`callprog` never sets the output without forking. -/
theorem sccs_defined (h : argv.length ≤ 995) (hv : v.outFile = false) (hp : Message.withoutForking ∉ v.printed) :
    (sccs d argv v log).ending ≠ .undefined ∧ Message.withoutForking ∉ (sccs d argv v log).vars.printed := by
  obtain ⟨hdefined, hprinted, -⟩ := (sccs_keeps h hv).holds
  exact ⟨hdefined, hp ∘ hprinted⟩

/-- **All that the front end does is confined**: only programs of the table are run, and `diff`; but for `help`, `what`
and `diff` they are passed flags, and names that `makefile` has made of the arguments of the user. -/
theorem sccs_confined (h : argv.length ≤ 995) (hv : v.outFile = false) :
    ∀ e ∈ (sccs d argv v log).added, e.1.Confined d argv.tail :=
  (sccs_keeps h hv).holds.2.2

/-- `sccs delget a.c`. -/
theorem sccs_defined_sample :
    (sccs sampleDriver [lit "delget", lit "a.c"] ⟨false, []⟩ []).ending ≠ .undefined ∧
      Message.withoutForking ∉ (sccs sampleDriver [lit "delget", lit "a.c"] ⟨false, []⟩ []).vars.printed :=
  sccs_defined (by decide) rfl (by simp)

/-- `sccs create x/a.c`. -/
theorem sccs_confined_sample : lookup (lit "create") ≠ none ∧
    ∀ e ∈ (sccs sampleDriver [lit "create", lit "x/a.c"] ⟨false, []⟩ []).added,
      e.1.Confined sampleDriver [lit "x/a.c"] :=
  ⟨by decide, @sccs_confined sampleDriver [lit "create", lit "x/a.c"] ⟨false, []⟩ [] (by decide) rfl⟩

/-! ### Too many arguments -/

/-- No buffer is too small for the name that is made of an argument. -/
def Room (d : Driver) (noSdot : Bool) (isdir : Arg → Bool) (a : Arg) : Prop :=
  isFlag a = true ∨ noSdot = true ∨ ∃ r, makefile d.sccsDir d.sccsPath isdir a = .ok r

variable {noSdot : Bool} {editchs : Option Arg} {ap : List Arg}

theorem keepArg_room (h : Room d noSdot (d.isdir log) a) :
    (keepArg d noSdot editchs a).Yields (fun r _ new => r = keep d noSdot editchs (d.isdir log) a ∧ new = [])
      (fun _ _ _ => False) v log := by
  rw [keepArg, keep]
  split_ifs with hflag hpass hdot
  · exact ⟨rfl, rfl⟩
  · exact ⟨rfl, rfl⟩
  · exact ⟨rfl, rfl⟩
  · obtain ⟨r, hr⟩ := (h.resolve_left hflag).resolve_left hdot
    rw [makename, yields_bind, yields_logged, List.append_nil, made, hr]
    cases r with
    | none => exact ⟨rfl, rfl⟩
    | some b => exact ⟨rfl, rfl⟩

/-- With more arguments than there is room for, `nav` is overrun. -/
theorem copyArgs_overflow (hroom : ∀ a ∈ argv, Room d noSdot (d.isdir log) a)
    (h : navSize ≤ ap.length + (argv.filterMap (keep d noSdot editchs (d.isdir log))).length) :
    (copyArgs d noSdot editchs argv ap v log).ending = .undefined := by
  induction argv generalizing ap v with
  | nil =>
    rw [copyArgs, if_neg (by simpa using h)]
    rfl
  | cons p argv ih =>
    have hrest : ∀ a ∈ argv, Room d noSdot (d.isdir log) a := fun a ha => hroom a (List.mem_cons_of_mem _ ha)
    rw [copyArgs]
    refine bind_undefined ((keepArg_room (hroom p List.mem_cons_self)).mono ?_ fun n v' new hf => hf)
    rintro r v₁ new ⟨rfl, rfl⟩
    rw [List.append_nil]
    cases hk : keep d noSdot editchs (d.isdir log) p with
    | none =>
      rw [List.filterMap_cons_none hk] at h
      exact ih hrest h
    | some b =>
      rw [List.filterMap_cons_some hk, List.length_cons] at h
      simp only
      split_ifs with hlt
      · refine ih hrest ?_
        rw [List.length_append, List.length_singleton]
        omega
      · rfl

/-- The overrun is before anything is done. -/
theorem sccs_overflow (hl : lookup name = some cmd) (hroom : ∀ a ∈ args, Room d (cmd.bitset .noSdot) (d.isdir log) a)
    (h : 997 < (args.filterMap (keep d (cmd.bitset .noSdot) none (d.isdir log))).length) :
    (sccs d (name :: args) v log).ending = .undefined := by
  have hs : splitWords [] = ⟨[], none⟩ := by rfl
  rw [sccs, if_neg (by simp), command]
  refine undefined_bind ?_
  rw [prologue, hs, takeName]
  simp only [hl]
  refine bind_undefined ((warn_yields (by simp)).mono ?_ fun n v' new hf => hf)
  rintro - v₁ new ⟨-, rfl⟩
  refine bind_undefined ((warn_yields (by simp)).mono ?_ fun n v' new hf => hf)
  rintro - v₂ new ⟨-, rfl⟩
  rw [List.append_nil, List.append_nil]
  refine undefined_bind (copyArgs_overflow hroom ?_)
  rw [navSize, List.length_singleton]
  omega

/-- **A program of the table is called with at most 997 arguments**: if more are passed on, and none of them is a name
that is too long, the front end is undefined; otherwise it is not. -/
theorem program_overflow_iff (hl : lookup name = some cmd) (ho : cmd.sccsoper = .prog path)
    (hroom : ∀ a ∈ args, Room d (cmd.bitset .noSdot) (d.isdir log) a) (hv : v.outFile = false) :
    (sccs d (name :: args) v log).ending = .undefined ↔
      997 < (args.filterMap (keep d (cmd.bitset .noSdot) none (d.isdir log))).length := by
  refine ⟨fun hu => ?_, sccs_overflow hl hroom⟩
  by_contra hn
  refine Yields.defined (Q := fun _ _ _ => True) (X := fun _ _ _ => True) ?_ hu
  rw [sccs, if_neg (by simp)]
  refine user_yields hl (by omega) ?_ fun _ _ _ => trivial
  intro v' hv'
  rw [perform.eq_def, ho]
  exact (callprog_become_yields (by simp) (hv'.outFile.trans hv)).mono (fun _ _ _ _ => trivial) fun _ _ _ _ => trivial

/-- `sccs get` with too many flags. -/
theorem program_overflow_iff_sample :
    (sccs sampleDriver (lit "get" :: List.replicate 998 (lit "-s")) ⟨false, []⟩ []).ending = .undefined := by
  have hl : lookup (lit "get") = some ⟨lit "get", .prog (lit "get"), []⟩ := by rfl
  have hk : keep sampleDriver false none (sampleDriver.isdir []) (lit "-s") = some (lit "-s") := by decide
  refine (program_overflow_iff hl rfl ?_ rfl).mpr ?_
  · intro a ha
    rw [(List.mem_replicate.mp ha).2]
    exact .inl (by decide)
  · change 997 <
      ((List.replicate 998 (lit "-s")).filterMap (keep sampleDriver false none (sampleDriver.isdir []))).length
    rw [List.filterMap_replicate_of_some hk, List.length_replicate]
    decide

end CSSC.Commands
