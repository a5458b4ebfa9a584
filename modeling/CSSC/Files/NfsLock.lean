import CSSC.Files.Names
import CSSC.Library.HardLinks
import CSSC.Library.Run

/-!
# How the lock file is made

The constructor of `file_lock` makes the z-file with `atomic_nfs_create`, which does not trust `O_EXCL` alone: it
makes a file `nfslck0` (or `nfslck1`, …), links it to the z-file, and has won if the file then has two links. What
`link` returns is not looked at.

Any number of processes do this at a time, for any history files, and each call to the system is a step, which may
fail for reasons of its own; `link` may report what it likes, whether or not it makes the link. In each call the
directory is looked up by name: the file found under a name need not be the one that was made under it. Files are
numbered, so that the two can be told apart.

A lost attempt unlinks its `nfslck` file twice, the second time after it has waited. Where that never hits the file of
another process, the run is `Careful`. Then no two processes hold the lock of one history file (`holds_unique`), and
without that care two do (`two_hold`). Where besides nothing fails that is looked at or removed, and no process is
stopped between the z-file and its object, nothing is left behind (`tidy_of_reach`). A lock file that does stay
behind, stays for good (`stale_of_leads`); a lock that is free can be taken, whatever files `nfslck` are left
(`acquire`).
-/

namespace CSSC.Files.NfsLock

open CSSC.Library CSSC.Library.Run HardLinks

/-! ### The objects -/

/-- `link_errno`. -/
inductive LinkErrno where
  /-- No error. -/
  | none
  /-- `EPERM`. -/
  | eperm
  /-- `ENOSYS`. -/
  | enosys
  /-- Any other. -/
  | other
  deriving DecidableEq, Repr

/-- The file system does not support hard links. -/
def LinkErrno.unsupported (e : LinkErrno) : Bool := e = .eperm || e = .enosys

/-- What is done next. The file is the one that is open. -/
inductive Phase where
  /-- `open(lockstr, flags, perms)`. -/
  | opening (attempt : ℕ)
  /-- `links = get_nlinks(lockstr)`. -/
  | counting (attempt file : ℕ)
  /-- `link(lockstr, path)`. -/
  | linking (attempt file : ℕ)
  /-- `links_again = get_nlinks(lockstr)`. -/
  | recounting (attempt file : ℕ) (e : LinkErrno)
  /-- `unlink(lockstr); return fd`. -/
  | won (attempt file : ℕ)
  /-- `close(fd); unlink(lockstr)`. -/
  | lost (attempt file : ℕ) (e : LinkErrno)
  /-- `close(fd); unlink(lockstr)` at the end of the loop's body, after `maybe_wait_a_bit`. -/
  | clearing (attempt file : ℕ)
  /-- `open(path, flags, perms)`. -/
  | fallback
  /-- The z-file is made; `fdopen`, and the process number is written to it. -/
  | writing (file : ℕ)
  /-- The constructor has returned. -/
  | held (file : ℕ)
  deriving DecidableEq, Repr

/-- The file that is open, or was. -/
def Phase.file? : Phase → Option ℕ
  | .opening _ | .fallback => Option.none
  | .counting _ f | .linking _ f | .recounting _ f _ | .won _ f | .lost _ f _ | .clearing _ f | .writing f | .held f =>
    some f

/-- The lock counts as taken. -/
def Phase.holds : Phase → Bool
  | .won _ _ | .writing _ | .held _ => true
  | _ => false

/-- `file_lock`, of the z-file of a history file. -/
structure FileLock where
  /-- The name of the history file. -/
  sname : PathName
  /-- It is a name for a history file. -/
  valid : validFilename sname = true
  /-- How far the object is. -/
  phase : Phase

namespace FileLock

/-- `name_`: the z-file. -/
def path (l : FileLock) : PathName := zfile l.sname

/-- `lockstr`. -/
def temp (l : FileLock) (attempt : ℕ) : PathName := lockname l.path attempt

/-- The object is one call further. -/
def goto (l : FileLock) (ph : Phase) : FileLock := { l with phase := ph }

@[simp] theorem goto_phase (l : FileLock) (ph : Phase) : (l.goto ph).phase = ph := rfl
@[simp] theorem goto_path (l : FileLock) (ph : Phase) : (l.goto ph).path = l.path := rfl
@[simp] theorem goto_temp (l : FileLock) (ph : Phase) (k : ℕ) : (l.goto ph).temp k = l.temp k := rfl

theorem temp_ne_path (l m : FileLock) (k : ℕ) : l.temp k ≠ m.path :=
  lockname_ne_subFile m.valid (by decide) l.path k

end FileLock

/-! ### The host -/

/-- The directory and the processes. -/
structure Host (P : Type*) where
  /-- The files, by their numbers. -/
  dir : HardLinks PathName ℕ
  /-- The number of the next file that is made. -/
  next : ℕ
  /-- The object of each process, if it has one. -/
  locks : P → Option FileLock

variable {P : Type*} [DecidableEq P]

namespace Host

/-- The object of a process changes. -/
def set (s : Host P) (p : P) (o : Option FileLock) : Host P := { s with locks := Function.update s.locks p o }

/-- `unlink`, which may fail. -/
def unlink (s : Host P) (fails : Bool) (n : PathName) : Host P :=
  { s with dir := if fails then s.dir else HardLinks.unlink s.dir n }

/-- `open` with `O_CREAT | O_EXCL` makes a new file. -/
def create (s : Host P) (n : PathName) : Host P := { s with dir := add s.dir n s.next, next := s.next + 1 }

/-- `link`. -/
def link (s : Host P) (f : ℕ) (n : PathName) : Host P := { s with dir := add s.dir n f }

theorem set_set (s : Host P) (p : P) (o o' : Option FileLock) : (s.set p o).set p o' = s.set p o' := by
  rw [set, set, set, Function.update_idem]

/-- The file of the object of a process. -/
def own (s : Host P) (p : P) : Option ℕ := (s.locks p).bind fun l => l.phase.file?

end Host

/-- The calls. A flag says that the call fails for a reason of its own. -/
inductive Event (P : Type*) where
  /-- The constructor is called; `CONFIG_CAN_HARD_LINK_AN_OPEN_FILE`. -/
  | construct (p : P) (sname : PathName) (links : Bool)
  /-- `open`. -/
  | open_ (p : P) (fails : Bool)
  /-- The 10000 attempts are over. -/
  | giveUp (p : P)
  /-- `get_nlinks`. -/
  | stat (p : P) (fails : Bool)
  /-- `link`: whether the link is made, and what is reported. -/
  | link (p : P) (made : Bool) (e : LinkErrno)
  /-- `unlink(lockstr)`. -/
  | unlink (p : P) (fails : Bool)
  /-- `fdopen` fails, and nothing is removed. -/
  | fdopenFails (p : P)
  /-- `do_lock` and `fclose`. -/
  | write (p : P)
  /-- `do_lock` or `fclose` fails, and `remove(zname)` is called. -/
  | writeFails (p : P) (fails : Bool)
  /-- `~file_lock` calls `unlink(name_)`. -/
  | destroy (p : P) (fails : Bool)
  /-- The process is killed. -/
  | crash (p : P)

/-- One call. -/
inductive Step : Host P → Event P → Host P → Prop
  /-- The constructor is called. Without hard links of open files, `createfile` opens the z-file like the fallback. -/
  | construct {s : Host P} {p : P} {sname : PathName} {links : Bool} (h : validFilename sname = true) :
      s.locks p = none →
      Step s (.construct p sname links) (s.set p (some ⟨sname, h, if links then .opening 0 else .fallback⟩))
  /-- `EEXIST`: the next attempt. -/
  | openExists {s : Host P} {p : P} {l : FileLock} {k : ℕ} : s.locks p = some l → l.phase = .opening k → k < 10000 →
      file s.dir (l.temp k) ≠ none → Step s (.open_ p false) (s.set p (some (l.goto (.opening (k + 1)))))
  /-- The file of the attempt is made. -/
  | openDone {s : Host P} {p : P} {l : FileLock} {k : ℕ} : s.locks p = some l → l.phase = .opening k → k < 10000 →
      file s.dir (l.temp k) = none →
      Step s (.open_ p false) ((s.create (l.temp k)).set p (some (l.goto (.counting k s.next))))
  /-- A hard failure. -/
  | openFails {s : Host P} {p : P} {l : FileLock} {k : ℕ} : s.locks p = some l → l.phase = .opening k → k < 10000 →
      Step s (.open_ p true) (s.set p (some (l.goto .fallback)))
  /-- -1 is returned, `fdopen` fails and the constructor throws. -/
  | giveUp {s : Host P} {p : P} {l : FileLock} {k : ℕ} : s.locks p = some l → l.phase = .opening k → ¬ k < 10000 →
      Step s (.giveUp p) (s.set p none)
  /-- `stat` fails. The file stays. -/
  | countFails {s : Host P} {p : P} {l : FileLock} {k f : ℕ} {fails : Bool} : s.locks p = some l →
      l.phase = .counting k f → (fails = false → file s.dir (l.temp k) = none) →
      Step s (.stat p fails) (s.set p (some (l.goto .fallback)))
  /-- There is one link. -/
  | countOne {s : Host P} {p : P} {l : FileLock} {k f g : ℕ} : s.locks p = some l → l.phase = .counting k f →
      file s.dir (l.temp k) = some g → nlinks s.dir g = 1 →
      Step s (.stat p false) (s.set p (some (l.goto (.linking k f))))
  /-- There are several. -/
  | countMany {s : Host P} {p : P} {l : FileLock} {k f g : ℕ} : s.locks p = some l → l.phase = .counting k f →
      file s.dir (l.temp k) = some g → nlinks s.dir g ≠ 1 →
      Step s (.stat p false) (s.set p (some (l.goto (.clearing k f))))
  /-- The link is made. -/
  | linkMade {s : Host P} {p : P} {l : FileLock} {k f g : ℕ} {e : LinkErrno} : s.locks p = some l →
      l.phase = .linking k f → file s.dir (l.temp k) = some g → file s.dir l.path = none →
      Step s (.link p true e) ((s.link g l.path).set p (some (l.goto (.recounting k f e))))
  /-- It is not. -/
  | linkNot {s : Host P} {p : P} {l : FileLock} {k f : ℕ} {e : LinkErrno} : s.locks p = some l →
      l.phase = .linking k f → Step s (.link p false e) (s.set p (some (l.goto (.recounting k f e))))
  /-- There are two links: success. -/
  | recountTwo {s : Host P} {p : P} {l : FileLock} {k f g : ℕ} {e : LinkErrno} : s.locks p = some l →
      l.phase = .recounting k f e → file s.dir (l.temp k) = some g → nlinks s.dir g = 2 →
      Step s (.stat p false) (s.set p (some (l.goto (.won k f))))
  /-- There are not, or `stat` fails. -/
  | recountOther {s : Host P} {p : P} {l : FileLock} {k f : ℕ} {e : LinkErrno} {fails : Bool} : s.locks p = some l →
      l.phase = .recounting k f e → (fails = false → ∀ g, file s.dir (l.temp k) = some g → nlinks s.dir g ≠ 2) →
      Step s (.stat p fails) (s.set p (some (l.goto (.lost k f e))))
  /-- The file of the attempt is removed, and the descriptor returned. -/
  | wonUnlink {s : Host P} {p : P} {l : FileLock} {k f : ℕ} {fails : Bool} : s.locks p = some l →
      l.phase = .won k f →
      Step s (.unlink p fails) ((s.unlink fails (l.temp k)).set p (some (l.goto (.writing f))))
  /-- The file of the attempt is removed. Without hard links the fallback follows. -/
  | lostUnlink {s : Host P} {p : P} {l : FileLock} {k f : ℕ} {e : LinkErrno} {fails : Bool} : s.locks p = some l →
      l.phase = .lost k f e → Step s (.unlink p fails)
        ((s.unlink fails (l.temp k)).set p (some (l.goto (if e.unsupported then .fallback else .clearing k f))))
  /-- The file of the attempt is removed, again. -/
  | clearUnlink {s : Host P} {p : P} {l : FileLock} {k f : ℕ} {fails : Bool} : s.locks p = some l →
      l.phase = .clearing k f →
      Step s (.unlink p fails) ((s.unlink fails (l.temp k)).set p (some (l.goto (.opening (k + 1)))))
  /-- The z-file is made directly. -/
  | fallbackDone {s : Host P} {p : P} {l : FileLock} : s.locks p = some l → l.phase = .fallback →
      file s.dir l.path = none →
      Step s (.open_ p false) ((s.create l.path).set p (some (l.goto (.writing s.next))))
  /-- The program stops at an assertion, or the constructor throws. -/
  | fallbackFails {s : Host P} {p : P} {l : FileLock} {fails : Bool} : s.locks p = some l → l.phase = .fallback →
      (fails = false → file s.dir l.path ≠ none) → Step s (.open_ p fails) (s.set p none)
  /-- There is no stream for the descriptor, and the constructor throws. The z-file stays. -/
  | fdopenFails {s : Host P} {p : P} {l : FileLock} {f : ℕ} : s.locks p = some l → l.phase = .writing f →
      Step s (.fdopenFails p) (s.set p none)
  /-- The constructor returns. -/
  | write {s : Host P} {p : P} {l : FileLock} {f : ℕ} : s.locks p = some l → l.phase = .writing f →
      Step s (.write p) (s.set p (some (l.goto (.held f))))
  /-- The constructor throws. -/
  | writeFails {s : Host P} {p : P} {l : FileLock} {f : ℕ} {fails : Bool} : s.locks p = some l →
      l.phase = .writing f → Step s (.writeFails p fails) ((s.unlink fails l.path).set p none)
  /-- The object is destroyed. -/
  | destroy {s : Host P} {p : P} {l : FileLock} {f : ℕ} {fails : Bool} : s.locks p = some l → l.phase = .held f →
      Step s (.destroy p fails) ((s.unlink fails l.path).set p none)
  /-- Nothing more is done. -/
  | crash {s : Host P} {p : P} : Step s (.crash p) (s.set p none)

/-- The host, from a state on in which no process has an object. -/
def nfsMachine (d : HardLinks PathName ℕ) (n : ℕ) : Machine (Host P) (Event P) where
  init s := s = ⟨d, n, fun _ => none⟩ ∧ ∀ f, n ≤ f → names d f = ∅
  step := Step

/-- The process has taken the lock of the history file. -/
def Host.Holds (s : Host P) (p : P) (sname : PathName) : Prop :=
  ∃ l, s.locks p = some l ∧ l.sname = sname ∧ l.phase.holds = true

/-- The second `unlink` does not remove the file of another process. -/
def Careful (s : Host P) : Event P → Prop
  | .unlink p _ => ∀ l k f, s.locks p = some l → l.phase = .clearing k f → ∀ g, file s.dir (l.temp k) = some g → g = f
  | _ => True

/-- No `stat` and no `unlink` fails, `fdopen` does not fail once the z-file is made, and no process is killed. -/
def Calm : Event P → Prop
  | .stat _ fails | .unlink _ fails | .writeFails _ fails | .destroy _ fails => fails = false
  | .fdopenFails _ | .crash _ => False
  | _ => True

/-! ### The invariant -/

/-- What the names of the file are, in each phase; exactly so if all is calm. -/
def Phase.Keeps (calm : Prop) (l : FileLock) (d : HardLinks PathName ℕ) : Phase → Prop
  | .opening _ | .fallback => True
  | .counting k f | .linking k f => names d f = {l.temp k}
  | .recounting k f _ => names d f = {l.temp k} ∨ names d f = {l.path, l.temp k}
  | .won k f => names d f = {l.path, l.temp k}
  | .lost k f _ => l.temp k ∈ names d f ∧ (calm → names d f = {l.temp k})
  | .clearing _ f => calm → names d f = ∅
  | .writing f | .held f => l.path ∈ names d f ∧ (calm → names d f = {l.path})

/-- Every object has a file of its own under the names that its phase tells, and the files of `A`, which are none of
these, have the names that they have in `d`. -/
structure Sane (calm : Prop) (d : HardLinks PathName ℕ) (A : Set ℕ) (s : Host P) : Prop where
  /-- The files of `A` are made. -/
  made : ∀ f ∈ A, f < s.next
  /-- A file that is not made yet has no name. -/
  fresh : ∀ f, s.next ≤ f → names s.dir f = ∅
  /-- The files of the objects are made, and not in `A`. -/
  own : ∀ p f, s.own p = some f → f ∉ A ∧ f < s.next
  /-- Each object has a file of its own. -/
  apart : ∀ p q f, s.own p = some f → s.own q = some f → p = q
  /-- What the phases tell. -/
  keeps : ∀ p l, s.locks p = some l → l.phase.Keeps calm l s.dir
  /-- The files of `A` keep their names. -/
  old : ∀ f ∈ A, names s.dir f = names d f
  /-- Every other file belongs to an object, or has no name. -/
  left : calm → ∀ f ∉ A, names s.dir f ≠ ∅ → ∃ p, s.own p = some f

variable {calm : Prop} {d d' : HardLinks PathName ℕ} {A : Set ℕ} {n n' : ℕ} {s s' : Host P} {p q : P} {l : FileLock}
  {o : Option FileLock} {f : ℕ} {m : PathName}

theorem Phase.Keeps.congr {ph : Phase} (hf : ∀ f, ph.file? = some f → names d' f = names d f)
    (h : ph.Keeps calm l d) : ph.Keeps calm l d' := by
  cases ph <;> first
    | exact trivial
    | (simp only [Phase.Keeps, hf _ rfl]; exact h)

omit [DecidableEq P] in
theorem Host.own_of (hp : s.locks p = some l) : s.own p = l.phase.file? := by
  rw [Host.own, hp, Option.bind_some]

/-- **A step of one process**: it may change the names of its own file and of a new one only. -/
theorem Sane.step (hs : Sane calm d A s) (hle : s.next ≤ n')
    (hown : ∀ l f, o = some l → l.phase.file? = some f → s.own p = some f ∨ (f = s.next ∧ f < n'))
    (hsame : ∀ f, s.own p ≠ some f → (f = s.next ∧ f < n') ∨ names d' f = names s.dir f)
    (hkeeps : ∀ l, o = some l → l.phase.Keeps calm l d')
    (hleft : calm → ∀ f, s.own p = some f ∨ (f = s.next ∧ f < n') → names d' f ≠ ∅ →
      ∃ l, o = some l ∧ l.phase.file? = some f) :
    Sane calm d A ⟨d', n', Function.update s.locks p o⟩ := by
  have hown_self : ∀ f, Host.own ⟨d', n', Function.update s.locks p o⟩ p = some f →
      s.own p = some f ∨ (f = s.next ∧ f < n') := by
    intro f hf
    simp only [Host.own, Function.update_self] at hf
    obtain ⟨l, hl, hf⟩ := Option.bind_eq_some_iff.mp hf
    exact hown l f hl hf
  have hown_ne : ∀ q, q ≠ p → Host.own ⟨d', n', Function.update s.locks p o⟩ q = s.own q := by
    intro q hq
    simp only [Host.own, Function.update_of_ne hq]
  have hbelow : ∀ f, f < s.next → s.own p ≠ some f → names d' f = names s.dir f := by
    intro f hf hne
    rcases hsame f hne with ⟨rfl, -⟩ | h
    · omega
    · exact h
  have hother : ∀ q f, q ≠ p → s.own q = some f → names d' f = names s.dir f := by
    intro q f hq hf
    exact hbelow f (hs.own q f hf).2 fun hp => hq (hs.apart q p f hf hp)
  refine ⟨fun f hf => (hs.made f hf).trans_le hle, fun f hf => ?_, fun q f hf => ?_, fun q r f hq hr => ?_,
    fun q l hq => ?_, fun f hf => ?_, fun hc f hf hne => ?_⟩
  · have hf : n' ≤ f := hf
    rcases hsame f (fun h => by have := (hs.own p f h).2; omega) with h | h
    · omega
    · exact h.trans (hs.fresh f (by omega))
  · show f ∉ A ∧ f < n'
    by_cases hq : q = p
    · subst hq
      rcases hown_self f hf with h | ⟨rfl, h⟩
      · exact ⟨(hs.own q f h).1, (hs.own q f h).2.trans_le hle⟩
      · exact ⟨fun hA => lt_irrefl _ (hs.made _ hA), h⟩
    · rw [hown_ne q hq] at hf
      exact ⟨(hs.own q f hf).1, (hs.own q f hf).2.trans_le hle⟩
  · by_cases hqp : q = p
    · subst hqp
      by_cases hrq : r = q
      · exact hrq.symm
      · rw [hown_ne r hrq] at hr
        rcases hown_self f hq with h | h
        · exact hs.apart q r f h hr
        · have := (hs.own r f hr).2
          omega
    · rw [hown_ne q hqp] at hq
      by_cases hrp : r = p
      · subst hrp
        rcases hown_self f hr with h | h
        · exact hs.apart q r f hq h
        · have := (hs.own q f hq).2
          omega
      · rw [hown_ne r hrp] at hr
        exact hs.apart q r f hq hr
  · by_cases hqp : q = p
    · subst hqp
      have hq : Function.update s.locks q o q = some l := hq
      rw [Function.update_self] at hq
      exact hkeeps l hq
    · have hq' : s.locks q = some l := (Function.update_of_ne hqp ..).symm.trans hq
      exact (hs.keeps q l hq').congr fun f hf => hother q f hqp ((Host.own_of hq').trans hf)
  · exact (hbelow f (hs.made f hf) fun h => (hs.own p f h).1 hf).trans (hs.old f hf)
  · have hne : names d' f ≠ ∅ := hne
    by_cases hp : s.own p = some f ∨ (f = s.next ∧ f < n')
    · obtain ⟨l, hl, hlf⟩ := hleft hc f hp hne
      refine ⟨p, ?_⟩
      simp only [Host.own, Function.update_self, hl, Option.bind_some, hlf]
    · rw [not_or] at hp
      rcases hsame f hp.1 with h | h
      · exact absurd h hp.2
      · rw [h] at hne
        obtain ⟨q, hq⟩ := hs.left hc f hf hne
        refine ⟨q, (hown_ne q ?_).trans hq⟩
        rintro rfl
        exact hp.1 hq

/-- The directory stays as it is. -/
theorem Sane.goto (hs : Sane calm d A s) (hown : ∀ l f, o = some l → l.phase.file? = some f → s.own p = some f)
    (hkeeps : ∀ l, o = some l → l.phase.Keeps calm l s.dir)
    (hleft : calm → ∀ f, s.own p = some f → names s.dir f ≠ ∅ → ∃ l, o = some l ∧ l.phase.file? = some f) :
    Sane calm d A (s.set p o) := by
  refine hs.step le_rfl (fun l f hl hf => .inl (hown l f hl hf)) (fun f _ => .inr rfl) hkeeps fun hc f hf hne => ?_
  rcases hf with hf | ⟨rfl, hf⟩
  · exact hleft hc f hf hne
  · omega

/-- A name is removed that is none of another's file. -/
theorem Sane.unlink (hs : Sane calm d A s) {fails : Bool} (hm : ∀ g, file s.dir m = some g → s.own p = some g)
    (hown : ∀ l f, o = some l → l.phase.file? = some f → s.own p = some f)
    (hkeeps : ∀ l, o = some l → l.phase.Keeps calm l (s.unlink fails m).dir)
    (hleft : calm → ∀ f, s.own p = some f → names (s.unlink fails m).dir f ≠ ∅ →
      ∃ l, o = some l ∧ l.phase.file? = some f) : Sane calm d A ((s.unlink fails m).set p o) := by
  refine hs.step le_rfl (fun l f hl hf => .inl (hown l f hl hf)) (fun f hf => .inr ?_) hkeeps fun hc f hf hne => ?_
  · cases fails with
    | true => rfl
    | false => exact names_unlink_of_ne fun h => hf (hm f h)
  · rcases hf with hf | ⟨rfl, hf⟩
    · exact hleft hc f hf hne
    · exact absurd hf (lt_irrefl _)

/-- A new file is made, under a new name. -/
theorem Sane.create (hs : Sane calm d A s) (hm : file s.dir m = none) (hp : s.own p = none)
    (hf : l.phase.file? = some s.next)
    (hkeeps : names (add s.dir m s.next) s.next = {m} → l.phase.Keeps calm l (add s.dir m s.next)) :
    Sane calm d A ((s.create m).set p (some l)) := by
  refine hs.step (Nat.le_succ _) (fun l' f hl' hf' => .inr ?_) (fun f _ => ?_) (fun l' hl' => ?_) fun _ f h _ => ?_
  · obtain rfl := Option.some.inj hl'
    obtain rfl : s.next = f := Option.some.inj (hf.symm.trans hf')
    exact ⟨rfl, Nat.lt_succ_self _⟩
  · by_cases h : f = s.next
    · exact .inl ⟨h, h ▸ Nat.lt_succ_self _⟩
    · exact .inr (names_add_of_ne hm (Ne.symm h))
  · obtain rfl := Option.some.inj hl'
    refine hkeeps ?_
    rw [names_add_self, hs.fresh _ le_rfl, insert_empty_eq]
  · rcases h with h | ⟨rfl, -⟩
    · rw [hp] at h
      cases h
    · exact ⟨l, rfl, hf⟩

omit [DecidableEq P] in
theorem names_unlinked {s : Host P} : names (s.unlink false m).dir f = names s.dir f \ {m} := names_unlink

/-- A file has one name, or two. -/
theorem nlinks_one (h : names d f = {m}) : nlinks d f = 1 := by
  rw [nlinks_eq, h, Set.ncard_singleton]

theorem nlinks_two {a b : PathName} (hab : a ≠ b) (h : names d f = {a, b}) : nlinks d f = 2 := by
  rw [nlinks_eq, h, Set.ncard_pair hab]

/-- What the name stands for. -/
theorem file_of_names (h : m ∈ names d f) {g : ℕ} (hg : file d m = some g) : g = f :=
  Option.some.inj (hg.symm.trans h)

/-- The object goes on with the file that it has. -/
theorem Sane.moves {ph : Phase} (hs : Sane calm d A s) (hl : s.locks p = some l) (hph : ph.file? = l.phase.file?)
    (hk : ph.Keeps calm l s.dir) : Sane calm d A (s.set p (some (l.goto ph))) := by
  have hp := Host.own_of hl
  refine hs.goto (fun l' f hl' hf => ?_) (fun l' hl' => ?_) fun _ f hf _ => ?_
  · obtain rfl := Option.some.inj hl'
    rw [hp, ← hph]
    exact hf
  · obtain rfl := Option.some.inj hl'
    exact hk
  · exact ⟨_, rfl, hph.trans (hp.symm.trans hf)⟩

/-- The object is given up, or gives its file up. -/
theorem Sane.drops (hs : Sane calm d A s) (ho : ∀ l, o = some l → l.phase = .fallback) (hp : calm → s.own p = none) :
    Sane calm d A (s.set p o) := by
  refine hs.goto (fun l f hl hf => ?_) (fun l hl => ?_) fun hc f hf _ => ?_
  · rw [ho l hl] at hf
    cases hf
  · rw [ho l hl]
    trivial
  · rw [hp hc] at hf
    cases hf

/-- The object removes a name of its file and goes on with the file, or without it. -/
theorem Sane.removes (hs : Sane calm d A s) (hl : s.locks p = some l) (hlf : l.phase.file? = some f) {fails : Bool}
    (hm : ∀ g, file s.dir m = some g → g = f)
    (ho : ∀ l', o = some l' → (l'.phase.file? = none ∨ l'.phase.file? = some f) ∧
      l'.phase.Keeps calm l' (s.unlink fails m).dir)
    (hleft : calm → names (s.unlink fails m).dir f ≠ ∅ → ∃ l', o = some l' ∧ l'.phase.file? = some f) :
    Sane calm d A ((s.unlink fails m).set p o) := by
  have hp : s.own p = some f := (Host.own_of hl).trans hlf
  refine hs.unlink (fun g hg => ?_) (fun l' g hl' hg => ?_) (fun l' hl' => (ho l' hl').2) fun hc g hg hne => ?_
  · rw [hp, hm g hg]
  · rcases (ho l' hl').1 with h | h
    · rw [h] at hg
      cases hg
    · rw [hp, ← h, hg]
  · obtain rfl := Option.some.inj (hp.symm.trans hg)
    exact hleft hc hne

/-- The lock file is removed by the object that made it. -/
theorem Sane.releases (hs : Sane calm d A s) (hl : s.locks p = some l) (hlf : l.phase.file? = some f) {fails : Bool}
    (hk : l.path ∈ names s.dir f ∧ (calm → names s.dir f = {l.path})) (hc : calm → fails = false) :
    Sane calm d A ((s.unlink fails l.path).set p none) := by
  refine hs.removes hl hlf (fun g => file_of_names hk.1) (by simp) fun hcalm hne => ?_
  obtain rfl := hc hcalm
  rw [names_unlinked, hk.2 hcalm, Set.sdiff_self] at hne
  exact absurd rfl hne

/-- **Every careful call keeps the invariant.** -/
theorem sane_step {c : Event P} (hs : Sane calm d A s) (hf : Careful s c) (hc : calm → Calm c) (h : Step s c s') :
    Sane calm d A s' := by
  cases h with
  | construct hv hl =>
    refine hs.goto (fun l f hl' hf => ?_) (fun l hl' => ?_) fun _ f hf _ => ?_
    · obtain rfl := Option.some.inj hl'
      split at hf <;> cases hf
    · obtain rfl := Option.some.inj hl'
      split <;> trivial
    · rw [Host.own, hl] at hf
      cases hf
  | openExists hl hph => exact hs.moves hl (by rw [hph]; rfl) trivial
  | openDone hl hph _ hnone =>
    exact hs.create hnone ((Host.own_of hl).trans (by rw [hph]; rfl)) rfl fun hnames => hnames
  | openFails hl hph => exact hs.moves hl (by rw [hph]; rfl) trivial
  | giveUp hl hph => exact hs.drops (by simp) fun _ => (Host.own_of hl).trans (by rw [hph]; rfl)
  | @countFails p l k f fails hl hph hnone =>
    refine hs.drops (fun l' hl' => ?_) fun hcalm => ?_
    · obtain rfl := Option.some.inj hl'
      rfl
    · -- nobody else removes the name
      have hk := hs.keeps p l hl
      rw [hph] at hk
      have hfile : file s.dir (l.temp k) = some f := by
        rw [← mem_names, hk]
        rfl
      rw [hnone (hc hcalm)] at hfile
      cases hfile
  | @countOne p l k f g hl hph =>
    have hk := hs.keeps p l hl
    rw [hph] at hk
    exact hs.moves hl (by rw [hph]; rfl) hk
  | @countMany p l k f g hl hph hg hn =>
    have hk := hs.keeps p l hl
    rw [hph] at hk
    obtain rfl := file_of_names (by rw [hk]; rfl) hg
    exact absurd (nlinks_one hk) hn
  | @linkMade p l k f g e hl hph hg hnone =>
    have hk : names s.dir f = {l.temp k} := by
      have hk := hs.keeps p l hl
      rwa [hph] at hk
    have hp : s.own p = some f := (Host.own_of hl).trans (by rw [hph]; rfl)
    obtain rfl : g = f := file_of_names (by rw [hk]; rfl) hg
    refine hs.step le_rfl (fun l' f hl' hf' => ?_) (fun f hne => .inr ?_) (fun l' hl' => ?_) fun _ f h _ => ?_
    · obtain rfl := Option.some.inj hl'
      exact .inl (hp.trans hf')
    · exact names_add_of_ne hnone fun h => hne (h ▸ hp)
    · obtain rfl := Option.some.inj hl'
      right
      rw [FileLock.goto_path, FileLock.goto_temp, ← hk]
      exact names_add_self
    · rcases h with h | ⟨rfl, h⟩
      · exact ⟨_, rfl, hp.symm.trans h⟩
      · exact absurd h (lt_irrefl _)
  | @linkNot p l k f e hl hph =>
    have hk := hs.keeps p l hl
    rw [hph] at hk
    exact hs.moves hl (by rw [hph]; rfl) (.inl hk)
  | @recountTwo p l k f g e hl hph hg hn =>
    have hk := hs.keeps p l hl
    rw [hph] at hk
    refine hs.moves hl (by rw [hph]; rfl) ?_
    rcases hk with hk | hk
    · obtain rfl := file_of_names (by rw [hk]; rfl) hg
      rw [nlinks_one hk] at hn
      cases hn
    · exact hk
  | @recountOther p l k f e fails hl hph hn =>
    have hk := hs.keeps p l hl
    rw [hph] at hk
    have hmem : l.temp k ∈ names s.dir f := by
      rcases hk with hk | hk <;> rw [hk] <;> simp
    refine hs.moves hl (by rw [hph]; rfl) ⟨hmem, fun hcalm => ?_⟩
    rcases hk with hk | hk
    · exact hk
    · exact absurd (nlinks_two (Ne.symm (l.temp_ne_path l k)) hk) (hn (hc hcalm) f hmem)
  | @wonUnlink p l k f fails hl hph =>
    have hk : names s.dir f = {l.path, l.temp k} := by
      have hk := hs.keeps p l hl
      rwa [hph] at hk
    have hgone : names (s.unlink false (l.temp k)).dir f = {l.path} := by
      rw [names_unlinked, hk, Set.pair_sdiff_right (Ne.symm (l.temp_ne_path l k))]
    refine hs.removes hl (by rw [hph]; rfl) (fun g => file_of_names (by rw [hk]; simp)) (fun l' hl' => ?_)
      fun _ _ => ⟨_, rfl, rfl⟩
    obtain rfl := Option.some.inj hl'
    refine ⟨.inr rfl, ?_, fun hcalm => ?_⟩
    · cases fails with
      | true => exact hk ▸ Set.mem_insert ..
      | false => exact hgone ▸ Set.mem_singleton _
    · obtain rfl : fails = false := hc hcalm
      exact hgone
  | @lostUnlink p l k f e fails hl hph =>
    obtain ⟨hmem, hk⟩ : l.temp k ∈ names s.dir f ∧ (calm → names s.dir f = {l.temp k}) := by
      have hk := hs.keeps p l hl
      rwa [hph] at hk
    have hgone : calm → names (s.unlink fails (l.temp k)).dir f = ∅ := by
      intro hcalm
      obtain rfl : fails = false := hc hcalm
      rw [names_unlinked, hk hcalm, Set.sdiff_self]
    refine hs.removes hl (by rw [hph]; rfl) (fun g => file_of_names hmem) (fun l' hl' => ?_)
      fun hcalm hne => absurd (hgone hcalm) hne
    obtain rfl := Option.some.inj hl'
    rw [FileLock.goto_phase]
    split
    · exact ⟨.inl rfl, trivial⟩
    · exact ⟨.inr rfl, hgone⟩
  | @clearUnlink p l k f fails hl hph =>
    have hk : calm → names s.dir f = ∅ := by
      have hk := hs.keeps p l hl
      rwa [hph] at hk
    refine hs.removes hl (by rw [hph]; rfl) (hf l k f hl hph) (fun l' hl' => ?_) fun hcalm hne => ?_
    · obtain rfl := Option.some.inj hl'
      exact ⟨.inl rfl, trivial⟩
    · obtain rfl : fails = false := hc hcalm
      rw [names_unlinked, hk hcalm, Set.empty_sdiff] at hne
      exact absurd rfl hne
  | fallbackDone hl hph hnone =>
    refine hs.create hnone ((Host.own_of hl).trans (by rw [hph]; rfl)) rfl fun hnames => ⟨?_, fun _ => hnames⟩
    rw [hnames]
    rfl
  | fallbackFails hl hph => exact hs.drops (by simp) fun _ => (Host.own_of hl).trans (by rw [hph]; rfl)
  | fdopenFails => exact hs.drops (by simp) fun hcalm => (hc hcalm).elim
  | @write p l f hl hph =>
    have hk := hs.keeps p l hl
    rw [hph] at hk
    exact hs.moves hl (by rw [hph]; rfl) hk
  | @writeFails p l f fails hl hph =>
    have hk := hs.keeps p l hl
    rw [hph] at hk
    exact hs.releases hl (by rw [hph]; rfl) hk hc
  | @destroy p l f fails hl hph =>
    have hk := hs.keeps p l hl
    rw [hph] at hk
    exact hs.releases hl (by rw [hph]; rfl) hk hc
  | crash => exact hs.drops (by simp) fun hcalm => (hc hcalm).elim

/-! ### Whole runs -/

/-- The invariant holds in every careful run, and in every calm one as it is then. -/
theorem sane_of_reach (calm : Prop) (h : Reach (nfsMachine d n) (fun s c => Careful s c ∧ (calm → Calm c)) s) :
    Sane calm d (Set.Iio n) s := by
  refine h.invariant ?_ fun s c s' hs hf hstep => sane_step hs hf.1 hf.2 hstep
  rintro s ⟨rfl, hfresh⟩
  exact ⟨fun f hf => hf, hfresh, fun p f hf => (by cases hf), fun p q f hf => (by cases hf),
    fun p l hl => (by cases hl), fun f _ => rfl, fun _ f hf hne => absurd (hfresh f (not_lt.mp hf)) hne⟩

/-- In a careful run calls may fail and processes be killed. -/
theorem sane_of_careful (h : Reach (nfsMachine d n) Careful s) : Sane False d (Set.Iio n) s :=
  sane_of_reach False (h.mono fun _ _ hf => ⟨hf, False.elim⟩)

omit [DecidableEq P] in
/-- The lock file of a holder is the file that it made. -/
theorem Sane.holds {g : PathName} (hs : Sane calm d A s) (h : s.Holds p g) :
    ∃ f, s.own p = some f ∧ file s.dir (zfile g) = some f := by
  obtain ⟨l, hl, rfl, hh⟩ := h
  have hk := hs.keeps p l hl
  rw [Host.own_of hl]
  rcases hph : l.phase with k | ⟨k, f⟩ | ⟨k, f⟩ | ⟨k, f, e⟩ | ⟨k, f⟩ | ⟨k, f, e⟩ | ⟨k, f⟩ | _ | f | f <;>
    rw [hph] at hk hh
  case won =>
    refine ⟨f, rfl, mem_names.mp ?_⟩
    rw [hk]
    exact Set.mem_insert ..
  case writing => exact ⟨f, rfl, hk.1⟩
  case held => exact ⟨f, rfl, hk.1⟩
  all_goals cases hh

/-- **In every careful run no two processes hold the lock of one history file**, and the lock file is the one that the
holder made. -/
theorem holds_unique {g : PathName} (h : Reach (nfsMachine d n) Careful s) (hp : s.Holds p g) (hq : s.Holds q g) :
    p = q ∧ ∃ f, s.own p = some f ∧ file s.dir (zfile g) = some f := by
  have hs := sane_of_careful h
  obtain ⟨f, hf, hfile⟩ := hs.holds hp
  obtain ⟨f', hf', hfile'⟩ := hs.holds hq
  obtain rfl := Option.some.inj (hfile.symm.trans hfile')
  exact ⟨hs.apart p q f hf hf', f, hf, hfile⟩

/-- If all is calm, the names of an object's file are those it uses. -/
theorem Phase.Keeps.uses {ph : Phase} (hk : ph.Keeps True l d) (hf : ph.file? = some f) (hm : m ∈ names d f) :
    m = l.path ∨ ∃ k, m = l.temp k := by
  cases ph with
  | opening | fallback => cases hf
  | counting k | linking k | lost k =>
    obtain rfl := Option.some.inj hf
    simp only [Phase.Keeps, forall_const] at hk
    first
      | (rw [hk.2] at hm; exact .inr ⟨k, hm⟩)
      | (rw [hk] at hm; exact .inr ⟨k, hm⟩)
  | recounting k =>
    obtain rfl := Option.some.inj hf
    rcases hk with hk | hk <;> rw [hk] at hm
    · exact .inr ⟨k, hm⟩
    · exact hm.imp id fun h => ⟨k, h⟩
  | won k =>
    obtain rfl := Option.some.inj hf
    rw [Phase.Keeps] at hk
    rw [hk] at hm
    exact hm.imp id fun h => ⟨k, h⟩
  | clearing =>
    obtain rfl := Option.some.inj hf
    rw [hk trivial] at hm
    exact absurd hm (Set.notMem_empty _)
  | writing | held =>
    obtain rfl := Option.some.inj hf
    rw [hk.2 trivial] at hm
    exact .inl hm

/-- **In every careful and calm run the directory is what it was**, but for the names that the objects use. So nothing
is left behind by those that are gone, whether they had the lock or not. -/
theorem tidy_of_reach (h : Reach (nfsMachine d n) (fun s c => Careful s c ∧ Calm c) s) (m : PathName) :
    file s.dir m = file d m ∨ ∃ p l, s.locks p = some l ∧ (m = l.path ∨ ∃ k, m = l.temp k) := by
  have hs := sane_of_reach True (h.mono fun _ _ hf => ⟨hf.1, fun _ => hf.2⟩)
  have hfresh : ∀ f, n ≤ f → names d f = ∅ := by
    refine h.invariant (P := fun _ => ∀ f, n ≤ f → names d f = ∅) ?_ fun _ _ _ hP _ _ => hP
    rintro s ⟨-, hfresh⟩
    exact hfresh
  by_cases hex : ∃ p l, s.locks p = some l ∧ (m = l.path ∨ ∃ k, m = l.temp k)
  · exact .inr hex
  left
  refine Option.ext fun f => ?_
  by_cases hf : f < n
  · exact Set.ext_iff.mp (hs.old f hf) m
  · refine iff_of_false (fun hm => hex ?_) fun hm => ?_
    · have hm : m ∈ names s.dir f := hm
      obtain ⟨p, hp⟩ := hs.left trivial f hf (Set.nonempty_iff_ne_empty.mp ⟨m, hm⟩)
      obtain ⟨l, hl, hlf⟩ := Option.bind_eq_some_iff.mp hp
      exact ⟨p, l, hl, (hs.keeps p l hl).uses hlf hm⟩
    · have hm : m ∈ names d f := hm
      rw [hfresh f (not_lt.mp hf)] at hm
      exact hm

omit [DecidableEq P] in
/-- The files that belong to nobody may be taken for `A`. -/
theorem Sane.rebase (hs : Sane False d A s) :
    Sane False s.dir {f | f < s.next ∧ ∀ p, s.own p ≠ some f} s :=
  ⟨fun _ hf => hf.1, hs.fresh, fun p f hf => ⟨fun h => h.2 p hf, (hs.own p f hf).2⟩, hs.apart, hs.keeps,
    fun _ _ => rfl, False.elim⟩

/-- **A lock file that belongs to nobody stays**, and nobody gets that lock any more. -/
theorem stale_of_leads {g : PathName} (h : Reach (nfsMachine d n) Careful s) (hg : file s.dir (zfile g) = some f)
    (hno : ∀ p, s.own p ≠ some f) (hl : Leads (nfsMachine d n) Careful s s') :
    file s'.dir (zfile g) = some f ∧ ∀ p, ¬ s'.Holds p g := by
  have hs := sane_of_careful h
  have hmem : f < s.next ∧ ∀ p, s.own p ≠ some f := by
    refine ⟨lt_of_not_ge fun hf => ?_, hno⟩
    have hm : zfile g ∈ names s.dir f := hg
    rw [hs.fresh f hf] at hm
    exact hm
  have hs' := hl.invariant (fun s c s' hs hf hstep => sane_step hs hf False.elim hstep) hs.rebase
  have hfile : file s'.dir (zfile g) = some f := by
    rw [← mem_names, hs'.old f hmem]
    exact hg
  refine ⟨hfile, fun p hp => ?_⟩
  obtain ⟨f', hf', hfile'⟩ := hs'.holds hp
  obtain rfl := Option.some.inj (hfile.symm.trans hfile')
  exact (hs'.own p f hf').1 hmem

/-! ### A free lock -/

/-- The calls of one process, none of which fails. -/
def Solo (p : P) (_ : Host P) : Event P → Prop
  | .construct q _ links => q = p ∧ links = true
  | .open_ q fails | .stat q fails | .unlink q fails => q = p ∧ fails = false
  | .link q made e => q = p ∧ made = true ∧ e = .none
  | .write q => q = p
  | _ => False

/-- The attempts whose file exists are passed over. -/
theorem leads_attempts {k : ℕ} (hl : s.locks p = some (l.goto (.opening 0))) (hk : k ≤ 10000)
    (hused : ∀ j < k, file s.dir (l.temp j) ≠ none) :
    Leads (nfsMachine d n) (Solo p) s (s.set p (some (l.goto (.opening k)))) := by
  induction k with
  | zero =>
    have hset : s.set p (some (l.goto (.opening 0))) = s := by
      rw [Host.set, ← hl, Function.update_eq_self]
    rw [hset]
    exact .refl
  | succ k ih =>
    have hstep : Step (s.set p (some (l.goto (.opening k)))) (.open_ p false)
        ((s.set p (some (l.goto (.opening k)))).set p (some ((l.goto (.opening k)).goto (.opening (k + 1))))) :=
      .openExists (Function.update_self ..) rfl (by omega) (hused k (by omega))
    rw [Host.set_set] at hstep
    have hsolo : Solo p (s.set p (some (l.goto (.opening k)))) (.open_ p false) := ⟨rfl, rfl⟩
    exact .step (ih (by omega) fun j hj => hused j (by omega)) hsolo hstep

/-- A later state of the host: the directory, and the phase of the object of `p`. -/
def Host.later (s : Host P) (p : P) (l : FileLock) (d : HardLinks PathName ℕ) (ph : Phase) : Host P :=
  ⟨d, s.next + 1, Function.update s.locks p (some (l.goto ph))⟩

theorem Host.later_locks (s : Host P) (p : P) (l : FileLock) (d : HardLinks PathName ℕ) (ph : Phase) :
    (s.later p l d ph).locks p = some (l.goto ph) := Function.update_self ..

/-- A call that leaves the number of files as it is. -/
theorem Host.later_set (s : Host P) (p : P) (l : FileLock) (d d' : HardLinks PathName ℕ) (ph ph' : Phase) :
    Host.set { s.later p l d ph with dir := d' } p (some ((l.goto ph).goto ph')) = s.later p l d' ph' := by
  simp only [Host.later, Host.set, Function.update_idem]
  rfl

/-- Once the file of the attempt is made, the lock is taken if it is free. -/
theorem leads_held {k : ℕ} {d₁ : HardLinks PathName ℕ} (hnames : names d₁ s.next = {l.temp k})
    (hfree : file d₁ l.path = none) :
    Leads (nfsMachine d n) (Solo p) (s.later p l d₁ (.counting k s.next))
      (s.later p l (HardLinks.unlink (add d₁ l.path s.next) (l.temp k)) (.held s.next)) := by
  have hne : l.temp k ≠ l.path := l.temp_ne_path l k
  have hfile₁ : file d₁ (l.temp k) = some s.next := by
    rw [← mem_names, hnames]
    rfl
  let d₂ := add d₁ l.path s.next
  have hnames₂ : names d₂ s.next = {l.path, l.temp k} := by
    rw [names_add_self, hnames]
  have hfile₂ : file d₂ (l.temp k) = some s.next := by rw [file_add_of_ne hne, hfile₁]
  let d₃ := HardLinks.unlink d₂ (l.temp k)
  have count : Step (s.later p l d₁ (.counting k s.next)) (.stat p false) (s.later p l d₁ (.linking k s.next)) := by
    rw [← s.later_set p l d₁ d₁ (.counting k s.next) (.linking k s.next)]
    exact .countOne (s.later_locks ..) rfl hfile₁ (nlinks_one hnames)
  have link : Step (s.later p l d₁ (.linking k s.next)) (.link p true .none)
      (s.later p l d₂ (.recounting k s.next .none)) := by
    rw [← s.later_set p l d₁ d₂ (.linking k s.next) (.recounting k s.next .none)]
    exact .linkMade (l := l.goto (.linking k s.next)) (s.later_locks ..) rfl hfile₁ hfree
  have recount : Step (s.later p l d₂ (.recounting k s.next .none)) (.stat p false)
      (s.later p l d₂ (.won k s.next)) := by
    rw [← s.later_set p l d₂ d₂ (.recounting k s.next .none) (.won k s.next)]
    exact .recountTwo (s.later_locks ..) rfl hfile₂ (nlinks_two (Ne.symm hne) hnames₂)
  have unlink : Step (s.later p l d₂ (.won k s.next)) (.unlink p false) (s.later p l d₃ (.writing s.next)) := by
    rw [← s.later_set p l d₂ d₃ (.won k s.next) (.writing s.next)]
    exact .wonUnlink (l := l.goto (.won k s.next)) (s.later_locks ..) rfl
  have write : Step (s.later p l d₃ (.writing s.next)) (.write p) (s.later p l d₃ (.held s.next)) := by
    rw [← s.later_set p l d₃ d₃ (.writing s.next) (.held s.next)]
    exact .write (s.later_locks ..) rfl
  have solo : Solo p (s.later p l d₁ (.linking k s.next)) (.link p true .none) := ⟨rfl, rfl, rfl⟩
  have h₁ := Leads.step (M := nfsMachine d n) .refl (show Solo p _ (.stat p false) from ⟨rfl, rfl⟩) count
  have h₂ := (h₁.step solo link).step (show Solo p _ (.stat p false) from ⟨rfl, rfl⟩) recount
  have h₃ := h₂.step (show Solo p _ (.unlink p false) from ⟨rfl, rfl⟩) unlink
  exact h₃.step (show Solo p _ (.write p) from rfl) write

/-- **A lock that is free can be taken**, if one of the 10000 attempts finds its name unused; nothing but the lock file
is there afterwards that was not there before. -/
theorem acquire {g : PathName} {k : ℕ} (h : Reach (nfsMachine d n) Careful s) (hp : s.locks p = none)
    (hv : validFilename g = true) (hfree : file s.dir (zfile g) = none) (hk : k < 10000)
    (hused : ∀ j < k, file s.dir (lockname (zfile g) j) ≠ none) (hnext : file s.dir (lockname (zfile g) k) = none) :
    ∃ s', Leads (nfsMachine d n) (Solo p) s s' ∧ s'.locks p = some ⟨g, hv, .held s.next⟩ ∧
      (∀ q, q ≠ p → s'.locks q = s.locks q) ∧
      ∀ m, file s'.dir m = if m = zfile g then some s.next else file s.dir m := by
  have hs := sane_of_careful h
  let l : FileLock := ⟨g, hv, .opening 0⟩
  have hne : l.temp k ≠ zfile g := l.temp_ne_path l k
  have construct : Step s (.construct p g true) (s.set p (some (l.goto (.opening 0)))) := .construct hv hp
  have hopening : Leads (nfsMachine d n) (Solo p) (s.set p (some (l.goto (.opening 0))))
      ((s.set p (some (l.goto (.opening 0)))).set p (some (l.goto (.opening k)))) :=
    leads_attempts (Function.update_self ..) hk.le hused
  rw [Host.set_set] at hopening
  -- the file of the attempt is made
  have open_ : Step (s.set p (some (l.goto (.opening k)))) (.open_ p false)
      (s.later p l (add s.dir (l.temp k) s.next) (.counting k s.next)) := by
    have hset : ((s.set p (some (l.goto (.opening k)))).create (l.temp k)).set p
        (some ((l.goto (.opening k)).goto (.counting k s.next))) =
        s.later p l (add s.dir (l.temp k) s.next) (.counting k s.next) := by
      simp only [Host.set, Host.create, Host.later, Function.update_idem]
      rfl
    rw [← hset]
    exact .openDone (l := l.goto (.opening k)) (Function.update_self ..) rfl hk hnext
  have hnames : names (add s.dir (l.temp k) s.next) s.next = {l.temp k} := by
    rw [names_add_self, hs.fresh _ le_rfl, insert_empty_eq]
  have hfree' : file (add s.dir (l.temp k) s.next) l.path = none := (file_add_of_ne (Ne.symm hne)).trans hfree
  have hstart := Leads.step (M := nfsMachine d n) .refl (show Solo p _ (.construct p g true) from ⟨rfl, rfl⟩) construct
  have hmade := (hstart.trans hopening).step (show Solo p _ (.open_ p false) from ⟨rfl, rfl⟩) open_
  refine ⟨_, hmade.trans (leads_held hnames hfree'), s.later_locks .., fun q hq => Function.update_of_ne hq ..,
    fun m => ?_⟩
  show file (HardLinks.unlink (add (add s.dir (l.temp k) s.next) l.path s.next) (l.temp k)) m = _
  by_cases hm : m = l.temp k
  · rw [hm, file_unlink_self, if_neg hne]
    exact hnext.symm
  · rw [file_unlink_of_ne hm]
    by_cases hm' : m = zfile g
    · rw [if_pos hm', hm']
      exact file_add_self
    · rw [if_neg hm']
      exact (file_add_of_ne hm').trans (file_add_of_ne hm)

/-! ### Some runs -/

/-- `s.a`. -/
def sampleName : PathName := [115, 46, 97]

theorem sampleName_valid : validFilename sampleName = true := by decide

/-- No objects, and two files that somebody left behind: `nfslck0` and `nfslck1`. -/
def leftHost : Host ℕ :=
  ⟨add (add ∅ (lockname (zfile sampleName) 0) 0) (lockname (zfile sampleName) 1) 1, 2, fun _ => none⟩

theorem leftHost_reach {fine : Host ℕ → Event ℕ → Prop} : Reach (nfsMachine leftHost.dir 2) fine leftHost := by
  refine .start ⟨rfl, fun f hf => Set.eq_empty_iff_forall_notMem.mpr fun m hm => ?_⟩
  have hm : file leftHost.dir m = some f := hm
  rw [leftHost] at hm
  by_cases h₁ : m = lockname (zfile sampleName) 1
  · rw [h₁, file_add_self] at hm
    injection hm
    omega
  · rw [file_add_of_ne h₁] at hm
    by_cases h₀ : m = lockname (zfile sampleName) 0
    · rw [h₀, file_add_self] at hm
      injection hm
      omega
    · rw [file_add_of_ne h₀] at hm
      cases hm

/-- Process 0 takes the lock with its third attempt. -/
theorem acquire_sample : ∃ s', Leads (nfsMachine leftHost.dir 2) (Solo 0) leftHost s' ∧
    s'.locks 0 = some ⟨sampleName, sampleName_valid, .held 2⟩ ∧ (∀ q, q ≠ 0 → s'.locks q = none) ∧
    ∀ m, file s'.dir m = if m = zfile sampleName then some 2 else file leftHost.dir m := by
  apply acquire (k := 2) leftHost_reach
  · rfl
  · decide
  · decide
  · intro j hj
    obtain rfl | rfl : j = 0 ∨ j = 1 := by omega
    · decide
    · decide
  · decide

/-- The calls that are careful and calm. -/
def Orderly (s : Host ℕ) (c : Event ℕ) : Prop := Careful s c ∧ Calm c

/-- One more orderly call. -/
theorem reach_orderly {s s' : Host ℕ} (h : Reach (nfsMachine ∅ 0) Orderly s) (c : Event ℕ) (hc : Step s c s')
    (hcalm : Calm c) (hcareful : Careful s c) : Reach (nfsMachine ∅ 0) Orderly s' := h.step ⟨hcareful, hcalm⟩ hc

/-- **A contest.** Process 1 makes `nfslck1`, because 0 has made `nfslck0`, and fails to link it, because 0 has linked its
own; so 0 holds the lock, and 1 has lost. When 0 has given the lock up, 1 takes it without links, and gives it up. -/
theorem contest : ∃ s t : Host ℕ, Reach (nfsMachine ∅ 0) Orderly s ∧ Reach (nfsMachine ∅ 0) Orderly t ∧
    (s.locks 0 = some ⟨sampleName, sampleName_valid, .held 0⟩ ∧
      s.locks 1 = some ⟨sampleName, sampleName_valid, .lost 1 1 .other⟩) ∧ t.next = 3 ∧ ∀ p, t.locks p = none := by
  have h₀ : Reach (nfsMachine ∅ 0) Orderly (⟨∅, 0, fun _ => none⟩ : Host ℕ) :=
    .start ⟨rfl, fun f _ => Set.eq_empty_iff_forall_notMem.mpr fun m hm => by cases hm⟩
  have h₁ := reach_orderly h₀ (.construct 0 sampleName true) (.construct sampleName_valid rfl) trivial trivial
  have h₂ := reach_orderly h₁ (.open_ 0 false) (.openDone rfl rfl (by decide) rfl) trivial trivial
  have h₃ := reach_orderly h₂ (.stat 0 false) (.countOne rfl rfl rfl (by decide)) rfl trivial
  have h₄ := reach_orderly h₃ (.link 0 true .none) (.linkMade rfl rfl rfl (by decide)) trivial trivial
  have h₅ := reach_orderly h₄ (.construct 1 sampleName true) (.construct sampleName_valid rfl) trivial trivial
  have h₆ := reach_orderly h₅ (.open_ 1 false) (.openExists rfl rfl (by decide) (by decide)) trivial trivial
  have h₇ := reach_orderly h₆ (.open_ 1 false) (.openDone rfl rfl (by decide) (by decide)) trivial trivial
  have h₈ := reach_orderly h₇ (.stat 1 false) (.countOne rfl rfl rfl (by decide)) rfl trivial
  have h₉ := reach_orderly h₈ (.link 1 false .other) (.linkNot rfl rfl) trivial trivial
  have k₁ := reach_orderly h₉ (.stat 0 false) (.recountTwo rfl rfl rfl (by decide)) rfl trivial
  have k₂ := reach_orderly k₁ (.unlink 0 false) (.wonUnlink rfl rfl) rfl fun l k f hl hph => by
    obtain rfl := Option.some.inj hl
    cases hph
  have k₃ := reach_orderly k₂ (.write 0) (.write rfl rfl) trivial trivial
  have k₄ := reach_orderly k₃ (.stat 1 false) (.recountOther rfl rfl fun _ g hg => by
    obtain rfl := Option.some.inj hg
    decide) rfl trivial
  -- 0 gives the lock up, and 1 tries again
  have k₅ := reach_orderly k₄ (.destroy 0 false) (.destroy rfl rfl) rfl trivial
  have k₆ := reach_orderly k₅ (.unlink 1 false) (.lostUnlink rfl rfl) rfl fun l k f hl hph => by
    obtain rfl := Option.some.inj hl
    cases hph
  have k₇ := reach_orderly k₆ (.unlink 1 false) (.clearUnlink rfl rfl) rfl fun l k f hl hph g hg => by
    obtain rfl := Option.some.inj hl
    cases hph
    cases hg
  have k₈ := reach_orderly k₇ (.open_ 1 true) (.openFails rfl rfl (by decide)) trivial trivial
  have k₉ := reach_orderly k₈ (.open_ 1 false) (.fallbackDone rfl rfl rfl) trivial trivial
  have l₁ := reach_orderly k₉ (.write 1) (.write rfl rfl) trivial trivial
  have l₂ := reach_orderly l₁ (.destroy 1 false) (.destroy rfl rfl) rfl trivial
  refine ⟨_, _, k₄, l₂, ⟨rfl, rfl⟩, rfl, fun p => ?_⟩
  by_cases h0 : p = 0
  · subst h0
    rfl
  · by_cases h1 : p = 1
    · subst h1
      rfl
    · simp [Host.set, Host.unlink, Host.create, Host.link, Function.update_of_ne, h0, h1]

/-- Of the two in the contest only process 0 holds the lock, and the lock file is its own. -/
theorem holds_unique_sample : ∃ s : Host ℕ, s.locks 1 = some ⟨sampleName, sampleName_valid, .lost 1 1 .other⟩ ∧
    (∀ q, s.Holds q sampleName → 0 = q) ∧ ∃ f, s.own 0 = some f ∧ file s.dir (zfile sampleName) = some f := by
  obtain ⟨s, -, hs, -, ⟨h0, h1⟩, -⟩ := contest
  have hr : Reach (nfsMachine ∅ 0) Careful s := hs.mono fun _ _ h => h.1
  have hp : s.Holds 0 sampleName := ⟨_, h0, rfl, rfl⟩
  exact ⟨s, h1, fun q hq => (holds_unique hr hp hq).1, (holds_unique hr hp hp).2⟩

/-- After the contest, in which three files were made, there is no lock file. -/
theorem tidy_of_reach_sample : ∃ s : Host ℕ, s.next = 3 ∧ file s.dir (zfile sampleName) = none := by
  obtain ⟨-, t, -, ht, -, hnext, hnone⟩ := contest
  refine ⟨t, hnext, (tidy_of_reach ht (zfile sampleName)).resolve_right ?_⟩
  rintro ⟨p, l, hl, -⟩
  rw [hnone p] at hl
  cases hl

/-- Process 0 makes the z-file directly. -/
def madeHost : Host ℕ := ⟨add ∅ (zfile sampleName) 0, 1, fun p =>
  if p = 0 then some ⟨sampleName, sampleName_valid, .writing 0⟩ else none⟩

theorem madeHost_reach {fine : Host ℕ → Event ℕ → Prop}
    (hfine : ∀ s links fails, fine s (.construct 0 sampleName links) ∧ fine s (.open_ 0 fails)) :
    Reach (nfsMachine ∅ 0) fine madeHost := by
  have h₀ : Reach (nfsMachine ∅ 0) fine (⟨∅, 0, fun _ => none⟩ : Host ℕ) :=
    .start ⟨rfl, fun f _ => Set.eq_empty_iff_forall_notMem.mpr fun m hm => by cases hm⟩
  have hconstruct : Step (⟨∅, 0, fun _ => none⟩ : Host ℕ) (.construct 0 sampleName false)
      (Host.set ⟨∅, 0, fun _ => none⟩ 0 (some ⟨sampleName, sampleName_valid, .fallback⟩)) := .construct sampleName_valid rfl
  have h₁ := h₀.step (hfine _ false false).1 hconstruct
  have h₂ := h₁.step (hfine _ false false).2 (Step.fallbackDone (p := 0) rfl rfl (by decide))
  have heq : madeHost.locks = Function.update (Function.update (fun _ => none) 0
      (some ⟨sampleName, sampleName_valid, .fallback⟩)) 0 (some ⟨sampleName, sampleName_valid, .writing 0⟩) := by
    funext p
    by_cases hp : p = 0 <;> simp [madeHost, hp]
  have hst : madeHost = ⟨add ∅ (zfile sampleName) 0, 1, madeHost.locks⟩ := rfl
  rw [hst, heq]
  exact h₂

/-- `fdopen` fails for process 0, and its lock file stays: process 1, which tries then, loses. -/
theorem stale_of_leads_sample : ∃ s : Host ℕ, s.locks 1 = some ⟨sampleName, sampleName_valid, .lost 0 1 .other⟩ ∧
    file s.dir (zfile sampleName) = some 0 ∧ ∀ p, ¬ s.Holds p sampleName := by
  have hr : Reach (nfsMachine ∅ 0) Careful madeHost := madeHost_reach fun s links fails => ⟨trivial, trivial⟩
  have hstale : Reach (nfsMachine ∅ 0) Careful (madeHost.set 0 none) :=
    hr.step (c := .fdopenFails 0) trivial (.fdopenFails rfl rfl)
  have step : ∀ {s s' : Host ℕ}, Leads (nfsMachine ∅ 0) Careful (madeHost.set 0 none) s → ∀ c, Careful s c → Step s c s' →
      Leads (nfsMachine ∅ 0) Careful (madeHost.set 0 none) s' := fun h _ hf hc => h.step hf hc
  have h₁ := step .refl (.construct 1 sampleName true) trivial (.construct sampleName_valid rfl)
  have h₂ := step h₁ (.open_ 1 false) trivial (.openDone rfl rfl (by decide) (by decide))
  have h₃ := step h₂ (.stat 1 false) trivial (.countOne rfl rfl rfl (by decide))
  have h₄ := step h₃ (.link 1 false .other) trivial (.linkNot rfl rfl)
  have h₅ := step h₄ (.stat 1 false) trivial (.recountOther rfl rfl fun _ g hg => by
    obtain rfl := Option.some.inj hg
    decide)
  refine ⟨_, rfl, stale_of_leads hstale rfl (fun p hp => ?_) h₅⟩
  by_cases h : p = 0
  · subst h
    cases hp
  · simp [Host.own, Host.set, madeHost, h] at hp

/-- One more call. -/
theorem reach_call {s s' : Host ℕ} (h : Reach (nfsMachine ∅ 0) (fun _ _ => True) s) (c : Event ℕ) (hc : Step s c s') :
    Reach (nfsMachine ∅ 0) (fun _ _ => True) s' := h.step trivial hc

/-- **Without care, two processes hold the lock of one history file.** Process 0 has the lock; 1 fails to get it, and
waits before it removes `nfslck0` again. When 0 has given the lock up, 2 makes `nfslck0`; 1 removes it; 3 makes another;
2 links that one, and both count two links. -/
theorem two_hold : ∃ s : Host ℕ, Reach (nfsMachine ∅ 0) (fun _ _ => True) s ∧
    s.Holds 2 sampleName ∧ s.Holds 3 sampleName := by
  have h₁ : Reach (nfsMachine ∅ 0) (fun _ _ => True) madeHost := madeHost_reach fun _ _ _ => ⟨trivial, trivial⟩
  have h₂ := reach_call h₁ (.write 0) (.write rfl rfl)
  -- 1 loses
  have h₃ := reach_call h₂ (.construct 1 sampleName true) (.construct sampleName_valid rfl)
  have h₄ := reach_call h₃ (.open_ 1 false) (.openDone rfl rfl (by decide) (by decide))
  have h₅ := reach_call h₄ (.stat 1 false) (.countOne rfl rfl rfl (by decide))
  have h₆ := reach_call h₅ (.link 1 false .other) (.linkNot rfl rfl)
  have h₇ := reach_call h₆ (.stat 1 false) (.recountOther rfl rfl fun _ g hg => by
    obtain rfl := Option.some.inj hg
    decide)
  have h₈ := reach_call h₇ (.unlink 1 false) (.lostUnlink rfl rfl)
  -- 0 gives the lock up, and 2 begins
  have h₉ := reach_call h₈ (.destroy 0 false) (.destroy rfl rfl)
  have k₁ := reach_call h₉ (.construct 2 sampleName true) (.construct sampleName_valid rfl)
  have k₂ := reach_call k₁ (.open_ 2 false) (.openDone rfl rfl (by decide) (by decide))
  -- 1 removes the file of 2, and 3 makes its own
  have k₃ := reach_call k₂ (.unlink 1 false) (.clearUnlink rfl rfl)
  have k₄ := reach_call k₃ (.construct 3 sampleName true) (.construct sampleName_valid rfl)
  have k₅ := reach_call k₄ (.open_ 3 false) (.openDone rfl rfl (by decide) (by decide))
  have k₆ := reach_call k₅ (.stat 3 false) (.countOne rfl rfl rfl (by decide))
  -- 2 and 3 look at the same file
  have k₇ := reach_call k₆ (.stat 2 false) (.countOne rfl rfl rfl (by decide))
  have k₈ := reach_call k₇ (.link 2 true .none) (.linkMade rfl rfl rfl (by decide))
  have k₉ := reach_call k₈ (.link 3 false .other) (.linkNot rfl rfl)
  have l₁ := reach_call k₉ (.stat 2 false) (.recountTwo rfl rfl rfl (by decide))
  have l₂ := reach_call l₁ (.stat 3 false) (.recountTwo rfl rfl rfl (by decide))
  exact ⟨_, l₂, ⟨⟨sampleName, sampleName_valid, .won 0 2⟩, rfl, rfl, rfl⟩,
    ⟨⟨sampleName, sampleName_valid, .won 0 3⟩, rfl, rfl, rfl⟩⟩

end CSSC.Files.NfsLock
