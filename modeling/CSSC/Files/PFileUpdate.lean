import CSSC.Files.PFile
import CSSC.Library.Store

/-!
# Rewriting the p-file

The p-file is rewritten when an edit lock is added or deleted. The locks are written to the q-file; then the old
p-file is removed, and the q-file is renamed. A cleanup object removes the q-file on every way out but the last.

`UpdateFails` says which calls fail, and what is in the q-file when writing it does. A file that is closed twice is
undefined behaviour. There are two ways to lose the locks, `CloseFails` and `RenameFails`, and **the locks are kept if
and only if neither happens** (`update_keeps_iff`).
-/

namespace CSSC.Files

open CSSC.Lines CSSC.Library

/-- The files that belong to a history file. -/
inductive FileName where
  /-- The history file. -/
  | s
  /-- The p-file. -/
  | p
  /-- The q-file, which becomes the p-file. -/
  | q
  /-- The x-file, which becomes the history file. -/
  | x
  /-- What is left of an x-file that was found. -/
  | xbak
  /-- The d-file: the version that was gotten. -/
  | d
  /-- The u-file: the encoded g-file. -/
  | u
  deriving DecidableEq, Repr

/-- The directory. -/
abbrev Directory := Store FileName (List UInt8)

/-- Which calls of `update` fail. -/
structure UpdateFails where
  /-- The q-file cannot be created. -/
  create : Bool
  /-- A write to it fails. -/
  write : Bool
  /-- `fclose` fails. -/
  close : Bool
  /-- The old p-file cannot be removed. -/
  removeP : Bool
  /-- The q-file cannot be renamed. -/
  rename : Bool
  /-- The q-file cannot be removed. -/
  removeQ : Bool
  /-- What the q-file holds when not everything could be written. -/
  garbage : List UInt8

/-- The p-file after its replacement is written and closed; `pfile_already_exists` and the locks that remain decide what
is left to do. A failure is followed by the cleanup. -/
def replacePFile (f : UpdateFails) (alreadyExists : Bool) (remaining : ℕ) (dir : Directory) : Bool × Directory :=
  match if alreadyExists then dir.remove f.removeP .p else some dir with
  | none => (false, dir.cleanup f.removeQ .q)
  | some dir =>
    if remaining ≠ 0 then
      match dir.rename f.rename .q .p with
      -- the old p-file is gone by now
      | none => (false, dir.cleanup f.removeQ .q)
      | some dir => (true, dir)
    -- the result is returned before the cleanup looks whether the q-file can be removed
    else (true, dir.cleanup f.removeQ .q)

/-- `sccs_pfile::update`: whether it succeeded, and the directory. -/
def SccsPfile.update (f : UpdateFails) (alreadyExists : Bool) (locks : List EditLock) (dir : Directory) :
    Except Quit Bool × Directory :=
  match dir.create f.create .q [] with
  | none => (.ok false, dir)
  | some dir =>
    match writeEditLocks locks with
    | .error e => (.error e, dir.write .q f.garbage)
    | .ok text =>
      if f.write ∧ text ≠ [] then (.ok false, (dir.write .q f.garbage).cleanup f.removeQ .q)
      -- the cleanup closes the file again
      else if f.close then (.error .undefined, dir.write .q f.garbage)
      else
        let r := replacePFile f alreadyExists locks.length (dir.write .q text)
        (.ok r.1, r.2)

/-- What is done to the locks before an update. -/
inductive Change where
  /-- `add_lock`. -/
  | add (e : EditLock)
  /-- `delete_lock`. -/
  | delete (i : ℕ)

namespace Change

/-- The locks afterwards. -/
def apply : Change → List EditLock → List EditLock
  | .add e, locks => locks ++ [e]
  | .delete i, locks => locks.eraseIdx i

/-- What is passed to `update`. -/
def alreadyExists : Change → List EditLock → Bool
  | .add _, locks => locks ≠ []
  | .delete _, _ => true

/-- A lock that is deleted exists. -/
def Valid : Change → List EditLock → Prop
  | .add _, _ => True
  | .delete i, locks => i < locks.length

end Change

/-- The locks that the constructor of `sccs_pfile` finds. -/
def LocksOf (dir : Directory) (locks : List EditLock) : Prop :=
  match dir .p with
  | none => locks = []
  | some text => readPFile text = .ok locks

/-- What an update should leave behind: after a success the p-file has the new locks and is absent if there are none; after
a failure the old p-file is there, or a p-file or a q-file with the new locks. -/
def LocksKept (old : Option (List UInt8)) (locks : List EditLock) : Except Quit Bool × Directory → Prop
  | (.ok true, dir) => ∃ text, writeEditLocks locks = .ok text ∧ dir .p = if locks = [] then none else some text
  | (.ok false, dir) => dir .p = old ∨ ∃ text, writeEditLocks locks = .ok text ∧ (dir .p = some text ∨ dir .q = some text)
  | (.error .undefined, _) => False
  -- the program is ended by an assertion
  | (.error _, _) => True

/-- The q-file is created and written. -/
def Written (f : UpdateFails) (locks : List EditLock) (dir : Directory) : Prop :=
  f.create = false ∧ dir .q = none ∧ ∃ text, writeEditLocks locks = .ok text ∧ (f.write = false ∨ text = [])

/-- The q-file is written, but cannot be closed. -/
def CloseFails (f : UpdateFails) (locks : List EditLock) (dir : Directory) : Prop :=
  Written f locks dir ∧ f.close = true

/-- The old p-file is removed, the q-file cannot be renamed, and is removed as well. -/
def RenameFails (f : UpdateFails) (alreadyExists : Bool) (locks : List EditLock) (dir : Directory) : Prop :=
  Written f locks dir ∧ f.close = false ∧ alreadyExists = true ∧ f.removeP = false ∧ locks ≠ [] ∧ f.rename = true ∧
    f.removeQ = false

/-! ### What an update leaves -/

theorem LocksOf.exists {dir : Directory} {locks : List EditLock} (h : LocksOf dir locks) (hne : locks ≠ []) :
    dir .p ≠ none := by
  intro hp
  rw [LocksOf, hp] at h
  exact hne h

theorem LocksOf.printable {dir : Directory} {locks : List EditLock} (h : LocksOf dir locks) :
    ∀ e ∈ locks, e.Printable := by
  rw [LocksOf] at h
  split at h
  · subst h
    exact fun e he => absurd he List.not_mem_nil
  · exact printable_of_readLocks h

/-- The p-file is not written if a SID is not valid. -/
theorem writeEditLocks_error {locks : List EditLock} {e : Quit} (h : writeEditLocks locks = .error e) :
    e = .assertion := by
  induction locks with
  | nil => cases h
  | cons lock locks ih =>
    rw [writeEditLocks] at h
    rcases bind_eq_error.mp h with h | ⟨line, -, h⟩
    · exact lock.print_error h
    · rcases bind_eq_error.mp h with h | ⟨rest, -, h⟩
      · exact ih h
      · cases h

/-- Locks whose text is empty are none. -/
theorem text_ne_nil {locks : List EditLock} {text : List UInt8} (h : writeEditLocks locks = .ok text)
    (hne : locks ≠ []) : text ≠ [] := by
  obtain ⟨e, es, rfl⟩ := List.exists_cons_of_ne_nil hne
  obtain ⟨line, hl, h⟩ := bind_eq_ok.mp h
  obtain ⟨rest, -, h⟩ := bind_eq_ok.mp h
  obtain ⟨g, -, hl⟩ := bind_eq_ok.mp hl
  obtain ⟨d, -, hl⟩ := bind_eq_ok.mp hl
  obtain ⟨i, -, hl⟩ := bind_eq_ok.mp hl
  obtain ⟨x, -, hl⟩ := bind_eq_ok.mp hl
  rw [← Except.ok.inj h, ← Except.ok.inj hl]
  simp

theorem locksKept_true {old : Option (List UInt8)} {locks : List EditLock} {dir : Directory} :
    LocksKept old locks (.ok true, dir) ↔
      ∃ text, writeEditLocks locks = .ok text ∧ dir .p = if locks = [] then none else some text := Iff.rfl

theorem locksKept_false_of_old {old : Option (List UInt8)} {locks : List EditLock} {dir : Directory}
    (h : dir .p = old) : LocksKept old locks (.ok false, dir) := .inl h

theorem locksKept_false {old : Option (List UInt8)} {locks : List EditLock} {dir : Directory} {text : List UInt8}
    (ht : writeEditLocks locks = .ok text) :
    LocksKept old locks (.ok false, dir) ↔ dir.Keeps .p .q old text := by
  refine or_congr_right ⟨?_, fun h => ⟨text, ht, h⟩⟩
  rintro ⟨t, ht', h⟩
  obtain rfl := Except.ok.inj (ht.symm.trans ht')
  exact h

/-! ### How an update ends -/

/-- The old p-file is removed, if it has to be. -/
def OldRemoved (f : UpdateFails) (alreadyExists : Bool) (dir dir' : Directory) : Prop :=
  (if alreadyExists then dir.remove f.removeP .p else some dir) = some dir'

theorem OldRemoved.of_ne {f : UpdateFails} {alreadyExists : Bool} {dir dir' : Directory}
    (h : OldRemoved f alreadyExists dir dir') {n : FileName} (hn : n ≠ .p) : dir' n = dir n := by
  rw [OldRemoved] at h
  split at h
  · exact Store.remove_of_ne h hn
  · rw [Option.some.inj h]

theorem OldRemoved.gone {f : UpdateFails} {dir dir' : Directory} (h : OldRemoved f true dir dir') :
    f.removeP = false ∧ dir' .p = none := by
  rw [OldRemoved, if_pos rfl] at h
  exact ⟨(Store.remove_eq_some.mp h).1, Store.remove_self h⟩

/-- How `replacePFile` ends. -/
inductive Replacement (f : UpdateFails) (alreadyExists : Bool) (locks : List EditLock) (dir : Directory) :
    Bool × Directory → Prop where
  /-- The old p-file cannot be removed. -/
  | notRemoved (ha : alreadyExists = true) (hr : dir.remove f.removeP .p = none) :
    Replacement f alreadyExists locks dir (false, dir.cleanup f.removeQ .q)
  /-- No lock remains. -/
  | emptied {dir' : Directory} (hr : OldRemoved f alreadyExists dir dir') (hl : locks = []) :
    Replacement f alreadyExists locks dir (true, dir'.cleanup f.removeQ .q)
  /-- The q-file cannot be renamed, and the old p-file is gone. -/
  | notRenamed {dir' : Directory} (hr : OldRemoved f alreadyExists dir dir') (hl : locks ≠ [])
    (hn : dir'.rename f.rename .q .p = none) :
    Replacement f alreadyExists locks dir (false, dir'.cleanup f.removeQ .q)
  /-- The q-file is the p-file now. -/
  | renamed {dir' dir'' : Directory} (hr : OldRemoved f alreadyExists dir dir') (hl : locks ≠ [])
    (hn : dir'.rename f.rename .q .p = some dir'') :
    Replacement f alreadyExists locks dir (true, dir'')

theorem replacePFile_ends (f : UpdateFails) (alreadyExists : Bool) (locks : List EditLock) (dir : Directory) :
    Replacement f alreadyExists locks dir (replacePFile f alreadyExists locks.length dir) := by
  rw [replacePFile]
  rcases hr : (if alreadyExists then dir.remove f.removeP .p else some dir) with _ | dir'
  · rw [hr]
    have ha : alreadyExists = true := by
      by_contra ha
      rw [if_neg ha] at hr
      cases hr
    rw [if_pos ha] at hr
    exact .notRemoved ha hr
  · rw [hr]
    dsimp only
    by_cases hl : locks = []
    · rw [if_neg (by simp [hl])]
      exact .emptied hr hl
    · rw [if_pos (by simpa using hl)]
      rcases hn : dir'.rename f.rename .q .p with _ | dir''
      · rw [hn]
        exact .notRenamed hr hl hn
      · rw [hn]
        exact .renamed hr hl hn

/-- How an update ends. -/
inductive UpdateEnd (f : UpdateFails) (alreadyExists : Bool) (locks : List EditLock) (dir : Directory) :
    Except Quit Bool × Directory → Prop where
  /-- The q-file cannot be created. -/
  | notCreated (h : ¬ (f.create = false ∧ dir .q = none)) : UpdateEnd f alreadyExists locks dir (.ok false, dir)
  /-- A lock cannot be printed. -/
  | refused {e : Quit} (he : writeEditLocks locks = .error e) :
    UpdateEnd f alreadyExists locks dir (.error e, dir.write .q f.garbage)
  /-- Not everything can be written. -/
  | notWritten {text : List UInt8} (ht : writeEditLocks locks = .ok text) (hw : f.write = true) (hne : text ≠ []) :
    UpdateEnd f alreadyExists locks dir (.ok false, (dir.write .q f.garbage).cleanup f.removeQ .q)
  /-- The q-file is closed twice. -/
  | notClosed (hw : Written f locks dir) (hc : f.close = true) :
    UpdateEnd f alreadyExists locks dir (.error .undefined, dir.write .q f.garbage)
  /-- The q-file is complete, and the p-file is replaced. -/
  | closed {text : List UInt8} {r : Bool × Directory} (hw : Written f locks dir) (hc : f.close = false)
    (ht : writeEditLocks locks = .ok text) (hr : Replacement f alreadyExists locks (dir.write .q text) r) :
    UpdateEnd f alreadyExists locks dir (.ok r.1, r.2)

theorem update_ends (f : UpdateFails) (alreadyExists : Bool) (locks : List EditLock) (dir : Directory) :
    UpdateEnd f alreadyExists locks dir (SccsPfile.update f alreadyExists locks dir) := by
  rw [SccsPfile.update]
  rcases hcr : dir.create f.create .q [] with _ | dir₁
  · rw [hcr]
    exact .notCreated (Store.create_eq_none.mp hcr)
  · rw [hcr]
    obtain ⟨hfc, hq, rfl⟩ := Store.create_eq_some.mp hcr
    simp only [Store.write_write]
    rcases ht : writeEditLocks locks with e | text
    · exact .refused ht
    · dsimp only
      by_cases hw : f.write = true ∧ text ≠ []
      · rw [if_pos hw]
        exact .notWritten ht hw.1 hw.2
      · have hwritten : Written f locks dir := by
          refine ⟨hfc, hq, text, ht, ?_⟩
          rcases hf : f.write with _ | _
          · exact .inl rfl
          · exact .inr (by_contra fun hne => hw ⟨hf, hne⟩)
        rw [if_neg hw]
        rcases hc : f.close with _ | _
        · rw [if_neg (by simp)]
          exact .closed hwritten hc ht (replacePFile_ends f alreadyExists locks _)
        · rw [if_pos rfl]
          exact .notClosed hwritten hc

/-- What cannot be written is not written. -/
theorem not_written {f : UpdateFails} {locks : List EditLock} {dir : Directory} {text : List UInt8}
    (ht : writeEditLocks locks = .ok text) (hf : f.write = true) (hne : text ≠ []) : ¬ Written f locks dir := by
  rintro ⟨-, -, t, ht', h⟩
  obtain rfl := Except.ok.inj (ht.symm.trans ht')
  rcases h with h | h
  · rw [hf] at h
    cases h
  · exact hne h

/-! ### When the locks are kept -/

/-- What replaces the p-file keeps the locks, unless the old one is removed and the new one is neither renamed nor
left. -/
theorem Replacement.keeps_iff {f : UpdateFails} {alreadyExists : Bool} {locks : List EditLock} {dir : Directory}
    {r : Bool × Directory} (h : Replacement f alreadyExists locks dir r) {text : List UInt8}
    (ht : writeEditLocks locks = .ok text) (hq : dir .q = some text) (hex : alreadyExists = true → dir .p ≠ none)
    (hempty : locks = [] → alreadyExists = true) :
    LocksKept (dir .p) locks (.ok r.1, r.2) ↔
      ¬ (alreadyExists = true ∧ f.removeP = false ∧ locks ≠ [] ∧ f.rename = true ∧ f.removeQ = false) := by
  have hpq : FileName.p ≠ .q := by decide
  cases h with
  | notRemoved ha hr =>
    rw [Store.remove_eq_none (hex ha)] at hr
    rw [locksKept_false ht, Store.keeps_cleanup_iff hpq]
    refine iff_of_true (.inl (.inl rfl)) fun h => ?_
    exact absurd h.2.1 (by rw [hr]; decide)
  | @emptied dir' hr hl =>
    obtain rfl := hempty hl
    refine iff_of_true (locksKept_true.mpr ⟨text, ht, ?_⟩) fun h => h.2.2.1 hl
    show dir'.cleanup f.removeQ .q .p = _
    rw [if_pos hl, Store.cleanup_of_ne hpq]
    exact hr.gone.2
  | @notRenamed dir' hr hl hn =>
    have hq' : dir' .q = some text := (hr.of_ne hpq.symm).trans hq
    rw [Store.rename_eq_none (by rw [hq']; simp)] at hn
    rw [locksKept_false ht, Store.keeps_cleanup_iff hpq, hq']
    cases alreadyExists with
    | true =>
      obtain ⟨hrp, hnone⟩ := hr.gone
      simp [hnone, hn, hl, hrp, (hex rfl).symm]
    | false =>
      obtain rfl := Option.some.inj hr
      exact iff_of_true (.inl (.inl rfl)) fun h => absurd h.1 (by decide)
  | @renamed dir' dir'' hr hl hn =>
    refine iff_of_true (locksKept_true.mpr ⟨text, ht, ?_⟩) fun h => ?_
    · show dir'' .p = _
      rw [if_neg hl, Store.rename_target hn hpq, hr.of_ne hpq.symm, hq]
    · exact absurd (Store.rename_eq_some.mp hn).1 (by rw [h.2.2.2.1]; decide)

/-- What is said to exist does. -/
theorem Change.exists_of_alreadyExists {dir : Directory} {locks : List EditLock} (hd : LocksOf dir locks) {c : Change}
    (hc : c.Valid locks) (ha : c.alreadyExists locks = true) : dir .p ≠ none := by
  refine hd.exists ?_
  cases c with
  | add e => simpa [Change.alreadyExists] using ha
  | delete i =>
    rintro rfl
    exact absurd hc (Nat.not_lt_zero i)

/-- Only a deletion leaves no lock. -/
theorem Change.alreadyExists_of_nil {locks : List EditLock} {c : Change} (h : c.apply locks = []) :
    c.alreadyExists locks = true := by
  cases c with
  | add e => exact absurd h (by simp [Change.apply])
  | delete i => rfl

/-- **The locks are kept if and only if the q-file can be closed, and, where it cannot be renamed, is left.** -/
theorem update_keeps_iff {dir : Directory} {locks : List EditLock} (hd : LocksOf dir locks) {c : Change}
    (hc : c.Valid locks) (f : UpdateFails) :
    LocksKept (dir .p) (c.apply locks) (SccsPfile.update f (c.alreadyExists locks) (c.apply locks) dir) ↔
      ¬ CloseFails f (c.apply locks) dir ∧ ¬ RenameFails f (c.alreadyExists locks) (c.apply locks) dir := by
  have hpq : FileName.p ≠ .q := by decide
  have hex : c.alreadyExists locks = true → dir .p ≠ none := Change.exists_of_alreadyExists hd hc
  have hempty : c.apply locks = [] → c.alreadyExists locks = true := Change.alreadyExists_of_nil
  have hend := update_ends f (c.alreadyExists locks) (c.apply locks) dir
  generalize c.apply locks = new at *
  generalize c.alreadyExists locks = ex at *
  -- before the q-file is written nothing is lost
  have hnot : ¬ Written f new dir → ¬ CloseFails f new dir ∧ ¬ RenameFails f ex new dir :=
    fun h => ⟨fun hc => h hc.1, fun hr => h hr.1⟩
  generalize SccsPfile.update f ex new dir = r at hend ⊢
  cases hend with
  | notCreated h => exact iff_of_true (locksKept_false_of_old rfl) (hnot fun hw => h ⟨hw.1, hw.2.1⟩)
  | refused he =>
    obtain rfl := writeEditLocks_error he
    refine iff_of_true trivial (hnot fun hw => ?_)
    obtain ⟨-, -, t, ht, -⟩ := hw
    rw [he] at ht
    cases ht
  | notWritten ht hw hne =>
    refine iff_of_true ((locksKept_false ht).mpr ?_) (hnot (not_written ht hw hne))
    rw [Store.keeps_cleanup_iff hpq, Store.write_of_ne hpq]
    exact .inl (.inl rfl)
  | notClosed hw hc => exact iff_of_false (fun h => h) fun h => h.1 ⟨hw, hc⟩
  | @closed text r hw hc ht hr =>
    have h := hr.keeps_iff ht Store.write_self (by rwa [Store.write_of_ne hpq]) hempty
    rw [Store.write_of_ne hpq] at h
    refine h.trans ?_
    simp [CloseFails, RenameFails, hw, hc]

/-! ### When an update succeeds -/

/-- The calls that an update needs, when the p-file exists, do not fail. -/
def PFileUpdated (f : UpdateFails) (locks : List EditLock) (dir : Directory) : Prop :=
  f.create = false ∧ dir .q = none ∧ (f.write = false ∨ locks = []) ∧ f.close = false ∧ f.removeP = false ∧
    (locks = [] ∨ f.rename = false)

theorem Replacement.fst_iff {f : UpdateFails} {locks : List EditLock} {dir : Directory} {r : Bool × Directory}
    (h : Replacement f true locks dir r) (hp : dir .p ≠ none) (hq : dir .q ≠ none) :
    r.1 = true ↔ f.removeP = false ∧ (locks = [] ∨ f.rename = false) := by
  cases h with
  | notRemoved _ hr =>
    rw [Store.remove_eq_none hp] at hr
    simp [hr]
  | emptied hr hl => exact iff_of_true rfl ⟨hr.gone.1, .inl hl⟩
  | notRenamed hr hl hn =>
    rw [Store.rename_eq_none (by rwa [hr.of_ne (by decide)])] at hn
    simp [hl, hn]
  | renamed hr _ hn => exact iff_of_true rfl ⟨hr.gone.1, .inr (Store.rename_eq_some.mp hn).1⟩

/-- **An update of an existing p-file succeeds if and only if no call that it needs fails**; it fails otherwise, or closes
the q-file twice. -/
theorem update_fst {f : UpdateFails} {locks : List EditLock} {dir : Directory} (hp : dir .p ≠ none)
    (hw : ∃ text, writeEditLocks locks = .ok text) :
    ((SccsPfile.update f true locks dir).1 = .ok true ↔ PFileUpdated f locks dir) ∧
      ((SccsPfile.update f true locks dir).1 = .ok true ∨ (SccsPfile.update f true locks dir).1 = .ok false ∨
        (SccsPfile.update f true locks dir).1 = .error .undefined) := by
  have hend := update_ends f true locks dir
  generalize SccsPfile.update f true locks dir = r at hend ⊢
  -- the locks have a text, which is empty if there are none
  have hnil : ∀ {text}, writeEditLocks locks = .ok text → (text = [] ↔ locks = []) := by
    intro text ht
    refine ⟨fun h => by_contra fun hl => text_ne_nil ht hl h, ?_⟩
    rintro rfl
    exact (Except.ok.inj ht).symm
  cases hend with
  | notCreated h => exact ⟨iff_of_false (by simp) fun hu => h ⟨hu.1, hu.2.1⟩, .inr (.inl rfl)⟩
  | refused he =>
    obtain ⟨text, ht⟩ := hw
    rw [he] at ht
    cases ht
  | notWritten ht hf hne =>
    refine ⟨iff_of_false (by simp) fun hu => ?_, .inr (.inl rfl)⟩
    rcases hu.2.2.1 with h | h
    · rw [hf] at h
      cases h
    · exact hne ((hnil ht).mpr h)
  | notClosed _ hc =>
    refine ⟨iff_of_false (by simp) fun hu => ?_, .inr (.inr rfl)⟩
    exact absurd hc (by rw [hu.2.2.2.1]; decide)
  | @closed text r hwritten hc ht hr =>
    obtain ⟨hfc, hq, t, ht', hwr⟩ := hwritten
    have hfst := hr.fst_iff (by rwa [Store.write_of_ne (by decide)]) (by simp)
    constructor
    · rw [Except.ok.injEq, hfst]
      exact ⟨fun h => ⟨hfc, hq, hwr.imp_right (hnil ht').mp, hc, h⟩, fun hu => hu.2.2.2.2⟩
    · cases hb : r.1 with
      | true => exact .inl rfl
      | false => exact .inr (.inl rfl)

theorem Replacement.frame {f : UpdateFails} {alreadyExists : Bool} {locks : List EditLock} {dir : Directory}
    {r : Bool × Directory} (h : Replacement f alreadyExists locks dir r) {n : FileName} (hp : n ≠ .p) (hq : n ≠ .q) :
    r.2 n = dir n := by
  cases h with
  | notRemoved => exact Store.cleanup_of_ne hq
  | emptied hr => exact (Store.cleanup_of_ne hq).trans (hr.of_ne hp)
  | notRenamed hr => exact (Store.cleanup_of_ne hq).trans (hr.of_ne hp)
  | renamed hr _ hn => exact (Store.rename_of_ne hn hq hp).trans (hr.of_ne hp)

/-- Only the p-file and the q-file change. -/
theorem update_frame {f : UpdateFails} {alreadyExists : Bool} {locks : List EditLock} {dir : Directory} {n : FileName}
    (hp : n ≠ .p) (hq : n ≠ .q) : (SccsPfile.update f alreadyExists locks dir).2 n = dir n := by
  have hend := update_ends f alreadyExists locks dir
  generalize SccsPfile.update f alreadyExists locks dir = r at hend ⊢
  cases hend with
  | notCreated => rfl
  | refused => exact Store.write_of_ne hq
  | notWritten => exact (Store.cleanup_of_ne hq).trans (Store.write_of_ne hq)
  | notClosed => exact Store.write_of_ne hq
  | closed _ _ _ hr => exact (hr.frame hp hq).trans (Store.write_of_ne hq)

/-! ### Two runs -/

/-- The directory with a p-file that has one lock. -/
def lockedDirectory : Directory
  | .p => (writeEditLocks [lockIncluding []]).toOption
  | _ => none

/-- Its lock is found. -/
theorem lockedDirectory_locks : LocksOf lockedDirectory [lockIncluding []] := by
  show readPFile _ = .ok [lockIncluding []]
  decide +kernel

/-- No call fails, or only `rename` does. -/
def onlyRename (rename : Bool) : UpdateFails where
  create := false
  write := false
  close := false
  removeP := false
  rename := rename
  removeQ := false
  garbage := []

/-- **If the q-file cannot be renamed, neither the old locks nor the new ones are left.** -/
theorem rename_loses_locks :
    LocksOf lockedDirectory [lockIncluding []] ∧
      ¬ LocksKept (lockedDirectory .p) [lockIncluding [], lockIncluding oneAndFour]
        (SccsPfile.update (onlyRename true) true [lockIncluding [], lockIncluding oneAndFour] lockedDirectory) := by
  refine ⟨lockedDirectory_locks, ?_⟩
  obtain ⟨dir, he, hp, hq⟩ : ∃ dir : Directory,
      SccsPfile.update (onlyRename true) true [lockIncluding [], lockIncluding oneAndFour] lockedDirectory = (.ok false, dir) ∧
        dir .p = none ∧ dir .q = none := ⟨_, rfl, rfl, rfl⟩
  rw [he]
  rintro (h | ⟨t, -, h | h⟩)
  · rw [hp] at h
    cases h
  · rw [hp] at h
    cases h
  · rw [hq] at h
    cases h

/-- A second lock is added, and no call fails. -/
theorem second_lock_kept :
    LocksKept (lockedDirectory .p) [lockIncluding [], lockIncluding oneAndFour]
      (SccsPfile.update (onlyRename false) true [lockIncluding [], lockIncluding oneAndFour] lockedDirectory) :=
  (update_keeps_iff lockedDirectory_locks (c := .add (lockIncluding oneAndFour)) trivial (onlyRename false)).mpr
    ⟨fun h => absurd h.2 (by decide), fun h => absurd h.2.2.2.2.2.1 (by decide)⟩

end CSSC.Files
