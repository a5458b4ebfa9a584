import CSSC.Files.Update

/-!
# Checking in

`sccs_file::add_delta` gets the version that was edited into the d-file, compares it with the g-file, writes the new
history and deletes the edit lock. Only two of its steps are final: the x-file is renamed, and then the q-file is. The
part from `start_update` on is `commit`. An exception ends `add_delta` without a result; such runs are not modelled.

Before the commit only the d-file and the u-file change (`addDelta_of_commits`, `addDelta_of_not`). A check-in that
fails should leave everything as it was (`NothingDone`), and `failed_checkin_iff` says exactly when it does. An update
should leave a copy of the history, once the object is destroyed (`HistoryKept`); it does **unless the old file is
removed, the x-file cannot be renamed and the destructor removes it** (`history_survives_iff`).
-/

namespace CSSC.Files

open CSSC.Lines CSSC.Library

/-- Which calls of `encode_file` fail. -/
structure EncodeFails where
  /-- The g-file cannot be opened. -/
  openG : Bool
  /-- The u-file cannot be created. -/
  create : Bool
  /-- A read or a write fails, or the g-file cannot be closed. -/
  copy : Bool
  /-- The u-file cannot be closed. -/
  close : Bool
  /-- The u-file cannot be removed. -/
  remove : Bool
  /-- What is in the u-file when not everything could be written. -/
  garbage : List UInt8

/-- `encode_file`. A u-file that cannot be closed is closed again by the cleanup. -/
def encodeFile (f : EncodeFails) (encoded : List UInt8) (dir : Directory) : Except Quit Bool × Directory :=
  if f.openG then (.ok false, dir)
  else
    match dir.create f.create .u [] with
    | none => (.ok false, dir)
    | some dir =>
      if f.copy then (.ok false, (dir.write .u f.garbage).cleanup f.remove .u)
      else if f.close then (.error .undefined, dir.write .u f.garbage)
      else (.ok true, dir.write .u encoded)

/-- What can fail in `add_delta`. -/
structure AddDeltaFails where
  /-- `check_keywords_in_file`. -/
  keywords : Bool
  /-- `encode_file`. -/
  encode : EncodeFails
  /-- The file to be compared is not readable. -/
  readable : Bool
  /-- The version that was gotten is not in the history file. -/
  find : Bool
  /-- The d-file cannot be created. -/
  createD : Bool
  /-- A d-file that was found cannot be removed. -/
  removeOldD : Bool
  /-- The d-file cannot be created after that. -/
  createDAgain : Bool
  /-- `do_get` fails. -/
  get : Bool
  /-- The d-file cannot be closed. -/
  closeD : Bool
  /-- The history file is not rewritten: also when the body cannot be written with the changes. -/
  rewrite : RewriteFails
  /-- `sccs_pfile::update`. -/
  pfile : UpdateFails
  /-- The d-file cannot be removed in the end. -/
  removeD : Bool
  /-- The u-file cannot be removed in the end. -/
  removeU : Bool

/-- What `add_delta` reads and writes. -/
structure AddDelta where
  /-- `flags.encoded`. -/
  encoded : Bool
  /-- The encoded g-file. -/
  ufile : List UInt8
  /-- The version that was gotten. -/
  dfile : List UInt8
  /-- What is written to the x-file. -/
  text : List UInt8
  /-- How the counts are patched into it. -/
  counts : List UInt8 → List UInt8
  /-- How `end_update` completes it. -/
  patch : Patch
  /-- The locks of the p-file. -/
  locks : List EditLock
  /-- The lock of this check-in. -/
  lock : ℕ

namespace AddDelta

/-- The locks without that of this check-in. -/
def remaining (i : AddDelta) : List EditLock := i.locks.eraseIdx i.lock

end AddDelta

/-- The part of `add_delta` that updates the s-file and the p-file. -/
def commit (f : AddDeltaFails) (i : AddDelta) (st : Disk) : Except Quit Bool × Disk :=
  match rewriteHistory f.rewrite i.counts i.patch false i.text st with
  | (false, st) => (.ok false, st)
  | (true, st) =>
    let r := SccsPfile.update f.pfile true i.remaining st.dir
    (r.1, { st with dir := r.2 })

/-- The d-file is created; one that is in the way is removed. -/
def createDFile (f : AddDeltaFails) (dfile : List UInt8) (dir : Directory) : Option Directory :=
  match dir.create f.createD .d dfile with
  | some dir => some dir
  | none => (dir.cleanup f.removeOldD .d).create f.createDAgain .d dfile

/-- `add_delta` once the file to be compared is there. The d-file is removed on every way out. -/
def compareAndCommit (f : AddDeltaFails) (i : AddDelta) (st : Disk) : Except Quit Bool × Disk :=
  if f.readable then (.ok false, st)
  else if f.find then (.ok false, st)
  else
    match createDFile f i.dfile st.dir with
    | none => (.ok false, { st with dir := st.dir.cleanup f.removeOldD .d })
    | some dir =>
      let r := if f.get || f.closeD then (.ok false, { st with dir := dir }) else commit f i { st with dir := dir }
      (r.1, { r.2 with dir := r.2.dir.cleanup f.removeD .d })

namespace SccsFile

/-- `sccs_file::add_delta`. The u-file is removed on every way out. -/
def addDelta (f : AddDeltaFails) (i : AddDelta) (st : Disk) : Except Quit Bool × Disk :=
  if f.keywords then (.ok false, st)
  else if i.encoded then
    match encodeFile f.encode i.ufile st.dir with
    | (.ok true, dir) =>
      let r := compareAndCommit f i { st with dir := dir }
      (r.1, { r.2 with dir := r.2.dir.cleanup f.removeU .u })
    | (out, dir) => (out, { st with dir := dir })
  else compareAndCommit f i st

/-- `sccs_file::update`. -/
def update (seekFails : Bool) (f : RewriteFails) (patch : Patch) (text : List UInt8) (st : Disk) : Bool × Disk :=
  if seekFails then (false, st) else rewriteHistory { f with early := false } id patch false text st

/-- `sccs_file::rmdel`, which may refuse to remove the delta. -/
def rmdel (refused : Bool) (f : RewriteFails) (patch : Patch) (text : List UInt8) (st : Disk) : Bool × Disk :=
  if refused then (false, st) else rewriteHistory { f with early := false } id patch false text st

end SccsFile

/-! ### Before the commit -/

/-- Two states that differ in the d-file and the u-file at most. -/
structure SameHistory (st st' : Disk) : Prop where
  /-- The other files. -/
  files : ∀ n, n ≠ .d → n ≠ .u → st'.dir n = st.dir n
  /-- `xfile_created_`. -/
  xfileCreated : st'.xfileCreated = st.xfileCreated

theorem SameHistory.refl (st : Disk) : SameHistory st st := ⟨fun _ _ _ => rfl, rfl⟩

theorem SameHistory.trans {st st' st'' : Disk} (h : SameHistory st st') (h' : SameHistory st' st'') :
    SameHistory st st'' :=
  ⟨fun n hd hu => (h'.files n hd hu).trans (h.files n hd hu), h'.xfileCreated.trans h.xfileCreated⟩

/-- Neither the d-file nor the u-file matters when one of them is removed. -/
theorem SameHistory.cleanup {st st' : Disk} (h : SameHistory st st') (fails : Bool) {m : FileName}
    (hm : m = .d ∨ m = .u) : SameHistory st { st' with dir := st'.dir.cleanup fails m } := by
  refine ⟨fun n hd hu => (Store.cleanup_of_ne ?_).trans (h.files n hd hu), h.xfileCreated⟩
  rintro rfl
  exact hm.elim hd hu

/-- The u-file is written. -/
def Encoded (f : EncodeFails) (dir : Directory) : Prop :=
  f.openG = false ∧ f.create = false ∧ dir .u = none ∧ f.copy = false

/-- The d-file is created, at once or after the removal of one that was found. -/
def DFileCreated (f : AddDeltaFails) (dir : Directory) : Prop :=
  (f.createD = false ∧ dir .d = none) ∨ (f.createDAgain = false ∧ (dir .d = none ∨ f.removeOldD = false))

/-- The check-in comes to the commit. -/
structure Commits (f : AddDeltaFails) (i : AddDelta) (dir : Directory) : Prop where
  /-- The keywords are looked for. -/
  keywords : f.keywords = false
  /-- The g-file is encoded if need be. -/
  encode : i.encoded = true → Encoded f.encode dir ∧ f.encode.close = false
  /-- The file to be compared is readable. -/
  readable : f.readable = false
  /-- The version that was gotten is found … -/
  find : f.find = false
  /-- … and gotten into the d-file. -/
  dfile : DFileCreated f dir
  /-- It can be read from the history file. -/
  get : f.get = false
  /-- The d-file can be closed. -/
  closeD : f.closeD = false

/-- The u-file cannot be closed. -/
def EncodeCloses (f : AddDeltaFails) (i : AddDelta) (dir : Directory) : Prop :=
  f.keywords = false ∧ i.encoded = true ∧ Encoded f.encode dir ∧ f.encode.close = true

theorem createDFile_eq_none {f : AddDeltaFails} {dfile : List UInt8} {dir : Directory} :
    createDFile f dfile dir = none ↔ ¬ DFileCreated f dir := by
  rw [createDFile, DFileCreated]
  rcases hc : dir.create f.createD .d dfile with _ | dir'
  · have h2 : dir.cleanup f.removeOldD .d .d = none ↔ dir .d = none ∨ f.removeOldD = false := by
      rw [Store.cleanup_self]
      cases f.removeOldD <;> simp
    rw [hc]
    show (dir.cleanup f.removeOldD .d).create f.createDAgain .d dfile = none ↔ _
    rw [Store.create_eq_none, h2]
    exact not_congr (or_iff_right (Store.create_eq_none.mp hc)).symm
  · obtain ⟨h1, h2, -⟩ := Store.create_eq_some.mp hc
    rw [hc]
    exact iff_of_false (by simp) fun h => h (.inl ⟨h1, h2⟩)

/-- The d-file is created, and nothing else happens. -/
theorem createDFile_frame {f : AddDeltaFails} {dfile : List UInt8} {dir dir' : Directory}
    (h : createDFile f dfile dir = some dir') {n : FileName} (hn : n ≠ .d) : dir' n = dir n := by
  rw [createDFile] at h
  rcases hc : dir.create f.createD .d dfile with _ | dir''
  · rw [hc] at h
    obtain ⟨-, -, rfl⟩ := Store.create_eq_some.mp h
    rw [Store.write_of_ne hn, Store.cleanup_of_ne hn]
  · rw [hc] at h
    obtain rfl := Option.some.inj h
    obtain ⟨-, -, rfl⟩ := Store.create_eq_some.mp hc
    exact Store.write_of_ne hn

/-- A call that runs the commit in a state that differs in the d-file and the u-file only, and cleans up after it. -/
def RunsCommit (f : AddDeltaFails) (i : AddDelta) (st : Disk) (out : Except Quit Bool × Disk) : Prop :=
  ∃ st', SameHistory st st' ∧ out.1 = (commit f i st').1 ∧ SameHistory (commit f i st').2 out.2

theorem compareAndCommit_of_commits {f : AddDeltaFails} (i : AddDelta) (st : Disk) (hr : f.readable = false)
    (hf : f.find = false) (hd : DFileCreated f st.dir) (hg : f.get = false) (hc : f.closeD = false) :
    RunsCommit f i st (compareAndCommit f i st) := by
  rcases hcr : createDFile f i.dfile st.dir with _ | dir
  · exact absurd hd (createDFile_eq_none.mp hcr)
  · refine ⟨{ st with dir := dir }, ⟨fun n hn _ => createDFile_frame hcr hn, rfl⟩, ?_, ?_⟩
    · simp [compareAndCommit, hr, hf, hcr, hg, hc]
    · simp only [compareAndCommit, hr, hf, hcr, hg, hc]
      exact (SameHistory.refl _).cleanup _ (.inl rfl)

theorem compareAndCommit_of_not {f : AddDeltaFails} (i : AddDelta) (st : Disk)
    (h : ¬ (f.readable = false ∧ f.find = false ∧ DFileCreated f st.dir ∧ f.get = false ∧ f.closeD = false)) :
    (compareAndCommit f i st).1 = .ok false ∧ SameHistory st (compareAndCommit f i st).2 := by
  rw [compareAndCommit]
  by_cases hr : f.readable = true
  · rw [if_pos hr]
    exact ⟨rfl, .refl st⟩
  rw [if_neg hr]
  by_cases hf : f.find = true
  · rw [if_pos hf]
    exact ⟨rfl, .refl st⟩
  rw [if_neg hf]
  rcases hcr : createDFile f i.dfile st.dir with _ | dir
  · exact ⟨rfl, (SameHistory.refl st).cleanup _ (.inl rfl)⟩
  · have hd : DFileCreated f st.dir := by
      by_contra hd
      rw [createDFile_eq_none.mpr hd] at hcr
      cases hcr
    have hgc : (f.get || f.closeD) = true := by
      by_contra hgc
      simp only [Bool.or_eq_true, not_or, Bool.not_eq_true] at hgc
      exact h ⟨by simpa using hr, by simpa using hf, hd, hgc.1, hgc.2⟩
    dsimp only
    rw [if_pos hgc]
    refine ⟨rfl, SameHistory.cleanup ?_ _ (.inl rfl)⟩
    exact ⟨fun n hn _ => createDFile_frame hcr hn, rfl⟩

/-- What `encode_file` does. -/
theorem encodeFile_eq (f : EncodeFails) (encoded : List UInt8) (dir : Directory) :
    (∀ n, n ≠ .u → (encodeFile f encoded dir).2 n = dir n) ∧
      (encodeFile f encoded dir).1 =
        if f.openG = false ∧ f.create = false ∧ dir .u = none ∧ f.copy = false then
          if f.close then .error .undefined else .ok true
        else .ok false := by
  rw [encodeFile]
  by_cases ho : f.openG = true
  · rw [if_pos ho]
    refine ⟨fun _ _ => rfl, ?_⟩
    rw [if_neg (by simp [ho])]
  · rw [if_neg ho]
    have ho : f.openG = false := by simpa using ho
    rcases hc : dir.create f.create .u [] with _ | dir'
    · rw [hc]
      refine ⟨fun _ _ => rfl, ?_⟩
      rw [if_neg]
      rintro ⟨-, h1, h2, -⟩
      rw [Store.create, if_pos ⟨h1, h2⟩] at hc
      cases hc
    · rw [hc]
      obtain ⟨h1, h2, rfl⟩ := Store.create_eq_some.mp hc
      dsimp only
      by_cases hcp : f.copy = true
      · rw [if_pos hcp]
        refine ⟨fun n hn => (Store.cleanup_of_ne hn).trans ?_, ?_⟩
        · rw [Store.write_of_ne hn, Store.write_of_ne hn]
        · rw [if_neg (by simp [hcp])]
      · rw [if_neg hcp]
        have hall : f.openG = false ∧ f.create = false ∧ dir .u = none ∧ f.copy = false :=
          ⟨ho, h1, h2, by simpa using hcp⟩
        by_cases hcl : f.close = true
        · rw [if_pos hcl]
          refine ⟨fun n hn => (Store.write_of_ne hn).trans (Store.write_of_ne hn), ?_⟩
          rw [if_pos hall, if_pos hcl]
        · rw [if_neg hcl]
          refine ⟨fun n hn => (Store.write_of_ne hn).trans (Store.write_of_ne hn), ?_⟩
          rw [if_pos hall, if_neg hcl]

theorem encodeFile_of_encoded {f : EncodeFails} (encoded : List UInt8) {dir : Directory} (h : Encoded f dir) :
    (encodeFile f encoded dir).1 = if f.close then .error .undefined else .ok true :=
  (encodeFile_eq f encoded dir).2.trans (if_pos h)

theorem encodeFile_of_not {f : EncodeFails} (encoded : List UInt8) {dir : Directory} (h : ¬ Encoded f dir) :
    (encodeFile f encoded dir).1 = .ok false := (encodeFile_eq f encoded dir).2.trans (if_neg h)

/-- A check-in that comes to the commit. -/
theorem addDelta_of_commits {f : AddDeltaFails} {i : AddDelta} {st : Disk} (h : Commits f i st.dir) :
    RunsCommit f i st (SccsFile.addDelta f i st) := by
  rw [SccsFile.addDelta, if_neg (by simp [h.keywords])]
  by_cases he : i.encoded = true
  · obtain ⟨henc, hcl⟩ := h.encode he
    have hframe := (encodeFile_eq f.encode i.ufile st.dir).1
    have hout := encodeFile_of_encoded i.ufile henc
    rw [if_neg (by simp [hcl])] at hout
    rw [if_pos he]
    rcases hr : encodeFile f.encode i.ufile st.dir with ⟨out, dir⟩
    rw [hr] at hframe hout
    obtain rfl : out = .ok true := hout
    have hd : DFileCreated f dir := by
      have := h.dfile
      rwa [DFileCreated, ← show dir .d = st.dir .d from hframe .d (by decide)] at this
    obtain ⟨st', h1, h2, h3⟩ := compareAndCommit_of_commits i { st with dir := dir } h.readable h.find hd h.get
      h.closeD
    have hsame : SameHistory st { st with dir := dir } := ⟨fun n _ hn => hframe n hn, rfl⟩
    exact ⟨st', hsame.trans h1, h2, h3.cleanup _ (.inr rfl)⟩
  · rw [if_neg he]
    exact compareAndCommit_of_commits i st h.readable h.find h.dfile h.get h.closeD

/-- A check-in that closes the u-file twice. -/
theorem addDelta_of_encodeCloses {f : AddDeltaFails} {i : AddDelta} {st : Disk} (h : EncodeCloses f i st.dir) :
    (SccsFile.addDelta f i st).1 = .error .undefined := by
  obtain ⟨hk, he, henc, hcl⟩ := h
  have hout := encodeFile_of_encoded i.ufile henc
  rw [if_pos hcl] at hout
  rw [SccsFile.addDelta, if_neg (by simp [hk]), if_pos he]
  rcases hr : encodeFile f.encode i.ufile st.dir with ⟨out, dir⟩
  rw [hr] at hout
  obtain rfl : out = .error .undefined := hout
  rfl

/-- **Any other check-in fails, and changes the d-file and the u-file only.** -/
theorem addDelta_of_not {f : AddDeltaFails} {i : AddDelta} {st : Disk} (hc : ¬ Commits f i st.dir)
    (hcl : ¬ EncodeCloses f i st.dir) :
    (SccsFile.addDelta f i st).1 = .ok false ∧ SameHistory st (SccsFile.addDelta f i st).2 := by
  rw [SccsFile.addDelta]
  by_cases hk : f.keywords = true
  · rw [if_pos hk]
    exact ⟨rfl, .refl st⟩
  rw [if_neg hk]
  have hk : f.keywords = false := by simpa using hk
  by_cases he : i.encoded = true
  · rw [if_pos he]
    have hframe := (encodeFile_eq f.encode i.ufile st.dir).1
    by_cases henc : Encoded f.encode st.dir
    · have hout := encodeFile_of_encoded i.ufile henc
      rcases hr : encodeFile f.encode i.ufile st.dir with ⟨out, dir⟩
      rw [hr] at hframe hout
      have hcl' : f.encode.close = false := by
        by_contra h
        exact hcl ⟨hk, he, henc, by simpa using h⟩
      rw [if_neg (by simp [hcl'])] at hout
      obtain rfl : out = .ok true := hout
      have hd : DFileCreated f dir ↔ DFileCreated f st.dir := by
        rw [DFileCreated, DFileCreated, show dir .d = st.dir .d from hframe .d (by decide)]
      have hnot := compareAndCommit_of_not i { st with dir := dir }
        fun ⟨h1, h2, h3, h4, h5⟩ => hc ⟨hk, fun _ => ⟨henc, hcl'⟩, h1, h2, hd.mp h3, h4, h5⟩
      have hsame : SameHistory st { st with dir := dir } := ⟨fun n _ hn => hframe n hn, rfl⟩
      exact ⟨hnot.1, (hsame.trans hnot.2).cleanup _ (.inr rfl)⟩
    · have hout := encodeFile_of_not i.ufile henc
      rcases hr : encodeFile f.encode i.ufile st.dir with ⟨out, dir⟩
      rw [hr] at hframe hout
      obtain rfl : out = .ok false := hout
      exact ⟨rfl, fun n _ hn => hframe n hn, rfl⟩
  · rw [if_neg he]
    exact compareAndCommit_of_not i st fun ⟨h1, h2, h3, h4, h5⟩ =>
      hc ⟨hk, fun h => absurd h he, h1, h2, h3, h4, h5⟩

/-! ### A check-in that fails -/

/-- A check-in that returns `false` should have changed neither the history file nor the p-file. -/
def NothingDone (dir : Directory) : Except Quit Bool × Disk → Prop
  | (.ok false, st) => st.dir .s = dir .s ∧ st.dir .p = dir .p
  | (.error .undefined, _) => False
  | _ => True

theorem NothingDone.congr {dir dir' : Directory} {out out' : Except Quit Bool × Disk} (hs : dir' .s = dir .s)
    (hp : dir' .p = dir .p) (h : out.1 = out'.1) (hsame : SameHistory out'.2 out.2) :
    NothingDone dir out ↔ NothingDone dir' out' := by
  obtain ⟨o, st⟩ := out
  obtain ⟨o', st'⟩ := out'
  obtain rfl : o = o' := h
  have h1 : st.dir .s = st'.dir .s := hsame.files .s (by decide) (by decide)
  have h2 : st.dir .p = st'.dir .p := hsame.files .p (by decide) (by decide)
  rcases o with (_ | _ | _ | _ | _ | _ | _ | _) | (_ | _)
  all_goals simp [NothingDone, h1, h2, hs, hp]

section

variable {f : AddDeltaFails} {i : AddDelta} {st : Disk}

/-- The new history is complete, and the old one is removed. -/
abbrev Replaced (f : AddDeltaFails) (i : AddDelta) (new : List UInt8) (dir : Directory) : Prop :=
  Replaces f.rewrite i.counts i.patch false i.text new dir

/-- Before the old history file is removed nothing is final. -/
theorem commit_of_not_replaced (h : ¬ ∃ new, Replaced f i new st.dir) :
    (commit f i st).1 = .ok false ∧ ∀ n, n ≠ .x → n ≠ .xbak → (commit f i st).2.dir n = st.dir n := by
  obtain ⟨h1, h2⟩ := rewriteHistory_of_not_replaces h
  rw [commit]
  rcases hr : rewriteHistory f.rewrite i.counts i.patch false i.text st with ⟨ok, st'⟩
  rw [hr] at h1 h2
  obtain rfl : ok = false := h1
  exact ⟨rfl, h2⟩

/-- The x-file cannot be renamed. -/
theorem commit_of_rename_fails {new : List UInt8} (h : Replaced f i new st.dir) (hr : f.rewrite.finish.rename = true) :
    (commit f i st).1 = .ok false ∧ (commit f i st).2.xfileCreated = true ∧ (commit f i st).2.dir .s = none ∧
      (commit f i st).2.dir .x = some new := by
  have h2 := (rewriteHistory_of_replaces h).2
  rw [if_pos hr] at h2
  rw [commit]
  rcases he : rewriteHistory f.rewrite i.counts i.patch false i.text st with ⟨ok, st'⟩
  rw [he] at h2
  obtain ⟨rfl, h3, h4, h5⟩ := h2
  exact ⟨rfl, h3, h4, h5⟩

/-- The history file is replaced. -/
theorem commit_of_renamed {new : List UInt8} (h : Replaced f i new st.dir) (hr : f.rewrite.finish.rename = false) :
    (commit f i st).2.xfileCreated = false ∧ (commit f i st).2.dir .s = some new := by
  have h2 := (rewriteHistory_of_replaces h).2
  rw [if_neg (by simp [hr])] at h2
  rw [commit]
  rcases he : rewriteHistory f.rewrite i.counts i.patch false i.text st with ⟨ok, st'⟩
  rw [he] at h2
  obtain ⟨rfl, h3, h4⟩ := h2
  exact ⟨h3, (update_frame (by decide) (by decide)).trans h4⟩

/-- Then it depends on the p-file whether the check-in succeeds. -/
theorem commit_fst_of_renamed {new : List UInt8} (h : Replaced f i new st.dir) (hr : f.rewrite.finish.rename = false)
    (hp : st.dir .p ≠ none) (hw : ∃ text, writeEditLocks i.remaining = .ok text) :
    ((commit f i st).1 = .ok true ↔ PFileUpdated f.pfile i.remaining st.dir) ∧
      ((commit f i st).1 = .ok true ∨ (commit f i st).1 = .ok false ∨ (commit f i st).1 = .error .undefined) := by
  obtain ⟨hframe, h2⟩ := rewriteHistory_of_replaces h
  rw [if_neg (by simp [hr])] at h2
  rw [commit]
  rcases he : rewriteHistory f.rewrite i.counts i.patch false i.text st with ⟨ok, st'⟩
  rw [he] at h2 hframe
  obtain ⟨rfl, -⟩ := h2
  have hp' : st'.dir .p = st.dir .p := hframe .p (by decide) (by decide) (by decide)
  have hq' : st'.dir .q = st.dir .q := hframe .q (by decide) (by decide) (by decide)
  have hpn : st'.dir .p ≠ none := by rwa [hp']
  obtain ⟨h5, h6⟩ := update_fst (f := f.pfile) hpn hw
  rw [PFileUpdated, hq'] at h5
  exact ⟨h5, h6⟩

/-- What a commit that fails changes. -/
theorem commit_nothingDone_iff (hs : ∀ new, i.patch (i.counts i.text) = some new → st.dir .s ≠ some new)
    (hp : st.dir .p ≠ none) (hw : ∃ text, writeEditLocks i.remaining = .ok text) :
    NothingDone st.dir (commit f i st) ↔
      ¬ ((∃ new, Replaced f i new st.dir) ∧
        (f.rewrite.finish.rename = true ∨ ¬ PFileUpdated f.pfile i.remaining st.dir)) := by
  by_cases hrep : ∃ new, Replaced f i new st.dir
  · obtain ⟨new, hnew⟩ := hrep
    have hsome : st.dir .s ≠ none := (hnew.2.2.2.2.2.resolve_left (by decide)).2
    rcases hc : commit f i st with ⟨o, st'⟩
    cases hr : f.rewrite.finish.rename with
    | true =>
      have h := commit_of_rename_fails hnew hr
      rw [hc] at h
      obtain ⟨rfl, -, h2, -⟩ := h
      refine iff_of_false (fun h => ?_) fun h => h ⟨⟨new, hnew⟩, .inl rfl⟩
      exact hsome (h.1.symm.trans h2)
    | false =>
      have h4 := (commit_of_renamed hnew hr).2
      obtain ⟨h1, h2⟩ := commit_fst_of_renamed hnew hr hp hw
      rw [hc] at h1 h2 h4
      simp only [Bool.false_eq_true, false_or]
      have hne := hs new hnew.2.2.2.2.1
      rcases h2 with h2 | h2 | h2
      · obtain rfl : o = .ok true := h2
        exact iff_of_true trivial fun h => h.2 (h1.mp rfl)
      · obtain rfl : o = .ok false := h2
        refine iff_of_false (fun h => hne (h.1.symm.trans h4)) fun h => h ⟨⟨new, hnew⟩, fun hu => ?_⟩
        cases h1.mpr hu
      · obtain rfl : o = .error .undefined := h2
        refine iff_of_false (fun h => h) fun h => h ⟨⟨new, hnew⟩, fun hu => ?_⟩
        cases h1.mpr hu
  · obtain ⟨h1, h2⟩ := commit_of_not_replaced hrep
    rcases hc : commit f i st with ⟨o, st'⟩
    rw [hc] at h1 h2
    obtain rfl : o = .ok false := h1
    exact iff_of_true ⟨h2 .s (by decide) (by decide), h2 .p (by decide) (by decide)⟩ fun h => hrep h.1

/-- **A check-in that fails has changed nothing, unless the history file was removed and the x-file could not be renamed,
or it was replaced and the p-file was not, or the u-file could not be closed.** The new history differs from the old one,
as it has one delta more. -/
theorem failed_checkin_iff (hs : ∀ new, i.patch (i.counts i.text) = some new → st.dir .s ≠ some new)
    (hl : LocksOf st.dir i.locks) (hi : i.lock < i.locks.length) :
    NothingDone st.dir (SccsFile.addDelta f i st) ↔
      ¬ EncodeCloses f i st.dir ∧
      ¬ (Commits f i st.dir ∧ (∃ new, Replaced f i new st.dir) ∧
        (f.rewrite.finish.rename = true ∨ ¬ PFileUpdated f.pfile i.remaining st.dir)) := by
  have hne : i.locks ≠ [] := by
    intro h
    rw [h] at hi
    exact absurd hi (Nat.not_lt_zero _)
  have hp : st.dir .p ≠ none := hl.exists hne
  have hw : ∃ text, writeEditLocks i.remaining = .ok text :=
    writeEditLocks_of_printable fun e he => hl.printable e (List.eraseIdx_subset he)
  by_cases hc : Commits f i st.dir
  · have hcl : ¬ EncodeCloses f i st.dir := fun h => by
      have := (hc.encode h.2.1).2
      rw [h.2.2.2] at this
      cases this
    obtain ⟨st', hsame, h1, h2⟩ := addDelta_of_commits hc
    have hds : st'.dir .s = st.dir .s := hsame.files .s (by decide) (by decide)
    have hdp : st'.dir .p = st.dir .p := hsame.files .p (by decide) (by decide)
    have hdq : st'.dir .q = st.dir .q := hsame.files .q (by decide) (by decide)
    have hdx : st'.dir .x = st.dir .x := hsame.files .x (by decide) (by decide)
    rw [NothingDone.congr hds hdp h1 h2, commit_nothingDone_iff (by rwa [hds]) (by rwa [hdp]) hw]
    simp only [Replaces, StartOk, PFileUpdated, hds, hdq, hdx, hc, hcl, not_false_eq_true, true_and]
  · by_cases hcl : EncodeCloses f i st.dir
    · have hu := addDelta_of_encodeCloses hcl
      rcases ho : SccsFile.addDelta f i st with ⟨o, st'⟩
      rw [ho] at hu
      obtain rfl : o = .error .undefined := hu
      exact iff_of_false (fun h => h) fun h => h.1 hcl
    · obtain ⟨h1, h2⟩ := addDelta_of_not hc hcl
      rcases ho : SccsFile.addDelta f i st with ⟨o, st'⟩
      rw [ho] at h1 h2
      obtain rfl : o = .ok false := h1
      exact iff_of_true ⟨h2.files .s (by decide) (by decide), h2.files .p (by decide) (by decide)⟩
        ⟨hcl, fun h => hc h.1⟩

end

/-! ### What is left of the history -/

/-- The updates of a history file. -/
inductive HistoryUpdate where
  /-- `sccs_file::update`. -/
  | update (seekFails : Bool) (f : RewriteFails) (patch : Patch) (text : List UInt8)
  /-- `sccs_file::rmdel`. -/
  | rmdel (refused : Bool) (f : RewriteFails) (patch : Patch) (text : List UInt8)
  /-- `sccs_file::add_delta`. -/
  | addDelta (f : AddDeltaFails) (i : AddDelta)

namespace HistoryUpdate

/-- The update. -/
def run : HistoryUpdate → Disk → Except Quit Bool × Disk
  | .update seekFails f patch text, st =>
    (.ok (SccsFile.update seekFails f patch text st).1, (SccsFile.update seekFails f patch text st).2)
  | .rmdel refused f patch text, st =>
    (.ok (SccsFile.rmdel refused f patch text st).1, (SccsFile.rmdel refused f patch text st).2)
  | .addDelta f i, st => SccsFile.addDelta f i st

/-- What can fail when the history is rewritten. -/
def rewrite : HistoryUpdate → RewriteFails
  | .update _ f _ _ => f
  | .rmdel _ f _ _ => f
  | .addDelta f _ => f.rewrite

/-- The new contents, when they are complete. -/
def newText : HistoryUpdate → Option (List UInt8)
  | .update _ _ patch text => patch text
  | .rmdel _ _ patch text => patch text
  | .addDelta _ i => i.patch (i.counts i.text)

/-- The x-file becomes complete, and the old history file is removed. -/
def RemovesOld : HistoryUpdate → Directory → Prop
  | .update seekFails f patch text, dir =>
    seekFails = false ∧ ∃ new, Replaces { f with early := false } id patch false text new dir
  | .rmdel refused f patch text, dir =>
    refused = false ∧ ∃ new, Replaces { f with early := false } id patch false text new dir
  | .addDelta f i, dir => Commits f i dir ∧ ∃ new, Replaced f i new dir

end HistoryUpdate

/-- After the destructor there is a copy of the history, the old one or the new one, under the name of the s-file or the
x-file. An update that closes a file twice is not looked at. -/
def HistoryKept (u : HistoryUpdate) (old : List UInt8) (st : Disk) : Prop :=
  (u.run st).1 ≠ .error .undefined → ∃ c, (c = old ∨ u.newText = some c) ∧
    (destroy u.rewrite.removeX (u.run st).2 .s = some c ∨ destroy u.rewrite.removeX (u.run st).2 .x = some c)

theorem destroy_s (removeX : Bool) (st : Disk) : destroy removeX st .s = st.dir .s := by
  rw [destroy]
  split
  · exact Store.cleanup_of_ne (by decide)
  · rfl

/-- The x-file is removed. -/
theorem destroy_x {removeX : Bool} {st : Disk} (h : st.xfileCreated = true) :
    destroy removeX st .x = if removeX then st.dir .x else none := by
  rw [destroy, if_pos h]
  exact Store.cleanup_self

/-- What a rewriting that is not refused leaves of the history. -/
theorem rewriteHistory_cases (f : RewriteFails) (patch : Patch) (text : List UInt8) {st : Disk} {old : List UInt8}
    (h : st.dir .s = some old) :
    ((¬ ∃ new, Replaces { f with early := false } id patch false text new st.dir) →
      (rewriteHistory { f with early := false } id patch false text st).2.dir .s = some old) ∧
    ((∃ new, Replaces { f with early := false } id patch false text new st.dir) → ∃ new, patch text = some new ∧
      if f.finish.rename then
        (rewriteHistory { f with early := false } id patch false text st).2.xfileCreated = true ∧
          (rewriteHistory { f with early := false } id patch false text st).2.dir .s = none ∧
          (rewriteHistory { f with early := false } id patch false text st).2.dir .x = some new
      else (rewriteHistory { f with early := false } id patch false text st).2.dir .s = some new) := by
  constructor
  · intro hn
    exact ((rewriteHistory_of_not_replaces hn).2 .s (by decide) (by decide)).trans h
  · rintro ⟨new, hnew⟩
    have h2 := (rewriteHistory_of_replaces hnew).2
    refine ⟨new, hnew.2.2.2.2.1, ?_⟩
    cases hr : f.finish.rename with
    | true =>
      rw [if_pos hr] at h2
      exact h2.2
    | false =>
      rw [if_neg (by simp [hr])] at h2
      exact h2.2.2

/-- What an update does to the history file and the x-file. -/
theorem run_cases (u : HistoryUpdate) {st : Disk} {old : List UInt8} (h : st.dir .s = some old)
    (hu : (u.run st).1 ≠ .error .undefined) :
    (¬ u.RemovesOld st.dir → (u.run st).2.dir .s = some old) ∧
    (u.RemovesOld st.dir → ∃ new, u.newText = some new ∧
      if u.rewrite.finish.rename then
        (u.run st).2.xfileCreated = true ∧ (u.run st).2.dir .s = none ∧ (u.run st).2.dir .x = some new
      else (u.run st).2.dir .s = some new) := by
  cases u with
  | update seekFails f patch text =>
    cases seekFails with
    | true => exact ⟨fun _ => h, fun hr => absurd hr.1 (by decide)⟩
    | false =>
      obtain ⟨hkept, hnew⟩ := rewriteHistory_cases f patch text h
      exact ⟨fun hn => hkept fun hr => hn ⟨rfl, hr⟩, fun hr => hnew hr.2⟩
  | rmdel refused f patch text =>
    cases refused with
    | true => exact ⟨fun _ => h, fun hr => absurd hr.1 (by decide)⟩
    | false =>
      obtain ⟨hkept, hnew⟩ := rewriteHistory_cases f patch text h
      exact ⟨fun hn => hkept fun hr => hn ⟨rfl, hr⟩, fun hr => hnew hr.2⟩
  | addDelta f i =>
    show (¬ (Commits f i st.dir ∧ ∃ new, Replaced f i new st.dir) → (SccsFile.addDelta f i st).2.dir .s = some old) ∧
      (Commits f i st.dir ∧ (∃ new, Replaced f i new st.dir) → _)
    by_cases hc : Commits f i st.dir
    · obtain ⟨st', hsame, -, h2⟩ := addDelta_of_commits hc
      have hds : st'.dir .s = st.dir .s := hsame.files .s (by decide) (by decide)
      have hdx : st'.dir .x = st.dir .x := hsame.files .x (by decide) (by decide)
      have hrep : ∀ new, Replaced f i new st'.dir ↔ Replaced f i new st.dir := fun new => by
        simp only [Replaces, StartOk, hds, hdx]
      have hout : ∀ n, n ≠ .d → n ≠ .u → (SccsFile.addDelta f i st).2.dir n = (commit f i st').2.dir n := h2.files
      constructor
      · intro hn
        rw [hout .s (by decide) (by decide),
          (commit_of_not_replaced fun hr => hn ⟨hc, hr.imp fun new => (hrep new).mp⟩).2 .s (by decide) (by decide), hds, h]
      · rintro ⟨-, new, hnew⟩
        have hnew' := (hrep new).mpr hnew
        refine ⟨new, hnew.2.2.2.2.1, ?_⟩
        show if f.rewrite.finish.rename then (SccsFile.addDelta f i st).2.xfileCreated = true ∧
          (SccsFile.addDelta f i st).2.dir .s = none ∧ (SccsFile.addDelta f i st).2.dir .x = some new
          else (SccsFile.addDelta f i st).2.dir .s = some new
        rw [h2.xfileCreated, hout .s (by decide) (by decide), hout .x (by decide) (by decide)]
        cases hr : f.rewrite.finish.rename with
        | true => exact (commit_of_rename_fails hnew' hr).2
        | false => exact (commit_of_renamed hnew' hr).2
    · refine ⟨fun _ => ?_, fun hr => absurd hr.1 hc⟩
      by_cases hcl : EncodeCloses f i st.dir
      · exact absurd (addDelta_of_encodeCloses hcl) hu
      · exact ((addDelta_of_not hc hcl).2.files .s (by decide) (by decide)).trans h

/-- An update whose x-file cannot be renamed returns. -/
theorem run_returns {u : HistoryUpdate} {st : Disk} (hr : u.RemovesOld st.dir)
    (hn : u.rewrite.finish.rename = true) : (u.run st).1 ≠ .error .undefined := by
  cases u with
  | update seekFails f patch text => simp [HistoryUpdate.run]
  | rmdel refused f patch text => simp [HistoryUpdate.run]
  | addDelta f i =>
    obtain ⟨hc, new, hnew⟩ := hr
    obtain ⟨st', hsame, h1, -⟩ := addDelta_of_commits hc
    have hnew' : Replaced f i new st'.dir := by
      simpa only [Replaces, StartOk, hsame.files .s (by decide) (by decide), hsame.files .x (by decide) (by decide)]
        using hnew
    show (SccsFile.addDelta f i st).1 ≠ _
    rw [h1, (commit_of_rename_fails hnew' hn).1]
    simp

/-- **A copy of the history is kept, unless the old one is removed, the x-file cannot be renamed and the destructor
removes it.** -/
theorem history_survives_iff (u : HistoryUpdate) {st : Disk} {old : List UInt8} (h : st.dir .s = some old) :
    HistoryKept u old st ↔
      ¬ (u.RemovesOld st.dir ∧ u.rewrite.finish.rename = true ∧ u.rewrite.removeX = false) := by
  by_cases hu : (u.run st).1 = .error .undefined
  · exact iff_of_true (fun hn => absurd hu hn) fun hl => run_returns hl.1 hl.2.1 hu
  · obtain ⟨h1, h2⟩ := run_cases u h hu
    by_cases hr : u.RemovesOld st.dir
    · obtain ⟨new, hnew, hcase⟩ := h2 hr
      cases hren : u.rewrite.finish.rename with
      | false =>
        rw [hren] at hcase
        refine iff_of_true (fun _ => ⟨new, .inr hnew, .inl ?_⟩) (by simp)
        rw [destroy_s]
        exact hcase
      | true =>
        rw [hren] at hcase
        obtain ⟨hcr, hs, hx⟩ := hcase
        cases hrx : u.rewrite.removeX with
        | true =>
          refine iff_of_true (fun _ => ⟨new, .inr hnew, .inr ?_⟩) (by simp)
          rw [hrx, destroy_x hcr, if_pos rfl, hx]
        | false =>
          refine iff_of_false (fun hk => ?_) (by simp [hr])
          obtain ⟨c, -, hc | hc⟩ := hk hu
          · rw [destroy_s, hs] at hc
            cases hc
          · rw [hrx, destroy_x hcr, if_neg (by decide)] at hc
            cases hc
    · refine iff_of_true (fun _ => ⟨old, .inl rfl, .inl ?_⟩) fun hl => hr hl.1
      rw [destroy_s]
      exact h1 hr

/-! ### Runs -/

/-- No call fails, except that the x-file cannot be renamed if `rename` says so. -/
def historyFails (rename : Bool) : RewriteFails where
  start := ⟨false, false, false, false, []⟩
  write := none
  early := false
  finish := ⟨false, false, false, false, false, false, rename, []⟩
  removeX := false

/-- A directory with a history file, a p-file with one lock, and perhaps a q-file that was left over. -/
def checkedOut (leftover : Bool) : Directory
  | .s => some [1, 104]
  | .p => lockedDirectory .p
  | .q => if leftover then some [] else none
  | _ => none

/-- A check-in of the lock in which no call fails, or only the renaming of the x-file does. -/
def checkInFails (rename : Bool) : AddDeltaFails where
  keywords := false
  encode := ⟨false, false, false, false, false, []⟩
  readable := false
  find := false
  createD := false
  removeOldD := false
  createDAgain := false
  get := false
  closeD := false
  rewrite := historyFails rename
  pfile := onlyRename false
  removeD := false
  removeU := false

/-- What it reads and writes. -/
def oneCheckIn : AddDelta where
  encoded := false
  ufile := []
  dfile := []
  text := [1, 104, 10]
  counts := id
  patch := some
  locks := [lockIncluding []]
  lock := 0

/-- **A q-file that was left over makes a check-in fail after the delta was added.** -/
theorem leftover_qfile_adds_delta :
    LocksOf (checkedOut true) oneCheckIn.locks ∧
      (SccsFile.addDelta (checkInFails false) oneCheckIn ⟨checkedOut true, false⟩).1 = .ok false ∧
      (SccsFile.addDelta (checkInFails false) oneCheckIn ⟨checkedOut true, false⟩).2.dir .s = some [1, 104, 10] ∧
      ¬ NothingDone (checkedOut true) (SccsFile.addDelta (checkInFails false) oneCheckIn ⟨checkedOut true, false⟩) := by
  have h1 : (SccsFile.addDelta (checkInFails false) oneCheckIn ⟨checkedOut true, false⟩).1 = .ok false := by rfl
  have h2 : (SccsFile.addDelta (checkInFails false) oneCheckIn ⟨checkedOut true, false⟩).2.dir .s =
      some [1, 104, 10] := by rfl
  refine ⟨lockedDirectory_locks, h1, h2, ?_⟩
  rcases ho : SccsFile.addDelta (checkInFails false) oneCheckIn ⟨checkedOut true, false⟩ with ⟨o, st'⟩
  rw [ho] at h1 h2
  obtain rfl : o = .ok false := h1
  rintro ⟨hs, -⟩
  rw [h2] at hs
  cases hs

/-- A check-in whose x-file cannot be written changes nothing. -/
theorem unwritten_checkin_changes_nothing :
    NothingDone (checkedOut true)
      (SccsFile.addDelta { checkInFails false with rewrite := { historyFails false with write := some [] } } oneCheckIn
        ⟨checkedOut true, false⟩) := by
  have hl : LocksOf (⟨checkedOut true, false⟩ : Disk).dir oneCheckIn.locks := lockedDirectory_locks
  refine (failed_checkin_iff (i := oneCheckIn) ?_ hl Nat.zero_lt_one).mpr ⟨fun h => Bool.false_ne_true h.2.1, ?_⟩
  · intro new hnew
    obtain rfl := Option.some.inj hnew
    decide
  · rintro ⟨-, ⟨new, hnew⟩, -⟩
    cases hnew.2.1

/-- **If the x-file cannot be renamed, neither history is left.** -/
theorem rename_loses_history :
    ¬ HistoryKept (.update false (historyFails true) some [1, 104, 10]) [1, 104] ⟨checkedOut false, false⟩ := by
  intro h
  obtain ⟨c, -, hc | hc⟩ := h (by simp [HistoryUpdate.run])
  · cases hc
  · cases hc

/-- A history is kept when only the x-file cannot be opened. -/
theorem unopened_history_kept :
    HistoryKept (.update false { historyFails true with start := ⟨false, false, true, false, []⟩ } some [1, 104, 10])
      [1, 104] ⟨checkedOut false, false⟩ := by
  refine (history_survives_iff _ rfl).mpr ?_
  rintro ⟨⟨-, new, hnew⟩, -⟩
  cases hnew.1.2.2.1

end CSSC.Files
