import CSSC.Files.PFileUpdate

/-!
# Replacing the history file

A history file is never changed in place. The new one is written to the x-file. Then the x-file is read to find its
checksum, which is patched into its first line, the old history file is removed and the x-file renamed. The object
remembers whether there is an x-file, and its destructor removes it (`destroy`).

A `Disk` is the directory and `xfile_created_`. `startUpdate` makes the x-file; one that is found is kept as a backup,
if that works. What `endUpdate` makes of the text is a parameter (`Patch`), and for a new delta the line counts are
patched first (`endUpdateDelta`). `rewriteHistory` is the part that `update`, `rmdel` and `add_delta` have in common.

Files other than the x-file and its backup are left alone by `startUpdate` (`startUpdate_frame`). What becomes of the
history file in `endUpdate` depends on whether it comes as far as removing it (`endUpdate_of_reaches`,
`endUpdate_of_not_reaches`).
-/

namespace CSSC.Files

open CSSC.Lines CSSC.Library

/-- The part of the state of `sccs_file` that is about files. -/
structure Disk where
  /-- The directory. -/
  dir : Directory
  /-- `xfile_created_`. -/
  xfileCreated : Bool

/-- Which calls of `start_update` fail. -/
structure StartFails where
  /-- The x-file that was found cannot be renamed. -/
  rename : Bool
  /-- It cannot be unlinked. -/
  unlink : Bool
  /-- The x-file cannot be opened. -/
  open_ : Bool
  /-- The first line cannot be written. -/
  put : Bool
  /-- What is in the x-file then. -/
  garbage : List UInt8

/-- `start_update`: whether it succeeded. `create` is the mode `CREATE`. -/
def startUpdate (f : StartFails) (create : Bool) (st : Disk) : Bool × Disk :=
  if create = true ∧ st.dir .s ≠ none then (false, st)
  else
    -- without a backup the file is over-written
    let dir := st.dir.moveAway f.rename .x .xbak
    match if dir .x = none then some dir else dir.remove f.unlink .x with
    | none => (false, { st with dir := dir })
    | some dir =>
      if f.open_ then (false, { st with dir := dir })
      else if f.put then (false, ⟨dir.write .x f.garbage, true⟩)
      else (true, ⟨dir.write .x [], true⟩)

/-- Which calls of `end_update` fail. -/
structure EndFails where
  /-- The x-file cannot be flushed. -/
  flush : Bool
  /-- It cannot be opened for reading. -/
  reopen : Bool
  /-- A read or write fails while the encoded flag is patched. -/
  rehack : Bool
  /-- The checksum cannot be written. -/
  print : Bool
  /-- `fclose` fails. -/
  close : Bool
  /-- The old history file cannot be removed. -/
  removeS : Bool
  /-- The x-file cannot be renamed. -/
  rename : Bool
  /-- What is in the x-file when not everything could be written. -/
  garbage : List UInt8

/-- What `end_update` makes of the text that was written: nothing, if it cannot be parsed. -/
abbrev Patch := List UInt8 → Option (List UInt8)

/-- The x-file is complete. -/
def EndFails.complete (f : EndFails) : Bool := !(f.flush || f.reopen || f.rehack || f.print || f.close)

/-- `end_update`: whether it succeeded. `text` was written to the x-file. -/
def endUpdate (f : EndFails) (patch : Patch) (create : Bool) (text : List UInt8) (st : Disk) : Bool × Disk :=
  match if f.complete then patch text else none with
  | none => (false, { st with dir := st.dir.write .x f.garbage })
  | some new =>
    let dir := st.dir.write .x new
    match if create then some dir else dir.remove f.removeS .s with
    | none => (false, { st with dir := dir })
    | some dir =>
      match dir.rename f.rename .x .s with
      | none => (false, { st with dir := dir })
      | some dir => (true, ⟨dir, false⟩)

/-- `end_update` for a new delta: the line counts are patched with `counts`, unless the x-file cannot be flushed or
written. -/
def endUpdateDelta (early : Bool) (f : EndFails) (counts : List UInt8 → List UInt8) (patch : Patch) (create : Bool)
    (text : List UInt8) (st : Disk) : Bool × Disk :=
  if early then (false, { st with dir := st.dir.write .x f.garbage })
  else endUpdate f patch create (counts text) st

/-- `~sccs_file`. -/
def destroy (removeX : Bool) (st : Disk) : Directory :=
  if st.xfileCreated then st.dir.cleanup removeX .x else st.dir

/-- What can fail in an update from `start_update` to the destructor. -/
structure RewriteFails where
  /-- `start_update`. -/
  start : StartFails
  /-- What was written of the text when writing it fails. -/
  write : Option (List UInt8)
  /-- The x-file cannot be flushed, or the counts cannot be written; only with a new delta. -/
  early : Bool
  /-- `end_update`. -/
  finish : EndFails
  /-- The destructor cannot remove the x-file. -/
  removeX : Bool

/-- `start_update`, the writing of the text, and `end_update`. -/
def rewriteHistory (f : RewriteFails) (counts : List UInt8 → List UInt8) (patch : Patch) (create : Bool)
    (text : List UInt8) (st : Disk) : Bool × Disk :=
  match startUpdate f.start create st with
  | (false, st) => (false, st)
  | (true, st) =>
    match f.write with
    | some garbage => (false, { st with dir := st.dir.write .x garbage })
    | none => endUpdateDelta f.early f.finish counts patch create text st

/-! ### What the steps do -/

/-- `start_update` succeeds: an x-file that was there is out of the way, and the new one can be opened and written. -/
def StartOk (f : StartFails) (create : Bool) (dir : Directory) : Prop :=
  ¬ (create = true ∧ dir .s ≠ none) ∧ (dir .x = none ∨ f.rename = false ∨ f.unlink = false) ∧ f.open_ = false ∧
    f.put = false

/-- Before the x-file is opened only the x-file and its backup change. -/
theorem startUpdate_frame {f : StartFails} {create : Bool} {st : Disk} {n : FileName} (hx : n ≠ .x) (hb : n ≠ .xbak) :
    (startUpdate f create st).2.dir n = st.dir n := by
  rw [startUpdate]
  split
  · rfl
  · have h1 : st.dir.moveAway f.rename .x .xbak n = st.dir n := Store.moveAway_of_ne hx hb
    dsimp only
    generalize st.dir.moveAway f.rename .x .xbak = dir₁ at h1 ⊢
    rcases hr : (if dir₁ .x = none then some dir₁ else dir₁.remove f.unlink .x) with _ | dir₂
    · exact h1
    · have h2 : dir₂ n = st.dir n := by
        split at hr
        · rw [← Option.some.inj hr, h1]
        · rw [Store.remove_of_ne hr hx, h1]
      dsimp only
      split_ifs
      · exact h2
      · exact (Store.write_of_ne hx).trans h2
      · exact (Store.write_of_ne hx).trans h2

theorem startUpdate_iff (f : StartFails) (create : Bool) (st : Disk) :
    (startUpdate f create st).1 = true ↔ StartOk f create st.dir := by
  rw [startUpdate, StartOk]
  split
  · rename_i h
    exact iff_of_false (by simp) fun hs => hs.1 h
  · rename_i h
    -- the x-file is renamed, unless there is none or renaming fails
    have h1 : st.dir.moveAway f.rename .x .xbak .x = none ↔ st.dir .x = none ∨ f.rename = false := by
      rw [Store.moveAway_self]
      cases f.rename <;> simp
    dsimp only
    generalize st.dir.moveAway f.rename .x .xbak = dir₁ at h1 ⊢
    rcases hr : (if dir₁ .x = none then some dir₁ else dir₁.remove f.unlink .x) with _ | dir₂
    · refine iff_of_false (by simp) fun hs => ?_
      split at hr
      · cases hr
      · rename_i hx
        rw [Store.remove_eq_none hx] at hr
        rcases hs.2.1 with hn | hn | hn
        · exact hx (h1.mpr (.inl hn))
        · exact hx (h1.mpr (.inr hn))
        · rw [hr] at hn
          cases hn
    · have hx : st.dir .x = none ∨ f.rename = false ∨ f.unlink = false := by
        split at hr
        · rename_i hx
          exact (h1.mp hx).imp_right .inl
        · exact .inr (.inr (Store.remove_eq_some.mp hr).1)
      dsimp only
      have hs : ¬ (create = true ∧ st.dir .s ≠ none) := h
      cases ho : f.open_ <;> cases hp : f.put <;> simp [hx, hs]

/-- The x-file is complete, and nothing is left at the name of the history file or it is to be created. -/
def Reaches (f : EndFails) (patch : Patch) (create : Bool) (text new : List UInt8) (dir : Directory) : Prop :=
  f.complete = true ∧ patch text = some new ∧ (create = true ∨ (f.removeS = false ∧ dir .s ≠ none))

/-- Otherwise `end_update` changes nothing but the x-file. -/
theorem endUpdate_of_not_reaches {f : EndFails} {patch : Patch} {create : Bool} {text : List UInt8} {st : Disk}
    (h : ¬ ∃ new, Reaches f patch create text new st.dir) :
    (endUpdate f patch create text st).1 = false ∧
      (endUpdate f patch create text st).2.xfileCreated = st.xfileCreated ∧
      ∀ n, n ≠ .x → (endUpdate f patch create text st).2.dir n = st.dir n := by
  rw [endUpdate]
  rcases hp : (if f.complete then patch text else none) with _ | new
  · exact ⟨rfl, rfl, fun n hn => Store.write_of_ne hn⟩
  · have hc : f.complete = true ∧ patch text = some new := by
      by_cases hf : f.complete = true
      · rw [if_pos hf] at hp
        exact ⟨hf, hp⟩
      · rw [if_neg hf] at hp
        cases hp
    rcases hr : (if create then some (st.dir.write .x new) else (st.dir.write .x new).remove f.removeS .s) with _ | dir
    · simp only [hr, true_and]
      exact fun n hn => Store.write_of_ne hn
    · refine absurd ⟨new, hc.1, hc.2, ?_⟩ h
      cases create with
      | true => exact .inl rfl
      | false =>
        obtain ⟨h1, h2, -⟩ := Store.remove_eq_some.mp hr
        rw [Store.write_of_ne (by decide)] at h2
        exact .inr ⟨h1, h2⟩

/-- **What `end_update` makes of the history file**: it is the new one, or gone if the x-file cannot be renamed. -/
theorem endUpdate_of_reaches {f : EndFails} {patch : Patch} {create : Bool} {text new : List UInt8} {st : Disk}
    (h : Reaches f patch create text new st.dir) :
    (∀ n, n ≠ .x → n ≠ .s → (endUpdate f patch create text st).2.dir n = st.dir n) ∧
    if f.rename then
      (endUpdate f patch create text st).1 = false ∧
        (endUpdate f patch create text st).2.xfileCreated = st.xfileCreated ∧
        (endUpdate f patch create text st).2.dir .s = (if create then st.dir .s else none) ∧
        (endUpdate f patch create text st).2.dir .x = some new
    else
      (endUpdate f patch create text st).1 = true ∧ (endUpdate f patch create text st).2.xfileCreated = false ∧
        (endUpdate f patch create text st).2.dir .s = some new := by
  have hsx : FileName.s ≠ .x := by decide
  obtain ⟨hc, hp, hs⟩ := h
  -- the directory when the old history file is gone
  obtain ⟨dir, hr, hds, hdx, hdn⟩ : ∃ dir : Directory,
      (if create then some (st.dir.write .x new) else (st.dir.write .x new).remove f.removeS .s) = some dir ∧
        dir .s = (if create then st.dir .s else none) ∧ dir .x = some new ∧ ∀ n, n ≠ .x → n ≠ .s → dir n = st.dir n := by
    cases create with
    | true =>
      exact ⟨_, rfl, Store.write_of_ne hsx, Store.write_self, fun n hn _ => Store.write_of_ne hn⟩
    | false =>
      obtain ⟨hrs, hne⟩ := hs.resolve_left (by decide)
      have hr : (st.dir.write .x new).remove f.removeS .s = some (Function.update (st.dir.write .x new) .s none) :=
        Store.remove_eq_some.mpr ⟨hrs, by rwa [Store.write_of_ne hsx], rfl⟩
      refine ⟨_, hr, Store.remove_self hr, ?_, fun n hx hns => ?_⟩
      · rw [Store.remove_of_ne hr hsx.symm, Store.write_self]
      · rw [Store.remove_of_ne hr hns, Store.write_of_ne hx]
  have he : endUpdate f patch create text st =
      match dir.rename f.rename .x .s with
      | none => (false, { st with dir := dir })
      | some dir => (true, ⟨dir, false⟩) := by
    simp only [endUpdate, if_pos hc, hp, hr]
  rw [he]
  cases hf : f.rename with
  | true =>
    have hn : dir.rename true .x .s = none := (Store.rename_eq_none (by rw [hdx]; simp)).mpr rfl
    rw [hn]
    exact ⟨hdn, rfl, rfl, hds, hdx⟩
  | false =>
    obtain ⟨dir', hn⟩ : ∃ dir', dir.rename false .x .s = some dir' :=
      ⟨_, Store.rename_eq_some.mpr ⟨rfl, by rw [hdx]; simp, rfl⟩⟩
    rw [hn]
    refine ⟨fun n hx hns => ?_, rfl, rfl, ?_⟩
    · exact (Store.rename_of_ne hn hx hns).trans (hdn n hx hns)
    · exact (Store.rename_target hn hsx).trans hdx

/-! ### A whole update -/

/-- The update reaches the point where the old history file is gone. -/
def Replaces (f : RewriteFails) (counts : List UInt8 → List UInt8) (patch : Patch) (create : Bool)
    (text new : List UInt8) (dir : Directory) : Prop :=
  StartOk f.start create dir ∧ f.write = none ∧ f.early = false ∧ f.finish.complete = true ∧
    patch (counts text) = some new ∧ (create = true ∨ (f.finish.removeS = false ∧ dir .s ≠ none))

section

variable {f : RewriteFails} {counts : List UInt8 → List UInt8} {patch : Patch} {create : Bool} {text : List UInt8}
  {st : Disk}

/-- An update that does not get there leaves everything but the x-file and its backup alone. -/
theorem rewriteHistory_of_not_replaces (h : ¬ ∃ new, Replaces f counts patch create text new st.dir) :
    (rewriteHistory f counts patch create text st).1 = false ∧
      ∀ n, n ≠ .x → n ≠ .xbak → (rewriteHistory f counts patch create text st).2.dir n = st.dir n := by
  have hframe : ∀ n, n ≠ .x → n ≠ .xbak → (startUpdate f.start create st).2.dir n = st.dir n :=
    fun n hx hb => startUpdate_frame hx hb
  have hok := startUpdate_iff f.start create st
  unfold rewriteHistory
  rcases hs : startUpdate f.start create st with ⟨ok, st'⟩
  rw [hs] at hframe hok
  cases ok with
  | false => exact ⟨rfl, hframe⟩
  | true =>
    rcases hw : f.write with _ | garbage
    · show (endUpdateDelta f.early f.finish counts patch create text st').1 = false ∧ _
      unfold endUpdateDelta
      cases he : f.early with
      | true => exact ⟨rfl, fun n hx hb => (Store.write_of_ne hx).trans (hframe n hx hb)⟩
      | false =>
        have hn : ¬ ∃ new, Reaches f.finish patch create (counts text) new st'.dir := by
          rintro ⟨new, hc, hp, hr⟩
          rw [hframe .s (by decide) (by decide)] at hr
          exact h ⟨new, hok.mp rfl, hw, he, hc, hp, hr⟩
        obtain ⟨h1, -, h3⟩ := endUpdate_of_not_reaches hn
        exact ⟨h1, fun n hx hb => (h3 n hx).trans (hframe n hx hb)⟩
    · exact ⟨rfl, fun n hx hb => (Store.write_of_ne hx).trans (hframe n hx hb)⟩

theorem startUpdate_created :
    (startUpdate f.start create st).1 = true → (startUpdate f.start create st).2.xfileCreated = true := by
  rw [startUpdate]
  split
  · exact fun h => by cases h
  · dsimp only
    generalize st.dir.moveAway f.start.rename .x .xbak = dir₁
    rcases (if dir₁ .x = none then some dir₁ else dir₁.remove f.start.unlink .x) with _ | dir₂
    · exact fun h => by cases h
    · dsimp only
      split_ifs
      · exact fun h => by cases h
      · exact fun h => by cases h
      · exact fun _ => rfl

/-- **An update that gets there leaves the new history**, under its name or, if the x-file cannot be renamed, in the
x-file only. -/
theorem rewriteHistory_of_replaces {new : List UInt8} (h : Replaces f counts patch create text new st.dir) :
    (∀ n, n ≠ .x → n ≠ .xbak → n ≠ .s → (rewriteHistory f counts patch create text st).2.dir n = st.dir n) ∧
    if f.finish.rename then
      (rewriteHistory f counts patch create text st).1 = false ∧
        (rewriteHistory f counts patch create text st).2.xfileCreated = true ∧
        (rewriteHistory f counts patch create text st).2.dir .s = (if create then st.dir .s else none) ∧
        (rewriteHistory f counts patch create text st).2.dir .x = some new
    else
      (rewriteHistory f counts patch create text st).1 = true ∧
        (rewriteHistory f counts patch create text st).2.xfileCreated = false ∧
        (rewriteHistory f counts patch create text st).2.dir .s = some new := by
  obtain ⟨hstart, hw, he, hc, hp, hs⟩ := h
  have hframe : ∀ n, n ≠ .x → n ≠ .xbak → (startUpdate f.start create st).2.dir n = st.dir n :=
    fun n hx hb => startUpdate_frame hx hb
  have hok := (startUpdate_iff f.start create st).mpr hstart
  have hcr := startUpdate_created hok
  have hds := hframe .s (by decide) (by decide)
  have heq : rewriteHistory f counts patch create text st =
      endUpdate f.finish patch create (counts text) (startUpdate f.start create st).2 := by
    unfold rewriteHistory endUpdateDelta
    rcases hst : startUpdate f.start create st with ⟨ok, st'⟩
    rw [hst] at hok
    obtain rfl : ok = true := hok
    rw [hw, he]
    rfl
  rw [← hds] at hs
  obtain ⟨h1, h2⟩ := endUpdate_of_reaches ⟨hc, hp, hs⟩
  rw [heq]
  refine ⟨fun n hx hb hns => (h1 n hx hns).trans (hframe n hx hb), ?_⟩
  rw [hcr, hds] at h2
  exact h2

end

end CSSC.Files
