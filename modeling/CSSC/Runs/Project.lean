import CSSC.Runs.Archive

/-!
# A history file under any run of commands

Users get versions for editing, give them up, check in what they made of them, and remove deltas. Through all that the
history file is an archive. The commands are `Careful` if what is checked in can be gotten again.

Each command does to the archive what it should (`Meaning`): **the history file refines the archive**
(`archive_of_step`). So no version ever changes, nor do the authors of its lines (`retrieve_of_leads`), and each
author is found in the delta table (`authors_of_reach`); what was checked in is gotten again, byte for byte, after any
number of commands that do not remove it (`checkOut_of_leads`); and `rmdel` undoes a check-in (`undo_of_reach`).
-/

namespace CSSC.Runs

open CSSC.Lines CSSC.Lines.Encoding CSSC.Body CSSC.Table CSSC.Header CSSC.Files CSSC.Library CSSC.Library.Weave
  CSSC.Library.Run DeltaTable

/-! ### Runs -/

/-- The check-in that `delta` carries out for a lock. -/
def lockedCheckin (s : Project) (e : Files.EditLock) (c : Checkin) : Checkin :=
  { c with lock := entryOf e, nullFlag := s.flags.nullDeltas }

/-- What is checked in can be gotten again. -/
def SessionCommand.Faithful (s : Project) : SessionCommand → Prop
  | .delta user rid c => ∀ i e, findSid s.locks user rid = .found i → s.locks[i]? = some e →
      (lockedCheckin s e c).Faithful s.history
  | _ => True

/-- No automatic delta takes a SID that is in use, and what is checked in can be gotten again. -/
def Careful (s : Project) (c : SessionCommand) : Prop := c.Fine s ∧ c.Faithful s

/-- The machine of the commands, from the creation of the history file on. -/
def projectMachine (diff : List UInt8 → List UInt8 → List UInt8) : Machine Project SessionCommand where
  init s := (∃ c : Creation, c.Fine ∧ create c = .ok s.history) ∧ s.locks = []
  step := SessionStep diff

/-- The SIDs are distinct, and the history file is one that the program makes. -/
def Whole (s : Project) : Prop := Distinct s ∧ ∃ items, Kept s.history items

/-- What a command means for the archive. -/
inductive Meaning (s : Project) : SessionCommand → Project → Archive.Command Sid ℕ Line → Prop where
  /-- The history file is not touched. -/
  | look {c : SessionCommand} {s' : Project} : s'.history = s.history → Meaning s c s' .look
  /-- The version that the lock names is edited into the file. Before, it is copied to the first SIDs of the releases
  that are passed over. -/
  | checkIn {user : List UInt8} {rid : Sid} {c : Checkin} {s' : Project} {i n : ℕ} {e : Files.EditLock}
      {copies : List Sid} {base : Visible} {G : List Line} :
      findSid s.locks user rid = .found i → s.locks[i]? = some e →
      retrieve s.history c.getBuf e.got e.included e.excluded = .ok base →
      fileLines (fileToStore s.history c) = G.map Line.bytes →
      (∀ w ∈ copies, NullSid s.flags.nullDeltas e.got e.delta w) →
      Meaning s (.delta user rid c) s' (.checkIn e.got copies e.delta n base G)
  /-- A version is removed. -/
  | remove {id : Sid} {buf : Linebuf} {s' : Project} : Meaning s (.rmdel id buf) s' (.remove id)

section

variable {diff : List UInt8 → List UInt8 → List UInt8} {s s' : Project} {c : SessionCommand}

theorem whole_init (h : (projectMachine diff).init s) : Whole s := by
  obtain ⟨⟨c, hf, hc⟩, hlocks⟩ := h
  obtain ⟨gs, -, heq⟩ := create_eq_ok hc hf
  refine ⟨⟨?_, by simp [hlocks], by simp [hlocks]⟩, kept_create hc hf⟩
  rw [heq]
  simp [currentSids, current, firstDelta, Delta.removed]

/-- **What each command does.** -/
theorem whole_step (hdiff : NormalDiff diff) (hs : Whole s) (hf : Careful s c) (hstep : SessionStep diff s c s') :
    Whole s' ∧ s'.history.encoded = s.history.encoded ∧
      ∃ a, Meaning s c s' a ∧ Archive.Step (archiveOf s.history) a (archiveOf s'.history) := by
  obtain ⟨hd, items, hk⟩ := hs
  cases hstep with
  | refused => exact ⟨⟨hd, items, hk⟩, rfl, _, .look rfl, .look⟩
  | get hsel =>
    refine ⟨⟨hd.get ?_, items, hk⟩, rfl, _, .look rfl, .look⟩
    unfold selectForEdit at hsel
    split at hsel
    · cases hsel
    · split at hsel
      · exact findNextSid_given (Prod.mk.inj (Option.some.inj hsel)).2
      · cases hsel
  | unget _ => exact ⟨⟨hd.unget _, items, hk⟩, rfl, _, .look rfl, .look⟩
  | @delta user rid c i e h hfound he hrun =>
    have hfaith : (lockedCheckin s e c).Faithful s.history := hf.2 i e hfound he
    obtain ⟨P, ns, N, items', as, G, hw⟩ := hk.woven hdiff hfaith hrun
    have hk' := hw.kept hk (by
      have := hw.seq
      have := hfaith.room
      rw [← find_id hw.got] at this
      omega)
    -- the SIDs stay distinct
    obtain ⟨ids, htable, hnd, hnull⟩ := addDelta_table hrun
    have hdist : Distinct { s with history := h, locks := s.locks.eraseIdx i } := by
      refine hd.delta he htable hnd (fun id hid heq => ?_) fun id hid => ?_
      · obtain ⟨-, r, -, hlt, rfl⟩ := hnull id hid
        have hrel : r = _ := congrArg Sid.rel heq
        exact Int16.lt_irrefl (hrel ▸ hlt)
      · obtain ⟨hflag, r, hle, hlt, rfl⟩ := hnull id hid
        exact hf.1 hflag _ _ hfound he r hle hlt
    have hbase := fun buf => hk.retrieve hw.got e.included e.excluded buf
    obtain rfl : ids = ns.map Delta.id :=
      List.append_cancel_right (List.cons.inj (htable.symm.trans hw.currentSids)).2
    refine ⟨⟨hdist, items', hk'⟩, hw.encoded, .checkIn e.got (ns.map Delta.id) e.delta N.seq _ G,
      .checkIn hfound he (hk.retrieve hw.got e.included e.excluded c.getBuf) hw.file hnull, ?_⟩
    have hsids := hdist.current
    rw [show h.table.currentSids = _ from htable, ← List.cons_append, List.nodup_append] at hsids
    rw [hw.archive hk hk']
    refine .checkIn as ((hk.archiveOf_isSome_iff _).mpr ?_) (fun w hw' => ?_) (fun w r hr p hp heq => ?_)
      (hw.splice.before).symm hw.new
    · exact List.mem_map.mpr ⟨P, mem_of_find hw.got, find_id hw.got⟩
    · rw [← Option.not_isSome_iff_eq_none, hk.archiveOf_isSome_iff]
      exact fun hold => hsids.2.2 w hw' w hold rfl
    · obtain ⟨d, hd, hds⟩ := hk.authors hr hp
      have := le_highestSeqno (mem_current.mp hd).1
      have := hw.seq
      omega
  | rmdel _ hrun =>
    cases hrun with
    | rmdel hrm hlen hsub =>
      obtain ⟨items', hk', harch, hmem⟩ := hk.rmdel hd.current hrm hlen hsub
      refine ⟨⟨hd.rmdel ?_, items', hk'⟩, rfl, _, .remove, ?_⟩
      · obtain ⟨d, -, -, -, -, rfl, -⟩ := rmdel_eq_ok hrm
        exact currentSids_markRemoved _ _
      · rw [harch]
        exact .remove ((hk.archiveOf_isSome_iff _).mpr hmem)

/-- Every state that is reached is whole. -/
theorem whole_of_reach (hdiff : NormalDiff diff) (hr : Reach (projectMachine diff) Careful s) : Whole s :=
  hr.invariant (fun _ => whole_init) fun _ _ _ hs hf hstep => (whole_step hdiff hs hf hstep).1

/-- **Each command does to the archive what it should**, in every state that is reached: the versions of the archive are
the current deltas, and a step of the program is a step of the archive. -/
theorem archive_of_step (hdiff : NormalDiff diff) (hr : Reach (projectMachine diff) Careful s) (hf : Careful s c)
    (hstep : SessionStep diff s c s') : (∀ id, (archiveOf s.history id).isSome ↔ id ∈ s.history.table.currentSids) ∧
      ∃ a, Meaning s c s' a ∧ Archive.Step (archiveOf s.history) a (archiveOf s'.history) := by
  have hs := whole_of_reach hdiff hr
  obtain ⟨-, -, hmeaning⟩ := whole_step hdiff hs hf hstep
  obtain ⟨-, items, hk⟩ := hs
  exact ⟨hk.archiveOf_isSome_iff, hmeaning⟩

/-- A run that does not remove a version. -/
def Sparing (id : Sid) (s : Project) (c : SessionCommand) : Prop := Careful s c ∧ ∀ buf, c ≠ .rmdel id buf

/-- The version is still in the archive after a run that does not remove it. -/
theorem kept_of_run (hdiff : NormalDiff diff) (hs : Whole s) {id : Sid}
    (hl : Leads (projectMachine diff) (Sparing id) s s') : Whole s' ∧ s'.history.encoded = s.history.encoded ∧
      ∀ r, archiveOf s.history id = some r → archiveOf s'.history id = some r := by
  have hsim : ∃ b, Leads (Archive.archiveMachine Sid ℕ Line) (fun _ a => a ≠ .remove id) (archiveOf s.history) b ∧
      Whole s' ∧ s'.history.encoded = s.history.encoded ∧ b = archiveOf s'.history := by
    refine hl.simulate (R := fun t a => Whole t ∧ t.history.encoded = s.history.encoded ∧ a = archiveOf t.history) ?_
      ⟨hs, rfl, rfl⟩
    rintro t c t' a ⟨ht, henc, rfl⟩ ⟨hf, hspare⟩ hstep
    obtain ⟨ht', henc', b, hm, hb⟩ := whole_step hdiff ht hf hstep
    refine ⟨b, _, ?_, hb, ht', henc'.trans henc, rfl⟩
    cases hm with
    | look _ => simp
    | checkIn _ _ _ _ _ => simp
    | remove => exact fun e => hspare _ (by rw [Archive.Command.remove.inj e])
  obtain ⟨b, hb, hw, henc, rfl⟩ := hsim
  exact ⟨hw, henc, fun r hr => Archive.kept_of_leads hb hr⟩

/-- **No version ever changes**: a delta that is current shows the same lines, by the same authors, after any number of
commands that do not remove it. -/
theorem retrieve_of_leads (hdiff : NormalDiff diff) (hr : Reach (projectMachine diff) Careful s) {id : Sid}
    (hid : id ∈ s.history.table.currentSids) (hl : Leads (projectMachine diff) (Sparing id) s s') (buf buf' : Linebuf) :
    ∃ vis, retrieve s.history buf id [] [] = .ok vis ∧ retrieve s'.history buf' id [] [] = .ok vis := by
  have hs := whole_of_reach hdiff hr
  obtain ⟨⟨-, items', hk'⟩, -, hkeep⟩ := kept_of_run hdiff hs hl
  obtain ⟨-, items, hk⟩ := hs
  obtain ⟨vis, hvis⟩ := Option.isSome_iff_exists.mp ((hk.archiveOf_isSome_iff id).mpr hid)
  exact ⟨vis, hk.retrieve_of_archive hvis buf, hk'.retrieve_of_archive (hkeep vis hvis) buf'⟩

/-- **Each line that is gotten is attributed to a current delta**, in every state that is reached; so the SID that
`get -m` prints before it is found. -/
theorem authors_of_reach (hdiff : NormalDiff diff) (hr : Reach (projectMachine diff) Careful s) {id : Sid}
    {buf : Linebuf} {vis : Visible} (hget : retrieve s.history buf id [] [] = .ok vis) {p : ℕ × Line} (hp : p ∈ vis) :
    ∃ d ∈ s.history.table.current, s.history.table.deltaAtSeq p.1 = .ok d := by
  obtain ⟨-, items, hk⟩ := whole_of_reach hdiff hr
  have harch : archiveOf s.history id = some vis := by
    rcases hd : s.history.table.find id with _ | d
    · unfold retrieve at hget
      rw [dif_pos hk.room, hd] at hget
      cases hget
    · rw [hk.retrieve hd] at hget
      rw [hk.archiveOf_eq, hd, Option.map_some, ← Except.ok.inj hget, selected_nil]
  obtain ⟨d, hd, hds⟩ := hk.authors harch hp
  obtain ⟨hm, -⟩ := mem_current.mp hd
  refine ⟨d, hd, ?_⟩
  rw [← hds]
  exact (deltaAtSeq_of_at? (hk.tidy.at? hm) (hk.tidy.earlier.pos hm)).1

/-- **A check-in can be undone**, in every state that is reached: `rmdel` of the new delta succeeds, the body is what it
was before, and so are the current deltas, but for the automatic ones. -/
theorem undo_of_reach (hdiff : NormalDiff diff) (hr : Reach (projectMachine diff) Careful s) {user : List UInt8}
    {rid : Sid} {c : Checkin} {i : ℕ} {e : Files.EditLock} {h : History} (hfound : findSid s.locks user rid = .found i)
    (he : s.locks[i]? = some e) (hf : Careful s (.delta user rid c))
    (hrun : addDelta diff s.history (lockedCheckin s e c) = .ok h) (errno : ℕ) (buf : Linebuf) :
    ∃ T lines ids, rmdel errno h.table (readBody buf h.body) e.delta = .ok (T, lines) ∧
      storedLines lines = s.history.body ∧ T.currentSids = ids ++ s.history.table.currentSids ∧
      ∀ id ∈ ids, NullSid s.flags.nullDeltas e.got e.delta id := by
  obtain ⟨-, items, hk⟩ := whole_of_reach hdiff hr
  obtain ⟨P, ns, N, items', as, G, hw⟩ := hk.woven hdiff (hf.2 i e hfound he) hrun
  obtain ⟨T, lines, hrm, hbody, hsids⟩ := hw.undo hk errno buf
  obtain ⟨ids, htable, -, hnull⟩ := addDelta_table hrun
  obtain rfl : ids = ns.map Delta.id :=
    List.append_cancel_right (List.cons.inj (htable.symm.trans hw.currentSids)).2
  exact ⟨T, lines, ns.map Delta.id, hrm, hbody, hsids, hnull⟩

/-! ### Byte for byte -/

/-- A text, with a newline after its last line. -/
def endText (f : List UInt8) : List UInt8 := if f.getLast?.all (· = 10) then f else f ++ [10]

theorem endText_cons {c d : UInt8} (f : List UInt8) : endText (c :: d :: f) = c :: endText (d :: f) := by
  unfold endText
  rw [List.getLast?_cons_cons]
  split <;> rfl

/-- The lines of a text are the text, with a newline after its last line. -/
theorem storedLines_of_fileLines {f : List UInt8} {G : List Line} (h : fileLines f = G.map Line.bytes) :
    storedLines G = endText f := by
  induction f generalizing G with
  | nil =>
    obtain rfl : G = [] := by simpa [fileLines] using h.symm
    rfl
  | cons c f ih =>
    have hne : ∀ G : List Line, fileLines f = G.map Line.bytes → ∀ d : UInt8, f ≠ [] →
        endText (d :: f) = d :: storedLines G := by
      intro G hG d hf
      obtain ⟨e, f', rfl⟩ := List.exists_cons_of_ne_nil hf
      rw [endText_cons, ih hG]
    rw [fileLines] at h
    split at h
    · rename_i hc
      subst hc
      obtain ⟨g, G', rfl, hg, hG'⟩ := List.map_eq_cons_iff.mp h.symm
      rw [storedLines_cons, Line.stored, hg, List.nil_append, List.singleton_append]
      by_cases hf : f = []
      · subst hf
        obtain rfl : G' = [] := by simpa [fileLines] using hG'
        rfl
      · exact (hne G' hG'.symm 10 hf).symm
    · rename_i hc
      split at h
      · rename_i hnil
        obtain ⟨g, G', rfl, hg, hG'⟩ := List.map_eq_cons_iff.mp h.symm
        obtain rfl : G' = [] := by simpa using hG'
        obtain rfl : f = [] := by
          cases f with
          | nil => rfl
          | cons d f =>
            rw [fileLines] at hnil
            split at hnil
            · cases hnil
            · split at hnil <;> cases hnil
        simp [endText, Line.stored, hg, hc]
      · rename_i l ls hcons
        obtain ⟨g, G', rfl, hg, hG'⟩ := List.map_eq_cons_iff.mp h.symm
        have hmem := fileLines_mem (f := f) (l := l) (by rw [hcons]; exact List.mem_cons_self)
        have hf : f ≠ [] := by
          rintro rfl
          cases hcons
        have h0 : (0 : UInt8) ∉ l := fun h0 => g.no_nul (by rw [hg]; exact List.mem_cons_of_mem c h0)
        rw [hne (⟨l, h0, hmem.1⟩ :: G') (by rw [hcons, List.map_cons, hG']) c hf]
        simp [Line.stored, hg]

/-- What `get` is to write for a file that was checked in: the file, when it is stored encoded, and otherwise the file
with a newline after its last line. -/
def storedForm (encoded : Bool) (f : List UInt8) : List UInt8 := if encoded then f else endText f

theorem outputBody_file {h : History} {c : Checkin} {G : List Line}
    (hG : fileLines (fileToStore h c) = G.map Line.bytes) :
    outputBody h.encoded G = .ok (storedForm h.encoded c.gfile) := by
  unfold fileToStore at hG
  unfold storedForm
  cases he : h.encoded with
  | false =>
    rw [he] at hG
    rw [outputBody_text, storedLines_of_fileLines hG]
    rfl
  | true =>
    rw [he, if_pos rfl, encodeStream_eq, fileLines_storedLines] at hG
    obtain rfl := List.map_injective_iff.mpr bytes_injective hG
    rw [outputBody_encodedLines, if_pos rfl]

/-- **What was checked in is gotten again, byte for byte**, after any number of commands that do not remove it. -/
theorem checkOut_of_leads (hdiff : NormalDiff diff) (hr : Reach (projectMachine diff) Careful s) {user : List UInt8}
    {rid : Sid} {c : Checkin} {i : ℕ} {e : Files.EditLock} {h : History} (hfound : findSid s.locks user rid = .found i)
    (he : s.locks[i]? = some e) (hf : Careful s (.delta user rid c))
    (hrun : addDelta diff s.history (lockedCheckin s e c) = .ok h)
    (hl : Leads (projectMachine diff) (Sparing e.delta) { s with history := h, locks := s.locks.eraseIdx i } s')
    (buf : Linebuf) : checkOut s'.history buf e.delta [] [] = .ok (storedForm s.history.encoded c.gfile) := by
  have hs := whole_of_reach hdiff hr
  obtain ⟨hs₁, henc, -⟩ := whole_step hdiff hs hf (.delta hfound he hrun)
  obtain ⟨⟨-, items', hk'⟩, henc', hkeep⟩ := kept_of_run hdiff hs₁ hl
  obtain ⟨-, items, hk⟩ := hs
  obtain ⟨P, ns, N, items₁, as, G, hw⟩ := hk.woven hdiff (hf.2 i e hfound he) hrun
  obtain ⟨-, items₂, hk₁⟩ := hs₁
  have hk₁' : Kept h items₁ := by
    rwa [hk₁.toSane.unique hw.sane] at hk₁
  -- what the archive holds right after the check-in, it still holds
  have harch : archiveOf h e.delta = some (Act.blame N.seq as
      (select (selected s.history.table P e.included e.excluded) shut items)) := by
    rw [hw.archive hk hk₁']
    exact Archive.record_self
  have hrecords : (Act.blame N.seq as
      (select (selected s.history.table P e.included e.excluded) shut items)).map Prod.snd = G :=
    (Act.blame_records (n := N.seq) (hw.splice.before).symm).trans hw.new
  have hget := hk'.retrieve_of_archive (hkeep _ harch) buf
  unfold checkOut
  rw [hget, ok_bind, hrecords, henc'.trans henc]
  exact outputBody_file hw.file

end

/-! ### A small project -/

/-- A history file with the line `a`; nothing is being edited. -/
def sampleProject : Project := ⟨sampleHistory, Flags.initial, []⟩

/-- The lock of `get -e`. -/
def sampleLock : Files.EditLock := ⟨⟨1, 1, 0, 0⟩, ⟨1, 2, 0, 0⟩, [97], ⟨0, 0, 0, 0, 0, 0⟩, [], []⟩

/-- The line `a` is edited into `b`, without a newline. -/
def sampleEdit : Checkin := sampleCheckin [98]

/-- The history file is created and 1.1 is gotten for editing. -/
theorem sampleProject_reach :
    Reach (projectMachine wholeDiff) Careful { sampleProject with locks := [sampleLock] } := by
  refine .step (.start ⟨⟨sampleCreation, ?_, sampleCreation_run⟩, rfl⟩)
    (c := .get [97] true .none false false ⟨0, 0, 0, 0, 0, 0⟩ [] []) ⟨trivial, trivial⟩
    (.get (s := sampleProject) (by decide))
  intro F hF
  obtain rfl := Option.some.inj hF
  exact .inr (.inr (by decide))

theorem sampleEdit_careful :
    Careful { sampleProject with locks := [sampleLock] } (.delta [97] .none sampleEdit) := by
  obtain ⟨-, items, hk⟩ := whole_of_reach wholeDiff_normal sampleProject_reach
  refine ⟨fun h => absurd h (by decide), fun i e hfound he => ?_⟩
  obtain rfl : i = 0 := FindStatus.found.inj (hfound.symm.trans (by decide : _ = FindStatus.found 0))
  obtain rfl := Option.some.inj he
  exact hk.faithful (.inr (by decide)) (by decide) rfl rfl

/-- The history file after the check-in. -/
theorem sampleEdit_run : ∃ h, addDelta wholeDiff sampleHistory
    (lockedCheckin { sampleProject with locks := [sampleLock] } sampleLock sampleEdit) = .ok h ∧
      h.table.currentSids = [⟨1, 2, 0, 0⟩, ⟨1, 1, 0, 0⟩] := ⟨_, rfl, by decide⟩

/-- The check-in is a step of the archive. -/
theorem archive_of_step_sample : ∃ h, ∃ a,
    Meaning { sampleProject with locks := [sampleLock] } (.delta [97] .none sampleEdit) ⟨h, Flags.initial, []⟩ a ∧
      Archive.Step (archiveOf sampleHistory) a (archiveOf h) := by
  obtain ⟨h, hrun, -⟩ := sampleEdit_run
  exact ⟨h, (archive_of_step wholeDiff_normal sampleProject_reach sampleEdit_careful
    (.delta (i := 0) (by decide) rfl hrun)).2⟩

/-- 1.1 stays what it is. -/
theorem retrieve_of_leads_sample : ∃ h, ∃ vis, retrieve sampleHistory .initial ⟨1, 1, 0, 0⟩ [] [] = .ok vis ∧
    retrieve h .initial ⟨1, 1, 0, 0⟩ [] [] = .ok vis := by
  obtain ⟨h, hrun, -⟩ := sampleEdit_run
  have hl : Leads (projectMachine wholeDiff) (Sparing ⟨1, 1, 0, 0⟩) { sampleProject with locks := [sampleLock] }
      ⟨h, Flags.initial, []⟩ :=
    .step .refl ⟨sampleEdit_careful, by simp⟩ (.delta (i := 0) (by decide) rfl hrun)
  refine ⟨h, ?_⟩
  apply retrieve_of_leads wholeDiff_normal sampleProject_reach _ hl
  decide

/-- The lines of 1.1 are attributed to current deltas. -/
theorem authors_of_reach_sample : ∃ d ∈ sampleHistory.table.current, sampleHistory.table.deltaAtSeq 1 = .ok d := by
  have hget : retrieve sampleHistory .initial ⟨1, 1, 0, 0⟩ [] [] = .ok [(1, lineA)] := rfl
  exact authors_of_reach wholeDiff_normal sampleProject_reach hget List.mem_cons_self

/-- 1.2 is removed again. -/
theorem undo_of_reach_sample : ∃ h : History, ∃ T lines ids,
    rmdel 0 h.table (readBody .initial h.body) ⟨1, 2, 0, 0⟩ = .ok (T, lines) ∧
      storedLines lines = sampleHistory.body ∧ T.currentSids = ids ++ sampleHistory.table.currentSids ∧
      ∀ id ∈ ids, NullSid false ⟨1, 1, 0, 0⟩ ⟨1, 2, 0, 0⟩ id := by
  obtain ⟨h, hrun, -⟩ := sampleEdit_run
  exact ⟨h, undo_of_reach (e := sampleLock) (i := 0) wholeDiff_normal sampleProject_reach (by decide) rfl
    sampleEdit_careful hrun 0 .initial⟩

/-- `b` is gotten again, with a newline, after 1.2 was gotten for editing. -/
theorem checkOut_of_leads_sample : ∃ h, checkOut h .initial ⟨1, 2, 0, 0⟩ [] [] = .ok [98, 10] := by
  obtain ⟨h, hrun, -⟩ := sampleEdit_run
  have hl : Leads (projectMachine wholeDiff) (Sparing ⟨1, 2, 0, 0⟩) ⟨h, Flags.initial, []⟩
      ⟨h, Flags.initial, []⟩ :=
    .step .refl (c := .unget [97] .none) ⟨⟨trivial, trivial⟩, by simp⟩ .refused
  have hfound : findSid [sampleLock] [97] .none = .found 0 := by decide
  exact ⟨h, checkOut_of_leads (e := sampleLock) wholeDiff_normal sampleProject_reach hfound rfl sampleEdit_careful hrun
    hl .initial⟩

end CSSC.Runs
