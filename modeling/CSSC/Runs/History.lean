import CSSC.Library.Run
import CSSC.Runs.Origin
import CSSC.Table.AddDelta
import CSSC.Table.Rmdel

/-!
# The body over whole runs

A history file is created by `admin`, gets deltas by `delta`, and loses them by `rmdel`.

## The model

A `History` is the table, the encoded flag and the body of the file, and where the lines of the body come from. The
program `diff` is a parameter of the three commands; so are the sizes of the line buffers and the value of the
variable `c`. Failing file operations are left out, and so is everything that only concerns other parts of the file.

A history is `WellFormed` if the body is read as lines, `start` and `end` of `seq_state` succeed on every bracket,
every bracket is closed, and the control lines are those of the program. A command is `Fine` if what is checked in can
be read back, and the numbers suffice. Each fine command keeps the invariant (`sane_create`, `Sane.addDelta`,
`Sane.rmdel`), and so **in every run of fine commands the body is well formed in every state**
(`wellFormed_of_reach`). A line that starts with `^A` breaks it (`not_wellFormed`).
-/

namespace CSSC.Runs

open CSSC.Lines CSSC.Body CSSC.Table CSSC.Library.Weave CSSC.Library.Run DeltaTable

/-! ### The commands -/

/-- A history file. -/
structure History where
  /-- The delta table. -/
  table : DeltaTable
  /-- `flags.encoded`. -/
  encoded : Bool
  /-- The bytes of the body. -/
  body : List UInt8
  /-- Where the lines of the body come from. -/
  origins : List Origin
  deriving DecidableEq

/-- What `admin -i` or `admin -n` is given. -/
structure Creation where
  /-- The SID of the first delta. -/
  id : Sid
  /-- `binary_file_creation_allowed()`. -/
  allowed : Bool
  /-- `max_sfile_line_len()`. -/
  lenMax : ℕ
  /-- The option `-b`. -/
  binary : Bool
  /-- The contents of the file, if there is one. -/
  input : Option (List UInt8)

/-- The first delta of a history file. -/
def firstDelta (id : Sid) : Delta := ⟨.D, id, 1, 0, [], [], []⟩

/-- `sccs_file::create`. -/
def create (c : Creation) : Except Quit History :=
  match c.input with
  | none => .ok ⟨[firstDelta c.id], c.binary, storedLines (firstBody []), [.program, .program]⟩
  | some F => do
    let r ← createBody c.allowed c.lenMax c.binary F []
    return ⟨[firstDelta c.id], r.binary, r.out.contents, .program :: List.replicate r.lines .user ++ [.program]⟩

/-- What `delta` is given. -/
structure Checkin where
  /-- The entry of the p-file. -/
  lock : EditLock
  /-- `flags.null_deltas`. -/
  nullFlag : Bool
  /-- The contents of the g-file. -/
  gfile : List UInt8
  /-- `max_sfile_line_len()`. -/
  lenMax : ℕ
  /-- The variable `c` of `sccs_file_body_scanner::delta` at the end of the old body. -/
  c0 : UInt8
  /-- The line buffer that the body is read with, by `get`. -/
  getBuf : Linebuf
  /-- The line buffer that the body is read with, by `delta`. -/
  bodyBuf : Linebuf
  /-- The line buffer that the output of diff is read with. -/
  diffBuf : Linebuf

theorem seq_mod_le (n : ℕ) : n % 65536 ≤ 65535 := Nat.le_of_lt_succ (Nat.mod_lt n (by decide))

/-- `sccs_file::add_delta`: the file that is compared is encoded if the history file is. -/
def addDelta (diff : List UInt8 → List UInt8 → List UInt8) (h : History) (c : Checkin) : Except Quit History :=
  match h.table.find c.lock.got with
  | none => .error (.failure "Locked delta doesn't exist!")
  | some gotDelta =>
    if hlt : h.table.highestSeqno < 65535 then do
      let ss ← prepareSeqstate h.table (SeqState.new h.table.highestSeqno hlt) gotDelta.seq c.lock.incl c.lock.excl
      let got ← get h.table.highestSeqno ss (readBody c.getBuf h.body)
      let added ← addedDeltas c.nullFlag h.table ss c.lock gotDelta
      let file := if h.encoded then encodeStream c.gfile else c.gfile
      let script := diff (storedLines (got.1.map Prod.snd)) file
      let r ← delta ⟨added.1.highestSeqno, added.2.seq % 65536, c.lenMax, c.c0, seq_mod_le _⟩ ss
        (deliveries c.diffBuf script) (readBody c.bodyBuf h.body)
      return ⟨added.1.prepend added.2, h.encoded, r.bytes, originsOf h.origins r.out⟩
    -- the constructor of `seq_state` does not return
    else .error .diverges

/-- The commands after the first one. -/
inductive Command where
  /-- `delta`. -/
  | delta (c : Checkin)
  /-- `rmdel`, with the SID and the line buffer that the body is read with. -/
  | rmdel (id : Sid) (buf : Linebuf)

/-- The commands that are carried out. What `rmdel` copies keeps its origin; it may find any error number. -/
inductive Step (diff : List UInt8 → List UInt8 → List UInt8) : History → Command → History → Prop where
  /-- A delta is checked in. -/
  | delta {h h' : History} {c : Checkin} : addDelta diff h c = .ok h' → Step diff h (.delta c) h'
  /-- A delta is removed. -/
  | rmdel {h : History} {id : Sid} {buf : Linebuf} {errno : ℕ} {T : DeltaTable} {lines : List Line}
      {os : List Origin} : rmdel errno h.table (readBody buf h.body) id = .ok (T, lines) → lines.length = os.length →
      (lines.zip os).Sublist ((readBody buf h.body).lines.zip h.origins) →
      Step diff h (.rmdel id buf) ⟨T, h.encoded, storedLines lines, os⟩

/-! ### What should hold -/

/-- A history file is read as these lines, and they are in order. -/
structure ReadsAs (h : History) (lines : List Line) : Prop where
  /-- The lines are what is read, with any line buffer. -/
  reading : ∀ buf, readBody buf h.body = ⟨lines, .ok ()⟩
  /-- `start` and `end` succeed on every bracket, and in the end no region is open. Deltas are numbered from 1. -/
  accepted : ∀ ss : SeqState, ss.Fresh → h.table.highestSeqno ≤ ss.last →
    ∃ vis fin, getLoop h.table.highestSeqno (.ok ()) ss lines = .ok (vis, fin) ∧
      ∀ k, k ≠ 0 → (fin.states k).active = false
  /-- The control lines are those that the program printed. -/
  origins : List.Forall₂ Marks lines h.origins

/-- The body of a history file is well formed. -/
def WellFormed (h : History) : Prop := ∃ lines, ReadsAs h lines

/-- A file is created from nothing, from a file that is stored encoded, or from one without NUL. -/
def Creation.Fine (c : Creation) : Prop :=
  ∀ F, c.input = some F → c.binary = true ∨ ¬ IsText c.lenMax F ∨ (0 : UInt8) ∉ F

/-- What is checked in is encoded or can be read back, and null deltas do not use up the sequence numbers. -/
def Command.Fine (h : History) : Command → Prop
  | .delta c => (h.encoded = true ∨ Storable c.gfile) ∧
      (c.nullFlag = true → h.table.highestSeqno + gap true c.lock.got c.lock.delta < 65535)
  | .rmdel _ _ => True

/-- The machine of the three commands; a run starts with a file that is fine. -/
def historyMachine (diff : List UInt8 → List UInt8 → List UInt8) : Machine History Command where
  init h := ∃ c : Creation, c.Fine ∧ create c = .ok h
  step := Step diff

/-! ### The invariant -/

/-- The body consists of these items. -/
structure Sane (h : History) (items : List (Item ℕ Line)) : Prop where
  /-- The items stand in the lines of the body. -/
  body : h.body = storedLines (items.map Item.raw)
  /-- The lines are read as these items. -/
  genuine : Genuine items
  /-- Regions are opened while closed and closed while open. -/
  legal : Legal shut items
  /-- In the end no region is open. -/
  finish : finish shut items = shut
  /-- The numbers are those of the delta table. -/
  inRange : InRange h.table.highestSeqno items
  /-- The control lines are those that the program printed. -/
  origins : List.Forall₂ Marks (items.map Item.raw) h.origins

theorem Sane.reading {h : History} {items : List (Item ℕ Line)} (hs : Sane h items) (buf : Linebuf) :
    readBody buf h.body = ⟨items.map Item.raw, .ok ()⟩ := by
  rw [hs.body, readBody_storedLines]

/-- **The invariant is enough.** -/
theorem Sane.wellFormed {h : History} {items : List (Item ℕ Line)} (hs : Sane h items) : WellFormed h := by
  refine ⟨items.map Item.raw, hs.reading, ?_, hs.origins⟩
  intro ss hf hlast
  have hin : InRange ss.last items := fun x hx k hk =>
    ⟨(hs.inRange x hx k hk).1, (hs.inRange x hx k hk).2.trans hlast⟩
  obtain ⟨fin, hg, -, ht⟩ := getLoop_of_legal hs.genuine.parses hf.tracks hs.inRange hin hs.legal
  refine ⟨_, fin, hg, fun k hk => ?_⟩
  have hnone : fin.openOf k = none := by
    rw [ht.opens, show (fun _ => none : Open ℕ) = shut from rfl, hs.finish]
    rfl
  exact (SeqState.openOf_none_iff.mp hnone).resolve_left hk

/-! ### Creation -/

theorem marks_firstBody {gs : List Line} (h : ∀ g ∈ gs, g.kind = 0) :
    List.Forall₂ Marks (firstBody gs) (.program :: List.replicate gs.length .user ++ [.program]) := by
  have hmid : List.Forall₂ Marks gs (List.replicate gs.length .user) := by
    induction gs with
    | nil => exact .nil
    | cons g gs ih =>
      refine .cons ?_ (ih fun m hm => h m (List.mem_cons_of_mem g hm))
      simp [Marks, h g List.mem_cons_self]
  refine .cons ?_ (List.rel_append hmid (.cons ?_ .nil))
  · exact iff_of_true (by decide) rfl
  · exact iff_of_true (by decide) rfl

/-- A file with one delta, whose lines are text, is sane. -/
theorem sane_firstBody (id : Sid) (encoded : Bool) {gs : List Line} (h : ∀ g ∈ gs, Plain g.bytes) :
    Sane ⟨[firstDelta id], encoded, storedLines (firstBody gs),
      .program :: List.replicate gs.length .user ++ [.program]⟩ (firstItems gs) where
  body := by rw [firstItems_raw]
  genuine := firstItems_genuine h
  legal := firstItems_legal gs
  finish := firstItems_finish gs
  inRange := firstItems_inRange gs le_rfl
  origins := by
    rw [firstItems_raw]
    exact marks_firstBody fun g hg => (h g hg).kind

theorem count_storedLines (gs : List Line) : (storedLines gs).count 10 = gs.length := by
  induction gs with
  | nil => rfl
  | cons g gs ih =>
    rw [storedLines_cons, List.count_append, ih, Line.stored, List.count_append,
      List.count_eq_zero_of_not_mem g.no_newline]
    simp [Nat.add_comm]

/-- **A file that is created is sane.** -/
theorem sane_create {c : Creation} {h : History} (hc : create c = .ok h) (hf : c.Fine) : ∃ items, Sane h items := by
  unfold create at hc
  split at hc
  · obtain rfl := Except.ok.inj hc
    exact ⟨_, sane_firstBody c.id c.binary (by simp : ∀ g ∈ ([] : List Line), Plain g.bytes)⟩
  · rename_i F hF
    obtain ⟨r, hr, hc⟩ := bind_eq_ok.mp hc
    obtain rfl := Except.ok.inj hc
    rcases createBody_spec hr with ⟨hb, ht, -, hlines, hout⟩ | ⟨-, -, hlines, hout⟩
    · have h0 : (0 : UInt8) ∉ F := by
        rcases hf F hF with h | h | h
        · rw [hb] at h
          cases h
        · exact absurd ht h
        · exact h
      obtain ⟨gs, rfl, hgs⟩ := ht.lines h0
      have hbody : [] ++ ((insLine 1).stored ++ (storedLines gs ++ (endLine 1).stored)) =
          storedLines (firstBody gs) := by
        simp [firstBody, storedLines_append]
      rw [hout, hlines, hbody, count_storedLines]
      exact ⟨_, sane_firstBody c.id r.binary hgs⟩
    · rw [hout, hlines]
      exact ⟨_, sane_firstBody c.id r.binary (encodedLines_plain F)⟩

/-! ### `delta` -/

theorem Fresh.nameDelta {incl excl : SidList} {st : SeqState} (h : st.Fresh) (d : Delta) :
    (nameDelta incl excl st d).Fresh := by
  unfold Table.nameDelta
  split
  · unfold SeqState.setExplicitlyIncluded
    exact h.modify _ _ _
  · split
    · exact h.modify _ _ _
    · exact h

theorem Fresh.prepareSeqstate2 {incl excl : SidList} (ds : List Delta) {st : SeqState} (h : st.Fresh) :
    (ds.foldl (Table.nameDelta incl excl) st).Fresh := by
  induction ds generalizing st with
  | nil => exact h
  | cons d ds ih => exact ih (Fresh.nameDelta h d)

/-- No region is open in the state that a version is prepared with. -/
theorem prepareSeqstate_fresh {T : DeltaTable} {seq : ℕ} {incl excl : SidList} {st st' : SeqState} (h : st.Fresh)
    (hp : prepareSeqstate T st seq incl excl = .ok st') : st'.Fresh := by
  obtain ⟨st₁, h₁, hp⟩ := bind_eq_ok.mp hp
  obtain rfl := Except.ok.inj hp
  exact Fresh.prepareSeqstate2 _ (prepareSeqstate1_fresh h h₁).1

theorem find_id {T : DeltaTable} {id : Sid} {d : Delta} (h : T.find id = some d) : d.id = id := by
  simpa using List.find?_some h

/-- **`delta` keeps the invariant**, when what is checked in can be read back. -/
theorem Sane.addDelta {diff : List UInt8 → List UInt8 → List UInt8} (hdiff : NormalDiff diff) {h h' : History}
    {c : Checkin} {items : List (Item ℕ Line)} (hs : Sane h items) (hf : (Command.delta c).Fine h)
    (hrun : addDelta diff h c = .ok h') : ∃ items', Sane h' items' := by
  obtain ⟨hstore, hnull⟩ := hf
  unfold Runs.addDelta at hrun
  split at hrun
  · cases hrun
  rename_i gotDelta hgot
  split at hrun
  swap
  · cases hrun
  rename_i hlt
  obtain ⟨ss, hprep, hrun⟩ := bind_eq_ok.mp hrun
  obtain ⟨⟨vis, fin⟩, hget, hrun⟩ := bind_eq_ok.mp hrun
  obtain ⟨⟨T', d⟩, hadd, hrun⟩ := bind_eq_ok.mp hrun
  obtain ⟨r, hdelta, hrun⟩ := bind_eq_ok.mp hrun
  obtain rfl := Except.ok.inj hrun
  have hfresh := prepareSeqstate_fresh (SeqState.fresh_new _ hlt) hprep
  -- the new number is above those of the old body
  obtain ⟨ns, -, -, -, -, -, -, hnum⟩ := addedDeltas_spec hadd
  obtain ⟨hnew, hmax, hold⟩ := hnum (by
    rw [find_id hgot]
    cases hn : c.nullFlag with
    | true => exact hnull hn
    | false => exact hlt)
  have hseq : d.seq % 65536 = d.seq := Nat.mod_eq_of_lt (by omega)
  -- diff leads from the lines of the version to those of the file
  obtain ⟨file, hfile, hst⟩ : ∃ file, (if h.encoded then encodeStream c.gfile else c.gfile) = file ∧ Storable file := by
    refine ⟨_, rfl, ?_⟩
    split
    · exact storable_encodeStream _
    · rename_i he
      exact hstore.resolve_left he
  obtain ⟨G, hG⟩ := exists_fileLines hst.1
  obtain ⟨s, hsd, hprint⟩ := hdiff (vis.map Prod.snd) G file hG
  simp only [hfile, hprint, hs.reading] at hdelta hget
  rw [hsd.deliveries] at hdelta
  obtain ⟨-, hin, hst', hL, hw⟩ := written_of_delta hfresh hget hsd.old hdelta hs.genuine.parses
  obtain ⟨as, new, hreads, hsp, hgen, hout⟩ := read_back hw (by simp only; omega) hs.genuine (tame_of_storable hst hG hsd)
  simp only [hseq] at hw hsp
  obtain ⟨hclosed, -⟩ := reads_new hreads (s.newOf_edits.trans hsd.new)
  have hunder : Under d.seq items := by
    intro x hx k hk
    have := (hs.inRange x hx k hk).2
    omega
  refine ⟨new, hout, hgen, hsp.legal hunder.free rfl hclosed.settled hs.legal, ?_, ?_, ?_⟩
  · rw [show shut = mark d.seq false shut from rfl, hsp.finish_eq hunder.free rfl hclosed]
    exact hs.finish
  · intro x hx k hk
    show 1 ≤ k ∧ k ≤ (T'.prepend d).highestSeqno
    rw [highestSeqno_prepend]
    rcases hsp.keys x hx k hk with rfl | ⟨y, hy, hky⟩
    · omega
    · have := hs.inRange y hy k hky
      omega
  · -- what is written is lines, and each has the origin it should have
    have hcopied : List.Forall₂ Marks (r.out.filterMap copied?) h.origins := by
      rw [Written.copies hw]
      exact hs.origins
    obtain ⟨ls, hls, hmarks⟩ := marks_originsOf hcopied
      (fun c k hc => by rcases Written.controls hw hc with rfl | rfl | rfl <;> decide)
      (fun t ht => by
        obtain ⟨ss', hss, hmem⟩ := Written.inserts hw ht
        obtain ⟨g, rfl, hg⟩ := inserts_of_storable hst hG hsd hss hmem
        exact ⟨g, rfl, hg.kind⟩)
    obtain rfl := storedLines_injective (hout.symm.trans hls)
    exact hmarks

/-! ### `rmdel` -/

theorem markRemoved_highestSeqno (id : Sid) (T : DeltaTable) :
    DeltaTable.highestSeqno (markRemoved id T) = T.highestSeqno := by
  induction T with
  | nil => rfl
  | cons d T ih =>
    unfold markRemoved
    split
    · rfl
    · show max d.seq (DeltaTable.highestSeqno (markRemoved id T)) = max d.seq (DeltaTable.highestSeqno T)
      rw [ih]

/-- **`rmdel` keeps the invariant.** -/
theorem Sane.rmdel {h : History} {id : Sid} {buf : Linebuf} {errno : ℕ} {T : DeltaTable} {lines : List Line}
    {os : List Origin} {items : List (Item ℕ Line)} (hs : Sane h items)
    (hrun : rmdel errno h.table (readBody buf h.body) id = .ok (T, lines))
    (hlen : lines.length = os.length)
    (hsub : (lines.zip os).Sublist ((readBody buf h.body).lines.zip h.origins)) :
    ∃ items', Sane ⟨T, h.encoded, storedLines lines, os⟩ items' := by
  rw [hs.reading] at hrun hsub
  unfold Table.rmdel at hrun
  split at hrun
  · cases hrun
  rename_i d hd
  split at hrun
  · cases hrun
  obtain ⟨out, hout, hrun⟩ := bind_eq_ok.mp hrun
  obtain ⟨rfl, rfl⟩ := Prod.mk.inj (Except.ok.inj hrun)
  obtain ⟨kept, hk, rfl⟩ := (removeLoop_eq_ok hs.genuine.parses _ _).mp hout
  have hkeep := strip_sublist hk
  have hupd : Function.update shut d.seq none = shut := Function.update_eq_self d.seq shut
  obtain ⟨hlegal, hfin⟩ := strip_legal (o := shut) (n := d.seq) rfl hs.legal (fun _ => by rw [hs.finish]; rfl) hk
  rw [hupd] at hlegal hfin
  refine ⟨kept, rfl, fun x hx => hs.genuine x (hkeep.subset hx), hlegal, hfin.trans hs.finish, ?_, ?_⟩
  · intro x hx k hkx
    show 1 ≤ k ∧ k ≤ DeltaTable.highestSeqno (markRemoved id h.table)
    rw [markRemoved_highestSeqno]
    exact hs.inRange x (hkeep.subset hx) k hkx
  · exact marks_sublist hs.origins hlen hsub

/-! ### Runs -/

/-- **In every run whose commands are fine the body is well formed in every state.** -/
theorem wellFormed_of_reach {diff : List UInt8 → List UInt8 → List UInt8} (hdiff : NormalDiff diff) {h : History}
    (hr : Reach (historyMachine diff) (fun h c => c.Fine h) h) : WellFormed h := by
  have hinv : ∃ items, Sane h items := by
    refine hr.invariant (P := fun h => ∃ items, Sane h items) ?_ ?_
    · rintro h ⟨c, hc, hrun⟩
      exact sane_create hrun hc
    · rintro h c h' ⟨items, hs⟩ hf hstep
      cases hstep with
      | delta hrun => exact hs.addDelta hdiff hf hrun
      | rmdel hrun hlen hsub => exact hs.rmdel hrun hlen hsub
  obtain ⟨items, hs⟩ := hinv
  exact hs.wellFormed

/-! ### A small run -/

/-- A file with the line `a` is stored. -/
def sampleCreation : Creation := ⟨⟨1, 1, 0, 0⟩, true, 0, false, some [97, 10]⟩

/-- The history file that is created. -/
def sampleHistory : History :=
  ⟨[firstDelta ⟨1, 1, 0, 0⟩], false, storedLines sampleBody, [.program, .user, .program]⟩

/-- The file is checked in again with these contents. -/
def sampleCheckin (gfile : List UInt8) : Checkin :=
  ⟨⟨⟨1, 1, 0, 0⟩, ⟨1, 2, 0, 0⟩, "user", [], []⟩, false, gfile, 0, 255, .initial, .initial, .initial⟩

/-- The history file when `^A x` was checked in. -/
def brokenHistory : History where
  table := [⟨.D, ⟨1, 2, 0, 0⟩, 2, 1, [], [], []⟩, firstDelta ⟨1, 1, 0, 0⟩]
  encoded := false
  body := storedLines [insLine 1, delLine 2, lineA, endLine 1, endLine 2, insLine 2] ++ [1, 120, 10] ++
    (endLine 2).stored
  origins := [.program, .program, .user, .program, .program, .program, .user, .program]

theorem sampleCreation_run : create sampleCreation = .ok sampleHistory := by decide +kernel

/-- The line `a` becomes `b`. -/
theorem wellFormed_of_reach_sample : ∃ h, addDelta wholeDiff sampleHistory (sampleCheckin [98, 10]) = .ok h ∧
    WellFormed h := by
  refine ⟨_, rfl, wellFormed_of_reach wholeDiff_normal ?_⟩
  refine .step (.start ⟨sampleCreation, ?_, sampleCreation_run⟩) (c := .delta (sampleCheckin [98, 10])) ?_ (.delta rfl)
  · intro F hF
    obtain rfl := Option.some.inj hF
    exact .inr (.inr (by decide))
  · exact ⟨.inr (by decide), by simp [sampleCheckin]⟩

/-- **A line that starts with `^A` is read as a control line**: `delta` accepts it, and the body is not well formed any
more. -/
theorem not_wellFormed : NormalDiff wholeDiff ∧ create sampleCreation = .ok sampleHistory ∧
    addDelta wholeDiff sampleHistory (sampleCheckin [1, 120, 10]) = .ok brokenHistory ∧ ¬ WellFormed brokenHistory := by
  refine ⟨wholeDiff_normal, by decide +kernel, by decide +kernel, ?_⟩
  rintro ⟨lines, hread, hacc, -⟩
  obtain ⟨vis, fin, hget, -⟩ := hacc (SeqState.new 2 (by decide)) (SeqState.fresh_new 2 _) (by decide)
  have hlines : lines = (readBody .initial brokenHistory.body).lines := by rw [hread]
  have hfail : (getLoop 2 (.ok ()) (SeqState.new 2 (by decide))
      (readBody .initial brokenHistory.body).lines).toOption.isSome = false := by decide +kernel
  rw [← hlines, show getLoop 2 (.ok ()) _ lines = _ from hget] at hfail
  cases hfail

end CSSC.Runs
