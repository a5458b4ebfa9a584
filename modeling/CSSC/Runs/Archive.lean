import CSSC.Library.Archive
import CSSC.Runs.Sessions
import CSSC.Table.Versions

/-!
# A history file is an archive

What all the tables, numbers and brackets are for: each version that was checked in can be gotten again, as it was,
with the author of each line, until it is removed. The archive that a history file stands for is, for each SID, what
`get` shows (`archiveOf`).

The invariant is `Kept`: the body is sane, the table is tidy, the body begins with the first delta, and no insertion
stands inside a later one. It says what `get` shows (`Kept.retrieve`), with each line attributed to a current delta
(`Kept.authors`). A check-in is `Checkin.Faithful` if it can be read back, there are numbers left, and the lists that
are recorded make the version that was edited. Such a check-in is `Woven`, and **keeps the invariant and adds just the
new versions to the archive** (`Woven.kept`, `Woven.archive`); `rmdel` takes one out (`Kept.rmdel`), and undoes a
check-in (`Woven.undo`).
-/

namespace CSSC.Runs

open CSSC.Lines CSSC.Lines.Encoding CSSC.Body CSSC.Table CSSC.Header CSSC.Files CSSC.Library CSSC.Library.Weave
  CSSC.Library.Run DeltaTable

/-! ### `get` -/

/-- `sccs_file::get` up to the output. -/
def retrieve (h : History) (buf : Linebuf) (id : Sid) (incl excl : SidList) : Except Quit Visible :=
  if hlt : h.table.highestSeqno < 65535 then
    match h.table.find id with
    | none => .error .assertion
    | some d => do
      let ss ← prepareSeqstate h.table (SeqState.new h.table.highestSeqno hlt) d.seq incl excl
      let got ← get h.table.highestSeqno ss (readBody buf h.body)
      return got.1
  -- the constructor of `seq_state` does not return
  else .error .diverges

/-- `sccs_file::get`: what is written without keyword substitution. -/
def checkOut (h : History) (buf : Linebuf) (id : Sid) (incl excl : SidList) : Except Quit (List UInt8) := do
  let vis ← retrieve h buf id incl excl
  outputBody h.encoded (vis.map Prod.snd)

/-- The archive that a history file stands for. -/
def archiveOf (h : History) : Archive Sid ℕ Line := fun id => (retrieve h .initial id [] []).toOption

/-! ### The invariant -/

/-- The history files that the program makes. -/
structure Kept (h : History) (items : List (Item ℕ Line)) : Prop extends Sane h items where
  /-- The table is tidy. -/
  tidy : Tidy h.table
  /-- As long as there is a delta, the body begins with the first one. -/
  first : h.table.current ≠ [] → ∃ l r, items = .start .ins 1 l :: r
  /-- No insertion stands inside a later one. -/
  unnested : AllUnnested shut items
  /-- There are numbers left. -/
  room : h.table.highestSeqno < 65535

/-- The deltas that `get` shows the lines of. -/
def selected (T : DeltaTable) (d : Delta) (incl excl : SidList) : Set ℕ :=
  T.version d.seq \ removed T incl excl ∪ added T incl excl

@[simp] theorem selected_nil (T : DeltaTable) (d : Delta) : selected T d [] [] = T.version d.seq := by
  simp [selected]

theorem nameDelta_last (incl excl : SidList) (st : SeqState) (d : Delta) :
    (nameDelta incl excl st d).last = st.last := by
  unfold nameDelta
  split
  · rfl
  · split <;> rfl

/-- What `prepare_seqstate` makes for a version of a tidy table. -/
theorem prepareSeqstate_spec {T : DeltaTable} (hT : Tidy T) {d : Delta} (hd : d ∈ T) (incl excl : SidList)
    (hlt : T.highestSeqno < 65535) : ∃ ss,
      prepareSeqstate T (SeqState.new T.highestSeqno hlt) d.seq incl excl = .ok ss ∧
        ss.includedSet = selected T d incl excl ∧ ss.Fresh ∧ ss.last = T.highestSeqno ∧
        TagsListed T incl excl ss := by
  obtain ⟨s₁, h₁, hv, -⟩ := version_spec hT.earlier (hT.at?_isSome hd) (SeqState.includedSet_new T.highestSeqno hlt)
  have hp : prepareSeqstate T (SeqState.new T.highestSeqno hlt) d.seq incl excl =
      .ok (prepareSeqstate2 T incl excl s₁) := by
    rw [prepareSeqstate, h₁]
    rfl
  refine ⟨_, hp, ?_, prepareSeqstate_fresh (SeqState.fresh_new _ hlt) hp, ?_, ?_⟩
  · rw [includedSet_prepareSeqstate2, hv]
    rfl
  · have hfold : ∀ (ds : List Delta) (st : SeqState), (ds.foldl (nameDelta incl excl) st).last = st.last := by
      intro ds
      induction ds with
      | nil => exact fun _ => rfl
      | cons e ds ih => exact fun st => (ih _).trans (nameDelta_last incl excl st e)
    have hlast : s₁.last = (SeqState.new T.highestSeqno hlt).last :=
      (prepareSeqstate1_fresh (SeqState.fresh_new _ hlt) h₁).2
    exact (hfold _ _).trans (hlast.trans (SeqState.decideDisposition_last _))
  · exact tagsListed_prepareSeqstate2 T incl excl
      (prepareSeqstate1_untagged (fun y => by simp [SeqState.new, OneState.initial]) h₁)

section

variable {h h' : History} {items : List (Item ℕ Line)}

/-- The items of a sane body are those that it is read as. -/
theorem Sane.unique {items' : List (Item ℕ Line)} (hs : Sane h items) (hs' : Sane h items') : items = items' := by
  have hraw := storedLines_injective (hs.body.symm.trans hs'.body)
  exact (hraw ▸ hs.genuine.parses).unique hs'.genuine.parses

theorem mem_of_find {T : DeltaTable} {id : Sid} {d : Delta} (h : T.find id = some d) : d ∈ T.current :=
  List.mem_of_find?_eq_some h

/-- The state that a version is read with, and what is read. -/
theorem Kept.get (hk : Kept h items) {d : Delta} (hd : d ∈ h.table.current) (incl excl : SidList) (buf : Linebuf) :
    ∃ ss fin, prepareSeqstate h.table (SeqState.new h.table.highestSeqno hk.room) d.seq incl excl = .ok ss ∧
      get h.table.highestSeqno ss (readBody buf h.body) =
        .ok (select (selected h.table d incl excl) shut items, fin) ∧ ss.Fresh ∧
      ss.includedSet = selected h.table d incl excl ∧ TagsListed h.table incl excl ss := by
  obtain ⟨ss, hp, hincl, hfresh, hlast, htags⟩ := prepareSeqstate_spec hk.tidy (mem_current.mp hd).1 incl excl hk.room
  obtain ⟨l, r, hfirst⟩ := hk.first (List.ne_nil_of_mem hd)
  have hsound : Sound h.table.highestSeqno ss.last (items.map Item.raw) items :=
    ⟨hk.genuine.parses, ⟨1, l, r, hfirst⟩, hk.inRange, hlast ▸ hk.inRange, hk.legal⟩
  obtain ⟨fin, hget, -⟩ := get_of_sound (hincl ▸ hfresh.tracks) hsound
  exact ⟨ss, fin, hp, by rw [hk.reading, hget], hfresh, hincl, htags⟩

/-- **What `get` shows.** -/
theorem Kept.retrieve (hk : Kept h items) {id : Sid} {d : Delta} (hd : h.table.find id = some d) (incl excl : SidList)
    (buf : Linebuf) : retrieve h buf id incl excl = .ok (select (selected h.table d incl excl) shut items) := by
  obtain ⟨ss, fin, hp, hget, -⟩ := hk.get (mem_of_find hd) incl excl buf
  unfold Runs.retrieve
  rw [dif_pos hk.room, hd]
  simp only [hp, ok_bind, hget]
  rfl

/-- The archive of a history file. -/
theorem Kept.archiveOf_eq (hk : Kept h items) (id : Sid) :
    archiveOf h id = (h.table.find id).map fun d => select (h.table.version d.seq) shut items := by
  unfold archiveOf
  rcases hd : h.table.find id with _ | d
  · unfold Runs.retrieve
    rw [dif_pos hk.room, hd]
    rfl
  · rw [hk.retrieve hd, selected_nil]
    rfl

/-- What is in the archive is gotten with any line buffer. -/
theorem Kept.retrieve_of_archive (hk : Kept h items) {id : Sid} {r : Visible} (hr : archiveOf h id = some r)
    (buf : Linebuf) : Runs.retrieve h buf id [] [] = .ok r := by
  rw [hk.archiveOf_eq] at hr
  obtain ⟨d, hd, rfl⟩ := Option.map_eq_some_iff.mp hr
  rw [hk.retrieve hd, selected_nil]

/-- **Each line that is gotten is attributed to a current delta.** -/
theorem Kept.authors (hk : Kept h items) {id : Sid} {r : Visible} (hr : archiveOf h id = some r) {p : ℕ × Line}
    (hp : p ∈ r) : ∃ d ∈ h.table.current, d.seq = p.1 := by
  rw [hk.archiveOf_eq] at hr
  obtain ⟨d, hd, rfl⟩ := Option.map_eq_some_iff.mp hr
  refine (hk.tidy.version_current (mem_of_find hd) (mem_of_mem_select hp)).resolve_left fun h0 => ?_
  rcases key_of_mem_select hp with h | ⟨x, hx, hkx⟩
  · exact h rfl
  · have := (hk.inRange x hx _ hkx).1
    omega

/-- The versions of an archive are the current deltas. -/
theorem Kept.archiveOf_isSome_iff (hk : Kept h items) (id : Sid) :
    (archiveOf h id).isSome ↔ id ∈ h.table.currentSids := by
  rw [hk.archiveOf_eq, Option.isSome_map, find, List.find?_isSome, currentSids, List.mem_map]
  simp

end

/-! ### Creation -/

/-- What `create` makes: a file with one delta. -/
theorem create_eq_ok {c : Creation} {h : History} (hc : create c = .ok h) (hf : c.Fine) :
    ∃ gs : List Line, (∀ g ∈ gs, Plain g.bytes) ∧ h = ⟨[firstDelta c.id], h.encoded, storedLines (firstBody gs),
      .program :: List.replicate gs.length .user ++ [.program]⟩ := by
  unfold create at hc
  split at hc
  · obtain rfl := Except.ok.inj hc
    exact ⟨[], by simp, rfl⟩
  · rename_i F hF
    obtain ⟨r, hr, hc⟩ := bind_eq_ok.mp hc
    obtain rfl := Except.ok.inj hc
    rcases createBody_spec hr with ⟨hb, ht, -, hlines, hout⟩ | ⟨-, -, hlines, hout⟩
    · have h0 : (0 : UInt8) ∉ F := by
        rcases hf F hF with h | h | h
        · rw [hb] at h
          cases h
        · exact absurd ht h
        · exact h
      obtain ⟨gs, rfl, hgs⟩ := ht.lines h0
      refine ⟨gs, hgs, ?_⟩
      simp only [hout, hlines, count_storedLines, firstBody, storedLines_append, storedLines_cons, List.cons_append,
        List.nil_append]
      simp
    · exact ⟨_, encodedLines_plain F, by simp only [hout, hlines, List.nil_append]⟩

theorem firstItems_allUnnested (gs : List Line) : AllUnnested shut (firstItems gs) := by
  rw [firstItems, allUnnested_cons, allUnnested_texts]
  refine ⟨fun n a _ k _ => by simp [shut], by simp, trivial⟩

/-- **A file that is created has the invariant.** -/
theorem kept_create {c : Creation} {h : History} (hc : create c = .ok h) (hf : c.Fine) : ∃ items, Kept h items := by
  obtain ⟨gs, hgs, heq⟩ := create_eq_ok hc hf
  rw [heq]
  refine ⟨firstItems gs, sane_firstBody c.id _ hgs, tidy_singleton _ rfl rfl rfl rfl, fun _ => ⟨_, _, rfl⟩,
    firstItems_allUnnested gs, show max 1 0 < 65535 by omega⟩

/-! ### `delta` -/

/-- What is compared with the version: the file, encoded if the history file is. -/
def fileToStore (h : History) (c : Checkin) : List UInt8 := if h.encoded then encodeStream c.gfile else c.gfile

/-- What a check-in that succeeds has computed. -/
theorem addDelta_eq_ok {diff : List UInt8 → List UInt8 → List UInt8} {h h' : History} {c : Checkin}
    (hrun : addDelta diff h c = .ok h') : ∃ (hlt : h.table.highestSeqno < 65535) (P : Delta) (ss fin : SeqState)
      (vis : Visible) (T₁ : DeltaTable) (N : Delta) (r : DeltaResult), h.table.find c.lock.got = some P ∧
      prepareSeqstate h.table (SeqState.new h.table.highestSeqno hlt) P.seq c.lock.incl c.lock.excl = .ok ss ∧
      get h.table.highestSeqno ss (readBody c.getBuf h.body) = .ok (vis, fin) ∧
      addedDeltas c.nullFlag h.table ss c.lock P = .ok (T₁, N) ∧
      delta ⟨T₁.highestSeqno, N.seq % 65536, c.lenMax, c.c0, seq_mod_le _⟩ ss
        (deliveries c.diffBuf (diff (storedLines (vis.map Prod.snd)) (fileToStore h c)))
        (readBody c.bodyBuf h.body) = .ok r ∧
      h' = ⟨T₁.prepend N, h.encoded, r.bytes, originsOf h.origins r.out⟩ := by
  unfold addDelta at hrun
  split at hrun
  · cases hrun
  rename_i P hP
  split at hrun
  swap
  · cases hrun
  rename_i hlt
  obtain ⟨ss, hprep, hrun⟩ := bind_eq_ok.mp hrun
  obtain ⟨⟨vis, fin⟩, hget, hrun⟩ := bind_eq_ok.mp hrun
  obtain ⟨⟨T₁, N⟩, hadd, hrun⟩ := bind_eq_ok.mp hrun
  obtain ⟨r, hdelta, hrun⟩ := bind_eq_ok.mp hrun
  exact ⟨hlt, P, ss, fin, vis, T₁, N, r, hP, hprep, hget, hadd, hdelta, (Except.ok.inj hrun).symm⟩

/-- The conditions under which a check-in is kept: what is checked in can be read back, there are numbers left for it
and the automatic deltas, and the lists that are recorded make the version that was edited. -/
structure Checkin.Faithful (h : History) (c : Checkin) : Prop where
  /-- The file can be read back, or is stored encoded. -/
  storable : h.encoded = true ∨ Storable c.gfile
  /-- There are numbers left. -/
  room : h.table.highestSeqno + gap c.nullFlag c.lock.got c.lock.delta + 1 < 65535
  /-- The lists are recorded faithfully, in the table with the automatic deltas. -/
  lists : ∀ P T₁ pred, h.table.find c.lock.got = some P →
    nullDeltas c.nullFlag h.table P.id c.lock.delta P.seq = .ok (T₁, pred) →
      Reproducible T₁ pred c.lock.incl c.lock.excl

/-- What a check-in is made of: `P` is the delta that was gotten, `ns` are the automatic deltas, `N` is the new one. The
edit actions `as` lead to the lines `G`. -/
structure Woven (h : History) (c : Checkin) (h' : History) (items : List (Item ℕ Line)) (P : Delta) (ns : List Delta)
    (N : Delta) (items' : List (Item ℕ Line)) (as : List (Act Line)) (G : List Line) : Prop where
  /-- The delta that was gotten. -/
  got : h.table.find c.lock.got = some P
  /-- What the new deltas consist of. -/
  recorded : Recorded h.table P c.lock.incl c.lock.excl ns N
  /-- They stand in front. -/
  table : h'.table = N :: (ns ++ h.table)
  /-- Whether the file is encoded does not change. -/
  encoded : h'.encoded = h.encoded
  /-- The number of the new delta. -/
  seq : N.seq = h.table.highestSeqno + gap c.nullFlag P.id c.lock.delta + 1
  /-- The new delta has the SID of the lock. -/
  id : N.id = c.lock.delta
  /-- The new body is sane. -/
  sane : Sane h' items'
  /-- It is the old one with the edit spliced in. -/
  splice : Splice N.seq (selected h.table P c.lock.incl c.lock.excl) shut false as items items'
  /-- All that is inserted is closed again. -/
  closed : Act.Closed as
  /-- The lines of the file. -/
  file : fileLines (fileToStore h c) = G.map Line.bytes
  /-- The edit leads to them. -/
  new : as.flatMap Act.new = G

/-- **What `delta` does is a splice into the body and a new delta in front of the table.** -/
theorem Kept.woven {diff : List UInt8 → List UInt8 → List UInt8} (hdiff : NormalDiff diff) {h h' : History}
    {c : Checkin} {items : List (Item ℕ Line)} (hk : Kept h items) (hf : c.Faithful h)
    (hrun : addDelta diff h c = .ok h') : ∃ P ns N items' as G, Woven h c h' items P ns N items' as G := by
  have hfine : (Command.delta c).Fine h := ⟨hf.storable, fun hn => by
    have := hf.room
    rw [hn] at this
    omega⟩
  obtain ⟨items', hsane⟩ := hk.toSane.addDelta hdiff hfine hrun
  obtain ⟨hlt, P, ss, fin, vis, T₁, N, r, hP, hprep, hget, hadd, hdelta, rfl⟩ := addDelta_eq_ok hrun
  have hPc := mem_of_find hP
  have hroom := hf.room
  have hlists := hf.lists P
  rw [← find_id hP] at hroom
  -- the version that is edited
  obtain ⟨ss', fin', hprep', hget', hfresh, hincl, htags⟩ := hk.get hPc c.lock.incl c.lock.excl c.getBuf
  obtain rfl := Except.ok.inj (hprep.symm.trans hprep')
  obtain ⟨rfl, rfl⟩ := Prod.mk.inj (Except.ok.inj (hget.symm.trans hget'))
  -- the table
  obtain ⟨ns, rfl, hseq, hid, hrec⟩ := addedDeltas_versions hk.tidy hPc htags (by omega)
    (fun T₁ pred => hlists T₁ pred hP) hadd
  -- the script
  have hst : Storable (fileToStore h c) := by
    unfold fileToStore
    split
    · exact storable_encodeStream _
    · rename_i he
      exact hf.storable.resolve_left he
  obtain ⟨G, hG⟩ := exists_fileLines hst.1
  obtain ⟨s, hsd, hprint⟩ :=
    hdiff (List.map Prod.snd (select (selected h.table P c.lock.incl c.lock.excl) shut items)) G _ hG
  rw [hprint, hsd.deliveries] at hdelta
  obtain ⟨items₀, as, new, hsp⟩ := spliced_of_delta hfresh (hk.reading c.getBuf ▸ hget) hsd.old
    (tame_of_storable hst hG hsd) (hk.reading c.bodyBuf ▸ hdelta)
  obtain rfl := hsp.parses.unique hk.genuine.parses
  obtain rfl : new = items' := by
    have hraw := storedLines_injective (hsp.bytes_eq.symm.trans hsane.body)
    exact (hraw ▸ hsp.genuine.parses).unique hsane.genuine.parses
  obtain ⟨hclosed, hnew⟩ := reads_new hsp.reads (s.newOf_edits.trans hsd.new)
  have hmod : N.seq % 65536 = N.seq := Nat.mod_eq_of_lt (by omega)
  refine ⟨P, ns, N, new, as, G, hP, hrec, rfl, rfl, hseq, hid, hsane, ?_, hclosed, hG, hnew⟩
  have hsplice := hsp.splice
  simp only [hmod, hincl] at hsplice
  exact hsplice

/-- What `find` finds in a table that has grown. -/
theorem find_append {T : DeltaTable} {V : Set ℕ} {ns : List Delta} (h : Grown T V ns) (id : Sid) :
    find (ns ++ T) id = (ns.find? (·.id = id)).or (T.find id) := by
  rw [find, h.current, List.find?_append]
  rfl

section

variable {h h' : History} {c : Checkin} {items items' : List (Item ℕ Line)} {P N : Delta} {ns : List Delta}
  {as : List (Act Line)} {G : List Line}

/-- The old body is about lower numbers. -/
theorem Woven.under (hw : Woven h c h' items P ns N items' as G) (hk : Kept h items) : Under N.seq items := by
  intro x hx k hkx
  have := (hk.inRange x hx k hkx).2
  have := hw.seq
  omega

/-- **The invariant is kept.** -/
theorem Woven.kept (hw : Woven h c h' items P ns N items' as G) (hk : Kept h items) (hroom : N.seq < 65535) :
    Kept h' items' where
  toSane := hw.sane
  tidy := hw.table ▸ hw.recorded.tidy
  first _ := by
    obtain ⟨l, r, hfirst⟩ := hk.first (List.ne_nil_of_mem (mem_of_find hw.got))
    obtain ⟨r', hr'⟩ := (hfirst ▸ hw.splice).first (by simp)
    exact ⟨l, r', hr'⟩
  unnested := hw.splice.allUnnested (hw.under hk) (fun _ _ => rfl) hw.closed hk.unnested
  room := by
    have := hw.recorded.newest.1
    rw [hw.table]
    show max N.seq (highestSeqno (ns ++ h.table)) < 65535
    omega

/-- The SIDs of the new table. -/
theorem Woven.currentSids (hw : Woven h c h' items P ns N items' as G) :
    h'.table.currentSids = c.lock.delta :: (ns.map Delta.id ++ h.table.currentSids) := by
  rw [hw.table, DeltaTable.currentSids, current, List.filter_cons,
    if_pos (by simp [current_of_type hw.recorded.newest.2]), List.map_cons, hw.id]
  show _ :: (current (ns ++ h.table)).map Delta.id = _
  rw [hw.recorded.grown.current, List.map_append]
  rfl

/-- A version without the new delta shows what it showed before. -/
theorem Woven.select_eq (hw : Woven h c h' items P ns N items' as G) (hk : Kept h items) {S : Set ℕ} (hS : N.seq ∉ S) :
    select S shut items' = select S shut items :=
  hw.splice.transparent (hw.under hk) (fun _ _ => rfl) hS hw.closed.settled

/-- What the old body shows depends on the old deltas only. -/
theorem Kept.select_congr (hk : Kept h items) {S S' : Set ℕ} (hS : ∀ y ≤ h.table.highestSeqno, y ∈ S ↔ y ∈ S') :
    select S shut items = select S' shut items :=
  Weave.select_congr (fun _ hk => absurd rfl hk) fun x hx k hkx => hS k (hk.inRange x hx k hkx).2

/-- The versions of the new table, as far as they are older than the new delta. -/
theorem Woven.version_eq (hw : Woven h c h' items P ns N items' as G) {d : Delta} (hd : d ∈ ns ++ h.table) :
    DeltaTable.version (N :: (ns ++ h.table)) d.seq = DeltaTable.version (ns ++ h.table) d.seq ∧
      N.seq ∉ DeltaTable.version (ns ++ h.table) d.seq := by
  have htidy := hw.recorded.grown.tidy
  refine ⟨version_prepend htidy.earlier hw.recorded.newest.1 (htidy.at?_isSome hd), fun hmem => ?_⟩
  have := (version_le htidy.earlier (htidy.at?_isSome hd) hmem).1
  have := le_highestSeqno hd
  have := hw.recorded.newest.1
  omega

/-- An automatic delta shows what the version that was gotten shows. -/
theorem Woven.select_null (hw : Woven h c h' items P ns N items' as G) (hk : Kept h items) {e : Delta} (he : e ∈ ns) :
    select (DeltaTable.version (N :: (ns ++ h.table)) e.seq) shut items' =
      select (h.table.version P.seq) shut items := by
  obtain ⟨hv, hnot⟩ := hw.version_eq (List.mem_append_left h.table he)
  rw [hv, hw.select_eq hk hnot]
  exact hk.select_congr fun y hy => hw.recorded.grown.agree e he y hy

/-- An old delta shows what it showed before. -/
theorem Woven.select_old (hw : Woven h c h' items P ns N items' as G) (hk : Kept h items) {d : Delta}
    (hd : d ∈ h.table) :
    select (DeltaTable.version (N :: (ns ++ h.table)) d.seq) shut items' =
      select (h.table.version d.seq) shut items := by
  obtain ⟨hv, hnot⟩ := hw.version_eq (List.mem_append_right ns hd)
  rw [hv, hw.select_eq hk hnot, hw.recorded.grown.old d hd]

/-- **The new delta shows what the edit makes of the version that was gotten.** -/
theorem Woven.select_new (hw : Woven h c h' items P ns N items' as G) (hk : Kept h items) :
    select (DeltaTable.version (N :: (ns ++ h.table)) N.seq) shut items' =
      Act.blame N.seq as (select (selected h.table P c.lock.incl c.lock.excl) shut items) := by
  rw [← hw.splice.annotated (hw.under hk) (fun _ _ => rfl) hw.closed]
  refine Weave.select_congr (fun k hk => absurd rfl hk) fun x hx k hkx => ?_
  rcases hw.splice.keys x hx k hkx with rfl | ⟨y, hy, hky⟩
  · exact iff_of_true hw.recorded.self (Set.mem_insert _ _)
  · have hle := (hk.inRange y hy k hky).2
    have := hw.seq
    rw [hw.recorded.version k hle, Set.mem_insert_iff, or_iff_right (by omega)]
    rfl

/-- **What `delta` does to the archive.** -/
theorem Woven.archive (hw : Woven h c h' items P ns N items' as G) (hk : Kept h items) (hk' : Kept h' items') :
    archiveOf h' = ((archiveOf h).copy c.lock.got (ns.map Delta.id)).record c.lock.delta
      (Act.blame N.seq as (select (selected h.table P c.lock.incl c.lock.excl) shut items)) := by
  funext id
  rw [hk'.archiveOf_eq, hw.table]
  by_cases hid : id = c.lock.delta
  · subst hid
    have hfind : find (N :: (ns ++ h.table)) c.lock.delta = some N := by
      refine find_cons_of ?_ _
      simp [hw.id, current_of_type hw.recorded.newest.2]
    rw [hfind, Option.map_some, hw.select_new hk, Archive.record_self]
  · have hskip : find (N :: (ns ++ h.table)) id = find (ns ++ h.table) id := by
      refine find_cons_of_not ?_ _
      simp only [hw.id, Bool.and_eq_true, decide_eq_true_eq, not_and]
      exact fun _ e => hid e.symm
    rw [hskip, Archive.record_of_ne hid, find_append hw.recorded.grown]
    rcases hns : ns.find? (·.id = id) with _ | e
    · -- an old delta
      have hnot : id ∉ ns.map Delta.id := by
        intro hmem
        obtain ⟨e, he, rfl⟩ := List.mem_map.mp hmem
        simpa using List.find?_eq_none.mp hns e he
      rw [hns, Option.none_or, Archive.copy_of_notMem hnot, hk.archiveOf_eq]
      rcases hd : h.table.find id with _ | d
      · rfl
      · rw [Option.map_some, Option.map_some, hw.select_old hk (mem_current.mp (mem_of_find hd)).1]
    · -- an automatic delta
      have he : e ∈ ns := List.mem_of_find?_eq_some hns
      have hmem : id ∈ ns.map Delta.id := List.mem_map.mpr ⟨e, he, by simpa using List.find?_some hns⟩
      rw [hns, Option.some_or, Option.map_some, Archive.copy_of_mem hmem, hw.select_null hk he, hk.archiveOf_eq, hw.got]
      rfl

end

/-- **`rmdel` takes a new delta out again**: it succeeds, and what is left is the old body, and the table with the
automatic deltas. -/
theorem Woven.undo {h h' : History} {c : Checkin} {items items' : List (Item ℕ Line)} {P N : Delta} {ns : List Delta}
    {as : List (Act Line)} {G : List Line} (hw : Woven h c h' items P ns N items' as G) (hk : Kept h items)
    (errno : ℕ) (buf : Linebuf) : ∃ T lines, rmdel errno h'.table (readBody buf h'.body) c.lock.delta = .ok (T, lines) ∧
      storedLines lines = h.body ∧ T.currentSids = ns.map Delta.id ++ h.table.currentSids := by
  have hcur : N.removed = false := current_of_type hw.recorded.newest.2
  have hnew : (!N.removed && decide (N.id = c.lock.delta)) = true := by simp [hw.id, hcur]
  have hfind : h'.table.find c.lock.delta = some N := by
    rw [hw.table]
    exact find_cons_of hnew _
  have htidy : Tidy h'.table := hw.table ▸ hw.recorded.tidy
  -- a delta refers to earlier ones only
  have href : h'.table.current.any (·.refersTo N.seq) = false := by
    rw [List.any_eq_false]
    intro e he hr
    have hlt := htidy.earlier.refersTo_lt (mem_current.mp he).1 hr
    have hle : e.seq ≤ N.seq := by
      rw [hw.table] at he
      rcases List.mem_cons.mp (mem_current.mp he).1 with rfl | he
      · exact le_rfl
      · exact (le_highestSeqno he).trans hw.recorded.newest.1.le
    omega
  have hstrip : strip (errno = 0) N.seq .copy items' = some items :=
    (hw.splice.strip_eq_iff (hw.under hk).free).mpr (Splice.undone_of_closed hw.closed)
  have hremove : remove errno N.seq (readBody buf h'.body) = .ok (items.map Item.raw) := by
    rw [hw.sane.reading]
    exact (removeLoop_eq_ok hw.sane.genuine.parses _ _).mpr ⟨items, hstrip, rfl⟩
  refine ⟨markRemoved c.lock.delta h'.table, items.map Item.raw, ?_, hk.body.symm, ?_⟩
  · unfold Table.rmdel
    rw [hfind]
    simp only [href, Bool.false_eq_true, if_false, hremove, ok_bind]
    rfl
  · rw [hw.table, markRemoved, if_pos hnew, DeltaTable.currentSids, current, List.filter_cons,
      if_neg (by simp [Delta.removed])]
    show (current (ns ++ h.table)).map Delta.id = _
    rw [hw.recorded.grown.current, List.map_append]
    rfl

/-- **Without lists the conditions are that the file can be read back, and that there are numbers left.** -/
theorem Kept.faithful {h : History} {items : List (Item ℕ Line)} (hk : Kept h items) {c : Checkin}
    (hst : h.encoded = true ∨ Storable c.gfile)
    (hroom : h.table.highestSeqno + gap c.nullFlag c.lock.got c.lock.delta + 1 < 65535) (hi : c.lock.incl = [])
    (hx : c.lock.excl = []) : c.Faithful h where
  storable := hst
  room := hroom
  lists P T₁ pred hP hn := by
    rw [← find_id hP] at hroom
    obtain ⟨ns, rfl, hg, P', hP', rfl, -⟩ := nullDeltas_versions hk.tidy (mem_of_find hP) (by omega) hn
    rw [hi, hx]
    exact reproducible_nil hg.tidy hP'

/-! ### `rmdel` -/

/-- `find` finds what it found before, except for the SID that was removed. -/
theorem find_markRemoved {T : DeltaTable} {id id' : Sid} (h : id' ≠ id) :
    find (markRemoved id T) id' = T.find id' := by
  induction T with
  | nil => rfl
  | cons e T ih =>
    unfold markRemoved
    split
    · rename_i he
      obtain ⟨-, hid⟩ := Bool.and_eq_true_iff.mp he
      rw [find_cons_of_not (by simp [Delta.removed]), find_cons_of_not]
      simp [of_decide_eq_true hid, h.symm]
    · by_cases he : (!e.removed && decide (e.id = id')) = true
      · rw [find_cons_of he, find_cons_of he]
      · rw [find_cons_of_not he, find_cons_of_not he, ih]

theorem find_markRemoved_self {T : DeltaTable} {id : Sid} {d : Delta} (hn : (T.map Delta.seq).Nodup)
    (hsids : T.currentSids.Nodup) (hd : T.find id = some d) : find (markRemoved id T) id = none := by
  rcases hf : find (markRemoved id T) id with _ | f
  · rfl
  · obtain ⟨hfc, hne⟩ := (mem_current_markRemoved hn hd).mp (mem_of_find hf)
    exact absurd (List.inj_on_of_nodup_map hsids hfc (mem_of_find hd) ((find_id hf).trans (find_id hd).symm)) hne

/-- The versions of the table do not depend on what is marked as removed. -/
theorem version_markRemoved {T : DeltaTable} (hT : T.Earlier) (id : Sid) {seq : ℕ} (hseq : (T.at? seq).isSome) :
    DeltaTable.version (markRemoved id T) seq = T.version seq := by
  have hempty := SeqState.includedSet_new 0 (by decide)
  obtain ⟨st', h, hv, -⟩ := version_spec hT hseq hempty
  rw [← hv]
  refine ((prepareSeqstate1_solves hempty ?_).2).symm
  rw [← prepareSeqstate1_untyped, markRemoved_untyped, prepareSeqstate1_untyped, h]

/-- **`rmdel` keeps the invariant, and takes the version out of the archive**, when the SIDs are distinct. -/
theorem Kept.rmdel {h : History} {id : Sid} {buf : Linebuf} {errno : ℕ} {T : DeltaTable} {lines : List Line}
    {os : List Origin} {items : List (Item ℕ Line)} (hk : Kept h items) (hsids : h.table.currentSids.Nodup)
    (hrun : rmdel errno h.table (readBody buf h.body) id = .ok (T, lines)) (hlen : lines.length = os.length)
    (hsub : (lines.zip os).Sublist ((readBody buf h.body).lines.zip h.origins)) :
    ∃ items', Kept ⟨T, h.encoded, storedLines lines, os⟩ items' ∧
      archiveOf ⟨T, h.encoded, storedLines lines, os⟩ = (archiveOf h).forget id ∧ id ∈ h.table.currentSids := by
  obtain ⟨items', hsane⟩ := hk.toSane.rmdel hrun hlen hsub
  obtain ⟨d, hd, hid, hfind, href, rfl, hlines⟩ := rmdel_eq_ok hrun
  rw [hk.reading] at hlines
  obtain ⟨kept, hstrip, rfl⟩ := (removeLoop_eq_ok hk.genuine.parses _ _).mp hlines
  obtain rfl : kept = items' := by
    have hraw := storedLines_injective hsane.body
    have hgen : Genuine kept := fun x hx => hk.genuine x ((strip_sublist hstrip).subset hx)
    exact (hraw ▸ hgen.parses).unique hsane.genuine.parses
  have hshut : Function.update shut d.seq none = shut := Function.update_eq_self d.seq shut
  have hkept : Kept ⟨markRemoved id h.table, h.encoded, storedLines (kept.map Item.raw), os⟩ kept := by
    refine ⟨hsane, hk.tidy.markRemoved hfind href, fun hne => ?_, ?_, ?_⟩
    · obtain ⟨e, he⟩ := List.exists_mem_of_ne_nil _ hne
      obtain ⟨hec, hed⟩ := (mem_current_markRemoved hk.tidy.nodup hfind).mp he
      have hd1 : d.seq ≠ 1 := fun h1 => hed (hk.tidy.first_current (mem_current.mp hd).1 h1 href hec)
      obtain ⟨l, r, rfl⟩ := hk.first (List.ne_nil_of_mem hd)
      rw [strip_other (by simp) (by simpa using hd1.symm), if_neg (by decide)] at hstrip
      obtain ⟨r', -, rfl⟩ := Option.map_eq_some_iff.mp hstrip
      exact ⟨l, r', rfl⟩
    · have h := strip_allUnnested hk.unnested hstrip
      rwa [hshut] at h
    · show DeltaTable.highestSeqno (markRemoved id h.table) < 65535
      rw [markRemoved_highestSeqno]
      exact hk.room
  refine ⟨kept, hkept, ?_, List.mem_map.mpr ⟨d, hd, hid⟩⟩
  funext id'
  rw [hkept.archiveOf_eq]
  by_cases hid' : id' = id
  · subst hid'
    rw [find_markRemoved_self hk.tidy.nodup hsids hfind, Archive.forget_self]
    rfl
  · rw [find_markRemoved hid', Archive.forget_of_ne hid', hk.archiveOf_eq]
    rcases hE : h.table.find id' with _ | E
    · rfl
    · -- the version does not contain the delta, whose regions are unnested
      have hEc := mem_of_find hE
      have hEs := hk.tidy.at?_isSome (mem_current.mp hEc).1
      have hempty := SeqState.includedSet_new 0 (by decide)
      obtain ⟨st', hst', hv, -⟩ := version_spec hk.tidy.earlier hEs hempty
      have hne : E.seq ≠ d.seq := by
        intro e
        obtain rfl := List.inj_on_of_nodup_map hk.tidy.nodup (mem_current.mp hEc).1 (mem_current.mp hd).1 e
        exact hid' ((find_id hE).symm.trans hid)
      have hnot := notMem_version hk.tidy.settled hk.tidy.nodup href hEc hne hempty hst'
      rw [hv] at hnot
      have hsel := strip_select (o := shut) hnot rfl (hk.unnested.unnested d.seq) (fun e => by cases e) hstrip
      rw [hshut] at hsel
      rw [Option.map_some, Option.map_some, version_markRemoved hk.tidy.earlier id hEs, hsel]

end CSSC.Runs
