import CSSC.Body.RoundTrip

/-!
# The lines that are counted

`delta` returns how many lines it inserted, deleted and left unchanged, and the header of the new file records these
numbers. In every run the strings that are written are counted (`deltaLoop_inserted`), and **the counts are those of
the script**: the unchanged and deleted lines are the old version, the unchanged and inserted ones the new version
(`delta_counts`).
-/

namespace CSSC.Body

open CSSC.Lines CSSC.Library.Weave CSSC.Library.Decimal DiffState

/-! ### What is inserted -/

/-- The count of inserted lines is right. -/
def DeltaResult.InsertedRight (r : DeltaResult) : Prop := r.inserted = (insertedStrings r.out).length

theorem DeltaResult.InsertedRight.append {r s : DeltaResult} (hr : r.InsertedRight) (hs : s.InsertedRight) :
    (r.append s).InsertedRight := by
  simp only [InsertedRight, DeltaResult.append, insertedStrings_append, List.length_append] at hr hs ⊢
  omega

theorem insertedRight_copyLine (l : Line) : (copyLine l).InsertedRight := rfl

theorem insertedRight_insertLine {out : List Out} (h : insertedStrings out = []) (s : CLine) :
    (insertLine out s).InsertedRight := by
  simp [DeltaResult.InsertedRight, insertLine, h]

theorem lineLoop_inserted {n lenMax fuel : ℕ} {c : UInt8} {d d' : DiffState} {r : DeltaResult}
    (h : lineLoop n lenMax c fuel d = .ok (d', r)) : r.InsertedRight := by
  induction fuel generalizing d r with
  | zero => simp [lineLoop] at h
  | succ fuel ih =>
    rw [lineLoop] at h
    obtain ⟨a, ha, h⟩ := bind_eq_ok.mp h
    have hout : ∀ x y, (⟨a.2, 0, x, y⟩ : DeltaResult).InsertedRight := fun x y => by
      simp [DeltaResult.InsertedRight, process_out ha]
    rcases hs : a.1.state <;> simp only [hs] at h
    · cases h
    · split at h
      · cases h
      · obtain ⟨-, rfl⟩ := Prod.mk.inj (Except.ok.inj h)
        exact hout _ _
    · split at h
      · cases h
      · obtain ⟨-, rfl⟩ := Prod.mk.inj (Except.ok.inj h)
        exact hout _ _
    · obtain ⟨s, -, h⟩ := bind_eq_ok.mp h
      split at h
      · obtain ⟨⟨d₁, q⟩, hq, h⟩ := bind_eq_ok.mp h
        obtain ⟨rfl, rfl⟩ := Prod.mk.inj (Except.ok.inj h)
        exact (insertedRight_insertLine (process_out ha) s).append (ih hq)
      · cases h
    · split at h
      · obtain ⟨-, rfl⟩ := Prod.mk.inj (Except.ok.inj h)
        exact hout _ _
      · obtain ⟨-, rfl⟩ := Prod.mk.inj (Except.ok.inj h)
        exact hout _ _

theorem eofLoop_inserted {n lenMax fuel : ℕ} {d : DiffState} {r : DeltaResult}
    (h : eofLoop n lenMax fuel d = .ok r) : r.InsertedRight := by
  induction fuel generalizing d r with
  | zero => simp [eofLoop] at h
  | succ fuel ih =>
    rw [eofLoop] at h
    obtain ⟨a, ha, h⟩ := bind_eq_ok.mp h
    split at h
    · obtain ⟨s, -, h⟩ := bind_eq_ok.mp h
      split at h
      · obtain ⟨q, hq, h⟩ := bind_eq_ok.mp h
        obtain rfl := Except.ok.inj h
        exact (insertedRight_insertLine (process_out ha) s).append (ih hq)
      · cases h
    · obtain rfl := Except.ok.inj h
      simp [DeltaResult.InsertedRight, process_out ha]

/-- **In every run the strings written are counted**, whatever diff says. -/
theorem deltaLoop_inserted {p : DeltaParms} {ending : Except Quit Unit} {ss : SeqState} {d : DiffState} {ls : List Line}
    {r : DeltaResult} (h : deltaLoop p ending ss d ls = .ok r) : r.InsertedRight := by
  induction ls generalizing ss d r with
  | nil =>
    rw [deltaLoop] at h
    obtain ⟨-, -, h⟩ := bind_eq_ok.mp h
    split at h
    · obtain ⟨a, ha, h⟩ := bind_eq_ok.mp h
      obtain ⟨q, hq, h⟩ := bind_eq_ok.mp h
      obtain rfl := Except.ok.inj h
      exact (lineLoop_inserted ha).append (eofLoop_inserted hq)
    · rw [ok_bind] at h
      obtain ⟨q, hq, h⟩ := bind_eq_ok.mp h
      obtain rfl := Except.ok.inj h
      exact DeltaResult.InsertedRight.append rfl (eofLoop_inserted hq)
  | cons l ls ih =>
    rw [deltaLoop] at h
    split at h
    · obtain ⟨seq, -, h⟩ := bind_eq_ok.mp h
      split at h
      · cases h
      · obtain ⟨ss', -, h⟩ := bind_eq_ok.mp h
        obtain ⟨q, hq, h⟩ := bind_eq_ok.mp h
        obtain rfl := Except.ok.inj h
        exact (insertedRight_copyLine l).append (ih hq)
    · split at h
      · obtain ⟨a, ha, h⟩ := bind_eq_ok.mp h
        obtain ⟨q, hq, h⟩ := bind_eq_ok.mp h
        obtain rfl := Except.ok.inj h
        exact (lineLoop_inserted ha).append ((insertedRight_copyLine l).append (ih hq))
      · obtain ⟨q, hq, h⟩ := bind_eq_ok.mp h
        obtain rfl := Except.ok.inj h
        exact (insertedRight_copyLine l).append (ih hq)

/-- The strings that an edit inserts. -/
def Edit.strings : Edit → List CLine
  | keep _ => []
  | drop _ => []
  | insert ss => ss

/-- The strings that edits insert. -/
def insertedOf (edits : List Edit) : List CLine := edits.flatMap Edit.strings

/-- What is written are the strings of the edits. -/
theorem Written.inserted {n : ℕ} {S : Set ℕ} {o : Open ℕ} {b : Bool} {es : List Edit} {items : List (Item ℕ Line)}
    {out : List Out} (h : Written n S o b es items out) : insertedStrings out = insertedOf es := by
  induction h with
  | nil => rfl
  | bracket _ _ ih => exact ih
  | hidden _ _ ih => exact ih
  | kept _ _ ih => exact ih
  | dropped _ _ ih => exact ih
  | openDel _ _ ih => exact ih
  | closeDel _ ih => exact ih
  | insert ss _ _ ih => simp [ih, insertedOf, Edit.strings]

/-! ### The lines of the script -/

/-- Unchanged and deleted lines are old, unchanged and inserted ones new. -/
theorem length_newOf (es : List Edit) :
    (newOf es).length + (droppedOf es).length = (oldOf es).length + (insertedOf es).length := by
  induction es with
  | nil => rfl
  | cons e es ih =>
    cases e <;> simp only [insertedOf, Edit.strings, Edit.new, newOf_cons, droppedOf_keep, droppedOf_drop,
      droppedOf_insert, oldOf_keep, oldOf_drop, oldOf_insert, List.flatMap_cons, List.length_append, List.length_cons,
      List.length_nil] at ih ⊢ <;> omega

theorem edits_parts (hs : List Hunk) (tail : List Line) :
    droppedOf (editsOf hs tail) = hs.flatMap Hunk.del ∧ insertedOf (editsOf hs tail) = hs.flatMap Hunk.ins := by
  have hkeep : ∀ ls : List Line, droppedOf (ls.map .keep) = [] ∧ insertedOf (ls.map .keep) = [] := by
    intro ls
    induction ls with
    | nil => exact ⟨rfl, rfl⟩
    | cons l ls ih => exact ih
  have hdrop : ∀ ls : List Line, droppedOf (ls.map .drop) = ls ∧ insertedOf (ls.map .drop) = [] := by
    intro ls
    induction ls with
    | nil => exact ⟨rfl, rfl⟩
    | cons l ls ih => exact ⟨congrArg (l :: ·) ih.1, ih.2⟩
  have hins : ∀ ss, droppedOf (insertEdit ss) = [] ∧ insertedOf (insertEdit ss) = ss := by
    intro ss
    unfold insertEdit
    split
    · rename_i h
      rw [h]
      exact ⟨rfl, rfl⟩
    · simp [insertedOf, Edit.strings]
  have happ : ∀ es fs, insertedOf (es ++ fs) = insertedOf es ++ insertedOf fs := fun es fs => by simp [insertedOf]
  induction hs with
  | nil => exact hkeep tail
  | cons h hs ih =>
    simp only [editsOf, Hunk.change, droppedOf_append, happ, hkeep, hdrop, hins, ih, List.flatMap_cons]
    simp

/-- How many lines of the script begin with the character `c`. -/
def linesWith (c : UInt8) (script : List CLine) : ℕ := script.countP fun s => s.bytes.head? = some c

theorem linesWith_append (c : UInt8) (xs ys : List CLine) :
    linesWith c (xs ++ ys) = linesWith c xs + linesWith c ys := List.countP_append

/-- A command begins with a digit. -/
theorem command_head_digit (h : Hunk) (a b : ℕ) : ∃ c r, (h.commandLine a b).delivered.bytes = c :: r ∧
    isDigit c = true := by
  obtain ⟨c, r, hc⟩ := List.exists_cons_of_ne_nil (decimal_ne_nil (h.leftFirst a))
  have hdigit : isDigit c = true := decimal_isDigit (h.leftFirst a) c (by simp [hc])
  simp only [Hunk.commandLine, plainLine, Hunk.command, Hunk.left, rangeBytes, Line.delivered_bytes]
  split
  · rw [hc]
    exact ⟨c, _, rfl, hdigit⟩
  · rw [hc]
    exact ⟨c, _, rfl, hdigit⟩

theorem linesWith_body (h : Hunk) :
    linesWith 60 h.body = h.del.length ∧ linesWith 62 h.body = h.ins.length := by
  have hdel : ∀ ls : List Line, linesWith 60 (ls.map deletedLine) = ls.length ∧ linesWith 62 (ls.map deletedLine) = 0 := by
    intro ls
    induction ls with
    | nil => exact ⟨rfl, rfl⟩
    | cons l ls ih =>
      simp only [linesWith, List.map_cons, List.countP_cons, deletedLine, quoted, List.length_cons] at ih ⊢
      simpa using ih
  have hins : ∀ ss : List CLine, linesWith 62 (ss.map insertedLine) = ss.length ∧
      linesWith 60 (ss.map insertedLine) = 0 := by
    intro ss
    induction ss with
    | nil => exact ⟨rfl, rfl⟩
    | cons s ss ih =>
      simp only [linesWith, List.map_cons, List.countP_cons, insertedLine, quoted, List.length_cons] at ih ⊢
      simpa using ih
  have hdash : ∀ c, c ≠ 45 → linesWith c [dashes.delivered] = 0 := by
    intro c hc
    simp [linesWith, dashes, plainLine, hc.symm]
  unfold Hunk.body insertPart
  simp only [linesWith_append, hdel, hins]
  split
  · simp [hdash 60 (by decide), hdash 62 (by decide)]
  · simp [linesWith]

/-- **The lines marked `<` are those deleted, the lines marked `>` those inserted.** -/
theorem linesWith_render (s : Script) :
    linesWith 60 s.render = (droppedOf s.edits).length ∧ linesWith 62 s.render = (insertedOf s.edits).length := by
  have hmarker : linesWith 60 (markerPart s.marker) = 0 ∧ linesWith 62 (markerPart s.marker) = 0 := by
    cases s.marker <;> decide
  have hhunks : ∀ hs a b, linesWith 60 (renderHunks a b hs) = (hs.flatMap Hunk.del).length ∧
      linesWith 62 (renderHunks a b hs) = (hs.flatMap Hunk.ins).length := by
    intro hs
    induction hs with
    | nil => exact fun _ _ => ⟨rfl, rfl⟩
    | cons h hs ih =>
      intro a b
      obtain ⟨c, r, hc, hdigit⟩ := command_head_digit h (a + h.keep.length) (b + h.keep.length)
      have hcmd : ∀ e, isDigit e = false →
          linesWith e [(h.commandLine (a + h.keep.length) (b + h.keep.length)).delivered] = 0 := by
        intro e he
        have hne : c ≠ e := fun h => by simp [h, he] at hdigit
        rw [linesWith, List.countP_singleton, hc]
        simp [hne]
      obtain ⟨h1, h2⟩ := ih (a + h.keep.length + h.del.length) (b + h.keep.length + h.ins.length)
      obtain ⟨h3, h4⟩ := linesWith_body h
      rw [renderHunks, List.cons_append, ← List.singleton_append]
      simp only [linesWith_append, h1, h2, h3, h4, hcmd 60 rfl, hcmd 62 rfl, List.flatMap_cons, List.length_append]
      omega
  obtain ⟨h1, h2⟩ := edits_parts s.hunks s.tail
  rw [Script.edits, h1, h2, Script.render, linesWith_append, linesWith_append, hmarker.1, hmarker.2]
  exact hhunks s.hunks 0 0

/-! ### The counts of a delta -/

/-- **The counts are right**: unchanged and deleted lines are the old version, unchanged and inserted ones the
new version, and the script marks those that are deleted and those that are inserted. -/
theorem delta_counts {hi : ℕ} {ss fin : SeqState} {b bs : Linebuf} {body : List UInt8} {vis : Visible} {p : DeltaParms}
    {s : Script} {G : List Line} (hf : ss.Fresh) (hget : get hi ss (readBody b body) = .ok (vis, fin))
    (hcl : Closed (readBody b body).lines) (hmax : p.lenMax = 0) (hhi : hi ≤ p.highest)
    (hs : s.DiffOf (vis.map Prod.snd) G) :
    ∃ r, delta p ss (deliveries bs (content s.render)) (readBody b body) = .ok r ∧
      r.unchanged + r.deleted = (vis.map Prod.snd).length ∧ r.unchanged + r.inserted = G.length ∧
      r.deleted = linesWith 60 s.render ∧ r.inserted = linesWith 62 s.render := by
  obtain ⟨he, items, hsound, hfin⟩ := sound_of_get hf hget hcl
  have hvis := visible_of_get hf hget hsound.parses hsound.inStates hsound.legal
  have hold : s.oldLines = visibleLines ss.includedSet shut items := hs.old.trans (by rw [hvis]; rfl)
  have hrange : InRange p.highest items := fun x hx k hk => by
    have := hsound.inRange x hx k hk
    omega
  obtain ⟨r, hd, hw, hcount⟩ := delta_follows (p := p) hmax hsound.parses hf.tracks hrange hsound.inStates
    hsound.legal s hold
  have hR : readBody b body = ⟨(readBody b body).lines, .ok ()⟩ := by rw [← he]
  have hins : r.inserted = (insertedOf s.edits).length := by rw [← hw.inserted]; exact deltaLoop_inserted hd
  rw [← hR] at hd
  -- after the last line of a closed body nothing is visible
  obtain ⟨hdel, hsum⟩ := hcount (by rw [hfin]; exact owner_eq_none_iff.mpr fun k hk => by simp [Shows, shut] at hk)
  have hlen := length_newOf s.edits
  rw [s.newOf_edits, hs.new, List.length_map, s.oldOf_edits, hold] at hlen
  obtain ⟨h60, h62⟩ := linesWith_render s
  refine ⟨r, by rw [hs.deliveries, hd], ?_, ?_, hdel.trans h60.symm, hins.trans h62.symm⟩
  · rw [← hs.old, hold]
    omega
  · omega

/-- The line `a` is edited into `b`: one line is deleted and one inserted. -/
theorem delta_counts_sample : ∃ r, delta sampleParms (sampleStates 1 (by decide))
      (deliveries .initial (content sampleScript.render)) (readBody .initial (storedLines sampleBody)) = .ok r ∧
    r.unchanged + r.deleted = [lineA].length ∧ r.unchanged + r.inserted = [lineB].length ∧
      r.deleted = linesWith 60 sampleScript.render ∧ r.inserted = linesWith 62 sampleScript.render := by
  obtain ⟨fin, hget⟩ := sample_get
  refine delta_counts (sampleStates_fresh 1 _) hget ?_ rfl le_rfl ⟨rfl, rfl⟩
  rw [readBody_storedLines]
  exact sampleBody_closed

end CSSC.Body
