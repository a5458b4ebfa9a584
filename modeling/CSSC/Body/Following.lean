import CSSC.Body.Delta
import CSSC.Body.DiffScript
import CSSC.Body.Items

/-!
# Where in the script the writer is

The state of `diff_state` is compared, call by call, with what is left of a script. What the script does next is an
`Edit`: it keeps a line, drops a line, or inserts a block. Where `diff_state` stands is said by `Keeping`, `Deleting`,
`Inserting` and `Between`, its counters, its buffer and its input in terms of the hunks that are left. At each of
these places `process` writes a certain bracket and moves to a certain other place (`process_next`, `process_keep`,
`process_delete`, `process_insert`, `process_dashes`, `process_change`).
-/

namespace CSSC.Body

open CSSC.Lines CSSC.Library.Weave

/-! ### What a script does -/

/-- What a script does next. -/
inductive Edit where
  /-- The next visible line is unchanged. -/
  | keep (l : Line)
  /-- The next visible line is deleted. -/
  | drop (l : Line)
  /-- A block of lines is inserted. -/
  | insert (ss : List CLine)

/-- The block of a change, if there is one. -/
def insertEdit (ins : List CLine) : List Edit := if ins = [] then [] else [.insert ins]

/-- The change of a hunk. -/
def Hunk.change (h : Hunk) : List Edit := h.del.map .drop ++ insertEdit h.ins

theorem change_of_insertion {h : Hunk} {s : CLine} {is : List CLine} (hdel : h.del = []) (hins : h.ins = s :: is) :
    h.change = [.insert (s :: is)] := by
  simp [Hunk.change, hdel, hins, insertEdit]

/-- The edits of hunks and of the unchanged lines after them. -/
def editsOf : List Hunk → List Line → List Edit
  | [], tail => tail.map .keep
  | h :: hs, tail => h.keep.map .keep ++ (h.change ++ editsOf hs tail)

/-- The edits of a script. -/
def Script.edits (s : Script) : List Edit := editsOf s.hunks s.tail

/-- The line of the old version that an edit goes over. -/
def Edit.old : Edit → List Line
  | keep l => [l]
  | drop l => [l]
  | insert _ => []

/-- The lines of the old version that edits go over. -/
def oldOf (edits : List Edit) : List Line := edits.flatMap Edit.old

@[simp] theorem oldOf_nil : oldOf [] = [] := rfl
@[simp] theorem oldOf_keep (l : Line) (es : List Edit) : oldOf (.keep l :: es) = l :: oldOf es := rfl
@[simp] theorem oldOf_drop (l : Line) (es : List Edit) : oldOf (.drop l :: es) = l :: oldOf es := rfl
@[simp] theorem oldOf_insert (ss : List CLine) (es : List Edit) : oldOf (.insert ss :: es) = oldOf es := rfl

theorem oldOf_append (es fs : List Edit) : oldOf (es ++ fs) = oldOf es ++ oldOf fs := by simp [oldOf]

@[simp] theorem oldOf_map_keep (ls : List Line) : oldOf (ls.map .keep) = ls := by
  induction ls with
  | nil => rfl
  | cons l ls ih => simp [ih]

@[simp] theorem oldOf_map_drop (ls : List Line) : oldOf (ls.map .drop) = ls := by
  induction ls with
  | nil => rfl
  | cons l ls ih => simp [ih]

@[simp] theorem oldOf_insertEdit (ins : List CLine) : oldOf (insertEdit ins) = [] := by
  unfold insertEdit
  split <;> rfl

@[simp] theorem oldOf_change (h : Hunk) : oldOf h.change = h.del := by
  simp [Hunk.change, oldOf_append]

theorem oldOf_editsOf (hs : List Hunk) (tail : List Line) :
    oldOf (editsOf hs tail) = hs.flatMap (fun h => h.keep ++ h.del) ++ tail := by
  induction hs with
  | nil => simp [editsOf]
  | cons h hs ih => simp [editsOf, oldOf_append, ih]

theorem Script.oldOf_edits (s : Script) : oldOf s.edits = s.oldLines := oldOf_editsOf _ _

/-- The line that an edit deletes. -/
def Edit.dropped : Edit → List Line
  | keep _ => []
  | drop l => [l]
  | insert _ => []

/-- The lines that edits delete. -/
def droppedOf (edits : List Edit) : List Line := edits.flatMap Edit.dropped

@[simp] theorem droppedOf_nil : droppedOf [] = [] := rfl
@[simp] theorem droppedOf_keep (l : Line) (es : List Edit) : droppedOf (.keep l :: es) = droppedOf es := rfl
@[simp] theorem droppedOf_drop (l : Line) (es : List Edit) : droppedOf (.drop l :: es) = l :: droppedOf es := rfl
@[simp] theorem droppedOf_insert (ss : List CLine) (es : List Edit) : droppedOf (.insert ss :: es) = droppedOf es := rfl

theorem droppedOf_append (es fs : List Edit) : droppedOf (es ++ fs) = droppedOf es ++ droppedOf fs := by
  simp [droppedOf]

/-- Only what the old version has can be deleted. -/
theorem droppedOf_sublist (es : List Edit) : (droppedOf es).Sublist (oldOf es) := by
  induction es with
  | nil => exact .slnil
  | cons e es ih =>
    cases e with
    | keep l => exact ih.cons l
    | drop l => exact ih.cons_cons l
    | insert ss => exact ih

/-- Hunks that each begin with an unchanged line. -/
def Kept (hs : List Hunk) : Prop := ∀ h ∈ hs, h.keep ≠ []

/-! ### Where in the script the program is -/

/-- Inside the unchanged lines before the change of `h`; `ks` are still to come. -/
structure Keeping (d : DiffState) (a b : ℕ) (ks : List Line) (h : Hunk) (hs : List Hunk) (m : Bool) : Prop where
  state : d.state = .nochange
  left : d.linesLeft = ks.length
  change : d.changeLeft = 0
  inAt : d.inLineno = a
  outAt : d.outLineno = b
  buffer : d.linebuf = (h.commandLine (a + ks.length) (b + ks.length)).delivered
  input : d.input = h.body ++
    (renderHunks (a + ks.length + h.del.length) (b + ks.length + h.ins.length) hs ++ markerPart m)

/-- Inside the deleted lines of a change; `ds` are still to come, and then `ins` are inserted. -/
structure Deleting (d : DiffState) (a b : ℕ) (ds : List Line) (ins : List CLine) (hs : List Hunk) (m : Bool) :
    Prop where
  state : d.state = .delete
  left : d.linesLeft = ds.length
  change : d.changeLeft = ins.length
  inAt : d.inLineno = a
  outAt : d.outLineno = b
  input : d.input = ds.map deletedLine ++ ((if ins = [] then [] else [dashes.delivered]) ++ (ins.map insertedLine ++
    (renderHunks (a + ds.length) (b + ins.length) hs ++ markerPart m)))

/-- Inside the inserted lines of a change; `is` are still to come. -/
structure Inserting (d : DiffState) (a b : ℕ) (is : List CLine) (hs : List Hunk) (m : Bool) : Prop where
  state : d.state = .insert
  left : d.linesLeft = is.length
  change : d.changeLeft = 0
  inAt : d.inLineno = a + 1
  outAt : d.outLineno = b
  input : d.input = is.map insertedLine ++ (renderHunks a (b + is.length) hs ++ markerPart m)

/-- Between changes: `state` has just been left, and no line of its change is left. -/
structure Between (d : DiffState) (a b : ℕ) (hs : List Hunk) (m : Bool) : Prop where
  state : d.state = .start ∨ d.state = .delete ∨ d.state = .insert
  left : d.linesLeft = 0
  change : d.changeLeft = 0
  inAt : d.advance.inLineno = a + 1
  outAt : d.outLineno = b
  input : d.input = renderHunks a b hs ++ markerPart m

/-- After a change, or at the start: in the unchanged lines before the next change, or at the end. -/
def Next (d : DiffState) (a b : ℕ) (hs : List Hunk) (m : Bool) : Prop :=
  (hs = [] ∧ d.state = .end_) ∨
    ∃ h hs' k ks, hs = h :: hs' ∧ h.keep = k :: ks ∧ Keeping d (a + 1) (b + 1) ks h hs' m

/-- `process` has written the bracket of the change of `h` and read its first line. -/
inductive Changed (n : ℕ) (d d' : DiffState) (a b : ℕ) (h : Hunk) (hs : List Hunk) (m : Bool) : Prop where
  /-- The first line is deleted. -/
  | deletion {l ds} : h.del = l :: ds → d.process n = .ok (d', [.control letterD n]) →
      Deleting d' (a + 1) b ds h.ins hs m → Changed n d d' a b h hs m
  /-- The first line is inserted. -/
  | insertion {s is} : h.del = [] → h.ins = s :: is → d.process n = .ok (d', [.control letterI n]) →
      Inserting d' a (b + 1) is hs m → d'.linebuf = insertedLine s → Changed n d d' a b h hs m

namespace DiffState

variable {n : ℕ} {d : DiffState} {a b : ℕ}

@[simp] theorem advance_state (d : DiffState) : d.advance.state = d.state := by
  unfold advance
  split <;> rfl

@[simp] theorem advance_linesLeft (d : DiffState) : d.advance.linesLeft = d.linesLeft := by
  unfold advance
  split <;> rfl

@[simp] theorem advance_changeLeft (d : DiffState) : d.advance.changeLeft = d.changeLeft := by
  unfold advance
  split <;> rfl

@[simp] theorem advance_outLineno (d : DiffState) : d.advance.outLineno = d.outLineno := by
  unfold advance
  split <;> rfl

@[simp] theorem advance_linebuf (d : DiffState) : d.advance.linebuf = d.linebuf := by
  unfold advance
  split <;> rfl

@[simp] theorem advance_input (d : DiffState) : d.advance.input = d.input := by
  unfold advance
  split <;> rfl

theorem advance_inLineno (h : d.state ≠ .insert) : d.advance.inLineno = d.inLineno + 1 := by
  rw [advance, if_pos h]

theorem advance_insert (h : d.state = .insert) : d.advance = d := by
  rw [advance, if_neg (by simp [h])]

/-- What `process` does is what `turn` and `answer` do. -/
theorem process_of_turn (hs : d.state ≠ .end_) {d' d'' : DiffState} {out : List Out}
    (ht : turn n d.advance = .ok (d', out)) (ha : answer d' = .ok d'') : d.process n = .ok (d'', out) := by
  simp only [process, advance_state, ne_eq, hs, not_false_eq_true, if_true, ht, ok_bind, ha]
  rfl

theorem process_end (h : d.state = .end_) :
    ∃ d', d.process n = .ok (d', []) ∧ d'.state = .end_ ∧ d'.input = d.input := by
  refine ⟨d.advance.lineWritten, ?_, by simp [lineWritten, h], by simp [lineWritten]⟩
  have ha : answer d.advance = .ok d.advance.lineWritten := by simp [answer, h]
  simp only [process, advance_state, h, ne_eq, not_true_eq_false, if_false, ok_bind, ha]
  rfl

/-- With a line of the last change left, `process` goes past it. -/
theorem process_more (hs : d.state ≠ .end_) (hl : 0 < d.linesLeft) {d' : DiffState}
    (ha : answer d.advance.lineTaken = .ok d') : d.process n = .ok (d', []) := by
  refine process_of_turn hs ?_ ha
  rw [turn, advance_linesLeft, if_neg (by omega), if_neg (by omega)]

/-- With no line left, `process` writes the brackets and enters what comes next. -/
theorem process_turn (hs : d.state ≠ .end_) (hl : d.linesLeft = 0) {d' d'' : DiffState}
    (hn : nextState d.advance = .ok d') (ha : answer d'.lineTaken = .ok d'') :
    d.process n = .ok (d'', closing n d.state ++ opening n d'.state) := by
  refine process_of_turn hs ?_ ha
  rw [turn, advance_linesLeft, if_neg (by omega), if_pos hl, hn, ok_bind, advance_state]
  rfl

/-- Outside the changes nothing is read. -/
theorem answer_other (h1 : d.state ≠ .delete) (h2 : d.state ≠ .insert) : answer d = .ok d.lineWritten := by
  rw [answer, if_neg h1, if_neg h2]

/-- Inside a deletion a deleted line is read. -/
theorem answer_delete {l : Line} {r : List CLine} (h : d.state = .delete) (hi : d.input = deletedLine l :: r) :
    answer d = .ok { d with linebuf := deletedLine l, input := r } := by
  rw [answer, if_pos h, expect, readLine, hi]
  rfl

/-- Inside an insertion an inserted line is read. -/
theorem answer_insert {s : CLine} {r : List CLine} (h : d.state = .insert) (hi : d.input = insertedLine s :: r) :
    answer d = .ok { d with linebuf := insertedLine s, input := r, outLineno := d.outLineno + 1 } := by
  rw [answer, if_neg (by simp [h]), if_pos h, expect, readLine, hi]
  rfl

/-- The line that was read for an insertion is the line inserted. -/
theorem getInsertLine_eq {s : CLine} (h : d.state = .insert) (hb : d.linebuf = insertedLine s) :
    getInsertLine d = .ok s := by
  rw [getInsertLine, if_neg (by simp [h]), hb]
  rfl

/-- A backslash does not begin a command. -/
theorem command_head (h : Hunk) (a b : ℕ) : ((h.commandLine a b).delivered).bytes.headD 0 ≠ 92 := by
  have hb : ((h.commandLine a b).delivered).bytes = h.left a ++ (h.letter :: (h.right b ++ [10])) := by
    simp [Hunk.commandLine, plainLine, Hunk.command]
  have hd : ∀ (x : ℕ) (t : List UInt8), (Library.Decimal.decimal x ++ t).headD 0 ≠ 92 := by
    intro x t
    obtain ⟨c, s, hcs⟩ := List.exists_cons_of_ne_nil (Library.Decimal.decimal_ne_nil x)
    have hc := Library.Decimal.isDigit_bounds (Library.Decimal.decimal_isDigit x c (by simp [hcs]))
    rw [hcs]
    intro e
    have : c = 92 := e
    subst this
    simp at hc
  rw [hb, Hunk.left, rangeBytes]
  split
  · exact hd _ _
  · rw [List.append_assoc]
    exact hd _ _

/-- **Between changes** `next_state` reads the next command, or finds the end. -/
theorem nextState_between {hs : List Hunk} {m : Bool} (h : Between d a b hs m) (hk : Kept hs) :
    ∃ d', nextState d.advance = .ok d' ∧ d'.changeLeft = 0 ∧
      ((hs = [] ∧ d'.state = .end_) ∨ ∃ h hs', hs = h :: hs' ∧ d'.state = .nochange ∧
        d'.linesLeft = h.keep.length ∧ d'.inLineno = a + 1 ∧ d'.outLineno = b ∧
        d'.linebuf = (h.commandLine (a + h.keep.length) (b + h.keep.length)).delivered ∧
        d'.input = h.body ++ (renderHunks (a + h.keep.length + h.del.length) (b + h.keep.length + h.ins.length) hs' ++
          markerPart m)) := by
  have h1 : ¬ (d.advance.state = .delete ∧ d.advance.changeLeft ≠ 0) := by simp [h.change]
  have h2 : d.advance.state ≠ .nochange := by
    rw [advance_state]
    rcases h.state with e | e | e <;> simp [e]
  rw [nextState, if_neg h1, if_pos h2, readLine, advance_input, h.input]
  cases hs with
  | nil =>
    cases m with
    | false => exact ⟨_, rfl, by simpa using h.change, .inl ⟨rfl, rfl⟩⟩
    | true => exact ⟨_, rfl, by simpa using h.change, .inl ⟨rfl, rfl⟩⟩
  | cons h' hs =>
    have hne := List.length_pos_iff.mpr (hk h' List.mem_cons_self)
    have hcmd := command_head h' (a + h'.keep.length) (b + h'.keep.length)
    simp only [renderHunks, List.cons_append, List.append_assoc]
    rw [if_neg hcmd]
    refine ⟨_, takeCommand_ahead rfl ?_, by simpa using h.change, .inr ⟨h', hs, rfl, rfl, ?_, ?_, ?_, rfl, rfl⟩⟩
    · show d.advance.inLineno ≤ _
      rw [h.inAt]
      push_cast
      omega
    · show ((a + h'.keep.length : ℕ) : ℤ) - d.advance.inLineno + 1 = _
      rw [h.inAt]
      push_cast
      omega
    · exact h.inAt
    · exact (advance_outLineno d).trans h.outAt

/-- **Between changes** `process` ends the last change and goes to the next unchanged line, or to the
end. -/
theorem process_next {hs : List Hunk} {m : Bool} (h : Between d a b hs m) (hk : Kept hs) :
    ∃ d', d.process n = .ok (d', closing n d.state) ∧ Next d' a b hs m := by
  have hs0 : d.state ≠ .end_ := by rcases h.state with e | e | e <;> simp [e]
  obtain ⟨d', hn, hc, hcase⟩ := nextState_between h hk
  have hstate : d'.state = .end_ ∨ d'.state = .nochange := by
    rcases hcase with ⟨-, e⟩ | ⟨_, _, -, e, -⟩
    · exact .inl e
    · exact .inr e
  have hans : answer d'.lineTaken = .ok d'.lineTaken.lineWritten := by
    refine answer_other ?_ ?_
    · rcases hstate with e | e <;> simp [lineTaken, e]
    · rcases hstate with e | e <;> simp [lineTaken, e]
  refine ⟨d'.lineTaken.lineWritten, ?_, ?_⟩
  · rw [process_turn hs0 h.left hn hans]
    have : opening n d'.state = [] := by rcases hstate with e | e <;> simp [opening, e]
    rw [this, List.append_nil]
  · rcases hcase with ⟨rfl, e⟩ | ⟨h', hs', rfl, e, hl, hi, ho, hb, hinp⟩
    · exact .inl ⟨rfl, e⟩
    · obtain ⟨k, ks, hks⟩ := List.exists_cons_of_ne_nil (hk h' List.mem_cons_self)
      refine .inr ⟨h', hs', k, ks, rfl, hks, e, ?_, hc, ?_, ?_, ?_, ?_⟩
      · show d'.linesLeft - 1 = _
        rw [hl, hks, List.length_cons]
        push_cast
        omega
      · show d'.inLineno = _
        rw [hi]
        push_cast
        rfl
      · show d'.outLineno + 1 = _
        rw [ho]
        push_cast
        rfl
      · show d'.linebuf = _
        rw [hb, hks, List.length_cons, show a + (ks.length + 1) = a + 1 + ks.length by omega,
          show b + (ks.length + 1) = b + 1 + ks.length by omega]
      · show d'.input = _
        rw [hinp, hks, List.length_cons, show a + (ks.length + 1) = a + 1 + ks.length by omega,
          show b + (ks.length + 1) = b + 1 + ks.length by omega]

/-- **Inside the unchanged lines** `process` goes past one. -/
theorem process_keep {ks : List Line} {k : Line} {h : Hunk} {hs : List Hunk} {m : Bool}
    (hd : Keeping d a b (k :: ks) h hs m) :
    ∃ d', d.process n = .ok (d', []) ∧ Keeping d' (a + 1) (b + 1) ks h hs m := by
  have hne : d.state ≠ .insert := by simp [hd.state]
  have hans : answer d.advance.lineTaken = .ok d.advance.lineTaken.lineWritten :=
    answer_other (by simp [lineTaken, hd.state]) (by simp [lineTaken, hd.state])
  refine ⟨_, process_more (by simp [hd.state]) ?_ hans, ?_⟩
  · rw [hd.left, List.length_cons]
    omega
  · have ha : a + (ks.length + 1) = a + 1 + ks.length := by omega
    have hb : b + (ks.length + 1) = b + 1 + ks.length := by omega
    have hbuf := hd.buffer
    have hinp := hd.input
    rw [List.length_cons, ha, hb] at hbuf hinp
    refine ⟨?_, ?_, ?_, ?_, ?_, ?_, ?_⟩
    · simpa [lineTaken, lineWritten] using hd.state
    · show d.advance.linesLeft - 1 = _
      rw [advance_linesLeft, hd.left, List.length_cons]
      push_cast
      omega
    · simpa [lineTaken, lineWritten] using hd.change
    · show d.advance.inLineno = _
      rw [advance_inLineno hne, hd.inAt]
      push_cast
      rfl
    · show d.advance.outLineno + 1 = _
      rw [advance_outLineno, hd.outAt]
      push_cast
      rfl
    · simpa [lineTaken, lineWritten] using hbuf
    · simpa [lineTaken, lineWritten] using hinp

/-- **Inside the deleted lines** `process` goes past one. -/
theorem process_delete {ds : List Line} {l : Line} {ins : List CLine} {hs : List Hunk} {m : Bool}
    (hd : Deleting d a b (l :: ds) ins hs m) :
    ∃ d', d.process n = .ok (d', []) ∧ Deleting d' (a + 1) b ds ins hs m := by
  have hne : d.state ≠ .insert := by simp [hd.state]
  have hinp := hd.input
  rw [List.map_cons, List.cons_append, List.length_cons, show a + (ds.length + 1) = a + 1 + ds.length by omega] at hinp
  have hans := answer_delete (d := d.advance.lineTaken) (by simpa [lineTaken] using hd.state)
    ((advance_input d).trans hinp)
  refine ⟨_, process_more (by simp [hd.state]) ?_ hans, ⟨?_, ?_, ?_, ?_, ?_, rfl⟩⟩
  · rw [hd.left, List.length_cons]
    omega
  · simpa [lineTaken] using hd.state
  · show d.advance.linesLeft - 1 = _
    rw [advance_linesLeft, hd.left, List.length_cons]
    push_cast
    omega
  · simpa [lineTaken] using hd.change
  · show d.advance.inLineno = _
    rw [advance_inLineno hne, hd.inAt]
    push_cast
    rfl
  · simpa [lineTaken] using hd.outAt

/-- **Inside the inserted lines** `process` reads one. -/
theorem process_insert {is : List CLine} {s : CLine} {hs : List Hunk} {m : Bool}
    (hd : Inserting d a b (s :: is) hs m) :
    ∃ d', d.process n = .ok (d', []) ∧ Inserting d' a (b + 1) is hs m ∧ d'.linebuf = insertedLine s := by
  have hadv := advance_insert hd.state
  have hinp := hd.input
  rw [List.map_cons, List.cons_append, List.length_cons, show b + (is.length + 1) = b + 1 + is.length by omega] at hinp
  have hans := answer_insert (d := d.advance.lineTaken) (by simpa [lineTaken] using hd.state)
    ((advance_input d).trans hinp)
  refine ⟨_, process_more (by simp [hd.state]) ?_ hans, ⟨?_, ?_, ?_, ?_, ?_, rfl⟩, rfl⟩
  · rw [hd.left, List.length_cons]
    omega
  · simpa [lineTaken] using hd.state
  · show d.advance.linesLeft - 1 = _
    rw [advance_linesLeft, hd.left, List.length_cons]
    push_cast
    omega
  · simpa [lineTaken] using hd.change
  · show d.advance.inLineno = _
    rw [hadv, hd.inAt]
  · show d.advance.outLineno + 1 = _
    rw [advance_outLineno, hd.outAt]
    push_cast
    rfl

/-- **After the deleted lines** of a change `process` reads the first line that it inserts. -/
theorem process_dashes {s : CLine} {is : List CLine} {hs : List Hunk} {m : Bool}
    (hd : Deleting d a b [] (s :: is) hs m) :
    ∃ d', d.process n = .ok (d', [.control letterE n, .control letterI n]) ∧
      Inserting d' a (b + 1) is hs m ∧ d'.linebuf = insertedLine s := by
  have hinp := hd.input
  have hch : d.advance.changeLeft ≠ 0 := by
    rw [advance_changeLeft, hd.change, List.length_cons]
    push_cast
    omega
  rw [List.map_nil, List.nil_append, if_neg (by simp), List.singleton_append, List.map_cons, List.cons_append,
    List.length_cons, show b + (is.length + 1) = b + 1 + is.length by omega] at hinp
  have hn : nextState d.advance = .ok { d.advance with
      linesLeft := d.advance.changeLeft, changeLeft := 0, state := .insert, linebuf := dashes.delivered,
      input := insertedLine s :: (is.map insertedLine ++
        (renderHunks (a + 0) (b + 1 + is.length) hs ++ markerPart m)) } := by
    rw [nextState, if_pos ⟨by simp [hd.state], hch⟩, readLine, advance_input, hinp]
    rfl
  have hp := process_turn (n := n) (by simp [hd.state]) hd.left hn (answer_insert rfl rfl)
  change d.process n = .ok (_, closing n d.state ++ opening n .insert) at hp
  rw [hd.state] at hp
  refine ⟨_, hp, ⟨rfl, ?_, rfl, ?_, ?_, rfl⟩, rfl⟩
  · show d.advance.changeLeft - 1 = _
    rw [advance_changeLeft, hd.change, List.length_cons]
    push_cast
    omega
  · show d.advance.inLineno = _
    rw [advance_inLineno (by simp [hd.state]), hd.inAt]
  · show d.advance.outLineno + 1 = _
    rw [advance_outLineno, hd.outAt]
    push_cast
    rfl

/-- **At a change** `process` writes its bracket and reads its first line. -/
theorem process_change {d' : DiffState} {h : Hunk} {hs : List Hunk} {m : Bool} (hs0 : d.state ≠ .end_)
    (hl : d.linesLeft = 0) (hcl : closing n d.state = [])
    (hn : nextState d.advance = .ok (atChange d' h)) (hch : d'.changeLeft = 0) (hin : d'.inLineno = a + 1)
    (hout : d'.outLineno = b) (hinp : d'.input = h.body ++
      (renderHunks (a + h.del.length) (b + h.ins.length) hs ++ markerPart m)) :
    ∃ d'', Changed n d d'' a b h hs m := by
  rcases hdel : h.del with _ | ⟨l, ds⟩
  · -- an insertion
    obtain ⟨s, is, hins⟩ := List.exists_cons_of_ne_nil (h.changes.resolve_left (fun hne => hne hdel))
    have hbody : h.body = insertedLine s :: is.map insertedLine := by
      simp [Hunk.body, insertPart, hdel, hins]
    rw [hbody, hdel, hins, List.length_nil, List.length_cons, Nat.add_zero,
      show b + (is.length + 1) = b + 1 + is.length by omega] at hinp
    have hat : atChange d' h = { d' with state := .insert, linesLeft := h.ins.length } := by
      rw [atChange, if_pos hdel]
    rw [hat] at hn
    have hp := process_turn (n := n) hs0 hl hn (answer_insert rfl hinp)
    rw [hcl] at hp
    refine ⟨_, .insertion hdel hins hp ⟨rfl, ?_, hch, hin, ?_, rfl⟩ rfl⟩
    · show ((h.ins.length : ℕ) : ℤ) - 1 = _
      rw [hins, List.length_cons]
      push_cast
      omega
    · show d'.outLineno + 1 = _
      rw [hout]
      push_cast
      rfl
  · -- a deletion, or a change of lines
    have hbody : h.body = deletedLine l :: (ds.map deletedLine ++
        ((if h.ins = [] then [] else [dashes.delivered]) ++ h.ins.map insertedLine)) := by
      by_cases hi : h.ins = []
      · simp [Hunk.body, insertPart, hdel, hi]
      · simp [Hunk.body, insertPart, hdel, hi]
    rw [hbody, hdel, List.length_cons, show a + (ds.length + 1) = a + 1 + ds.length by omega] at hinp
    have hat : atChange d' h = { d' with state := .delete, linesLeft := h.del.length, changeLeft := h.ins.length } := by
      rw [atChange, if_neg (by simp [hdel])]
    rw [hat] at hn
    simp only [List.cons_append, List.append_assoc] at hinp
    have hp := process_turn (n := n) hs0 hl hn (answer_delete rfl hinp)
    rw [hcl] at hp
    refine ⟨_, .deletion hdel hp ⟨rfl, ?_, rfl, ?_, hout, rfl⟩⟩
    · show ((h.del.length : ℕ) : ℤ) - 1 = _
      rw [hdel, List.length_cons]
      push_cast
      omega
    · show d'.inLineno = _
      rw [hin]
      push_cast
      rfl

end DiffState

end CSSC.Body
