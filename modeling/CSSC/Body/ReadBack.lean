import CSSC.Body.Writing

/-!
# Reading back what was written

The bytes that the writer emits are read by the line buffer again. Brackets and copied lines come back as they were
written. A block of inserted strings comes back as its lines, if it ends with a newline (`EndsLine`); otherwise the
closing bracket is glued to its last line, and lost.

So **what is written is read back as a splice of the old body**, with the blocks closed that end with a newline
(`read_back`), and the conditions of `Splice` can be told from the edits (`closed_iff`, `settled_iff`).
-/

namespace CSSC.Body

open CSSC.Lines CSSC.Library.Weave CSSC.Library.Decimal

/-! ### Brackets -/

/-- The line of a bracket that the program writes. -/
def controlLine (letter : UInt8) (hl : 32 < letter.toNat) (n : ℕ) : Line where
  bytes := controlBytes letter n
  no_nul := by
    simp only [controlBytes, List.mem_cons, not_or]
    refine ⟨by decide, fun e => by subst e; simp at hl, by decide, fun h => ?_⟩
    exact absurd (decimal_bounds h) (by decide)
  no_newline := by
    simp only [controlBytes, List.mem_cons, not_or]
    refine ⟨by decide, fun e => by subst e; simp at hl, by decide, fun h => ?_⟩
    exact absurd (decimal_bounds h) (by decide)

theorem controlLine_kind {letter : UInt8} (hl : 32 < letter.toNat) (n : ℕ) :
    (controlLine letter hl n).kind = letter := rfl

theorem controlLine_number {letter : UInt8} (hl : 32 < letter.toNat) {n : ℕ} (hn : n ≤ 65535) :
    lineNumber (controlLine letter hl n) = .ok n := strictAtous_decimal hn

/-- `^AI n`. -/
def insLine (n : ℕ) : Line := controlLine letterI (by decide) n
/-- `^AD n`. -/
def delLine (n : ℕ) : Line := controlLine letterD (by decide) n
/-- `^AE n`. -/
def endLine (n : ℕ) : Line := controlLine letterE (by decide) n

theorem item?_insLine {n : ℕ} (hn : n ≤ 65535) : Line.item? (insLine n) = some (.start .ins n (insLine n)) :=
  item?_start .ins rfl (controlLine_number _ hn) rfl

theorem item?_delLine {n : ℕ} (hn : n ≤ 65535) : Line.item? (delLine n) = some (.start .del n (delLine n)) :=
  item?_start .del rfl (controlLine_number _ hn) rfl

theorem item?_endLine {n : ℕ} (hn : n ≤ 65535) : Line.item? (endLine n) = some (.fin n (endLine n)) :=
  item?_fin rfl (controlLine_number _ hn) rfl

/-! ### Blocks -/

/-- The bytes of a block. -/
def content (ss : List CLine) : List UInt8 := ss.flatMap CLine.bytes

/-- Bytes that are empty or end with a newline. -/
def EndsLine (c : List UInt8) : Prop := c.getLastD 10 = 10

instance (c : List UInt8) : Decidable (EndsLine c) := inferInstanceAs (Decidable (_ = _))

/-- A string that does not begin with `^A`. -/
def Plain (bytes : List UInt8) : Prop := bytes.head? ≠ some 1

instance (bytes : List UInt8) : Decidable (Plain bytes) := inferInstanceAs (Decidable (_ ≠ _))

/-- One line glued to the front of another. -/
def Line.glue (l m : Line) : Line where
  bytes := l.bytes ++ m.bytes
  no_nul := by simp [l.no_nul, m.no_nul]
  no_newline := by simp [l.no_newline, m.no_newline]

theorem Line.glue_bytes (l m : Line) : (Line.glue l m).bytes = l.bytes ++ m.bytes := rfl

/-- Only the first of two glued lines matters, unless it is empty. -/
theorem Plain.glue {l m : Line} (hl : Plain l.bytes) (hm : l.bytes = [] → Plain m.bytes) :
    Plain (Line.glue l m).bytes := by
  rw [Line.glue_bytes]
  by_cases hne : l.bytes = []
  · rw [hne, List.nil_append]
    exact hm hne
  · rw [Plain, List.head?_append_of_ne_nil _ hne]
    exact hl

/-- A plain line is text. -/
theorem Plain.kind {l : Line} (h : Plain l.bytes) : l.kind = 0 := by
  rw [Line.kind, if_neg]
  intro e
  rcases hb : l.bytes with _ | ⟨c, r⟩
  · simp [Line.bufchar, hb] at e
  · rw [Line.bufchar, hb] at e
    exact h (by rw [hb]; exact congrArg some e)

/-- A string that was read is a line with its newline, or one without. -/
theorem CLine.split (s : CLine) : (∃ l : Line, s.bytes = l.stored) ∨ ∃ l : Line, s.bytes = l.bytes := by
  by_cases h : (10 : UInt8) ∈ s.bytes
  · left
    rcases List.eq_nil_or_concat s.bytes with he | ⟨r, c, he⟩
    · simp [he] at h
    · rw [List.concat_eq_append] at he
      have hr : (10 : UInt8) ∉ r := by
        have := s.newline_last
        rwa [he, List.dropLast_concat] at this
      have hc : c = 10 := by
        rw [he] at h
        rcases List.mem_append.mp h with h | h
        · exact absurd h hr
        · exact (List.mem_singleton.mp h).symm
      refine ⟨⟨r, fun h0 => s.no_nul ?_, hr⟩, by rw [he, hc]; rfl⟩
      rw [he]
      exact List.mem_append_left _ h0
  · exact .inr ⟨⟨s.bytes, s.no_nul, h⟩, rfl⟩

/-- A string that can only be read back as text: it does not begin with `^A`, or is a line of nothing else. -/
def Tame (bytes : List UInt8) : Prop := Plain bytes ∨ bytes = [1, 10]

instance (bytes : List UInt8) : Decidable (Tame bytes) := inferInstanceAs (Decidable (_ ∨ _))

theorem Plain.of_stored {l : Line} (h : Plain l.stored) : Plain l.bytes := by
  unfold Plain Line.stored at *
  rcases hb : l.bytes with _ | ⟨c, r⟩
  · simp
  · rw [hb] at h
    exact h

/-- A line that is stored tame is text. -/
theorem Tame.kind {l : Line} (h : Tame l.stored) : l.kind = 0 := by
  rcases h with h | h
  · exact h.of_stored.kind
  · have hb : l.bytes = [1] := List.append_left_injective [10] h
    simp [Line.kind, Line.bufchar, hb]

/-- The beginning of a line is tame only if it is plain. -/
theorem Tame.plain {l : Line} (h : Tame l.bytes) : Plain l.bytes :=
  h.resolve_right fun e => l.no_newline (by simp [e])

/-- A plain beginning and a line of text are a line of text. -/
theorem Plain.glue_kind {l m : Line} (hl : Plain l.bytes) (hm : m.kind = 0) : (Line.glue l m).kind = 0 := by
  by_cases he : l.bytes = []
  · rw [show Line.glue l m = m from Line.ext (by simp [Line.glue_bytes, he])]
    exact hm
  · exact (hl.glue fun e => absurd e he).kind

/-- **A block is whole lines and the beginning of another**: the lines are text, and the beginning is plain. -/
theorem exists_lines {ss : List CLine} (hp : ∀ s ∈ ss, Tame s.bytes) :
    ∃ (ls : List Line) (p : Line), content ss = storedLines ls ++ p.bytes ∧ (∀ l ∈ ls, l.kind = 0) ∧
      Plain p.bytes := by
  induction ss with
  | nil => exact ⟨[], ⟨[], by simp, by simp⟩, rfl, by simp, by simp [Plain]⟩
  | cons s ss ih =>
    obtain ⟨ls, p, hc, hls, hpp⟩ := ih fun t ht => hp t (List.mem_cons_of_mem s ht)
    have hs := hp s List.mem_cons_self
    have hcons : content (s :: ss) = s.bytes ++ (storedLines ls ++ p.bytes) := by rw [← hc]; rfl
    rcases CLine.split s with ⟨l, hl⟩ | ⟨l, hl⟩
    · refine ⟨l :: ls, p, by rw [hcons, hl]; simp, ?_, hpp⟩
      intro m hm
      rcases List.mem_cons.mp hm with rfl | hm
      · exact (hl ▸ hs).kind
      · exact hls m hm
    · have hplain : Plain l.bytes := Tame.plain (hl ▸ hs)
      rcases ls with _ | ⟨m, ls⟩
      · exact ⟨[], Line.glue l p, by rw [hcons, hl]; rfl, by simp, hplain.glue fun _ => hpp⟩
      · refine ⟨Line.glue l m :: ls, p, ?_, ?_, hpp⟩
        · rw [hcons, hl]
          simp [Line.stored, Line.glue]
        · intro x hx
          rcases List.mem_cons.mp hx with rfl | hx
          · exact hplain.glue_kind (hls m List.mem_cons_self)
          · exact hls x (List.mem_cons_of_mem m hx)

theorem endsLine_storedLines (ls : List Line) : EndsLine (storedLines ls) := by
  rcases List.eq_nil_or_concat ls with rfl | ⟨r, l, rfl⟩
  · rfl
  · rw [List.concat_eq_append, storedLines_append, EndsLine, storedLines_cons, storedLines_nil, List.append_nil,
      Line.stored, ← List.append_assoc, List.getLastD_concat]

/-- A block ends with a newline exactly when no beginning of a line is left over. -/
theorem endsLine_iff {ls : List Line} {p : Line} : EndsLine (storedLines ls ++ p.bytes) ↔ p.bytes = [] := by
  constructor
  · intro h
    rcases List.eq_nil_or_concat p.bytes with he | ⟨r, c, he⟩
    · exact he
    · rw [List.concat_eq_append] at he
      rw [EndsLine, he, ← List.append_assoc, List.getLastD_concat] at h
      exact absurd (by rw [he, h]; simp) p.no_newline
  · intro h
    rw [h, List.append_nil]
    exact endsLine_storedLines ls

/-! ### What is read back -/

/-- Every item stands in a line that is read as this item. -/
def Genuine (items : List (Item ℕ Line)) : Prop := ∀ x ∈ items, Line.item? x.raw = some x

instance (items : List (Item ℕ Line)) : Decidable (Genuine items) := inferInstanceAs (Decidable (∀ x ∈ items, _))

theorem Parses.genuine {ls : List Line} {items : List (Item ℕ Line)} (h : Parses ls items) : Genuine items := by
  induction h with
  | nil => simp [Genuine]
  | cons hx _ ih =>
    intro y hy
    rcases List.mem_cons.mp hy with rfl | hy
    · rw [item?_raw hx]
      exact hx
    · exact ih y hy

theorem Genuine.parses {items : List (Item ℕ Line)} (h : Genuine items) : Parses (items.map Item.raw) items := by
  induction items with
  | nil => exact .nil
  | cons x r ih => exact .cons (h x List.mem_cons_self) (ih fun y hy => h y (List.mem_cons_of_mem x hy))

theorem Genuine.tail {x : Item ℕ Line} {r : List (Item ℕ Line)} (h : Genuine (x :: r)) : Genuine r :=
  fun y hy => h y (List.mem_cons_of_mem x hy)

theorem Genuine.cons {x : Item ℕ Line} {r : List (Item ℕ Line)} (hx : Line.item? x.raw = some x) (h : Genuine r) :
    Genuine (x :: r) := by
  intro y hy
  rcases List.mem_cons.mp hy with rfl | hy
  · exact hx
  · exact h y hy

theorem Genuine.append {xs ys : List (Item ℕ Line)} (hx : Genuine xs) (hy : Genuine ys) : Genuine (xs ++ ys) :=
  fun z hz => (List.mem_append.mp hz).elim (hx z) (hy z)

theorem genuine_texts {gs : List Line} (h : ∀ g ∈ gs, g.kind = 0) :
    Genuine (gs.map (Item.text : Line → Item ℕ Line)) := by
  intro x hx
  obtain ⟨g, hg, rfl⟩ := List.mem_map.mp hx
  exact item?_text (h g hg)

/-- The action that an edit is read back as. -/
inductive EditReads : Edit → Act Line → Prop
  /-- A line is kept. -/
  | keep (l : Line) : EditReads (.keep l) (.keep l)
  /-- A line is dropped. -/
  | drop (l : Line) : EditReads (.drop l) (.drop l)
  /-- A block that ends with a newline comes back as its lines. -/
  | whole {ss : List CLine} {gs : List Line} : content ss = storedLines gs → EditReads (.insert ss) (.block gs true)
  /-- Of any other block the closing bracket is lost. -/
  | cut {ss : List CLine} (gs : List Line) : ¬ EndsLine (content ss) → EditReads (.insert ss) (.block gs false)

/-- The actions that edits are read back as. -/
def Reads (es : List Edit) (as : List (Act Line)) : Prop := List.Forall₂ EditReads es as

/-- No inserted string begins with `^A`. -/
def PlainEdits (es : List Edit) : Prop := ∀ ss, Edit.insert ss ∈ es → ∀ s ∈ ss, Plain s.bytes

/-- Every inserted string can only be read back as text. -/
def TameEdits (es : List Edit) : Prop := ∀ ss, Edit.insert ss ∈ es → ∀ s ∈ ss, Tame s.bytes

theorem PlainEdits.tame {es : List Edit} (h : PlainEdits es) : TameEdits es :=
  fun ss hss s hs => .inl (h ss hss s hs)

theorem TameEdits.tail {e : Edit} {es : List Edit} (h : TameEdits (e :: es)) : TameEdits es :=
  fun ss hss => h ss (List.mem_cons_of_mem e hss)

theorem outBytes_inserted (ss : List CLine) : outBytes (ss.map .inserted) = content ss := by
  induction ss with
  | nil => rfl
  | cons s ss ih => simp only [List.map_cons, outBytes, List.flatMap_cons, content] at *; rw [ih]; rfl

theorem outBytes_append (a b : List Out) : outBytes (a ++ b) = outBytes a ++ outBytes b := by simp [outBytes]

theorem outBytes_cons (x : Out) (b : List Out) : outBytes (x :: b) = x.bytes ++ outBytes b := rfl

/-- A block with its brackets is read back as the items of a block, closed if it ends with a newline. -/
theorem block_reads {n : ℕ} (hn : n ≤ 65535) {ss : List CLine} (hp : ∀ s ∈ ss, Tame s.bytes) :
    ∃ gs c w', EditReads (.insert ss) (.block gs c) ∧ Genuine (blockItems n (insLine n) w' gs c) ∧
      outBytes (.control letterI n :: (ss.map .inserted ++ [.control letterE n])) =
        storedLines ((blockItems n (insLine n) w' gs c).map Item.raw) := by
  obtain ⟨ls, p, hc, hls, hpp⟩ := exists_lines hp
  have hout : outBytes (.control letterI n :: (ss.map .inserted ++ [.control letterE n])) =
      (insLine n).stored ++ (storedLines ls ++ p.bytes ++ (endLine n).stored) := by
    rw [outBytes_cons, outBytes_append, outBytes_inserted, hc]
    simp [outBytes, Out.bytes, Line.stored, insLine, endLine, controlLine]
  have hmap : ∀ gs : List Line, (gs.map (Item.text : Line → Item ℕ Line)).map Item.raw = gs := by
    intro gs
    rw [List.map_map]
    exact List.map_id _
  by_cases hpe : p.bytes = []
  · refine ⟨ls, true, endLine n, .whole (by rw [hc, hpe, List.append_nil]), ?_, ?_⟩
    · refine .cons (item?_insLine hn) (.append (genuine_texts hls) ?_)
      rw [if_pos rfl]
      exact .cons (item?_endLine hn) (by simp [Genuine])
    · rw [hout, hpe]
      simp [blockItems, storedLines_append, hmap]
  · -- the last line of the block and the closing bracket are one line of text
    refine ⟨ls ++ [Line.glue p (endLine n)], false, endLine n, .cut _ ?_, ?_, ?_⟩
    · rw [hc, endsLine_iff]
      exact hpe
    · refine .cons (item?_insLine hn) (.append (genuine_texts fun g hg => ?_) (by simp [Genuine]))
      rcases List.mem_append.mp hg with hg | hg
      · exact hls g hg
      · rw [List.mem_singleton.mp hg]
        exact (hpp.glue fun h => absurd h hpe).kind
    · rw [hout]
      simp [blockItems, storedLines_append, hmap, Line.glue, Line.stored]

/-- **What is written is read back as a splice of the old body.** -/
theorem read_back {n : ℕ} {S : Set ℕ} {o : Open ℕ} {b : Bool} {es : List Edit} {items : List (Item ℕ Line)}
    {out : List Out} (hw : Written n S o b es items out) (hn : n ≤ 65535) (hg : Genuine items)
    (ht : TameEdits es) : ∃ as new, Reads es as ∧ Splice n S o b as items new ∧ Genuine new ∧
      outBytes out = storedLines (new.map Item.raw) := by
  induction hw with
  | nil => exact ⟨[], [], .nil, .nil, by simp [Genuine], rfl⟩
  | @bracket o b es x items out hx _ ih =>
    obtain ⟨as, new, hr, hs, hgn, hout⟩ := ih hg.tail ht
    exact ⟨as, x :: new, hr, .bracket hx hs, hgn.cons (hg x List.mem_cons_self), by rw [outBytes_cons, hout]; rfl⟩
  | @hidden o b es l items out ho _ ih =>
    obtain ⟨as, new, hr, hs, hgn, hout⟩ := ih hg.tail ht
    exact ⟨as, .text l :: new, hr, .hidden ho hs, hgn.cons (hg _ List.mem_cons_self),
      by rw [outBytes_cons, hout]; rfl⟩
  | @kept o es l items out ho _ ih =>
    obtain ⟨as, new, hr, hs, hgn, hout⟩ := ih hg.tail ht.tail
    exact ⟨.keep l :: as, .text l :: new, .cons (.keep l) hr, .kept ho hs, hgn.cons (hg _ List.mem_cons_self),
      by rw [outBytes_cons, hout]; rfl⟩
  | @dropped o es l items out ho _ ih =>
    obtain ⟨as, new, hr, hs, hgn, hout⟩ := ih hg.tail ht.tail
    exact ⟨.drop l :: as, .text l :: new, .cons (.drop l) hr, .dropped ho hs, hgn.cons (hg _ List.mem_cons_self),
      by rw [outBytes_cons, hout]; rfl⟩
  | @openDel o es l items out hd _ ih =>
    obtain ⟨as, new, hr, hs, hgn, hout⟩ := ih hg ht
    cases hr with
    | cons hx hr =>
      cases hx
      exact ⟨_, .start .del n (delLine n) :: new, .cons (.drop l) hr, .openDel (delLine n) hd hs,
        hgn.cons (item?_delLine hn), by rw [outBytes_cons, hout]; rfl⟩
  | @closeDel o es items out _ ih =>
    obtain ⟨as, new, hr, hs, hgn, hout⟩ := ih hg ht
    exact ⟨as, .fin n (endLine n) :: new, hr, .closeDel (endLine n) hs, hgn.cons (item?_endLine hn),
      by rw [outBytes_cons, hout]; rfl⟩
  | @insert o es ss items out hd _ ih =>
    obtain ⟨as, new, hr, hs, hgn, hout⟩ := ih hg ht.tail
    obtain ⟨gs, c, w', her, hgb, hob⟩ := block_reads hn (ht ss List.mem_cons_self)
    refine ⟨.block gs c :: as, blockItems n (insLine n) w' gs c ++ new, .cons her hr,
      .block (insLine n) w' gs c hd hs, hgb.append hgn, ?_⟩
    have hsplit : (Out.control letterI n :: (ss.map .inserted ++ .control letterE n :: out)) =
        (Out.control letterI n :: (ss.map .inserted ++ [.control letterE n])) ++ out := by simp
    rw [hsplit, outBytes_append, hob, hout, List.map_append, storedLines_append]

/-! ### The conditions of a splice -/

/-- Every block of the edits ends with a newline. -/
def WholeEdits (es : List Edit) : Prop := ∀ ss, Edit.insert ss ∈ es → EndsLine (content ss)

/-- Every block of the edits ends with a newline, save one that is the last edit of all. -/
def SettledEdits : List Edit → Prop
  | [] => True
  | .insert ss :: es => (EndsLine (content ss) ∨ es = []) ∧ SettledEdits es
  | _ :: es => SettledEdits es

theorem Reads.length {es : List Edit} {as : List (Act Line)} (h : Reads es as) : es = [] ↔ as = [] := by
  cases h <;> simp

theorem EditReads.closed_iff {ss : List CLine} {gs : List Line} {c : Bool}
    (h : EditReads (.insert ss) (.block gs c)) : c = true ↔ EndsLine (content ss) := by
  cases h with
  | whole hc =>
    rw [hc]
    exact ⟨fun _ => endsLine_storedLines _, fun _ => rfl⟩
  | cut _ hc => exact ⟨fun e => absurd e (by simp), fun e => absurd e hc⟩

/-- **Every block is closed exactly when every block ends with a newline.** -/
theorem closed_iff {es : List Edit} {as : List (Act Line)} (h : Reads es as) : Act.Closed as ↔ WholeEdits es := by
  induction h with
  | nil => simp [Act.Closed, WholeEdits]
  | @cons e a es as hx hr ih =>
    have hcons : ∀ e : Edit, (∀ ss, e ≠ .insert ss) → (WholeEdits (e :: es) ↔ WholeEdits es) := by
      intro e he
      refine ⟨fun h ss hss => h ss (List.mem_cons_of_mem e hss), fun h ss hss => ?_⟩
      rcases List.mem_cons.mp hss with rfl | hss
      · exact absurd rfl (he ss)
      · exact h ss hss
    have hblock : ∀ (ss : List CLine) (gs : List Line) (c : Bool), EditReads (.insert ss) (.block gs c) →
        (Act.Closed (.block gs c :: as) ↔ WholeEdits (.insert ss :: es)) := by
      intro ss gs c hx
      rw [Act.closed_block, hx.closed_iff, ih]
      constructor
      · rintro ⟨h1, h2⟩ tt htt
        rcases List.mem_cons.mp htt with he | htt
        · cases he
          exact h1
        · exact h2 tt htt
      · intro h
        exact ⟨h ss List.mem_cons_self, fun tt htt => h tt (List.mem_cons_of_mem _ htt)⟩
    cases hx with
    | keep l => rw [Act.closed_keep, hcons _ (by simp), ih]
    | drop l => rw [Act.closed_drop, hcons _ (by simp), ih]
    | whole hc => exact hblock _ _ _ (.whole hc)
    | cut gs hc => exact hblock _ _ _ (.cut gs hc)

/-- **The splice is settled exactly when the edits are.** -/
theorem settled_iff {es : List Edit} {as : List (Act Line)} (h : Reads es as) :
    Act.Settled as ↔ SettledEdits es := by
  induction h with
  | nil => rfl
  | @cons e a es as hx hr ih =>
    have hnil := Reads.length hr
    cases hx with
    | keep l => exact ih
    | drop l => exact ih
    | @whole ss gs hc =>
      rw [Act.settled_block, SettledEdits, (EditReads.whole hc).closed_iff, ih, hnil]
    | cut gs hc =>
      rw [Act.settled_block, SettledEdits, (EditReads.cut gs hc).closed_iff, ih, hnil]

end CSSC.Body
