import CSSC.Body.Following

/-!
# What the writer writes

Along a script of the visible lines, the writer splices the edits into the copy of the old body.
`Written n S o b es items out` says that `out` is the copy of `items` with the edits `es` spliced in, in the words of
the program; it is the relation `Splice` before anything is read back. `Form d b es` says that the program stands in
front of the edits `es`.

For a visible line the inner loop succeeds, writes the edits up to that line and stands in front of the others
(`lineLoop_follows`), and counts the line once (`lineLoop_counts`); at the end the last block is written
(`lineLoop_ends`, `eofLoop_ends`). Hence **for every script of the visible lines the writer succeeds**, and what it
writes is the copy with the edits spliced in (`deltaLoop_follows`).
-/

namespace CSSC.Body

open CSSC.Lines CSSC.Library.Weave DiffState

/-- `out` is the copy of the items with the edits spliced in. -/
inductive Written (n : ℕ) (S : Set ℕ) :
    Open ℕ → Bool → List Edit → List (Item ℕ Line) → List Out → Prop
  /-- Nothing is left and no deletion is open. -/
  | nil {o} : Written n S o false [] [] []
  /-- A bracket is copied. -/
  | bracket {o b es x items out} : x.key? ≠ none → Written n S (act o x) b es items out →
      Written n S o b es (x :: items) (.copied x.raw :: out)
  /-- Text that is not visible is copied. -/
  | hidden {o b es l items out} : owner S o = none → Written n S o b es items out →
      Written n S o b es (.text l :: items) (.copied l :: out)
  /-- A visible line is unchanged. -/
  | kept {o es l items out} : owner S o ≠ none → Written n S o false es items out →
      Written n S o false (.keep l :: es) (.text l :: items) (.copied l :: out)
  /-- A visible line is deleted. -/
  | dropped {o es l items out} : owner S o ≠ none → Written n S o true es items out →
      Written n S o true (.drop l :: es) (.text l :: items) (.copied l :: out)
  /-- `^AD` is written. -/
  | openDel {o es l items out} : Due S o items → Written n S o true (.drop l :: es) items out →
      Written n S o false (.drop l :: es) items (.control letterD n :: out)
  /-- `^AE` is written after a deletion. -/
  | closeDel {o es items out} : Written n S o false es items out →
      Written n S o true es items (.control letterE n :: out)
  /-- `^AI`, a block and `^AE` are written. -/
  | insert {o es} (ss : List CLine) {items out} : Due S o items → Written n S o false es items out →
      Written n S o false (.insert ss :: es) items
        (.control letterI n :: (ss.map .inserted ++ .control letterE n :: out))

/-- The program stands in front of the edits. -/
inductive Form : DiffState → Bool → List Edit → Prop
  /-- Nothing has been read yet. -/
  | start {d hs m} (tail : List Line) : d.state = .start → d.linesLeft = 0 → d.changeLeft = 0 → d.inLineno = 0 →
      d.outLineno = 0 → d.input = renderHunks 0 0 hs ++ markerPart m → Kept hs.tail → Form d false (editsOf hs tail)
  /-- Inside unchanged lines. -/
  | keeping {d a b ks h hs m} (tail : List Line) : Keeping d a b ks h hs m → Kept hs →
      Form d false (ks.map .keep ++ (h.change ++ editsOf hs tail))
  /-- Inside deleted lines. -/
  | deleting {d a b ds ins hs m} (tail : List Line) : Deleting d a b ds ins hs m → Kept hs →
      Form d true (ds.map .drop ++ (insertEdit ins ++ editsOf hs tail))
  /-- After the last change. -/
  | done {d} (tail : List Line) : d.state = .end_ → Form d false (tail.map .keep)

/-- Writing `r` and the line `l` leads from one place in the edits to another. -/
def Follows (n : ℕ) (b : Bool) (es : List Edit) (l : Line) (r : DeltaResult) (b' : Bool) (es' : List Edit) : Prop :=
  ∀ (S : Set ℕ) o items out, owner S o ≠ none → Written n S o b' es' items out →
    Written n S o b es (.text l :: items) (r.out ++ .copied l :: out)

/-- The lines that are still to be deleted once the line `l` is written: `b` says whether it is deleted. -/
def Drops (es : List Edit) (l : Line) (b : Bool) (es' : List Edit) : Prop :=
  droppedOf es = if b then l :: droppedOf es' else droppedOf es'

/-- Writing `r` is all that is left at the end. -/
def Ends (n : ℕ) (b : Bool) (es : List Edit) (r : DeltaResult) : Prop :=
  ∀ (S : Set ℕ) o, Written n S o b es [] r.out

section

variable {n : ℕ} {c : UInt8} {fuel : ℕ} {d d' : DiffState} {a b : ℕ} {hs : List Hunk} {m : Bool} {tail vs : List Line}
  {l : Line} {out : List Out}

/-! ### What is counted -/

/-- A deletion is open exactly while lines are deleted. -/
theorem Form.flag {b : Bool} {es : List Edit} (h : Form d b es) : b = true ↔ d.state = .delete := by
  cases h with
  | start tail hst => simp [hst]
  | keeping tail hd => simp [hd.state]
  | deleting tail hd => simp [hd.state]
  | done tail he => simp [he]

/-- **A visible line is counted once**, as deleted or as unchanged. -/
theorem lineLoop_counts {lenMax : ℕ} {r : DeltaResult} (hc : c ≠ minusOne)
    (h : lineLoop n lenMax c fuel d = .ok (d', r)) :
    r.deleted = (if d'.state = .delete then 1 else 0) ∧ r.deleted + r.unchanged = 1 := by
  induction fuel generalizing d r with
  | zero => simp [lineLoop] at h
  | succ fuel ih =>
    rw [lineLoop] at h
    obtain ⟨a, -, h⟩ := bind_eq_ok.mp h
    rcases hs : a.1.state <;> simp only [hs, if_neg hc] at h
    · cases h
    · obtain ⟨rfl, rfl⟩ := Prod.mk.inj (Except.ok.inj h)
      simp [hs]
    · obtain ⟨rfl, rfl⟩ := Prod.mk.inj (Except.ok.inj h)
      simp [hs]
    · obtain ⟨s, -, h⟩ := bind_eq_ok.mp h
      split at h
      · obtain ⟨q, hq, h⟩ := bind_eq_ok.mp h
        obtain ⟨rfl, rfl⟩ : q.1 = d' ∧ (insertLine a.2 s).append q.2 = r := by
          simpa [pure, Except.pure] using h
        simpa [DeltaResult.append, insertLine] using ih hq
      · cases h
    · obtain ⟨rfl, rfl⟩ := Prod.mk.inj (Except.ok.inj h)
      simp [hs]

/-- The loop at the end of the old body only inserts. -/
theorem eofLoop_counts {lenMax : ℕ} {r : DeltaResult} (h : eofLoop n lenMax fuel d = .ok r) :
    r.deleted = 0 ∧ r.unchanged = 0 := by
  induction fuel generalizing d r with
  | zero => simp [eofLoop] at h
  | succ fuel ih =>
    rw [eofLoop] at h
    obtain ⟨a, -, h⟩ := bind_eq_ok.mp h
    split at h
    · obtain ⟨s, -, h⟩ := bind_eq_ok.mp h
      split at h
      · obtain ⟨q, hq, h⟩ := bind_eq_ok.mp h
        obtain rfl := Except.ok.inj h
        simpa [DeltaResult.append, insertLine] using ih hq
      · cases h
    · obtain rfl := Except.ok.inj h
      exact ⟨rfl, rfl⟩

/-! ### The places after a change -/

/-- After the inserted lines comes what is between changes. -/
theorem Inserting.between {hs : List Hunk} {m : Bool} (hd : Inserting d a b [] hs m) : Between d a b hs m where
  state := .inr (.inr hd.state)
  left := hd.left
  change := hd.change
  inAt := by rw [advance_insert hd.state, hd.inAt]
  outAt := hd.outAt
  input := hd.input

/-- After the deleted lines of a change that inserts nothing comes what is between changes. -/
theorem Deleting.between {hs : List Hunk} {m : Bool} (hd : Deleting d a b [] [] hs m) : Between d a b hs m where
  state := .inr (.inl hd.state)
  left := hd.left
  change := hd.change
  inAt := by rw [advance_inLineno (by simp [hd.state]), hd.inAt]
  outAt := hd.outAt
  input := hd.input

/-- At the start comes what is between changes. -/
theorem between_of_start (hst : d.state = .start) (hl : d.linesLeft = 0) (hcl : d.changeLeft = 0) (hin : d.inLineno = 0)
    (hout : d.outLineno = 0) (hinp : d.input = renderHunks 0 0 hs ++ markerPart m) : Between d 0 0 hs m where
  state := .inl hst
  left := hl
  change := hcl
  inAt := by
    rw [advance_inLineno (by simp [hst]), hin]
    rfl
  outAt := hout
  input := hinp

/-- When no visible line is left, no hunk with an unchanged line is. -/
theorem Kept.eq_nil (hk : Kept hs) (hold : oldOf (editsOf hs tail) = []) : hs = [] := by
  rcases hs with _ | ⟨h, hs⟩
  · rfl
  · have := hk h List.mem_cons_self
    simp [editsOf, oldOf_append, this] at hold

theorem Kept.editsOf_eq_nil (hk : Kept hs) (hold : oldOf (editsOf hs tail) = []) : editsOf hs tail = [] := by
  obtain rfl := hk.eq_nil hold
  simpa [editsOf] using hold

/-- With a visible line left, the place after a change is in front of it. -/
theorem Next.form (h : Next d a b hs m) (hk : Kept hs) (hold : oldOf (editsOf hs tail) = l :: vs) :
    ∃ es, editsOf hs tail = .keep l :: es ∧ oldOf es = vs ∧ Form d false es ∧
      (d.state = .nochange ∨ d.state = .end_) := by
  rcases h with ⟨rfl, he⟩ | ⟨h, hs', k, ks, rfl, hks, hd⟩
  · obtain rfl : tail = l :: vs := by simpa [editsOf] using hold
    exact ⟨vs.map .keep, rfl, by simp, .done vs he, .inr he⟩
  · have hes : editsOf (h :: hs') tail = .keep k :: (ks.map .keep ++ (h.change ++ editsOf hs' tail)) := by
      simp [editsOf, hks]
    rw [hes, oldOf_keep] at hold
    obtain ⟨rfl, hvs⟩ := List.cons.inj hold
    exact ⟨_, hes, hvs, .keeping tail hd fun x hx => hk x (List.mem_cons_of_mem h hx), .inl hd.state⟩

/-- With no visible line left, the place after a change is the end. -/
theorem Next.ends (h : Next d a b hs m) (hk : Kept hs) (hold : oldOf (editsOf hs tail) = []) :
    editsOf hs tail = [] ∧ hs = [] ∧ d.state = .end_ := by
  rcases h with ⟨rfl, he⟩ | ⟨h, hs', k, ks, rfl, hks, -⟩
  · obtain rfl : tail = [] := by simpa [editsOf] using hold
    exact ⟨rfl, rfl, he⟩
  · simp [editsOf, oldOf_append, hks] at hold

/-! ### The inner loop -/

theorem lineLoop_nochange (hp : d.process n = .ok (d', out)) (hs : d'.state = .nochange) (hc : c ≠ minusOne) :
    lineLoop n 0 c (fuel + 1) d = .ok (d', ⟨out, 0, 0, 1⟩) := by
  simp only [lineLoop, hp, ok_bind, hs, if_neg hc]

theorem lineLoop_delete (hp : d.process n = .ok (d', out)) (hs : d'.state = .delete) (hc : c ≠ minusOne) :
    lineLoop n 0 c (fuel + 1) d = .ok (d', ⟨out, 0, 1, 0⟩) := by
  simp only [lineLoop, hp, ok_bind, hs, if_neg hc]

theorem lineLoop_end (fuel : ℕ) (hp : d.process n = .ok (d', out)) (hs : d'.state = .end_) :
    ∃ r, lineLoop n 0 c (fuel + 1) d = .ok (d', r) ∧ r.out = out := by
  by_cases hc : c = minusOne
  · exact ⟨⟨out, 0, 0, 0⟩, by simp only [lineLoop, hp, ok_bind, hs, if_pos hc], rfl⟩
  · exact ⟨⟨out, 0, 0, 1⟩, by simp only [lineLoop, hp, ok_bind, hs, if_neg hc], rfl⟩

theorem lineLoop_insert {s : CLine} {d'' : DiffState} {r : DeltaResult} (hp : d.process n = .ok (d', out))
    (hs : d'.state = .insert) (hb : d'.linebuf = insertedLine s)
    (hrest : lineLoop n 0 c fuel d' = .ok (d'', r)) :
    lineLoop n 0 c (fuel + 1) d = .ok (d'', (insertLine out s).append r) := by
  have hfits : fits 0 s := .inl rfl
  simp only [lineLoop, hp, ok_bind, hs, getInsertLine_eq hs hb, if_pos hfits, hrest]
  rfl

/-- At a place after a change the inner loop ends. -/
theorem lineLoop_next {L : List Out} (fuel : ℕ) (hp : d.process n = .ok (d', L)) (hn : Next d' a b hs m)
    (hc : c = minusOne → hs = []) :
    ∃ r, lineLoop n 0 c (fuel + 1) d = .ok (d', r) ∧ r.out = L := by
  rcases hn with ⟨-, he⟩ | ⟨h, hs', k, ks, rfl, -, hd⟩
  · exact lineLoop_end fuel hp he
  · exact ⟨_, lineLoop_nochange hp hd.state (fun e => by simp at hc; exact hc e), rfl⟩

/-- **The inner loop writes what is left of a block**, and its closing bracket. -/
theorem lineLoop_inserting {is : List CLine} (hd : Inserting d a b is hs m) (hk : Kept hs)
    (hc : c = minusOne → hs = []) (hfuel : is.length < fuel) :
    ∃ d' r, lineLoop n 0 c fuel d = .ok (d', r) ∧ r.out = is.map .inserted ++ [.control letterE n] ∧
      Next d' a (b + is.length) hs m := by
  induction is generalizing d b fuel with
  | nil =>
    obtain ⟨fuel, rfl⟩ : ∃ f, fuel = f + 1 := ⟨fuel - 1, by simp at hfuel; omega⟩
    obtain ⟨d', hp, hn⟩ := process_next (n := n) hd.between hk
    obtain ⟨r, hl, hr⟩ := lineLoop_next fuel hp hn hc
    exact ⟨d', r, hl, by rw [hr, hd.state]; rfl, hn⟩
  | cons s is ih =>
    obtain ⟨fuel, rfl⟩ : ∃ f, fuel = f + 1 := ⟨fuel - 1, by simp at hfuel; omega⟩
    obtain ⟨d₁, hp, hd₁, hb⟩ := process_insert (n := n) hd
    obtain ⟨d', r, hl, hr, hn⟩ := ih hd₁ (by simpa using hfuel)
    refine ⟨d', _, lineLoop_insert hp hd₁.state hb hl, ?_, ?_⟩
    · simp [DeltaResult.append, insertLine, hr]
    · rwa [List.length_cons, show b + (is.length + 1) = b + 1 + is.length by omega]

/-- The inner loop writes a block that has just been entered. -/
theorem lineLoop_block {s : CLine} {is : List CLine} {L : List Out} (hp : d.process n = .ok (d', L))
    (hd : Inserting d' a b is hs m) (hb : d'.linebuf = insertedLine s) (hk : Kept hs) (hc : c = minusOne → hs = [])
    (hfuel : is.length < fuel) :
    ∃ d'' r, lineLoop n 0 c (fuel + 1) d = .ok (d'', r) ∧
      r.out = L ++ ((s :: is).map .inserted ++ [.control letterE n]) ∧ Next d'' a (b + is.length) hs m := by
  obtain ⟨d'', r, hl, hr, hn⟩ := lineLoop_inserting (n := n) hd hk hc hfuel
  refine ⟨d'', _, lineLoop_insert hp hd.state hb hl, ?_, hn⟩
  simp [DeltaResult.append, insertLine, hr]

/-! ### Each place -/

/-- From a place between changes, with a visible line left. -/
theorem follows_between (fuel : ℕ) (hd : Between d a b hs m) (hk : Kept hs) (hold : oldOf (editsOf hs tail) = l :: vs) :
    ∃ d' r es', lineLoop n 0 0 (fuel + 1) d = .ok (d', r) ∧ r.out = closing n d.state ∧
      editsOf hs tail = .keep l :: es' ∧ oldOf es' = vs ∧ Form d' false es' := by
  obtain ⟨d', hp, hn⟩ := process_next (n := n) hd hk
  obtain ⟨es', hes, hvs, hf, -⟩ := hn.form hk hold
  obtain ⟨r, hl, hr⟩ := lineLoop_next (c := 0) fuel hp hn (fun e => absurd e (by decide))
  exact ⟨d', r, es', hl, hr, hes, hvs, hf⟩

/-- From a place between changes, at the end. -/
theorem ends_between (fuel : ℕ) (hd : Between d a b hs m) (hk : Kept hs) (hold : oldOf (editsOf hs tail) = []) :
    ∃ d' r, lineLoop n 0 c (fuel + 1) d = .ok (d', r) ∧ r.out = closing n d.state ∧ d'.state = .end_ := by
  obtain ⟨d', hp, hn⟩ := process_next (n := n) hd hk
  obtain ⟨-, hs0, he⟩ := hn.ends hk hold
  obtain ⟨r, hl, hr⟩ := lineLoop_next (c := c) fuel hp hn (fun _ => hs0)
  exact ⟨d', r, hl, hr, he⟩

/-- What the block of an insertion comes to, with a visible line left. -/
theorem follows_block {s : CLine} {is : List CLine} {L : List Out} (hp : d.process n = .ok (d', L))
    (hd : Inserting d' a b is hs m) (hb : d'.linebuf = insertedLine s) (hk : Kept hs) (hfuel : is.length < fuel)
    (hold : oldOf (editsOf hs tail) = l :: vs) :
    ∃ d'' r es', lineLoop n 0 0 (fuel + 1) d = .ok (d'', r) ∧
      r.out = L ++ ((s :: is).map .inserted ++ [.control letterE n]) ∧
      editsOf hs tail = .keep l :: es' ∧ oldOf es' = vs ∧ Form d'' false es' := by
  obtain ⟨d'', r, hl, hr, hn⟩ := lineLoop_block (c := 0) hp hd hb hk (fun e => absurd e (by decide)) hfuel
  obtain ⟨es', hes, hvs, hf, -⟩ := hn.form hk hold
  exact ⟨d'', r, es', hl, hr, hes, hvs, hf⟩

/-- What it comes to at the end. -/
theorem ends_block {s : CLine} {is : List CLine} {L : List Out} (hp : d.process n = .ok (d', L))
    (hd : Inserting d' a b is hs m) (hb : d'.linebuf = insertedLine s) (hk : Kept hs) (hfuel : is.length < fuel)
    (hold : oldOf (editsOf hs tail) = []) :
    ∃ d'' r, lineLoop n 0 c (fuel + 1) d = .ok (d'', r) ∧
      r.out = L ++ ((s :: is).map .inserted ++ [.control letterE n]) ∧ d''.state = .end_ := by
  obtain ⟨d'', r, hl, hr, hn⟩ := lineLoop_block (c := c) hp hd hb hk (fun _ => hk.eq_nil hold) hfuel
  exact ⟨d'', r, hl, hr, (hn.ends hk hold).2.2⟩

/-- From the place of a change, with a visible line left. -/
theorem follows_change {h : Hunk} (hp : Changed n d d' a b h hs m) (hk : Kept hs) (hfuel : h.ins.length ≤ fuel)
    (hold : oldOf (h.change ++ editsOf hs tail) = l :: vs) :
    ∃ d'' r b' es', lineLoop n 0 0 (fuel + 1) d = .ok (d'', r) ∧ Form d'' b' es' ∧ oldOf es' = vs ∧
      Drops (h.change ++ editsOf hs tail) l b' es' ∧ Follows n false (h.change ++ editsOf hs tail) l r b' es' := by
  cases hp with
  | @deletion l' ds hdel hp hd =>
    -- the line is the first one deleted
    have hes : h.change ++ editsOf hs tail = .drop l' :: (ds.map .drop ++ (insertEdit h.ins ++ editsOf hs tail)) := by
      simp [Hunk.change, hdel]
    rw [hes, oldOf_drop] at hold
    obtain ⟨rfl, hvs⟩ := List.cons.inj hold
    refine ⟨d', _, true, _, lineLoop_delete hp hd.state (by decide), .deleting tail hd hk, hvs, by rw [hes]; rfl, ?_⟩
    intro S o items out ho hw
    rw [hes]
    have hdue : Due S o (.text l' :: items) := ho
    exact .openDel hdue (.dropped ho hw)
  | @insertion s is hdel hins hp hd hb =>
    -- a block is inserted before the line
    rw [change_of_insertion hdel hins, List.singleton_append, oldOf_insert] at hold
    rw [change_of_insertion hdel hins, List.singleton_append]
    have hlt : is.length < fuel := by
      rw [hins] at hfuel
      exact hfuel
    obtain ⟨d'', r, es', hl, hr, hes, hvs, hf⟩ := follows_block hp hd hb hk hlt hold
    refine ⟨d'', r, false, es', hl, hf, hvs, by rw [hes]; rfl, ?_⟩
    intro S o items out ho hw
    rw [hes, hr]
    have hdue : Due S o (.text l :: items) := ho
    simpa using Written.insert (s :: is) hdue (.kept ho hw)

/-- From the place of a change, at the end. -/
theorem ends_change {h : Hunk} (hp : Changed n d d' a b h hs m) (hk : Kept hs) (hfuel : h.ins.length ≤ fuel)
    (hold : oldOf (h.change ++ editsOf hs tail) = []) :
    ∃ d'' r, lineLoop n 0 c (fuel + 1) d = .ok (d'', r) ∧ d''.state = .end_ ∧
      Ends n false (h.change ++ editsOf hs tail) r := by
  cases hp with
  | deletion hdel => simp [oldOf_append, hdel] at hold
  | @insertion s is hdel hins hp hd hb =>
    rw [change_of_insertion hdel hins, List.singleton_append, oldOf_insert] at hold
    rw [change_of_insertion hdel hins, List.singleton_append]
    have hlt : is.length < fuel := by
      rw [hins] at hfuel
      exact hfuel
    obtain ⟨d'', r, hl, hr, he⟩ := ends_block (c := c) hp hd hb hk hlt hold
    refine ⟨d'', r, hl, he, ?_⟩
    intro S o
    rw [hk.editsOf_eq_nil hold, hr]
    have hdue : Due S o ([] : List (Item ℕ Line)) := trivial
    simpa using Written.insert (n := n) (s :: is) hdue .nil

/-- At the start, in front of hunks of which the first begins with its change. -/
theorem start_change {h : Hunk} (hst : d.state = .start) (hl : d.linesLeft = 0) (hcl : d.changeLeft = 0)
    (hin : d.inLineno = 0) (hout : d.outLineno = 0) (hkeep : h.keep = [])
    (hinp : d.input = renderHunks 0 0 (h :: hs) ++ markerPart m) :
    ∃ d', Changed n d d' 0 0 h hs m := by
  have hadv := advance_inLineno (d := d) (by simp [hst])
  have h1 : ¬ (d.advance.state = .delete ∧ d.advance.changeLeft ≠ 0) := by simp [hcl]
  have h2 : d.advance.state ≠ .nochange := by simp [hst]
  have hcmd := command_head h 0 0
  let d₁ : DiffState := { d.advance with
    linebuf := (h.commandLine 0 0).delivered
    input := h.body ++ (renderHunks (0 + h.del.length) (0 + h.ins.length) hs ++ markerPart m) }
  have hn : d.advance.nextState = .ok (atChange d₁ h) := by
    rw [DiffState.nextState, if_neg h1, if_pos h2, readLine, advance_input, hinp]
    simp only [renderHunks, hkeep, List.length_nil, Nat.add_zero, List.cons_append, List.append_assoc]
    rw [if_neg hcmd]
    refine takeCommand_here (d := d₁) (b := 0) rfl ?_ ?_ ?_
    · show d.advance.inLineno = _
      rw [hadv, hin]
      rfl
    · show d.advance.outLineno = _
      rw [advance_outLineno, hout]
      rfl
    · show d.advance.changeLeft = _
      rw [advance_changeLeft, hcl]
  refine process_change (by simp [hst]) hl (by simp [closing, hst]) hn ?_ ?_ ?_ rfl
  · show d.advance.changeLeft = _
    rw [advance_changeLeft, hcl]
  · show d.advance.inLineno = _
    rw [hadv, hin]
    rfl
  · show d.advance.outLineno = _
    rw [advance_outLineno, hout]
    rfl

/-- Inside unchanged lines of which none is left. -/
theorem keeping_change {h : Hunk} (hd : Keeping d a b [] h hs m) : ∃ d', Changed n d d' a b h hs m := by
  have hadv := advance_inLineno (d := d) (by simp [hd.state])
  have hn : d.advance.nextState = .ok (atChange d.advance h) := by
    rw [DiffState.nextState, if_neg (by simp [hd.change]), if_neg (by simp [hd.state])]
    refine takeCommand_here ((advance_linebuf d).trans hd.buffer) ?_ ?_ ?_
    · rw [hadv, hd.inAt]
      rfl
    · rw [advance_outLineno, hd.outAt]
      rfl
    · rw [advance_changeLeft, hd.change]
  refine process_change (by simp [hd.state]) hd.left (by simp [closing, hd.state]) hn ?_ ?_ ?_ ?_
  · rw [advance_changeLeft, hd.change]
  · rw [hadv, hd.inAt]
  · rw [advance_outLineno, hd.outAt]
  · rw [advance_input, hd.input]
    rfl

/-! ### How much there is to read -/

theorem ins_length_le_body (h : Hunk) : h.ins.length ≤ h.body.length := by
  simp only [Hunk.body, insertPart, List.length_append, List.length_map]
  omega

theorem ins_length_le_start {h : Hunk} (hinp : d.input = renderHunks 0 0 (h :: hs) ++ markerPart m) :
    h.ins.length ≤ d.input.length := by
  have := ins_length_le_body h
  rw [hinp]
  simp only [renderHunks, List.cons_append, List.length_cons, List.length_append]
  omega

theorem Keeping.ins_length_le {h : Hunk} {ks : List Line} (hd : Keeping d a b ks h hs m) :
    h.ins.length ≤ d.input.length := by
  have := ins_length_le_body h
  rw [hd.input, List.length_append]
  omega

theorem Deleting.ins_length_lt {ds : List Line} {s : CLine} {is : List CLine} (hd : Deleting d a b ds (s :: is) hs m) :
    is.length < d.input.length := by
  rw [hd.input]
  simp only [List.length_append, List.length_map, List.length_cons]
  omega

/-! ### The inner loop from every place -/

/-- **For a visible line the inner loop succeeds**: it writes the edits up to that line. -/
theorem lineLoop_follows {b : Bool} {es : List Edit} (hf : Form d b es) (hold : oldOf es = l :: vs) :
    ∃ d' r b' es', lineLoop n 0 0 (d.input.length + 1) d = .ok (d', r) ∧ Form d' b' es' ∧ oldOf es' = vs ∧
      Drops es l b' es' ∧ Follows n b es l r b' es' := by
  cases hf with
  | @start hs m tail hst hl hcl hin hout hinp hk =>
    -- a place between changes, unless the first hunk begins with its change
    have hbetween : Kept hs → ∃ d' r b' es', lineLoop n 0 0 (d.input.length + 1) d = .ok (d', r) ∧ Form d' b' es' ∧
        oldOf es' = vs ∧ Drops (editsOf hs tail) l b' es' ∧ Follows n false (editsOf hs tail) l r b' es' := by
      intro hkept
      obtain ⟨d', r, es', hl, hr, hes, hvs, hf⟩ := follows_between (n := n) d.input.length
        (between_of_start hst hl hcl hin hout hinp) hkept hold
      refine ⟨d', r, false, es', hl, hf, hvs, by rw [hes]; rfl, ?_⟩
      intro S o items out ho hw
      rw [hr, hst, hes]
      exact .kept ho hw
    rcases hs with _ | ⟨h, hs⟩
    · exact hbetween (by simp [Kept])
    · by_cases hkeep : h.keep = []
      · obtain ⟨d', hp⟩ := start_change (n := n) hst hl hcl hin hout hkeep hinp
        have hes : editsOf (h :: hs) tail = h.change ++ editsOf hs tail := by simp [editsOf, hkeep]
        rw [hes] at hold ⊢
        exact follows_change hp hk (ins_length_le_start hinp) hold
      · refine hbetween fun x hx => ?_
        rcases List.mem_cons.mp hx with rfl | hx
        · exact hkeep
        · exact hk x hx
  | @keeping a b ks h hs m tail hd hk =>
    cases ks with
    | nil =>
      obtain ⟨d', hp⟩ := keeping_change (n := n) hd
      exact follows_change hp hk hd.ins_length_le hold
    | cons k ks =>
      rw [List.map_cons, List.cons_append, oldOf_keep] at hold
      obtain ⟨rfl, hvs⟩ := List.cons.inj hold
      obtain ⟨d', hp, hd'⟩ := process_keep (n := n) hd
      refine ⟨d', _, false, _, lineLoop_nochange hp hd'.state (by decide), .keeping tail hd' hk, hvs, rfl, ?_⟩
      intro S o items out ho hw
      exact .kept ho hw
  | @deleting a b ds ins hs m tail hd hk =>
    cases ds with
    | cons l' ds =>
      rw [List.map_cons, List.cons_append, oldOf_drop] at hold
      obtain ⟨rfl, hvs⟩ := List.cons.inj hold
      obtain ⟨d', hp, hd'⟩ := process_delete (n := n) hd
      refine ⟨d', _, true, _, lineLoop_delete hp hd'.state (by decide), .deleting tail hd' hk, hvs, rfl, ?_⟩
      intro S o items out ho hw
      exact .dropped ho hw
    | nil =>
      rcases ins with _ | ⟨s, is⟩
      · obtain ⟨d', r, es', hl, hr, hes, hvs, hf⟩ := follows_between (n := n) d.input.length
          hd.between hk (show oldOf (editsOf hs tail) = l :: vs by simpa [insertEdit] using hold)
        refine ⟨d', r, false, es', hl, hf, hvs, by simp [Drops, insertEdit, hes], ?_⟩
        intro S o items out ho hw
        rw [hr, hd.state]
        simp only [List.map_nil, List.nil_append, insertEdit, if_true, hes]
        exact .closeDel (.kept ho hw)
      · obtain ⟨d₁, hp, hd₁, hb⟩ := process_dashes (n := n) hd
        obtain ⟨d', r, es', hl, hr, hes, hvs, hf⟩ := follows_block hp hd₁ hb hk hd.ins_length_lt
          (show oldOf (editsOf hs tail) = l :: vs by simpa [insertEdit] using hold)
        refine ⟨d', r, false, es', hl, hf, hvs, by simp [Drops, insertEdit, hes], ?_⟩
        intro S o items out ho hw
        rw [hr]
        simp only [List.map_nil, List.nil_append, insertEdit, List.cons_ne_nil, if_false, hes]
        have hdue : Due S o (.text l :: items) := ho
        simpa using Written.closeDel (Written.insert (s :: is) hdue (.kept ho hw))
  | done tail he =>
    rcases tail with _ | ⟨t, tail⟩
    · simp at hold
    · rw [List.map_cons, oldOf_keep] at hold
      obtain ⟨rfl, hvs⟩ := List.cons.inj hold
      obtain ⟨d', hp, he', -⟩ := process_end (n := n) he
      obtain ⟨r, hl, hr⟩ := lineLoop_end (c := 0) d.input.length hp he'
      refine ⟨d', r, false, tail.map .keep, hl, .done tail he', hvs, rfl, ?_⟩
      intro S o items out ho hw
      rw [hr]
      exact .kept ho hw

/-- **At the end the last block is written**, whatever the value of `c`. -/
theorem lineLoop_ends {b : Bool} {es : List Edit} (hf : Form d b es) (hold : oldOf es = []) :
    ∃ d' r, lineLoop n 0 c (d.input.length + 1) d = .ok (d', r) ∧ d'.state = .end_ ∧ Ends n b es r := by
  cases hf with
  | @start hs m tail hst hl hcl hin hout hinp hk =>
    rcases hs with _ | ⟨h, hs⟩
    · have htail : tail = [] := by simpa [editsOf] using hold
      obtain ⟨d', r, hl, hr, he⟩ := ends_between (n := n) (c := c) d.input.length
        (between_of_start hst hl hcl hin hout hinp) (by simp [Kept]) hold
      refine ⟨d', r, hl, he, ?_⟩
      intro S o
      rw [hr, hst, htail]
      exact .nil
    · have hkeep : h.keep = [] := by
        simp only [editsOf, oldOf_append, oldOf_map_keep, List.append_eq_nil_iff] at hold
        exact hold.1
      obtain ⟨d', hp⟩ := start_change (n := n) hst hl hcl hin hout hkeep hinp
      have hes : editsOf (h :: hs) tail = h.change ++ editsOf hs tail := by simp [editsOf, hkeep]
      rw [hes] at hold ⊢
      exact ends_change hp hk (ins_length_le_start hinp) hold
  | @keeping a b ks h hs m tail hd hk =>
    obtain rfl : ks = [] := by
      simp only [oldOf_append, oldOf_map_keep, List.append_eq_nil_iff] at hold
      exact hold.1
    obtain ⟨d', hp⟩ := keeping_change (n := n) hd
    exact ends_change hp hk hd.ins_length_le hold
  | @deleting a b ds ins hs m tail hd hk =>
    obtain ⟨rfl, hold'⟩ : ds = [] ∧ oldOf (editsOf hs tail) = [] := by
      simpa [oldOf_append] using hold
    rcases ins with _ | ⟨s, is⟩
    · obtain ⟨d', r, hl, hr, he⟩ := ends_between (n := n) (c := c) d.input.length hd.between hk hold'
      refine ⟨d', r, hl, he, ?_⟩
      intro S o
      rw [hr, hd.state]
      simp only [List.map_nil, List.nil_append, insertEdit, if_true, hk.editsOf_eq_nil hold']
      exact .closeDel .nil
    · obtain ⟨d₁, hp, hd₁, hb⟩ := process_dashes (n := n) hd
      obtain ⟨d', r, hl, hr, he⟩ := ends_block (c := c) hp hd₁ hb hk hd.ins_length_lt hold'
      refine ⟨d', r, hl, he, ?_⟩
      intro S o
      rw [hr]
      simp only [List.map_nil, List.nil_append, insertEdit, List.cons_ne_nil, if_false, hk.editsOf_eq_nil hold']
      have hdue : Due S o ([] : List (Item ℕ Line)) := trivial
      simpa using Written.closeDel (Written.insert (n := n) (s :: is) hdue .nil)
  | done tail he =>
    obtain rfl : tail = [] := by simpa using hold
    obtain ⟨d', hp, he', -⟩ := process_end (n := n) he
    obtain ⟨r, hl, hr⟩ := lineLoop_end (c := c) d.input.length hp he'
    refine ⟨d', r, hl, he', ?_⟩
    intro S o
    rw [hr]
    exact .nil

/-- When the inner loop gets to the end, the loop at the end of the old body writes the same. -/
theorem eofLoop_of_lineLoop {lenMax : ℕ} {r : DeltaResult} (h : lineLoop n lenMax c fuel d = .ok (d', r))
    (he : d'.state = .end_) : ∃ r', eofLoop n lenMax fuel d = .ok r' ∧ r'.out = r.out := by
  induction fuel generalizing d r with
  | zero => simp [lineLoop] at h
  | succ fuel ih =>
    rw [lineLoop] at h
    obtain ⟨a, ha, h⟩ := bind_eq_ok.mp h
    rcases hs : a.1.state <;> simp only [hs] at h
    · cases h
    · split at h
      · cases h
      · simp only [Except.ok.injEq, Prod.mk.injEq] at h
        rw [← h.1, hs] at he
        cases he
    · split at h
      · cases h
      · simp only [Except.ok.injEq, Prod.mk.injEq] at h
        rw [← h.1, hs] at he
        cases he
    · obtain ⟨s, hsl, h⟩ := bind_eq_ok.mp h
      split at h
      · rename_i hfit
        obtain ⟨q, hq, h⟩ := bind_eq_ok.mp h
        obtain ⟨rfl, rfl⟩ : q.1 = d' ∧ (insertLine a.2 s).append q.2 = r := by
          simpa [pure, Except.pure] using h
        obtain ⟨r', hr', hout⟩ := ih hq
        refine ⟨(insertLine a.2 s).append r', ?_, by simp [DeltaResult.append, hout]⟩
        simp only [eofLoop, ha, ok_bind, hs, if_true, hsl, if_pos hfit, hr']
        rfl
      · cases h
    · have hr : r.out = a.2 := by
        split at h
        · simp only [Except.ok.injEq, Prod.mk.injEq] at h
          rw [← h.2]
        · simp only [Except.ok.injEq, Prod.mk.injEq] at h
          rw [← h.2]
      refine ⟨⟨a.2, 0, 0, 0⟩, ?_, hr.symm⟩
      simp only [eofLoop, ha, ok_bind, hs]
      rfl

/-- **At the end the last block is written.** -/
theorem eofLoop_ends {b : Bool} {es : List Edit} (hf : Form d b es) (hold : oldOf es = []) :
    ∃ r, eofLoop n 0 (d.input.length + 1) d = .ok r ∧ Ends n b es r := by
  obtain ⟨d', r, hl, he, hends⟩ := lineLoop_ends (n := n) (c := 0) hf hold
  obtain ⟨r', hr', hout⟩ := eofLoop_of_lineLoop hl he
  refine ⟨r', hr', fun S o => ?_⟩
  rw [hout]
  exact hends S o

end

/-! ### The outer loop -/

/-- The visible lines of a body. -/
noncomputable def visibleLines (S : Set ℕ) (o : Open ℕ) (items : List (Item ℕ Line)) : List Line :=
  (select S o items).map Prod.snd

/-- Every visible line is counted once, the deleted ones as deleted. -/
def Counted (es : List Edit) (visible : List Line) (r : DeltaResult) : Prop :=
  r.deleted = (droppedOf es).length ∧ r.deleted + r.unchanged = visible.length

/-- **For every script of the visible lines the writer succeeds**, and what it writes is the copy with
the edits spliced in. The lines are counted rightly when none would be visible after the end. -/
theorem deltaLoop_follows {p : DeltaParms} (hp0 : p.lenMax = 0) {ss : SeqState} {S : Set ℕ} {o : Open ℕ}
    {ls : List Line} {items : List (Item ℕ Line)} {d : DiffState} {b : Bool} {es : List Edit}
    (hp : Parses ls items) (ht : ss.Tracks S o) (hr : InRange p.highest items) (hl : InRange ss.last items)
    (hL : Legal o items) (hf : Form d b es) (hold : oldOf es = visibleLines S o items) :
    ∃ r, deltaLoop p (.ok ()) ss d ls = .ok r ∧ Written p.newSeq S o b es items r.out ∧
      (owner S (finish o items) = none → Counted es (visibleLines S o items) r) := by
  induction hp generalizing ss o d b es with
  | nil =>
    rw [deltaLoop, ok_bind, hp0]
    obtain ⟨r, he, hends⟩ := eofLoop_ends (n := p.newSeq) hf hold
    by_cases hi : ss.includeLine = true
    · -- the last insertion is still open: the block is written by the inner loop
      obtain ⟨d', r', hl', he', hends'⟩ := lineLoop_ends (n := p.newSeq) (c := p.c0) hf hold
      obtain ⟨d'', hproc, hstate, -⟩ := process_end (n := p.newSeq) he'
      have heof : eofLoop p.newSeq 0 (d'.input.length + 1) d' = .ok ⟨[], 0, 0, 0⟩ := by
        simp only [eofLoop, hproc, ok_bind, hstate]
        rfl
      simp only [if_pos hi, hl', ok_bind, heof]
      refine ⟨r'.append ⟨[], 0, 0, 0⟩, rfl, by simpa [DeltaResult.append] using hends' S o, fun ho => ?_⟩
      rw [ht.includeLine, show owner S o = none from ho] at hi
      simp at hi
    · simp only [if_neg hi, ok_bind, he]
      refine ⟨DeltaResult.empty.append r, rfl, ?_, fun _ => ?_⟩
      · simpa [DeltaResult.append, DeltaResult.empty] using hends S o
      · have hdrop : droppedOf es = [] := List.sublist_nil.mp ((droppedOf_sublist es).trans (by rw [hold]; rfl))
        obtain ⟨h1, h2⟩ := eofLoop_counts he
        simp [Counted, DeltaResult.append, DeltaResult.empty, hdrop, h1, h2, visibleLines]
  | @cons l x ls items hx _ ih =>
    rcases hk : x.key? with _ | k
    · have hkind := (kind_of_text hx).mp hk
      obtain rfl : x = .text l := by
        rw [item?_text hkind] at hx
        exact (Option.some.inj hx).symm
      rw [deltaLoop, if_neg (by simp [hkind]), ht.includeLine]
      rcases ho : owner S o with _ | k
      · -- not visible: copied
        have hold' : oldOf es = visibleLines S o items := by
          rw [hold]
          simp [visibleLines, emit_text_none ho]
        obtain ⟨r, hd, hw, hcount⟩ := ih ht hr.tail hl.tail hL.2 hf hold'
        rw [Option.isSome_none, if_neg (by simp), hd]
        refine ⟨(copyLine l).append r, rfl, .hidden ho hw, fun hfin => ?_⟩
        simpa [Counted, DeltaResult.append, copyLine, visibleLines, emit_text_none ho] using hcount hfin
      · -- visible: the script says what happens
        have hne : owner S o ≠ none := by simp [ho]
        have hold' : oldOf es = l :: visibleLines S o items := by
          rw [hold]
          simp [visibleLines, emit_text_some ho]
        obtain ⟨d', r, b', es', hll, hf', hvs, hdrop, hfollow⟩ := lineLoop_follows (n := p.newSeq) hf hold'
        obtain ⟨r', hd, hw, hcount⟩ := ih ht hr.tail hl.tail hL.2 hf' hvs
        rw [Option.isSome_some, if_pos rfl, hp0, hll, ok_bind]
        simp only [hd]
        refine ⟨r.append ((copyLine l).append r'), rfl, hfollow S o items r'.out hne hw, fun hfin => ?_⟩
        obtain ⟨h1, h2⟩ := lineLoop_counts (by decide) hll
        obtain ⟨h3, h4⟩ := hcount hfin
        simp only [← hf'.flag] at h1
        have hvis : visibleLines S o (.text l :: items) = l :: visibleLines S o items := by
          simp [visibleLines, emit_text_some ho]
        rw [Drops] at hdrop
        simp only [Counted, DeltaResult.append, copyLine, hvis, hdrop, List.length_cons]
        cases b' <;> simp at h1 ⊢ <;> omega
    · obtain ⟨hkind, hc, hn, -⟩ := item?_key hx hk
      obtain ⟨ss₁, hctl, hlast₁, ht₁⟩ := control_of_admits ht hx hk (hr.head hk).1 (hl.head hk).2 hL.1
        "Unexpected control line '%c'"
      have hrange : ¬ (k < 1 ∨ p.highest < k) := by
        have := hr.head hk
        omega
      have hold' : oldOf es = visibleLines S (act o x) items := by
        rw [hold]
        cases x with
        | text a => simp at hk
        | start c j a => simp [visibleLines]
        | fin j a => simp [visibleLines]
      obtain ⟨r, hd, hw, hcount⟩ := ih ht₁ hr.tail (hlast₁ ▸ hl.tail) hL.2 hf hold'
      rw [deltaLoop, if_pos hkind, hn, ok_bind, if_neg hrange, hctl, ok_bind, hd]
      refine ⟨(copyLine l).append r, rfl, ?_, fun hfin => ?_⟩
      · have := Written.bracket (by simp [hk]) hw
        rwa [item?_raw hx] at this
      · have hvis : visibleLines S o (x :: items) = visibleLines S (act o x) items := hold.symm.trans hold'
        simpa [Counted, DeltaResult.append, copyLine, hvis] using hcount hfin

/-- **`delta` succeeds on every script of the visible lines**, and splices its edits into the body. -/
theorem delta_follows {p : DeltaParms} (hp0 : p.lenMax = 0) {ss : SeqState} {S : Set ℕ} {ls : List Line}
    {items : List (Item ℕ Line)} (hp : Parses ls items) (ht : ss.Tracks S shut) (hr : InRange p.highest items)
    (hl : InRange ss.last items) (hL : Legal shut items) (s : Script)
    (hs : s.oldLines = visibleLines S shut items) :
    ∃ r, delta p ss s.render ⟨ls, .ok ()⟩ = .ok r ∧ Written p.newSeq S shut false s.edits items r.out ∧
      (owner S (finish shut items) = none → Counted s.edits (visibleLines S shut items) r) :=
  deltaLoop_follows hp0 hp ht hr hl hL (.start s.tail rfl rfl rfl rfl rfl rfl s.separated)
    (s.oldOf_edits.trans hs)

end CSSC.Body
