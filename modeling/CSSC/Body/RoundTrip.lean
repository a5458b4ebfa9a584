import CSSC.Body.Accepted

/-!
# What `delta` writes, read again

The body that `delta` writes is read by `get`, for the new version and for all the others, and by `remove`, which
takes the new delta out again. The edits of a script lead from the lines `V` of the old version to the lines `G` of
the new one (`Script.DiffOf`), and no inserted string begins with `^A` (`Script.PlainInserts`).

The new version is read back (`get_after_delta`). The others stay the same (`SameFor`) exactly when every block of
inserted strings ends with a newline, save one that is the end of the version (`history_kept_iff`). The old body comes
back from `remove` exactly when every block does (`remove_after_delta_iff`); the last one need not, if `remove` finds
no error number when it comes to the end of the file inside of it.
-/

namespace CSSC.Body

open CSSC.Lines CSSC.Library.Weave

/-! ### Scripts between two texts -/

/-- The strings of the new file. -/
def Script.newStrings (s : Script) : List CLine :=
  s.hunks.flatMap (fun h => h.keep.map Line.delivered ++ h.ins) ++ s.tail.map Line.delivered

/-- The script leads from the lines `V` to the lines `G`. -/
structure Script.DiffOf (s : Script) (V G : List Line) : Prop where
  /-- The script is about `V`. -/
  old : s.oldLines = V
  /-- The script makes `G` of it. -/
  new : s.newStrings = G.map Line.delivered

/-- No inserted string begins with `^A`. -/
def Script.PlainInserts (s : Script) : Prop := ∀ h ∈ s.hunks, ∀ c ∈ h.ins, Plain c.bytes

instance (s : Script) : Decidable s.PlainInserts := inferInstanceAs (Decidable (∀ h ∈ s.hunks, ∀ c ∈ h.ins, _))

/-- The strings of the new version that an edit leads to. -/
def Edit.new : Edit → List CLine
  | keep l => [l.delivered]
  | drop _ => []
  | insert ss => ss

/-- The strings of the new version that edits lead to. -/
def newOf (edits : List Edit) : List CLine := edits.flatMap Edit.new

@[simp] theorem newOf_nil : newOf [] = [] := rfl
@[simp] theorem newOf_cons (e : Edit) (es : List Edit) : newOf (e :: es) = e.new ++ newOf es := rfl

theorem newOf_append (es fs : List Edit) : newOf (es ++ fs) = newOf es ++ newOf fs := by simp [newOf]

@[simp] theorem newOf_map_keep (ls : List Line) : newOf (ls.map .keep) = ls.map Line.delivered := by
  induction ls with
  | nil => rfl
  | cons l ls ih => simp [ih, Edit.new]

@[simp] theorem newOf_map_drop (ls : List Line) : newOf (ls.map .drop) = [] := by
  induction ls with
  | nil => rfl
  | cons l ls ih => simp [ih, Edit.new]

@[simp] theorem newOf_insertEdit (ins : List CLine) : newOf (insertEdit ins) = ins := by
  unfold insertEdit
  split
  · rename_i h
    rw [h]
    rfl
  · simp [Edit.new]

theorem Script.newOf_edits (s : Script) : newOf s.edits = s.newStrings := by
  obtain ⟨hunks, tail, marker, sep⟩ := s
  unfold Script.edits Script.newStrings
  simp only
  clear sep
  induction hunks with
  | nil => simp [editsOf]
  | cons h hs ih => simp [editsOf, newOf_append, Hunk.change, ih]

theorem mem_editsOf_insert {hs : List Hunk} {tail : List Line} {ss : List CLine}
    (h : Edit.insert ss ∈ editsOf hs tail) : ∃ k ∈ hs, ss = k.ins := by
  induction hs with
  | nil => simp [editsOf] at h
  | cons k hs ih =>
    simp only [editsOf, Hunk.change, insertEdit, List.mem_append, List.mem_map, reduceCtorEq, and_false,
      exists_false, false_or] at h
    rcases h with h | h
    · split at h
      · simp at h
      · simp only [List.mem_singleton, Edit.insert.injEq] at h
        exact ⟨k, List.mem_cons_self, h⟩
    · obtain ⟨m, hm, e⟩ := ih h
      exact ⟨m, List.mem_cons_of_mem k hm, e⟩

theorem Script.PlainInserts.edits {s : Script} (h : s.PlainInserts) : PlainEdits s.edits := by
  intro ss hss c hc
  obtain ⟨k, hk, rfl⟩ := mem_editsOf_insert hss
  exact h k hk c hc

/-! ### Scripts that are read line by line -/

theorem delivered_injective : Function.Injective Line.delivered := by
  intro l m h
  have : l.delivered.chomp = m.delivered.chomp := by rw [h]
  simpa using this

theorem storedLines_injective {ls ms : List Line} (h : storedLines ls = storedLines ms) : ls = ms := by
  have : deliveries .initial (storedLines ls) = deliveries .initial (storedLines ms) := by rw [h]
  rw [deliveries_storedLines, deliveries_storedLines] at this
  exact List.map_injective_iff.mpr delivered_injective this

theorem content_delivered (ls : List Line) : content (ls.map Line.delivered) = storedLines ls := by
  simp only [content, storedLines, List.flatMap_map]
  rfl

/-- A line with two characters before it. -/
def quotedLine (c : UInt8) (hc : 32 < c) (l : Line) : Line where
  bytes := c :: 32 :: l.bytes
  no_nul := fun h => (quoted c hc l.delivered).no_nul (by
    rcases List.mem_cons.mp h with h | h
    · exact List.mem_cons.mpr (.inl h)
    · rcases List.mem_cons.mp h with h | h
      · exact absurd h (by decide)
      · exact absurd h l.no_nul)
  no_newline := fun h => by
    rcases List.mem_cons.mp h with h | h
    · exact absurd (h ▸ hc) (by decide)
    · rcases List.mem_cons.mp h with h | h
      · exact absurd h (by decide)
      · exact l.no_newline h

theorem quoted_delivered (c : UInt8) (hc : 32 < c) (l : Line) :
    quoted c hc l.delivered = (quotedLine c hc l).delivered := CLine.ext rfl

/-- Every string is a whole line. -/
def Whole (ss : List CLine) : Prop := ∃ ls : List Line, ss = ls.map Line.delivered

theorem Whole.append {ss tt : List CLine} (h : Whole ss) (h' : Whole tt) : Whole (ss ++ tt) := by
  obtain ⟨ls, rfl⟩ := h
  obtain ⟨ms, rfl⟩ := h'
  exact ⟨ls ++ ms, by simp⟩

theorem whole_nil : Whole [] := ⟨[], rfl⟩

theorem whole_singleton (l : Line) : Whole [l.delivered] := ⟨[l], rfl⟩

theorem whole_quoted (c : UInt8) (hc : 32 < c) (ls : List Line) :
    Whole ((ls.map Line.delivered).map (quoted c hc)) :=
  ⟨ls.map (quotedLine c hc), by simp [Function.comp_def, quoted_delivered]⟩

theorem whole_body {h : Hunk} (hi : Whole h.ins) : Whole h.body := by
  unfold Hunk.body insertPart
  refine .append ?_ (.append ?_ ?_)
  · have := whole_quoted 60 (by decide) h.del
    rwa [List.map_map] at this
  · split
    · exact whole_singleton dashes
    · exact whole_nil
  · obtain ⟨ls, hls⟩ := hi
    rw [hls]
    exact whole_quoted 62 (by decide) ls

theorem whole_renderHunks {hs : List Hunk} (h : ∀ k ∈ hs, Whole k.ins) (a b : ℕ) : Whole (renderHunks a b hs) := by
  induction hs generalizing a b with
  | nil => exact whole_nil
  | cons k hs ih =>
    exact .append (.append (whole_singleton _) (whole_body (h k List.mem_cons_self)))
      (ih (fun m hm => h m (List.mem_cons_of_mem k hm)) _ _)

/-- Part of a list of whole lines is a list of whole lines. -/
theorem whole_of_append {ss tt uu : List CLine} {G : List Line} (h : ss ++ (tt ++ uu) = G.map Line.delivered) :
    Whole tt := by
  obtain ⟨G₁, G₂, -, -, h⟩ := List.map_eq_append_iff.mp h.symm
  obtain ⟨G₃, G₄, -, h, -⟩ := List.map_eq_append_iff.mp h
  exact ⟨G₃, h.symm⟩

theorem Script.DiffOf.whole {s : Script} {V G : List Line} (h : s.DiffOf V G) : ∀ k ∈ s.hunks, Whole k.ins := by
  intro k hk
  obtain ⟨before, after, he⟩ := List.append_of_mem hk
  have hnew := h.new
  simp only [Script.newStrings, he, List.flatMap_append, List.flatMap_cons, List.append_assoc] at hnew
  rw [← List.append_assoc] at hnew
  exact whole_of_append hnew

/-- **A script of whole lines is read as it is printed.** -/
theorem Script.DiffOf.deliveries {s : Script} {V G : List Line} (h : s.DiffOf V G) (b : Linebuf) :
    deliveries b (content s.render) = s.render := by
  obtain ⟨ls, hls⟩ : Whole s.render := by
    refine .append (whole_renderHunks h.whole 0 0) ?_
    unfold markerPart
    split
    · exact whole_singleton markerLine
    · exact whole_nil
  rw [hls, content_delivered, deliveries_storedLines]

theorem Plain.delivered {l : Line} (h : Plain l.bytes) : Plain l.delivered.bytes := by
  rw [Line.delivered_bytes, Plain]
  rcases hb : l.bytes with _ | ⟨c, r⟩
  · decide
  · rw [hb] at h
    exact h

theorem Script.DiffOf.plain {s : Script} {V G : List Line} (h : s.DiffOf V G) (hG : ∀ g ∈ G, Plain g.bytes) :
    s.PlainInserts := by
  intro k hk c hc
  have hmem : c ∈ s.newStrings := by
    simp only [Script.newStrings, List.mem_append, List.mem_flatMap]
    exact .inl ⟨k, hk, .inr hc⟩
  rw [h.new] at hmem
  obtain ⟨g, hg, rfl⟩ := List.mem_map.mp hmem
  exact (hG g hg).delivered

/-- Edits that lead to whole lines are read back as closed blocks, and lead to these lines. -/
theorem reads_new {es : List Edit} {as : List (Act Line)} {G : List Line} (h : Reads es as)
    (hG : newOf es = G.map Line.delivered) : Act.Closed as ∧ as.flatMap Act.new = G := by
  induction h generalizing G with
  | nil =>
    obtain rfl : G = [] := by simpa using hG.symm
    exact ⟨by simp [Act.Closed], rfl⟩
  | @cons e a es as hx _ ih =>
    cases hx with
    | keep l =>
      obtain ⟨g, G', rfl, hg, hG'⟩ := List.map_eq_cons_iff.mp hG.symm
      obtain ⟨hc, hn⟩ := ih hG'.symm
      refine ⟨(Act.closed_keep l as).mpr hc, ?_⟩
      rw [List.flatMap_cons, hn, delivered_injective hg]
      rfl
    | drop l =>
      obtain ⟨hc, hn⟩ := ih hG
      exact ⟨(Act.closed_drop l as).mpr hc, hn⟩
    | @whole ss gs hgs =>
      obtain ⟨G₁, G₂, rfl, hs, hG₂⟩ := List.map_eq_append_iff.mp hG.symm
      obtain ⟨hc, hn⟩ := ih hG₂.symm
      refine ⟨(Act.closed_block gs true as).mpr ⟨rfl, hc⟩, ?_⟩
      have hss : ss = G₁.map Line.delivered := hs.symm
      rw [hss, content_delivered] at hgs
      rw [List.flatMap_cons, hn, storedLines_injective hgs]
      rfl
    | @cut ss gs hgs =>
      obtain ⟨G₁, G₂, rfl, hs, -⟩ := List.map_eq_append_iff.mp hG.symm
      have hss : ss = G₁.map Line.delivered := hs.symm
      rw [hss, content_delivered] at hgs
      exact absurd (endsLine_storedLines G₁) hgs

/-! ### What is written is a splice -/

/-- What a run of `delta` is about: the old body as items, and the new one as a splice of it. -/
structure Spliced (p : DeltaParms) (ss : SeqState) (R : Reading) (es : List Edit) (bytes : List UInt8)
    (items : List (Item ℕ Line)) (as : List (Act Line)) (new : List (Item ℕ Line)) : Prop where
  /-- The old body is read to the end. -/
  ending : R.ending = .ok ()
  /-- Its lines are the items. -/
  parses : Parses R.lines items
  /-- Its numbers are those of the delta table. -/
  inRange : InRange p.highest items
  /-- Its numbers are those of the `seq_state`. -/
  inStates : InRange ss.last items
  /-- It is legal. -/
  legal : Legal shut items
  /-- The actions are what the edits are read back as. -/
  reads : Reads es as
  /-- The new items are the old ones with the actions spliced in. -/
  splice : Splice p.newSeq ss.includedSet shut false as items new
  /-- The new items stand in lines that are read so. -/
  genuine : Genuine new
  /-- These lines are what is written. -/
  bytes_eq : bytes = storedLines (new.map Item.raw)

/-- The new body as it is read. -/
theorem Spliced.readBody {p : DeltaParms} {ss : SeqState} {R : Reading} {es : List Edit} {bytes : List UInt8}
    {items new : List (Item ℕ Line)} {as : List (Act Line)} (h : Spliced p ss R es bytes items as new) (b : Linebuf) :
    readBody b bytes = ⟨new.map Item.raw, .ok ()⟩ := by
  rw [h.bytes_eq, readBody_storedLines]

/-- The old body as it was read. -/
theorem Spliced.reading {p : DeltaParms} {ss : SeqState} {R : Reading} {es : List Edit} {bytes : List UInt8}
    {items new : List (Item ℕ Line)} {as : List (Act Line)} (h : Spliced p ss R es bytes items as new) :
    R = ⟨R.lines, .ok ()⟩ := by
  obtain ⟨ls, e⟩ := R
  exact congrArg _ h.ending

/-- **What `delta` writes follows the edits of the script.** -/
theorem written_of_delta {hi : ℕ} {ss fin : SeqState} {R : Reading} {vis : Visible} {p : DeltaParms} {s : Script}
    {r : DeltaResult} (hf : ss.Fresh) (hget : get hi ss R = .ok (vis, fin)) (hs : s.oldLines = vis.map Prod.snd)
    (hd : delta p ss s.render R = .ok r) {items : List (Item ℕ Line)} (hpar : Parses R.lines items) :
    R.ending = .ok () ∧ InRange p.highest items ∧ InRange ss.last items ∧ Legal shut items ∧
      Written p.newSeq ss.includedSet shut false s.edits items r.out := by
  obtain ⟨he, -⟩ := parses_of_get hget
  obtain ⟨h1, h2, hL⟩ := accepted_of_deltaLoop hpar hf.tracks hd
  have hvis := visible_of_get hf hget hpar h2 hL
  have hR : R = ⟨R.lines, .ok ()⟩ := by rw [← he]
  obtain ⟨r', hd', hw, -⟩ := delta_follows (p := p.unlimited) rfl hpar hf.tracks h1 h2 hL s (hs.trans (by rw [hvis]; rfl))
  rw [← hR, delta_unlimited hd] at hd'
  obtain rfl := Except.ok.inj hd'
  exact ⟨he, h1, h2, hL, hw⟩

/-- **What `delta` writes for a script is a splice.** -/
theorem spliced_of_delta {hi : ℕ} {ss fin : SeqState} {R : Reading} {vis : Visible} {p : DeltaParms} {s : Script}
    {r : DeltaResult} (hf : ss.Fresh) (hget : get hi ss R = .ok (vis, fin)) (hs : s.oldLines = vis.map Prod.snd)
    (hp : TameEdits s.edits) (hd : delta p ss s.render R = .ok r) :
    ∃ items as new, Spliced p ss R s.edits r.bytes items as new := by
  obtain ⟨-, items, hpar⟩ := parses_of_get hget
  obtain ⟨he, h1, h2, hL, hw⟩ := written_of_delta hf hget hs hd hpar
  obtain ⟨as, new, hr, hsp, hg, hb⟩ := read_back hw p.newSeq_le hpar.genuine hp
  exact ⟨items, as, new, he, hpar, h1, h2, hL, hr, hsp, hg, hb⟩

/-- A new body whose first line and numbers are those of the old one is sound, if it is settled. -/
theorem Spliced.sound {p : DeltaParms} {ss : SeqState} {R : Reading} {es : List Edit} {bytes : List UInt8}
    {items new : List (Item ℕ Line)} {as : List (Act Line)} (h : Spliced p ss R es bytes items as new)
    (hfirst : ∃ k l r, items = .start .ins k l :: r) (hu : Under p.newSeq items) (hset : Act.Settled as)
    {hi last : ℕ} (hhi : p.newSeq ≤ hi) (hlast : p.newSeq ≤ last) : Sound hi last (new.map Item.raw) new := by
  obtain ⟨k, l, r, rfl⟩ := hfirst
  have hpos : 1 ≤ k := (h.inRange.head (k := k) rfl).1
  have hkn : k < p.newSeq := hu.head k rfl
  have hrange : ∀ m, p.newSeq ≤ m → InRange m new := by
    intro m hm x hx j hj
    rcases h.splice.keys x hx j hj with rfl | ⟨y, hy, hyj⟩
    · omega
    · have := h.inRange y hy j hyj
      have := hu y hy j hyj
      omega
  obtain ⟨r', hr'⟩ := h.splice.first (by simp)
  exact ⟨h.genuine.parses, ⟨k, l, r', hr'⟩, hrange hi hhi, hrange last hlast,
    h.splice.legal hu.free rfl hset h.legal⟩

/-! ### A small body -/

/-- The line `a`. -/
def lineA : Line := plainLine [97] (by simp)

/-- The line `b`. -/
def lineB : Line := plainLine [98] (by simp)

/-- A body with one delta, which inserts `a`. -/
def sampleBody : List Line := [insLine 1, lineA, endLine 1]

/-- The state of a `get` of that delta, for numbers up to `l`. -/
def sampleStates (l : ℕ) (h : l < 65535) : SeqState := (SeqState.new l h).setIncluded 1 false

/-- The second delta is added. -/
def sampleParms : DeltaParms := ⟨1, 2, 0, 255, by decide⟩

/-- The line `a` becomes `b`. -/
def sampleScript : Script := ⟨[⟨[], [lineA], [lineB.delivered], by decide⟩], [], false, by decide⟩

/-- The line `x` and a NUL are inserted before `a`. -/
def nulScript : Script := ⟨[⟨[], [], [⟨[120], by decide, by decide⟩], by decide⟩], [lineA], false, by decide⟩

/-- The output of diff for it: `0a1`, `> x`, a NUL and `y`. -/
def nulOutput : List UInt8 := [48, 97, 49, 10, 62, 32, 120, 0, 121, 10]

/-- What is written when `a` becomes `b`. -/
def sampleResult : DeltaResult :=
  ⟨[.copied (insLine 1), .control letterD 2, .copied lineA, .copied (endLine 1), .control letterE 2,
    .control letterI 2, .inserted lineB.delivered, .control letterE 2], 1, 1, 0⟩

/-- What is written when `x` and a NUL are inserted. -/
def nulResult : DeltaResult :=
  ⟨[.copied (insLine 1), .control letterI 2, .inserted ⟨[120], by decide, by decide⟩, .control letterE 2,
    .copied lineA, .copied (endLine 1)], 1, 0, 1⟩

theorem sample_get : ∃ fin, get 1 (sampleStates 1 (by decide)) (readBody .initial (storedLines sampleBody)) =
    .ok ([(1, lineA)], fin) := ⟨_, rfl⟩

theorem sample_delta : delta sampleParms (sampleStates 1 (by decide))
    (deliveries .initial (content sampleScript.render)) (readBody .initial (storedLines sampleBody)) =
      .ok sampleResult := by
  decide +kernel

theorem nul_delta : delta sampleParms (sampleStates 1 (by decide)) (deliveries .initial nulOutput)
    (readBody .initial (storedLines sampleBody)) = .ok nulResult := by
  decide +kernel

theorem sampleBody_closed : Closed sampleBody :=
  ⟨[.start .ins 1 (insLine 1), .text lineA, .fin 1 (endLine 1)],
    .cons (item?_insLine (by decide)) (.cons rfl (.cons (item?_endLine (by decide)) .nil)), by
      funext k
      by_cases hk : k = 1 <;> simp [shut, hk]⟩

theorem sampleBody_below : Below 2 sampleBody := by
  intro l hl hk k hn
  simp only [sampleBody, List.mem_cons, List.not_mem_nil, or_false] at hl
  rcases hl with rfl | rfl | rfl
  · obtain rfl : 1 = k := Except.ok.inj hn
    decide
  · exact absurd rfl hk
  · obtain rfl : 1 = k := Except.ok.inj hn
    decide

theorem sampleStates_fresh (l : ℕ) (h : l < 65535) : (sampleStates l h).Fresh := (SeqState.fresh_new l h).setIncluded 1 false

theorem sampleStates_included (l : ℕ) (h : l < 65535) : (sampleStates l h).includedSet = {1} := by
  simp [sampleStates]

/-! ### The new version -/

/-- **The new version is read back**: whatever lines the visible ones are edited into, `delta` succeeds,
and `get` outputs these lines for the included set with the new delta. -/
theorem get_after_delta {hi hi' : ℕ} {ss fin ss' : SeqState} {b b' bs : Linebuf} {body : List UInt8} {vis : Visible}
    {p : DeltaParms} {s : Script} {G : List Line} (hf : ss.Fresh)
    (hget : get hi ss (readBody b body) = .ok (vis, fin)) (hcl : Closed (readBody b body).lines)
    (hmax : p.lenMax = 0) (hhi : hi ≤ p.highest) (hnew : Below p.newSeq (readBody b body).lines)
    (hs : s.DiffOf (vis.map Prod.snd) G) (hG : ∀ g ∈ G, Plain g.bytes) (hf' : ss'.Fresh)
    (hS : ss'.includedSet = insert p.newSeq ss.includedSet) (hlast : p.newSeq ≤ ss'.last) (hhi' : p.newSeq ≤ hi') :
    ∃ r, delta p ss (deliveries bs (content s.render)) (readBody b body) = .ok r ∧
      ∃ vis' fin', get hi' ss' (readBody b' r.bytes) = .ok (vis', fin') ∧ vis'.map Prod.snd = G := by
  obtain ⟨he, items, hsound, hfin⟩ := sound_of_get hf hget hcl
  have hvis := visible_of_get hf hget hsound.parses hsound.inStates hsound.legal
  have hR : readBody b body = ⟨(readBody b body).lines, .ok ()⟩ := by rw [← he]
  have hrange : InRange p.highest items := fun x hx k hk => by
    have := hsound.inRange x hx k hk
    omega
  obtain ⟨r, hd, -⟩ := delta_follows (p := p) hmax hsound.parses hf.tracks hrange hsound.inStates hsound.legal s
    (hs.old.trans (by rw [hvis]; rfl))
  rw [← hR] at hd
  obtain ⟨items', as, new, h⟩ := spliced_of_delta hf hget hs.old (hs.plain hG).edits.tame hd
  obtain rfl := h.parses.unique hsound.parses
  have hu := h.parses.under hnew
  obtain ⟨hclosed, hnewG⟩ := reads_new h.reads (s.newOf_edits.trans hs.new)
  have hsound' := h.sound hsound.first hu hclosed.settled hhi' hlast
  obtain ⟨fin', hg, -⟩ := get_of_sound hf'.tracks hsound'
  refine ⟨r, by rw [hs.deliveries, hd], _, fin', by rw [h.readBody, hg], ?_⟩
  have hafter := h.splice.after hu (fun _ _ => rfl) hclosed
  rw [hS, ← hnewG]
  exact hafter

/-- The line `a` is edited into `b`. -/
theorem get_after_delta_sample : ∃ r, delta sampleParms (sampleStates 1 (by decide))
      (deliveries .initial (content sampleScript.render)) (readBody .initial (storedLines sampleBody)) = .ok r ∧
    ∃ vis fin, get 2 ((sampleStates 2 (by decide)).setIncluded 2 false) (readBody .initial r.bytes) = .ok (vis, fin) ∧
      vis.map Prod.snd = [lineB] := by
  obtain ⟨fin, hget⟩ := sample_get
  refine get_after_delta (sampleStates_fresh 1 _) hget ?_ rfl le_rfl ?_ ⟨rfl, rfl⟩ (by decide)
    ((sampleStates_fresh 2 _).setIncluded 2 false) (by simp [sampleStates, sampleParms]) le_rfl le_rfl
  · rw [readBody_storedLines]
    exact sampleBody_closed
  · rw [readBody_storedLines]
    exact sampleBody_below

/-! ### The other versions -/

/-- Two bodies show the same lines, attributed to the same deltas, to every version without `n`. -/
def SameFor (n : ℕ) (old new : Reading) : Prop :=
  ∀ (T : SeqState) (hi : ℕ), T.Fresh → n ∉ T.includedSet → n ≤ T.last → n ≤ hi →
    ∃ vis fin fin', get hi T old = .ok (vis, fin) ∧ get hi T new = .ok (vis, fin')

/-- The state with as many numbers as needed. -/
def SeqState.reach (ss : SeqState) (n : ℕ) (hn : n < 65535) : SeqState where
  states := ss.states
  last := max ss.last n
  active := ss.active
  inserting := ss.inserting
  last_lt := max_lt ss.last_lt hn
  beyond k hk := ss.beyond k ((le_max_left _ _).trans_lt hk)

/-- **The other versions stay the same exactly when every block of inserted strings ends with a newline**,
save one that is the end of the version the edit was made from. -/
theorem history_kept_iff {hi : ℕ} {ss fin : SeqState} {b b' bs : Linebuf} {body script : List UInt8} {vis : Visible}
    {p : DeltaParms} {s : Script} {r : DeltaResult} (hf : ss.Fresh)
    (hget : get hi ss (readBody b body) = .ok (vis, fin)) (hcl : Closed (readBody b body).lines)
    (hnew : Below p.newSeq (readBody b body).lines) (hlt : p.newSeq < 65535) (hnot : p.newSeq ∉ ss.includedSet)
    (hread : deliveries bs script = s.render) (hs : s.oldLines = vis.map Prod.snd) (hp : s.PlainInserts)
    (hd : delta p ss (deliveries bs script) (readBody b body) = .ok r) :
    SameFor p.newSeq (readBody b body) (readBody b' r.bytes) ↔ SettledEdits s.edits := by
  rw [hread] at hd
  obtain ⟨items, as, new, h⟩ := spliced_of_delta hf hget hs hp.edits.tame hd
  obtain ⟨-, items', hsound, -⟩ := sound_of_get hf hget hcl
  obtain rfl := h.parses.unique hsound.parses
  have hu := h.parses.under hnew
  have hold : ∀ m, p.newSeq ≤ m → InRange m items := fun m hm x hx k hk => by
    have := h.inRange x hx k hk
    have := hu x hx k hk
    omega
  rw [h.readBody, ← settled_iff h.reads]
  constructor
  · intro hsame
    by_contra hns
    -- the version the edit was made from is itself a version without the new delta
    obtain ⟨v, f, f', hg, hg'⟩ := hsame (ss.reach p.newSeq hlt) p.newSeq hf hnot (le_max_right _ _) le_rfl
    have hfr : (ss.reach p.newSeq hlt).Fresh := hf
    have hv := visible_of_get hfr hg h.parses (hold _ (le_max_right _ _)) h.legal
    obtain ⟨k, l, r', hfirst⟩ := hsound.first
    obtain ⟨r'', hr''⟩ := (hfirst ▸ h.splice).first (by simp)
    have hk : 1 ≤ k ∧ k ≤ (ss.reach p.newSeq hlt).last := by
      subst hfirst
      exact (hold _ (le_max_right _ _)).head rfl
    obtain ⟨hl', hL'⟩ := legal_of_get hfr hg' h.genuine.parses (by
      rw [hr'']
      rintro x hx j hj
      obtain rfl : Item.start .ins k l = x := by simpa using hx
      obtain rfl : k = j := by simpa using hj
      exact hk)
    have hv' := visible_of_get hfr hg' h.genuine.parses hl' hL'
    exact h.splice.jammed hu (fun _ _ => rfl) hnot hns hL' (hv'.symm.trans hv)
  · intro hset T hi' hT hnT hlast hhi'
    obtain ⟨f, hg, -⟩ := get_of_sound hT.tracks
      (show Sound hi' _ _ _ from ⟨h.parses, hsound.first, hold _ hhi', hold _ hlast, h.legal⟩)
    obtain ⟨f', hg', -⟩ := get_of_sound hT.tracks (h.sound hsound.first hu hset hhi' hlast)
    refine ⟨_, f, f', by rw [h.reading, hg], ?_⟩
    rw [hg', ← h.splice.transparent hu (fun _ _ => rfl) hnT hset]
    rfl

/-- The version before `a` is edited into `b` stays. -/
theorem history_kept_iff_sample : SameFor 2 (readBody .initial (storedLines sampleBody))
    (readBody .initial sampleResult.bytes) ↔ SettledEdits sampleScript.edits := by
  obtain ⟨fin, hget⟩ := sample_get
  refine history_kept_iff (sampleStates_fresh 1 (by decide)) hget ?_ ?_ (by decide)
    (by simp [sampleStates_included, sampleParms]) (by decide +kernel) rfl (by decide) sample_delta
  · rw [readBody_storedLines]
    exact sampleBody_closed
  · rw [readBody_storedLines]
    exact sampleBody_below

/-- **A line with a NUL hides the rest of the version it was inserted into**: diff says that `x`, a NUL and
`y` are inserted before `a`, and `a` is no longer shown to the version before. -/
theorem history_lost : deliveries .initial nulOutput = nulScript.render ∧ nulScript.oldLines = [lineA] ∧
    nulScript.PlainInserts ∧ delta sampleParms (sampleStates 1 (by decide)) (deliveries .initial nulOutput)
        (readBody .initial (storedLines sampleBody)) = .ok nulResult ∧
      ¬ SameFor 2 (readBody .initial (storedLines sampleBody)) (readBody .initial nulResult.bytes) := by
  refine ⟨by decide +kernel, rfl, by decide, nul_delta, fun h => ?_⟩
  obtain ⟨vis, fin, fin', hg, hg'⟩ := h (sampleStates 2 (by decide)) 2 (sampleStates_fresh 2 _)
    (by simp [sampleStates_included]) le_rfl le_rfl
  have h1 : [(1, lineA)] = vis := congrArg Prod.fst (Except.ok.inj hg)
  have h2 : [] = vis := congrArg Prod.fst (Except.ok.inj hg')
  rw [← h1] at h2
  cases h2

/-! ### Taking the delta out again -/

/-- Edits that `remove` undoes: every block ends with a newline, save one that is the last edit of all, if no error
number is found at the end of the file. -/
def UndoneEdits (errno : ℕ) (es : List Edit) : Prop := WholeEdits es ∨ (errno = 0 ∧ SettledEdits es)

theorem undone_iff {errno : ℕ} {es : List Edit} {as : List (Act Line)} (h : Reads es as) :
    Splice.Undone (errno = 0) as ↔ UndoneEdits errno es := by
  rw [UndoneEdits, ← closed_iff h, ← settled_iff h, Splice.Undone]
  by_cases he : errno = 0
  · simpa [he] using Act.Closed.settled
  · simp [he]

/-- **`remove` gives the old body back exactly when every block of inserted strings ends with a newline**, or all but
the last edit, where no error number tells that the file ended too soon. -/
theorem remove_after_delta_iff {hi : ℕ} {ss fin : SeqState} {b b' bs : Linebuf} {body script : List UInt8}
    {vis : Visible} {p : DeltaParms} {s : Script} {r : DeltaResult} (errno : ℕ) (hf : ss.Fresh)
    (hget : get hi ss (readBody b body) = .ok (vis, fin)) (hnew : Absent p.newSeq (readBody b body).lines)
    (hread : deliveries bs script = s.render) (hs : s.oldLines = vis.map Prod.snd) (hp : s.PlainInserts)
    (hd : delta p ss (deliveries bs script) (readBody b body) = .ok r) :
    remove errno p.newSeq (readBody b' r.bytes) = .ok (readBody b body).lines ↔ UndoneEdits errno s.edits := by
  rw [hread] at hd
  obtain ⟨items, as, new, h⟩ := spliced_of_delta hf hget hs hp.edits.tame hd
  have hstrip : strip (errno = 0) p.newSeq (Splice.modeOf false) new = some items ↔ Splice.Undone (errno = 0) as :=
    h.splice.strip_eq_iff (h.parses.free hnew)
  rw [h.readBody, ← undone_iff h.reads, ← hstrip, remove, removeLoop_eq_ok h.genuine.parses]
  constructor
  · rintro ⟨kept, hk, hraw⟩
    -- what is kept is made of the lines of the old body, and so are the old items
    have hgen : Genuine kept := fun x hx => h.genuine x ((strip_sublist hk).subset hx)
    obtain rfl : kept = items := (hraw ▸ hgen.parses).unique h.parses
    exact hk
  · exact fun hk => ⟨items, hk, h.parses.raw.symm⟩

/-- The delta that edited `a` into `b` is taken out. -/
theorem remove_after_delta_iff_sample : remove 2 2 (readBody .initial sampleResult.bytes) =
    .ok (readBody .initial (storedLines sampleBody)).lines ↔ UndoneEdits 2 sampleScript.edits := by
  obtain ⟨fin, hget⟩ := sample_get
  refine remove_after_delta_iff 2 (sampleStates_fresh 1 (by decide)) hget ?_ (by decide +kernel) rfl (by decide)
    sample_delta
  rw [readBody_storedLines]
  exact sampleBody_below.absent

/-- **A line with a NUL cannot be taken out again**: the end of its block is glued to it, and `remove` meets
the next bracket inside the block. -/
theorem remove_fails_with_nul : deliveries .initial nulOutput = nulScript.render ∧ nulScript.oldLines = [lineA] ∧
    nulScript.PlainInserts ∧ delta sampleParms (sampleStates 1 (by decide)) (deliveries .initial nulOutput)
        (readBody .initial (storedLines sampleBody)) = .ok nulResult ∧
      ∀ errno, remove errno 2 (readBody .initial nulResult.bytes) = .error (.failure "non-terminal delta at ") :=
  ⟨by decide +kernel, rfl, by decide, nul_delta, fun errno => by rfl⟩

end CSSC.Body
