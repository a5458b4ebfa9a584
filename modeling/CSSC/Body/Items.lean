import CSSC.Body.Scanner
import Mathlib.Data.List.Forall2

/-!
# The body as a weave

A body line is an item of a weave over the sequence numbers; its record is the line itself. In these terms **`get`
succeeds on the legal weaves with numbers in range, and only on these; its output is what the weave shows**
(`get_of_sound`, `sound_of_get`), and `remove` is `strip` (`removeLoop_eq_ok`). That every `^AI` and `^AD` of the
lines is closed by its `^AE` is a condition of its own, `Closed`.
-/

namespace CSSC.Body

open CSSC.Lines CSSC.Library.Weave CSSC.Library.Decimal
open SeqState (Tracks letterOf)

/-- A body line as an item of a weave; `none` for a `^A` line that is no bracket. -/
def Line.item? (l : Line) : Option (Item ℕ Line) :=
  if l.kind = 0 then some (.text l)
  else
    match checkArg l, lineNumber l with
    | .ok _, .ok k =>
      if l.kind = letterI then some (.start .ins k l)
      else if l.kind = letterD then some (.start .del k l)
      else if l.kind = letterE then some (.fin k l)
      else none
    | _, _ => none

/-- The lines are the items. -/
def Parses (ls : List Line) (items : List (Item ℕ Line)) : Prop :=
  List.Forall₂ (fun l x => Line.item? l = some x) ls items

/-- Every bracket's number is between 1 and `h`. -/
def InRange (h : ℕ) (items : List (Item ℕ Line)) : Prop :=
  ∀ x ∈ items, ∀ k, x.key? = some k → 1 ≤ k ∧ k ≤ h

/-- No region is open. -/
def shut : Open ℕ := fun _ => none

/-- Every `^AI` and `^AD` is closed by its `^AE`. -/
def Closed (ls : List Line) : Prop := ∃ items, Parses ls items ∧ finish shut items = shut

/-! ### Lines and items -/

theorem kind_of_text {l : Line} {x : Item ℕ Line} (h : Line.item? l = some x) :
    x.key? = none ↔ l.kind = 0 := by
  unfold Line.item? at h
  split at h
  · rename_i hk
    obtain rfl := Option.some.inj h
    simp [hk]
  · rename_i hk
    split at h
    · split at h
      · obtain rfl := Option.some.inj h
        simp [hk]
      · split at h
        · obtain rfl := Option.some.inj h
          simp [hk]
        · split at h
          · obtain rfl := Option.some.inj h
            simp [hk]
          · simp at h
    · simp at h

/-- The item of a text line is its text. -/
theorem item?_text {l : Line} (h : l.kind = 0) : Line.item? l = some (.text l) := if_pos h

/-- What it takes for a line to be an item about a key: a well-formed argument and one of the three
letters. -/
theorem item?_key {l : Line} {x : Item ℕ Line} {k : ℕ} (h : Line.item? l = some x) (hk : x.key? = some k) :
    l.kind ≠ 0 ∧ checkArg l = .ok () ∧ lineNumber l = .ok k ∧
      ((∃ c, l.kind = letterOf c ∧ x = .start c k l) ∨ (l.kind = letterE ∧ x = .fin k l)) := by
  have hk0 : l.kind ≠ 0 := fun e => by simp [(kind_of_text h).mpr e] at hk
  unfold Line.item? at h
  rw [if_neg hk0] at h
  refine ⟨hk0, ?_⟩
  split at h
  · rename_i u n hc hn
    split at h
    · rename_i hI
      obtain rfl := Option.some.inj h
      obtain rfl : n = k := by simpa using hk
      exact ⟨hc, hn, .inl ⟨.ins, hI, rfl⟩⟩
    · split at h
      · rename_i hD
        obtain rfl := Option.some.inj h
        obtain rfl : n = k := by simpa using hk
        exact ⟨hc, hn, .inl ⟨.del, hD, rfl⟩⟩
      · split at h
        · rename_i hE
          obtain rfl := Option.some.inj h
          obtain rfl : n = k := by simpa using hk
          exact ⟨hc, hn, .inr ⟨hE, rfl⟩⟩
        · simp at h
  · simp at h

theorem item?_raw {l : Line} {x : Item ℕ Line} (h : Line.item? l = some x) : x.raw = l := by
  rcases hk : x.key? with _ | k
  · rw [item?_text ((kind_of_text h).mp hk)] at h
    rw [← Option.some.inj h]
    rfl
  · rcases (item?_key h hk).2.2.2 with ⟨c, -, rfl⟩ | ⟨-, rfl⟩ <;> rfl

theorem item?_start {l : Line} {k : ℕ} (c : Cmd) (hc : checkArg l = .ok ()) (hn : lineNumber l = .ok k)
    (hl : l.kind = letterOf c) : Line.item? l = some (.start c k l) := by
  unfold Line.item?
  cases c with
  | ins => rw [hc, hn, hl]; rfl
  | del => rw [hc, hn, hl]; rfl

theorem item?_fin {l : Line} {k : ℕ} (hc : checkArg l = .ok ()) (hn : lineNumber l = .ok k)
    (hl : l.kind = letterE) : Line.item? l = some (.fin k l) := by
  unfold Line.item?
  rw [hc, hn, hl]
  rfl

theorem Parses.raw {ls : List Line} {items : List (Item ℕ Line)} (h : Parses ls items) :
    items.map Item.raw = ls := by
  induction h with
  | nil => rfl
  | cons hx _ ih => rw [List.map_cons, item?_raw hx, ih]

/-- A list of lines is read as at most one list of items. -/
theorem Parses.unique {ls : List Line} {items items' : List (Item ℕ Line)} (h : Parses ls items)
    (h' : Parses ls items') : items = items' := by
  induction h generalizing items' with
  | nil => cases h'; rfl
  | cons hx _ ih =>
    cases h' with
    | cons hx' hr' => rw [Option.some.inj (hx.symm.trans hx'), ih hr']

theorem InRange.tail {h : ℕ} {x : Item ℕ Line} {r : List (Item ℕ Line)} (hr : InRange h (x :: r)) :
    InRange h r := fun y hy => hr y (List.mem_cons_of_mem x hy)

theorem InRange.head {h : ℕ} {x : Item ℕ Line} {r : List (Item ℕ Line)} (hr : InRange h (x :: r)) {k : ℕ}
    (hk : x.key? = some k) : 1 ≤ k ∧ k ≤ h := hr x List.mem_cons_self k hk

theorem InRange.cons_text {h : ℕ} {x : Item ℕ Line} {r : List (Item ℕ Line)} (hx : x.key? = none)
    (hr : InRange h r) : InRange h (x :: r) := by
  intro y hy k hk
  rcases List.mem_cons.mp hy with rfl | hy
  · simp [hx] at hk
  · exact hr y hy k hk

theorem InRange.cons_key {h k : ℕ} {x : Item ℕ Line} {r : List (Item ℕ Line)} (hx : x.key? = some k)
    (hk : 1 ≤ k ∧ k ≤ h) (hr : InRange h r) : InRange h (x :: r) := by
  intro y hy j hj
  rcases List.mem_cons.mp hy with rfl | hy
  · rw [hx] at hj
    exact Option.some.inj hj ▸ hk
  · exact hr y hy j hj

theorem letterOf_ne_letterE (c : Cmd) : letterOf c ≠ letterE := by cases c <;> decide

/-! ### `get` -/

/-- **A bracket that the weave admits is accepted**, and followed. -/
theorem control_of_admits {ss : SeqState} {S : Set ℕ} {o : Open ℕ} {l : Line} {x : Item ℕ Line} {k : ℕ}
    (ht : ss.Tracks S o) (hx : Line.item? l = some x) (hk : x.key? = some k) (h0 : 1 ≤ k) (hl : k ≤ ss.last)
    (ha : Admits o x) (msg : String) :
    ∃ ss', control ss l.kind k msg = .ok ss' ∧ ss'.last = ss.last ∧ ss'.Tracks S (act o x) := by
  rcases (item?_key hx hk).2.2.2 with ⟨c, hkind, rfl⟩ | ⟨hkind, rfl⟩
  · obtain ⟨ss', hs, hlast, ht'⟩ := SeqState.start_spec (c := c) ht (by omega) hl ha
    refine ⟨ss', ?_, hlast, ht'⟩
    rw [control, hkind, if_neg (letterOf_ne_letterE c), if_pos (by cases c <;> simp [letterOf]), hs]
    rfl
  · obtain ⟨ss', hs, hlast, ht'⟩ := SeqState.end_spec ht ha
    refine ⟨ss', ?_, hlast, ht'⟩
    rw [control, hkind, if_pos rfl, hs]
    rfl

/-- A bracket that is accepted is one of the three, and the weave admits it. -/
theorem admits_of_control {ss ss' : SeqState} {S : Set ℕ} {o : Open ℕ} {l : Line} {k : ℕ} {msg : String}
    (ht : ss.Tracks S o) (hc : checkArg l = .ok ()) (hn : lineNumber l = .ok k) (h0 : 1 ≤ k)
    (h : control ss l.kind k msg = .ok ss') :
    ∃ x, Line.item? l = some x ∧ x.key? = some k ∧ k ≤ ss.last ∧ Admits o x := by
  unfold control at h
  split at h
  · rename_i hE
    rcases he : ss.end_ k with m | s
    · rw [he] at h
      simp [Except.mapError] at h
    · obtain ⟨hl, ho⟩ := SeqState.end_ok ht (by omega) he
      exact ⟨.fin k l, item?_fin hc hn hE, rfl, hl, ho⟩
  · split at h
    · rcases hs : ss.start k l.kind with m | s
      · rw [hs] at h
        simp [Except.mapError] at h
      · obtain ⟨c, hkind, hl, ho⟩ := SeqState.start_ok ht hs
        exact ⟨.start c k l, item?_start c hc hn hkind, rfl, hl, ho⟩
    · simp at h

/-- **The loop of `get` outputs what the weave shows.** -/
theorem getLoop_of_legal {hi : ℕ} {ss : SeqState} {S : Set ℕ} {o : Open ℕ} {ls : List Line}
    {items : List (Item ℕ Line)} (hp : Parses ls items) (ht : ss.Tracks S o) (hr : InRange hi items)
    (hl : InRange ss.last items) (hL : Legal o items) :
    ∃ ss', getLoop hi (.ok ()) ss ls = .ok (select S o items, ss') ∧ ss'.last = ss.last ∧
      ss'.Tracks S (finish o items) := by
  induction hp generalizing ss o with
  | nil => exact ⟨ss, rfl, rfl, ht⟩
  | @cons l x ls items hx _ ih =>
    rcases hk : x.key? with _ | k
    · -- a text line: output when some key shows it
      have hkind := (kind_of_text hx).mp hk
      obtain rfl : x = .text l := by
        rw [item?_text hkind] at hx
        exact (Option.some.inj hx).symm
      obtain ⟨ss', hg, hlast, ht'⟩ := ih ht hr.tail hl.tail hL.2
      refine ⟨ss', ?_, hlast, ht'⟩
      rw [getLoop, if_pos hkind, hg, ok_bind, ht.includeLine, select_cons, act_text]
      rcases ho : owner S o with _ | k
      · rw [emit_text_none ho]
        rfl
      · rw [emit_text_some ho, ht.activeSeq ho]
        rfl
    · -- a bracket: followed
      obtain ⟨hkind, hc, hn, -⟩ := item?_key hx hk
      obtain ⟨ss₁, hctl, hlast₁, ht₁⟩ := control_of_admits ht hx hk (hr.head hk).1 (hl.head hk).2 hL.1
        "Unexpected control line"
      obtain ⟨ss', hg, hlast, ht'⟩ := ih ht₁ hr.tail (hlast₁ ▸ hl.tail) hL.2
      refine ⟨ss', ?_, hlast.trans hlast₁, ht'⟩
      have hrange : ¬ (k < 1 ∨ hi < k) := by
        have := hr.head hk
        omega
      have hemit : emit S o x = [] := by
        cases x with
        | text a => simp at hk
        | start c j a => rfl
        | fin j a => rfl
      rw [getLoop, if_neg hkind, hc, ok_bind, hn, ok_bind, if_neg hrange, hctl, select_cons, hemit]
      exact hg

/-- When the loop of `get` ends without error, the lines are a legal weave in range. -/
theorem legal_of_getLoop {hi : ℕ} {ending : Except Quit Unit} {ss ss' : SeqState} {S : Set ℕ} {o : Open ℕ}
    {ls : List Line} {vis : Visible} (ht : ss.Tracks S o) (h : getLoop hi ending ss ls = .ok (vis, ss')) :
    ending = .ok () ∧
      ∃ items, Parses ls items ∧ InRange hi items ∧ InRange ss.last items ∧ Legal o items := by
  induction ls generalizing ss o vis with
  | nil =>
    rw [getLoop] at h
    obtain ⟨u, hu, -⟩ := bind_eq_ok.mp h
    exact ⟨hu, [], .nil, by simp [InRange], by simp [InRange], trivial⟩
  | cons l ls ih =>
    rw [getLoop] at h
    split at h
    · rename_i hkind
      obtain ⟨r, hr, h⟩ := bind_eq_ok.mp h
      obtain rfl : r.2 = ss' := by
        split at h <;> exact congrArg Prod.snd (Except.ok.inj h)
      obtain ⟨he, items, hp, h1, h2, hL⟩ := ih ht hr
      exact ⟨he, .text l :: items, .cons (item?_text hkind) hp, h1.cons_text rfl, h2.cons_text rfl, trivial, hL⟩
    · obtain ⟨u, hc, h⟩ := bind_eq_ok.mp h
      obtain ⟨k, hn, h⟩ := bind_eq_ok.mp h
      split at h
      · cases h
      · rename_i hrange
        obtain ⟨ss₁, hctl, h⟩ := bind_eq_ok.mp h
        have hk1 : 1 ≤ k ∧ k ≤ hi := by omega
        obtain ⟨x, hx, hk, hkl, ha⟩ := admits_of_control ht hc hn hk1.1 hctl
        obtain ⟨ss₂, hctl', hlast, ht'⟩ := control_of_admits ht hx hk hk1.1 hkl ha "Unexpected control line"
        obtain rfl : ss₁ = ss₂ := Except.ok.inj (hctl.symm.trans hctl')
        obtain ⟨he, items, hp, h1, h2, hL⟩ := ih ht' h
        exact ⟨he, x :: items, .cons hx hp, h1.cons_key hk hk1, (hlast ▸ h2).cons_key hk ⟨hk1.1, hkl⟩, ha, hL⟩

/-- The numbers that the loop of `get` passes are between 1 and the highest. -/
theorem inRange_of_getLoop {hi : ℕ} {ending : Except Quit Unit} {ss : SeqState} {ls : List Line}
    {items : List (Item ℕ Line)} {out : Visible × SeqState} (hp : Parses ls items)
    (h : getLoop hi ending ss ls = .ok out) : InRange hi items := by
  induction hp generalizing ss out with
  | nil => simp [InRange]
  | @cons l x ls items hx _ ih =>
    rw [getLoop] at h
    rcases hk : x.key? with _ | k
    · rw [if_pos ((kind_of_text hx).mp hk)] at h
      obtain ⟨r, hr, -⟩ := bind_eq_ok.mp h
      exact (ih hr).cons_text hk
    · obtain ⟨hkind, hc, hn, -⟩ := item?_key hx hk
      rw [if_neg hkind, hc, ok_bind, hn, ok_bind] at h
      split at h
      · cases h
      · rename_i hrange
        obtain ⟨ss₁, -, h⟩ := bind_eq_ok.mp h
        exact (ih h).cons_key hk (by omega)

/-- A region that is open and closed at the end is closed by an item. -/
theorem exists_fin_of_finish {o : Open ℕ} {items : List (Item ℕ Line)} {k : ℕ} (ho : o k ≠ none)
    (hf : finish o items k = none) : ∃ x ∈ items, x.key? = some k := by
  induction items generalizing o with
  | nil => exact absurd hf ho
  | cons x r ih =>
    by_cases hx : x.key? = some k
    · exact ⟨x, List.mem_cons_self, hx⟩
    · obtain ⟨y, hy, hky⟩ := ih (o := act o x) (by rwa [act_of_key_ne o hx]) hf
      exact ⟨y, List.mem_cons_of_mem x hy, hky⟩

/-- A body that starts with an `^AI` and is a legal weave with its numbers in range. -/
structure Sound (hi last : ℕ) (ls : List Line) (items : List (Item ℕ Line)) : Prop where
  /-- The lines are the items. -/
  parses : Parses ls items
  /-- The first line is an `^AI`. -/
  first : ∃ k l r, items = .start .ins k l :: r
  /-- The numbers are those of the delta table. -/
  inRange : InRange hi items
  /-- The numbers are those of the `seq_state`. -/
  inStates : InRange last items
  /-- Regions are opened while closed and closed while open. -/
  legal : Legal shut items

/-- **A sound body is read to the end, and what is output is what the weave shows.** -/
theorem get_of_sound {hi : ℕ} {ss : SeqState} {S : Set ℕ} {ls : List Line} {items : List (Item ℕ Line)}
    (ht : ss.Tracks S shut) (h : Sound hi ss.last ls items) :
    ∃ ss', get hi ss ⟨ls, .ok ()⟩ = .ok (select S shut items, ss') ∧ ss'.Tracks S (finish shut items) := by
  obtain ⟨hp, ⟨k, l, r, rfl⟩, hr, hl, hL⟩ := h
  cases hp with
  | @cons l' _ ls' _ hx hp =>
    obtain rfl : l = l' := item?_raw hx
    obtain ⟨-, hc, hn, hk⟩ := item?_key hx rfl
    have hkind : l.kind = letterI := by
      rcases hk with ⟨c, hkind, he⟩ | ⟨-, he⟩
      · obtain ⟨rfl, -⟩ := Item.start.inj he
        exact hkind
      · cases he
    obtain ⟨ss₁, hs, hlast, ht₁⟩ := SeqState.start_spec (c := .ins) ht
      (show k ≠ 0 by have := (hl.head (k := k) rfl).1; omega) (hl.head rfl).2 hL.1
    obtain ⟨ss', hg, -, ht'⟩ := getLoop_of_legal hp ht₁ hr.tail (hlast ▸ hl.tail) hL.2
    refine ⟨ss', ?_, ht'⟩
    have hstart : (ss.start k letterI).toOption.getD ss = ss₁ := by
      rw [show letterI = letterOf .ins from rfl, hs]
      rfl
    simp only [get, hkind, ne_eq, not_true_eq_false, if_false]
    rw [hc, ok_bind, hn, ok_bind, hstart, hg]
    rfl

/-- **A body that `get` reads to the end, and whose brackets are all closed, is sound.** -/
theorem sound_of_get {hi : ℕ} {ss ss' : SeqState} {r : Reading} {vis : Visible} (hf : ss.Fresh)
    (h : get hi ss r = .ok (vis, ss')) (hcl : Closed r.lines) :
    r.ending = .ok () ∧ ∃ items, Sound hi ss.last r.lines items ∧ finish shut items = shut := by
  obtain ⟨items, hp, hfin⟩ := hcl
  unfold get at h
  rcases hls : r.lines with _ | ⟨l, ls⟩
  · rw [hls] at h
    obtain ⟨u, -, h⟩ := bind_eq_ok.mp h
    cases h
  · rw [hls] at h hp
    simp only [ne_eq, ite_not] at h
    split at h
    · rename_i hkind
      obtain ⟨u, hc, h⟩ := bind_eq_ok.mp h
      obtain ⟨k, hn, h⟩ := bind_eq_ok.mp h
      have hx : Line.item? l = some (.start .ins k l) := item?_start .ins hc hn hkind
      cases hp with
      | @cons _ x _ items hx' hp =>
        obtain rfl : x = .start .ins k l := Option.some.inj (hx'.symm.trans hx)
        -- the first region is closed by a line of the rest, so its number is in range after all
        obtain ⟨y, hy, hky⟩ := exists_fin_of_finish (o := Function.update shut k (some .ins)) (k := k)
          (by simp) (congrFun hfin k)
        have hrange := inRange_of_getLoop hp h
        have hk1 := hrange y hy k hky
        by_cases hkl : k ≤ ss.last
        · obtain ⟨ss₁, hs, hlast, ht₁⟩ := SeqState.start_spec (c := .ins) hf.tracks (show k ≠ 0 by omega) hkl rfl
          rw [show letterI = letterOf .ins from rfl, hs] at h
          obtain ⟨he, items', hp', -, h2, hL⟩ := legal_of_getLoop ht₁ h
          obtain rfl := hp'.unique hp
          exact ⟨he, _, ⟨.cons hx hp, ⟨k, l, _, rfl⟩, hrange.cons_key rfl hk1,
            (hlast ▸ h2).cons_key rfl ⟨hk1.1, hkl⟩, rfl, hL⟩, hfin⟩
        · -- the region was not opened, so the line that closes it is refused
          have hs : (ss.start k letterI).toOption.getD ss = ss := by
            unfold SeqState.start
            rw [if_neg (by decide), dif_pos (by omega)]
            rfl
          rw [hs] at h
          obtain ⟨-, items', hp', -, h2, -⟩ := legal_of_getLoop hf.tracks h
          obtain rfl := hp'.unique hp
          exact absurd (h2 y hy k hky).2 hkl
    · cases h

/-! ### `remove` -/

/-- The state after a bracket, read from its line and from its item. -/
theorem nextState_eq {l : Line} {x : Item ℕ Line} {k : ℕ} (hx : Line.item? l = some x) (hk : x.key? = some k)
    (st : UpdateState) : nextState st l.kind = st.next x := by
  rcases (item?_key hx hk).2.2.2 with ⟨c, hkind, rfl⟩ | ⟨hkind, rfl⟩
  · rw [hkind]
    cases st <;> cases c <;> rfl
  · rw [hkind]
    cases st <;> rfl

/-- **`remove` is `strip`.** -/
theorem removeLoop_eq_ok {errno n : ℕ} {ls : List Line} {items : List (Item ℕ Line)} (hp : Parses ls items)
    (st : UpdateState) (out : List Line) : removeLoop errno n (.ok ()) st ls = .ok out ↔
      ∃ kept, strip (errno = 0) n st items = some kept ∧ out = kept.map Item.raw := by
  induction hp generalizing st out with
  | nil =>
    rw [removeLoop, ok_bind, strip_nil]
    by_cases hst : st = .copy ∨ errno = 0
    · rw [if_neg (by tauto), if_pos (by simpa using hst)]
      simp [eq_comm]
    · rw [if_pos (by tauto), if_neg (by simpa using hst)]
      simp
  | @cons l x ls items hx _ ih =>
    have hraw := item?_raw hx
    -- copying a line copies its item
    have hcopy : (do let out ← removeLoop errno n (.ok ()) st ls; pure (l :: out) : Except Quit (List Line)) = .ok out ↔
        ∃ kept, (strip (errno = 0) n st items).map (x :: ·) = some kept ∧ out = kept.map Item.raw := by
      constructor
      · intro h
        obtain ⟨out', h', he⟩ := bind_eq_ok.mp h
        obtain ⟨kept, hk, rfl⟩ := (ih st out').mp h'
        refine ⟨x :: kept, by rw [hk]; rfl, ?_⟩
        rw [List.map_cons, hraw]
        exact (Except.ok.inj he).symm
      · rintro ⟨kept, hk, rfl⟩
        obtain ⟨kept', hk', rfl⟩ := Option.map_eq_some_iff.mp hk
        refine bind_eq_ok.mpr ⟨kept'.map Item.raw, (ih st _).mpr ⟨kept', hk', rfl⟩, ?_⟩
        rw [List.map_cons, hraw]
        rfl
    rw [removeLoop]
    rcases hk : x.key? with _ | k
    · -- text
      have hkind := (kind_of_text hx).mp hk
      obtain rfl : x = .text l := by
        rw [item?_text hkind] at hx
        exact (Option.some.inj hx).symm
      rw [if_neg (by simp [hkind]), strip_text]
      by_cases hst : st = .insert
      · rw [if_neg (by simp [hst]), if_pos hst]
        exact ih st out
      · rw [if_pos hst, if_neg hst]
        exact hcopy
    · obtain ⟨hkind, hc, hn, -⟩ := item?_key hx hk
      rw [if_pos hkind, hc, ok_bind, hn, ok_bind]
      by_cases hkn : k = n
      · -- a bracket of the delta that is removed
        subst hkn
        rw [if_pos rfl, strip_own hk, nextState_eq hx hk]
        rcases st.next x with _ | st'
        · simp
        · exact ih st' out
      · rw [if_neg hkn, strip_other (by simp [hk]) (by simp [hk, hkn])]
        by_cases hst : st = .insert
        · simp [hst]
        · rw [if_neg hst, if_neg hst]
          exact hcopy

end CSSC.Body
