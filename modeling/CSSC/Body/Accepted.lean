import CSSC.Body.Writing
import CSSC.Body.ReadBack

/-!
# What a successful run says about the body

`get` and `delta` both go over every line of the body and stop at the first one they do not accept. A run that returns
is therefore evidence about the lines.

What `get` reads to the end are items, and its output is what they show (`parses_of_get`, `visible_of_get`); what
`delta` reads to the end is a legal weave in range (`accepted_of_deltaLoop`). For `delta` there is also the limit on
the lengths of the lines: **with a limit it succeeds exactly when it does without and all that it inserts fits**
(`delta_limit_iff`), and it then writes the same (`delta_unlimited`).
-/

namespace CSSC.Body

open CSSC.Lines CSSC.Library.Weave

/-! ### Numbers of the body -/

/-- The numbers in the brackets are below `n`. -/
def Below (n : ℕ) (ls : List Line) : Prop := ∀ l ∈ ls, l.kind ≠ 0 → ∀ k, lineNumber l = .ok k → k < n

/-- No bracket has the number `n`. -/
def Absent (n : ℕ) (ls : List Line) : Prop := ∀ l ∈ ls, l.kind ≠ 0 → lineNumber l ≠ .ok n

theorem Below.absent {n : ℕ} {ls : List Line} (h : Below n ls) : Absent n ls :=
  fun l hl hk e => lt_irrefl n (h l hl hk n e)

/-- An item about a key stands in a bracket line with its number. -/
theorem Parses.exists_line {ls : List Line} {items : List (Item ℕ Line)} (hp : Parses ls items) {x : Item ℕ Line}
    (hx : x ∈ items) {k : ℕ} (hk : x.key? = some k) : ∃ l ∈ ls, l.kind ≠ 0 ∧ lineNumber l = .ok k := by
  induction hp with
  | nil => simp at hx
  | @cons l y ls items hy _ ih =>
    rcases List.mem_cons.mp hx with rfl | hx
    · obtain ⟨hkind, -, hn, -⟩ := item?_key hy hk
      exact ⟨l, List.mem_cons_self, hkind, hn⟩
    · obtain ⟨m, hm, h⟩ := ih hx
      exact ⟨m, List.mem_cons_of_mem l hm, h⟩

theorem Parses.under {n : ℕ} {ls : List Line} {items : List (Item ℕ Line)} (hp : Parses ls items)
    (h : Below n ls) : Under n items := by
  intro x hx k hk
  obtain ⟨l, hl, hkind, hn⟩ := hp.exists_line hx hk
  exact h l hl hkind k hn

theorem Parses.free {n : ℕ} {ls : List Line} {items : List (Item ℕ Line)} (hp : Parses ls items)
    (h : Absent n ls) : Free n items := by
  intro x hx hk
  obtain ⟨l, hl, hkind, hn⟩ := hp.exists_line hx hk
  exact h l hl hkind hn

/-! ### What `get` accepts -/

/-- `get` takes the first line for an `^AI` and goes on with the rest, whether or not `start` works. -/
theorem get_eq_ok {hi : ℕ} {ss fin : SeqState} {r : Reading} {vis : Visible} (h : get hi ss r = .ok (vis, fin)) :
    ∃ l ls k, r.lines = l :: ls ∧ Line.item? l = some (.start .ins k l) ∧
      getLoop hi r.ending ((ss.start k letterI).toOption.getD ss) ls = .ok (vis, fin) := by
  unfold get at h
  rcases hls : r.lines with _ | ⟨l, ls⟩
  · rw [hls] at h
    obtain ⟨u, -, h⟩ := bind_eq_ok.mp h
    cases h
  · rw [hls] at h
    simp only [ne_eq, ite_not] at h
    split at h
    · rename_i hkind
      obtain ⟨u, hc, h⟩ := bind_eq_ok.mp h
      obtain ⟨k, hn, h⟩ := bind_eq_ok.mp h
      exact ⟨l, ls, k, rfl, item?_start .ins hc hn hkind, h⟩
    · cases h

/-- A bracket that is accepted is one of the three. -/
theorem item?_of_control {ss ss' : SeqState} {l : Line} {k : ℕ} {msg : String} (hc : checkArg l = .ok ())
    (hn : lineNumber l = .ok k) (h : control ss l.kind k msg = .ok ss') : ∃ x, Line.item? l = some x := by
  unfold control at h
  split at h
  · rename_i hE
    exact ⟨_, item?_fin hc hn hE⟩
  · split at h
    · rename_i hDI
      rcases hDI with hD | hI
      · exact ⟨_, item?_start .del hc hn hD⟩
      · exact ⟨_, item?_start .ins hc hn hI⟩
    · cases h

theorem parses_of_getLoop {hi : ℕ} {ending : Except Quit Unit} {ss : SeqState} {ls : List Line}
    {out : Visible × SeqState} (h : getLoop hi ending ss ls = .ok out) :
    ending = .ok () ∧ ∃ items, Parses ls items := by
  induction ls generalizing ss out with
  | nil =>
    rw [getLoop] at h
    obtain ⟨u, hu, -⟩ := bind_eq_ok.mp h
    exact ⟨hu, [], .nil⟩
  | cons l ls ih =>
    rw [getLoop] at h
    split at h
    · rename_i hkind
      obtain ⟨r, hr, -⟩ := bind_eq_ok.mp h
      obtain ⟨he, items, hp⟩ := ih hr
      exact ⟨he, _, .cons (item?_text hkind) hp⟩
    · obtain ⟨u, hc, h⟩ := bind_eq_ok.mp h
      obtain ⟨k, hn, h⟩ := bind_eq_ok.mp h
      split at h
      · cases h
      · obtain ⟨ss', hctl, h⟩ := bind_eq_ok.mp h
        obtain ⟨x, hx⟩ := item?_of_control hc hn hctl
        obtain ⟨he, items, hp⟩ := ih h
        exact ⟨he, _, .cons hx hp⟩

/-- **What `get` reads to the end are items.** -/
theorem parses_of_get {hi : ℕ} {ss fin : SeqState} {r : Reading} {vis : Visible}
    (h : get hi ss r = .ok (vis, fin)) : r.ending = .ok () ∧ ∃ items, Parses r.lines items := by
  obtain ⟨l, ls, k, hls, hx, h⟩ := get_eq_ok h
  obtain ⟨he, items, hp⟩ := parses_of_getLoop h
  rw [hls]
  exact ⟨he, _, .cons hx hp⟩

/-- **When the first number is one of the `seq_state`, the items are legal.** -/
theorem legal_of_get {hi : ℕ} {ss fin : SeqState} {r : Reading} {vis : Visible} {items : List (Item ℕ Line)}
    (hf : ss.Fresh) (h : get hi ss r = .ok (vis, fin)) (hp : Parses r.lines items)
    (hfirst : ∀ x ∈ items.head?, ∀ k, x.key? = some k → 1 ≤ k ∧ k ≤ ss.last) :
    InRange ss.last items ∧ Legal shut items := by
  obtain ⟨l, ls, k, hls, hx, h⟩ := get_eq_ok h
  rw [hls] at hp
  cases hp with
  | @cons _ x _ items hx' hp =>
    obtain rfl : x = .start .ins k l := Option.some.inj (hx'.symm.trans hx)
    have hk := hfirst _ rfl k rfl
    obtain ⟨ss₁, hs, hlast, ht₁⟩ := SeqState.start_spec (c := .ins) hf.tracks (show k ≠ 0 by omega) hk.2 rfl
    rw [show letterI = SeqState.letterOf .ins from rfl, hs] at h
    obtain ⟨-, items', hp', -, hl, hL⟩ := legal_of_getLoop ht₁ h
    obtain rfl := hp'.unique hp
    exact ⟨(hlast ▸ hl).cons_key rfl hk, rfl, hL⟩

/-- **The output of `get` is what the items show**, when they are legal. -/
theorem visible_of_get {hi : ℕ} {ss fin : SeqState} {r : Reading} {vis : Visible} {items : List (Item ℕ Line)}
    (hf : ss.Fresh) (h : get hi ss r = .ok (vis, fin)) (hp : Parses r.lines items)
    (hl : InRange ss.last items) (hL : Legal shut items) : vis = select ss.includedSet shut items := by
  obtain ⟨l, ls, k, hls, hx, h⟩ := get_eq_ok h
  rw [hls] at hp
  cases hp with
  | @cons _ x _ items hx' hp =>
    obtain rfl : x = .start .ins k l := Option.some.inj (hx'.symm.trans hx)
    have hk := hl.head (k := k) rfl
    obtain ⟨ss₁, hs, hlast, ht₁⟩ := SeqState.start_spec (c := .ins) hf.tracks (show k ≠ 0 by omega) hk.2 hL.1
    rw [show letterI = SeqState.letterOf .ins from rfl, hs] at h
    obtain ⟨he, -⟩ := legal_of_getLoop ht₁ h
    obtain ⟨ss', hg, -⟩ := getLoop_of_legal hp ht₁ (inRange_of_getLoop hp h) (hlast ▸ hl.tail) hL.2
    rw [he] at h
    exact congrArg Prod.fst (Except.ok.inj (h.symm.trans hg))

/-! ### What `delta` accepts -/

/-- **What the writer reads to the end is a legal weave in range.** -/
theorem accepted_of_deltaLoop {p : DeltaParms} {ending : Except Quit Unit} {ss : SeqState} {S : Set ℕ} {o : Open ℕ}
    {d : DiffState} {ls : List Line} {items : List (Item ℕ Line)} {r : DeltaResult} (hp : Parses ls items)
    (ht : ss.Tracks S o) (h : deltaLoop p ending ss d ls = .ok r) :
    InRange p.highest items ∧ InRange ss.last items ∧ Legal o items := by
  induction hp generalizing ss o d r with
  | nil => exact ⟨by simp [InRange], by simp [InRange], trivial⟩
  | @cons l x ls items hx _ ih =>
    rw [deltaLoop] at h
    rcases hk : x.key? with _ | k
    · have hkind := (kind_of_text hx).mp hk
      obtain rfl : x = .text l := by
        rw [item?_text hkind] at hx
        exact (Option.some.inj hx).symm
      rw [if_neg (by simp [hkind])] at h
      have hrest : ∃ d' r', deltaLoop p ending ss d' ls = .ok r' := by
        split at h
        · obtain ⟨a, -, h⟩ := bind_eq_ok.mp h
          obtain ⟨r', h', -⟩ := bind_eq_ok.mp h
          exact ⟨_, _, h'⟩
        · obtain ⟨r', h', -⟩ := bind_eq_ok.mp h
          exact ⟨_, _, h'⟩
      obtain ⟨d', r', h'⟩ := hrest
      obtain ⟨h1, h2, hL⟩ := ih ht h'
      exact ⟨h1.cons_text rfl, h2.cons_text rfl, trivial, hL⟩
    · obtain ⟨hkind, hc, hn, -⟩ := item?_key hx hk
      rw [if_pos hkind, hn, ok_bind] at h
      split at h
      · cases h
      · rename_i hrange
        obtain ⟨ss₁, hctl, h⟩ := bind_eq_ok.mp h
        obtain ⟨r', h', -⟩ := bind_eq_ok.mp h
        have hk1 : 1 ≤ k ∧ k ≤ p.highest := by omega
        obtain ⟨y, hy, hky, hkl, ha⟩ := admits_of_control ht hc hn hk1.1 hctl
        obtain rfl : x = y := Option.some.inj (hx.symm.trans hy)
        obtain ⟨ss₂, hctl', hlast, ht'⟩ := control_of_admits ht hx hk hk1.1 hkl ha "Unexpected control line '%c'"
        obtain rfl : ss₁ = ss₂ := Except.ok.inj (hctl.symm.trans hctl')
        obtain ⟨h1, h2, hL⟩ := ih ht' h'
        exact ⟨h1.cons_key hk hk1, (hlast ▸ h2).cons_key hk ⟨hk1.1, hkl⟩, ha, hL⟩

/-! ### What is inserted -/

/-- The string of an inserted line. -/
def Out.string? : Out → Option CLine
  | .inserted s => some s
  | _ => none

/-- The strings that are written from the output of diff. -/
def insertedStrings (out : List Out) : List CLine := out.filterMap Out.string?

@[simp] theorem insertedStrings_nil : insertedStrings [] = [] := rfl
@[simp] theorem insertedStrings_control (letter : UInt8) (seq : ℕ) (out : List Out) :
    insertedStrings (.control letter seq :: out) = insertedStrings out := rfl
@[simp] theorem insertedStrings_copied (l : Line) (out : List Out) :
    insertedStrings (.copied l :: out) = insertedStrings out := rfl
@[simp] theorem insertedStrings_inserted (s : CLine) (out : List Out) :
    insertedStrings (.inserted s :: out) = s :: insertedStrings out := rfl

@[simp] theorem insertedStrings_append (out out' : List Out) :
    insertedStrings (out ++ out') = insertedStrings out ++ insertedStrings out' := List.filterMap_append

@[simp] theorem insertedStrings_map (ss : List CLine) : insertedStrings (ss.map .inserted) = ss := by
  induction ss with
  | nil => rfl
  | cons s ss ih => simp [ih]

/-- `process` writes brackets only. -/
theorem process_out {n : ℕ} {d d' : DiffState} {out : List Out} (h : d.process n = .ok (d', out)) :
    insertedStrings out = [] := by
  have hbrackets : ∀ s s', insertedStrings (DiffState.closing n s ++ DiffState.opening n s') = [] := by
    intro s s'
    cases s <;> cases s' <;> rfl
  unfold DiffState.process at h
  split at h
  · obtain ⟨t, ht, h⟩ := bind_eq_ok.mp h
    obtain ⟨e, -, h⟩ := bind_eq_ok.mp h
    obtain ⟨-, rfl⟩ := Prod.mk.inj (Except.ok.inj h)
    unfold DiffState.turn at ht
    split at ht
    · cases ht
    · split at ht
      · obtain ⟨x, -, ht⟩ := bind_eq_ok.mp ht
        obtain rfl := Except.ok.inj ht
        exact hbrackets _ _
      · obtain rfl := Except.ok.inj ht
        rfl
  · rw [ok_bind] at h
    obtain ⟨e, -, h⟩ := bind_eq_ok.mp h
    obtain ⟨-, rfl⟩ := Prod.mk.inj (Except.ok.inj h)
    rfl

/-! ### The limit on the lengths -/

/-- The same parameters without a limit on the lengths. -/
def DeltaParms.unlimited (p : DeltaParms) : DeltaParms := { p with lenMax := 0 }

theorem fits_zero (s : CLine) : fits 0 s := .inl rfl

/-- `x` returns what `y` returns, but only results with `P`. -/
def Restricts {α : Type} (x y : Except Quit α) (P : α → Prop) : Prop := ∀ a, x = .ok a ↔ y = .ok a ∧ P a

namespace Restricts

variable {α β : Type} {x y : Except Quit α} {P : α → Prop} {R : β → Prop}

theorem refl (h : ∀ a, x = .ok a → P a) : Restricts x x P := fun a => (and_iff_left_of_imp (h a)).symm

/-- Nothing is returned by either. -/
theorem failed {q : Quit} : Restricts (.error q) (.error q) P := refl fun _ h => by cases h

theorem error {q : Quit} (h : ∀ a, y = .ok a → ¬ P a) : Restricts (.error q) y P :=
  fun a => iff_of_false nofun fun ha => h a ha.1 ha.2

/-- The first step is the same. -/
theorem after {f g : α → Except Quit β} (hf : ∀ a, x = .ok a → Restricts (f a) (g a) R) :
    Restricts (x >>= f) (x >>= g) R := by
  intro b
  rw [bind_eq_ok, bind_eq_ok, ← exists_and_right]
  refine exists_congr fun a => ?_
  rw [and_assoc]
  exact and_congr_right fun ha => hf a ha b

/-- What is made of the result keeps the property. -/
theorem map {g : α → β} (hx : Restricts x y P) (hR : ∀ a, R (g a) ↔ P a) :
    Restricts (do let a ← x; return g a) (do let a ← y; return g a) R := by
  intro b
  rw [bind_eq_ok, bind_eq_ok, ← exists_and_right]
  refine exists_congr fun a => ?_
  rw [hx a, and_assoc, and_assoc]
  refine and_congr_right fun _ => ?_
  rw [and_comm]
  refine and_congr_right fun hb => ?_
  rw [← Except.ok.inj hb, hR]

/-- Two steps, each with its part of the property. -/
theorem both {γ : Type} {f g : α → Except Quit γ} {Q : γ → Prop} {m : α → γ → β} (hx : Restricts x y P)
    (hf : ∀ a, Restricts (f a) (g a) Q) (hR : ∀ a c, R (m a c) ↔ P a ∧ Q c) :
    Restricts (do let a ← x; let c ← f a; return m a c) (do let a ← y; let c ← g a; return m a c) R := by
  intro b
  constructor
  · intro h
    obtain ⟨a, ha, h⟩ := bind_eq_ok.mp h
    obtain ⟨c, hc, h⟩ := bind_eq_ok.mp h
    obtain ⟨ha, hP⟩ := (hx a).mp ha
    obtain ⟨hc, hQ⟩ := (hf a c).mp hc
    refine ⟨bind_eq_ok.mpr ⟨a, ha, bind_eq_ok.mpr ⟨c, hc, h⟩⟩, ?_⟩
    exact Except.ok.inj h ▸ (hR a c).mpr ⟨hP, hQ⟩
  · rintro ⟨h, hb⟩
    obtain ⟨a, ha, h⟩ := bind_eq_ok.mp h
    obtain ⟨c, hc, h⟩ := bind_eq_ok.mp h
    obtain ⟨hP, hQ⟩ := (hR a c).mp (Except.ok.inj h ▸ hb)
    exact bind_eq_ok.mpr ⟨a, (hx a).mpr ⟨ha, hP⟩, bind_eq_ok.mpr ⟨c, (hf a c).mpr ⟨hc, hQ⟩, h⟩⟩

end Restricts

/-- The strings that are inserted fit. -/
def AllFit (lenMax : ℕ) (out : List Out) : Prop := ∀ s ∈ insertedStrings out, fits lenMax s

theorem allFit_of_nil {lenMax : ℕ} {out : List Out} (h : insertedStrings out = []) : AllFit lenMax out := by
  simp [AllFit, h]

/-- The strings of brackets and one string more fit. -/
theorem allFit_insertLine {lenMax : ℕ} {out : List Out} (h : insertedStrings out = []) (s : CLine) (r : DeltaResult) :
    AllFit lenMax ((insertLine out s).append r).out ↔ fits lenMax s ∧ AllFit lenMax r.out := by
  simp [AllFit, insertLine, DeltaResult.append, h]

/-- The strings of one part of the work after the other. -/
theorem allFit_append {lenMax : ℕ} (r s : DeltaResult) :
    AllFit lenMax (r.append s).out ↔ AllFit lenMax r.out ∧ AllFit lenMax s.out := by
  simp only [AllFit, DeltaResult.append, insertedStrings_append, List.forall_mem_append]

theorem allFit_copyLine {lenMax : ℕ} (l : Line) (r : DeltaResult) :
    AllFit lenMax ((copyLine l).append r).out ↔ AllFit lenMax r.out := by
  rw [allFit_append, and_iff_right]
  simp [AllFit, copyLine]

/-- A string is inserted, and the rest of the work is done. -/
theorem restricts_insert {α : Type} {lenMax : ℕ} {s : CLine} {x y : Except Quit α} {P R : α → Prop} (g : α → α)
    (hx : Restricts x y P) (hR : ∀ a, R (g a) ↔ fits lenMax s ∧ P a) :
    Restricts (if fits lenMax s then do let a ← x; return g a else .error (.failure "Input line is too long"))
      (if fits 0 s then do let a ← y; return g a else .error (.failure "Input line is too long")) R := by
  rw [if_pos (fits_zero s)]
  split
  · next hs => exact hx.map fun a => (hR a).trans (and_iff_right hs)
  · next hs =>
    refine .error fun b hb h => hs ?_
    obtain ⟨a, -, hb⟩ := bind_eq_ok.mp hb
    obtain rfl := Except.ok.inj hb
    exact ((hR a).mp h).1

theorem lineLoop_restricts {n lenMax : ℕ} {c : UInt8} {fuel : ℕ} {d : DiffState} :
    Restricts (lineLoop n lenMax c fuel d) (lineLoop n 0 c fuel d) (fun a => AllFit lenMax a.2.out) := by
  induction fuel generalizing d with
  | zero => exact .failed
  | succ fuel ih =>
    rw [lineLoop, lineLoop]
    refine .after fun q hq => ?_
    have hout := process_out hq
    -- nothing is inserted, unless the state is `insert`
    have hnone : ∀ x y a, (.ok (q.1, ⟨q.2, 0, x, y⟩) : Except Quit (DiffState × DeltaResult)) = .ok a →
        AllFit lenMax a.2.out := by
      intro x y a h
      obtain rfl := Except.ok.inj h
      exact allFit_of_nil hout
    rcases hs : q.1.state <;> simp only
    · exact .failed
    · split
      · exact .failed
      · exact .refl (hnone _ _)
    · split
      · exact .failed
      · exact .refl (hnone _ _)
    · refine .after fun s _ => ?_
      exact restricts_insert (fun r => (r.1, (insertLine q.2 s).append r.2)) ih fun r => allFit_insertLine hout s r.2
    · split
      · exact .refl (hnone _ _)
      · exact .refl (hnone _ _)

theorem eofLoop_restricts {n lenMax fuel : ℕ} {d : DiffState} :
    Restricts (eofLoop n lenMax fuel d) (eofLoop n 0 fuel d) (fun r => AllFit lenMax r.out) := by
  induction fuel generalizing d with
  | zero => exact .failed
  | succ fuel ih =>
    rw [eofLoop, eofLoop]
    refine .after fun q hq => ?_
    have hout := process_out hq
    split
    · refine .after fun s _ => ?_
      exact restricts_insert (fun r => (insertLine q.2 s).append r) ih fun r => allFit_insertLine hout s r
    · refine .refl fun r h => ?_
      obtain rfl := Except.ok.inj h
      exact allFit_of_nil hout

theorem deltaLoop_restricts {p : DeltaParms} {ending : Except Quit Unit} {ss : SeqState} {d : DiffState}
    {ls : List Line} : Restricts (deltaLoop p ending ss d ls) (deltaLoop p.unlimited ending ss d ls)
      (fun r => AllFit p.lenMax r.out) := by
  induction ls generalizing ss d with
  | nil =>
    rw [deltaLoop, deltaLoop]
    refine .after fun _ _ => ?_
    split
    · exact .both lineLoop_restricts (fun a => eofLoop_restricts) fun a r => allFit_append a.2 r
    · rw [ok_bind, ok_bind]
      exact eofLoop_restricts.map fun r => (allFit_append _ r).trans (and_iff_right (allFit_of_nil rfl))
  | cons l ls ih =>
    rw [deltaLoop, deltaLoop]
    split
    · refine .after fun k _ => ?_
      have hhighest : p.unlimited.highest = p.highest := rfl
      rw [hhighest]
      split
      · exact .failed
      · exact .after fun ss' _ => ih.map fun r => allFit_copyLine l r
    · split
      · refine .both lineLoop_restricts (fun a => ih) fun a r => ?_
        rw [allFit_append, allFit_copyLine]
      · exact ih.map fun r => allFit_copyLine l r

/-- **With a limit `delta` does what it does without, if all that it inserts fits**, and fails otherwise. -/
theorem delta_limit_iff {p : DeltaParms} {ss : SeqState} {script : List CLine} {r : Reading} {q : DeltaResult} :
    delta p ss script r = .ok q ↔
      delta p.unlimited ss script r = .ok q ∧ ∀ s ∈ insertedStrings q.out, fits p.lenMax s :=
  deltaLoop_restricts q

/-- **A limit on the lengths does not change what is written**, only whether anything is. -/
theorem delta_unlimited {p : DeltaParms} {ss : SeqState} {script : List CLine} {r : Reading} {q : DeltaResult}
    (h : delta p ss script r = .ok q) : delta p.unlimited ss script r = .ok q :=
  (delta_limit_iff.mp h).1

end CSSC.Body
