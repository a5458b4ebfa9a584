import CSSC.Header.Parse

/-!
# Another value of the flag `e`

When an update ends, the value of the flag `e` may be changed in the file that was written. The parser looks at the
letter of a flag and at the blank after it, and takes any value. So the two headers are read alike, line by line, and
**the header is accepted with another value of the flag** (`parseTable_follows`).
-/

namespace CSSC.Header

open CSSC.Lines CSSC.Body CSSC.Table

/-- `match`, in `rehack_encoded_flag`. -/
def encodedMatch : List UInt8 := [1, 102, 32, 101, 32]

/-! ### Lines with another value -/

/-- A line `^Af e` with its value. -/
def SaysEncoded (l : Line) : Prop := encodedMatch <+: l.bytes

/-- The same line, or a line `^Af e` for another one. -/
def Alike (l l' : Line) : Prop := l = l' ∨ SaysEncoded l ∧ SaysEncoded l'

theorem SaysEncoded.bytes {l : Line} (h : SaysEncoded l) : ∃ v, l.bytes = 1 :: 102 :: 32 :: 101 :: 32 :: v := by
  obtain ⟨v, hv⟩ := h
  exact ⟨v, hv.symm⟩

theorem SaysEncoded.kind {l : Line} (h : SaysEncoded l) : l.kind = 102 := by
  obtain ⟨v, hv⟩ := h.bytes
  rw [Line.kind, Line.bufchar, Line.bufchar, hv]
  rfl

theorem Alike.kind {l l' : Line} (h : Alike l l') : l.kind = l'.kind := by
  rcases h with rfl | ⟨h, h'⟩
  · rfl
  · rw [h.kind, h'.kind]

/-- Lines of another kind are the same. -/
theorem Alike.eq_of_kind {l l' : Line} {k : UInt8} (h : Alike l l') (hl : l.kind = k) (hk : k ≠ 102) : l = l' := by
  rcases h with rfl | ⟨h, -⟩
  · rfl
  · exact absurd (hl.symm.trans h.kind) hk

theorem alike_refl (ls : List Line) : List.Forall₂ Alike ls ls := List.forall₂_same.mpr fun _ _ => .inl rfl

/-- The second computation succeeds whenever the first one does, with a related result. -/
def Follows {α β : Type} (R : α → β → Prop) (x : Except Quit α) (y : Except Quit β) : Prop :=
  ∀ a, x = .ok a → ∃ b, y = .ok b ∧ R a b

section

variable {α β γ δ : Type} {R : α → β → Prop} {S : γ → δ → Prop} {x : Except Quit α} {y : Except Quit β}

theorem Follows.bind {f : α → Except Quit γ} {g : β → Except Quit δ} (h : Follows R x y)
    (hk : ∀ a b, R a b → Follows S (f a) (g b)) : Follows S (x >>= f) (y >>= g) := by
  intro c hc
  obtain ⟨a, ha, hc⟩ := bind_eq_ok.mp hc
  obtain ⟨b, hb, hr⟩ := h a ha
  obtain ⟨d, hd, hs⟩ := hk a b hr c hc
  exact ⟨d, bind_eq_ok.mpr ⟨b, hb, hd⟩, hs⟩

theorem Follows.ok {a : α} {b : β} (h : R a b) : Follows R (.ok a) (.ok b) := by
  rintro _ ⟨⟩
  exact ⟨b, rfl, h⟩

/-- The same computation. -/
theorem Follows.rfl' {x : Except Quit α} : Follows Eq x x := fun a h => ⟨a, h, rfl⟩

end

variable {stop stop' : Quit}

/-- What the parser has read, and the lines that are left. -/
abbrev Rest {σ τ : Type} (R : σ → τ → Prop) (r : σ × List Line) (r' : τ × List Line) : Prop :=
  R r.1 r'.1 ∧ List.Forall₂ Alike r.2 r'.2

theorem readLine_follows {ls ls' : List Line} (h : List.Forall₂ Alike ls ls') :
    Follows (Rest Alike) (readLine stop ls) (readLine stop' ls') := by
  cases h with
  | nil => rintro _ ⟨⟩
  | cons hl hls => exact .ok ⟨hl, hls⟩

theorem expect_follows {l l' : Line} (h : Alike l l') (k : UInt8) (msg : String) (hk : k ≠ 102) :
    Follows (fun _ _ => l = l') (expect l k msg) (expect l' k msg) := by
  rw [expect, expect, ← h.kind]
  split_ifs with hl
  · exact .ok (h.eq_of_kind hl hk)
  · rintro _ ⟨⟩

/-- A loop, if one turn of it follows. -/
theorem readLoop_follows {σ τ : Type} {R : σ → τ → Prop} {again : Line → Bool} {step : σ → Line → Except Quit σ}
    {step' : τ → Line → Except Quit τ} (hagain : ∀ l l', Alike l l' → again l = again l')
    (hstep : ∀ s t l l', R s t → Alike l l' → again l = true → Follows R (step s l) (step' t l')) {ls ls' : List Line}
    (h : List.Forall₂ Alike ls ls') :
    ∀ {s : σ} {t : τ} {l l' : Line}, R s t → Alike l l' →
      Follows (fun r r' => R r.1 r'.1 ∧ Rest Alike r.2 r'.2) (readLoop stop again step s l ls)
        (readLoop stop' again step' t l' ls') := by
  induction h with
  | nil =>
    intro s t l l' hs hl
    rw [readLoop, readLoop, ← hagain l l' hl]
    split_ifs with ha
    · exact (hstep s t l l' hs hl ha).bind fun _ _ _ => by rintro _ ⟨⟩
    · exact .ok ⟨hs, hl, .nil⟩
  | cons h₁ hls ih =>
    intro s t l l' hs hl
    rw [readLoop, readLoop, ← hagain l l' hl]
    split_ifs with ha
    · exact (hstep s t l l' hs hl ha).bind fun _ _ hst => ih hst h₁
    · exact .ok ⟨hs, hl, .cons h₁ hls⟩

theorem readLists_follows {ks : List ListKind} {d : FullDelta} {l l' : Line} {ls ls' : List Line} (hl : Alike l l')
    (h : List.Forall₂ Alike ls ls') :
    Follows (fun r r' => r.1 = r'.1 ∧ Rest Alike r.2 r'.2) (readLists stop ks d l ls) (readLists stop' ks d l' ls') := by
  induction ks generalizing d l l' ls ls' with
  | nil => exact .ok ⟨rfl, hl, h⟩
  | cons k ks ih =>
    rw [readLists, readLists, ← hl.kind]
    split_ifs with hk
    · obtain rfl := hl.eq_of_kind hk (by cases k <;> decide)
      refine Follows.rfl'.bind ?_
      rintro seqs _ rfl
      exact (readLine_follows h).bind fun r r' hr => ih hr.1 hr.2
    · exact ih hl h

theorem readDelta_follows {l : Line} {ls ls' : List Line} (h : List.Forall₂ Alike ls ls') :
    Follows (Rest Eq) (readDelta stop l ls) (readDelta stop' l ls') := by
  refine Follows.rfl'.bind ?_
  rintro idu _ rfl
  refine (readLine_follows h).bind ?_
  rintro ⟨l₁, ls₁⟩ ⟨l₁', ls₁'⟩ ⟨hl₁, h₁⟩
  refine (expect_follows hl₁ 100 _ (by decide)).bind ?_
  rintro _ _ rfl
  refine Follows.rfl'.bind ?_
  rintro _ _ rfl
  refine Follows.rfl'.bind ?_
  rintro d _ rfl
  refine (readLine_follows h₁).bind ?_
  rintro ⟨l₂, ls₂⟩ ⟨l₂', ls₂'⟩ ⟨hl₂, h₂⟩
  refine (readLists_follows hl₂ h₂).bind ?_
  rintro ⟨d₃, l₃, ls₃⟩ ⟨_, l₃', ls₃'⟩ ⟨rfl, hl₃, h₃⟩
  refine (readLoop_follows (R := Eq) (fun l l' hl => by rw [isNote, isNote, hl.kind]) ?_ h₃ rfl hl₃).bind ?_
  · rintro d _ l l' rfl hl hn
    obtain rfl : l = l' := by
      simp only [isNote, Bool.or_eq_true, decide_eq_true_eq] at hn
      exact hn.elim (fun hk => hl.eq_of_kind hk (by decide)) fun hk => hl.eq_of_kind hk (by decide)
    exact .rfl'
  · rintro ⟨d₄, l₄, ls₄⟩ ⟨_, l₄', ls₄'⟩ ⟨rfl, hl₄, h₄⟩
    refine (expect_follows hl₄ 101 _ (by decide)).bind ?_
    rintro _ _ rfl
    refine Follows.rfl'.bind ?_
    rintro _ _ rfl
    exact .ok ⟨rfl, h₄⟩

theorem readDeltas_follows {fuel : ℕ} {T : FullTable} {l l' : Line} {ls ls' : List Line} (hl : Alike l l')
    (h : List.Forall₂ Alike ls ls') :
    Follows (fun r r' => r.1 = r'.1 ∧ Rest Alike r.2 r'.2) (readDeltas stop fuel T l ls)
      (readDeltas stop' fuel T l' ls') := by
  induction fuel generalizing T l l' ls ls' with
  | zero => rintro _ ⟨⟩
  | succ fuel ih =>
    rw [readDeltas, readDeltas, ← hl.kind]
    split_ifs with hk
    · obtain rfl := hl.eq_of_kind hk (by decide)
      refine (readDelta_follows h).bind ?_
      rintro ⟨d, ls₁⟩ ⟨_, ls₁'⟩ ⟨rfl, h₁⟩
      exact (readLine_follows h₁).bind fun r r' hr => ih hr.1 hr.2
    · exact .ok ⟨rfl, hl, h⟩

/-- A flag is accepted with any value. -/
theorem addFlag_follows {fs fs' : List ParsedFlag} {l l' : Line} (h : Alike l l') :
    Follows (fun _ _ => True) (addFlag fs l) (addFlag fs' l') := by
  have hok : ∀ {l : Line} (fs : List ParsedFlag), SaysEncoded l → ∃ b, addFlag fs l = .ok b := by
    intro l fs hl
    obtain ⟨v, hv⟩ := hl.bytes
    simp [addFlag, checkArg, Line.bufchar, hv]
  rcases h with rfl | ⟨-, h'⟩
  · refine Follows.rfl'.bind ?_
    rintro _ _ rfl
    by_cases hc : l.bufchar 3 = 0 ∨ (l.bufchar 4 ≠ 0 ∧ l.bufchar 4 ≠ 32)
    · rw [if_pos hc]
      rintro _ ⟨⟩
    · rw [if_neg hc, if_neg hc]
      exact .ok trivial
  · intro b _
    obtain ⟨b', hb'⟩ := hok fs' h'
    exact ⟨b', hb', trivial⟩

/-- **The header is accepted with another value of the flag.** -/
theorem parseTable_follows {ls ls' : List Line} (h : List.Forall₂ Alike ls ls') :
    Follows (fun _ _ => True) (parseTable stop ls) (parseTable stop' ls') := by
  refine (readLine_follows h).bind ?_
  rintro ⟨l₁, ls₁⟩ ⟨l₁', ls₁'⟩ ⟨hl₁, h₁⟩
  show Follows _ (readDeltas stop (ls₁.length + 1) [] l₁ ls₁ >>= _) (readDeltas stop' (ls₁'.length + 1) [] l₁' ls₁' >>= _)
  rw [← h₁.length_eq]
  refine (readDeltas_follows hl₁ h₁).bind ?_
  rintro ⟨T, l₂, ls₂⟩ ⟨_, l₂', ls₂'⟩ ⟨rfl, hl₂, h₂⟩
  refine (expect_follows hl₂ 117 _ (by decide)).bind ?_
  rintro _ _ rfl
  refine Follows.rfl'.bind ?_
  rintro _ _ rfl
  refine (readLine_follows h₂).bind ?_
  rintro ⟨l₃, ls₃⟩ ⟨l₃', ls₃'⟩ ⟨hl₃, h₃⟩
  refine (readLoop_follows (R := Eq) (fun l l' hl => by rw [hl.kind]) ?_ h₃ rfl hl₃).bind ?_
  · rintro us _ l l' rfl hl -
    exact (expect_follows hl 0 _ (by decide)).bind fun _ _ h => by
      subst h
      exact .rfl'
  rintro ⟨us, l₄, ls₄⟩ ⟨_, l₄', ls₄'⟩ ⟨rfl, hl₄, h₄⟩
  refine (readLine_follows h₄).bind ?_
  rintro ⟨l₅, ls₅⟩ ⟨l₅', ls₅'⟩ ⟨hl₅, h₅⟩
  refine (readLoop_follows (R := fun _ _ => True) (fun l l' hl => by rw [hl.kind])
    (fun _ _ _ _ _ hl _ => addFlag_follows hl) h₅ trivial hl₅).bind ?_
  rintro ⟨fs, l₆, ls₆⟩ ⟨fs', l₆', ls₆'⟩ ⟨-, hl₆, h₆⟩
  refine (expect_follows hl₆ 116 _ (by decide)).bind ?_
  rintro _ _ rfl
  refine (readLine_follows h₆).bind ?_
  rintro ⟨l₇, ls₇⟩ ⟨l₇', ls₇'⟩ ⟨hl₇, h₇⟩
  refine (readLoop_follows (R := Eq) (fun l l' hl => by rw [hl.kind]) ?_ h₇ rfl hl₇).bind ?_
  · rintro cs _ l l' rfl hl hk
    obtain rfl := hl.eq_of_kind (by simpa using hk) (by decide)
    exact .rfl'
  rintro ⟨cs, l₈, ls₈⟩ ⟨_, l₈', ls₈'⟩ ⟨rfl, hl₈, h₈⟩
  exact (expect_follows hl₈ 84 _ (by decide)).bind fun _ _ _ => .ok trivial

end CSSC.Header
